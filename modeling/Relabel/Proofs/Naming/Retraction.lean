import Relabel.Proofs.Mapping.Lookup
import Relabel.Proofs.Naming.ClassNames

/-!
# When translating a name can be undone

A name is translated by the entry that is nearest to it: that of the longest name around it that has one. What
stands behind that name is kept. The way back starts from the image, and nothing makes it stop at the same place.
The image may continue with what is itself a name of the table, since the names of one record can be other
records' names in the other language, and since a nested class can have a record of its own.

Main statement: the way back restores a name exactly if the two entries that are nearest, to the name on the way
there and to its image on the way back, are those of one record, or if there is none on either way. No other
condition is left: names that are nested at any depth, chains of records and records of nested classes are all
covered by it. The names of the records themselves satisfy it in every table with distinct target names.
-/

set_option autoImplicit false

namespace Relabel

namespace ClassNames

/-! ## The names around a name -/

/-- A name is around itself and around the names of the classes nested in its class. -/
def Encloses (outer name : String) : Prop :=
  outer = name ∨ ∃ inner, name = outer ++ "$" ++ inner

theorem Encloses.refl (name : String) : Encloses name name := .inl rfl

theorem encloses_iff_piece {outer name : String} : Encloses outer name ↔ Piece name outer := by
  constructor
  · intro h
    rcases h with rfl | ⟨inner, rfl⟩
    · exact ⟨"", String.append_empty.symm, .inl rfl⟩
    · exact ⟨"$" ++ inner, String.append_assoc, .inr (by simp)⟩
  · intro h
    obtain ⟨rest, rfl, hrest⟩ := h
    rcases hrest with rfl | hrest
    · exact .inl String.append_empty.symm
    · obtain ⟨cs, hcs⟩ := List.head?_eq_some_iff.mp hrest
      refine .inr ⟨String.ofList cs, String.toList_injective ?_⟩
      simp [hcs]

theorem Encloses.length_le {outer name : String} (h : Encloses outer name) : outer.length ≤ name.length := by
  rcases h with rfl | ⟨inner, rfl⟩
  · exact le_refl _
  · rw [String.append_assoc, String.length_append]
    exact Nat.le_add_right _ _

/-- Behind an outer name, the names around the whole include those that end with a piece of what is inside. -/
theorem Piece.encloses {outer inner piece : String} (h : Piece inner piece) :
    Encloses (outer ++ "$" ++ piece) (outer ++ "$" ++ inner) := by
  obtain ⟨rest, rfl, hrest⟩ := h
  exact encloses_iff_piece.mpr ⟨rest, String.append_assoc.symm, hrest⟩

/-- Only a segment itself is around it. -/
theorem encloses_segment {outer name : String} (hname : '$' ∉ name.toList) :
    Encloses outer name ↔ outer = name := by
  constructor
  · intro h
    exact (encloses_iff_piece.mp h).eq hname
  · intro h
    exact .inl h

/-- The names around a nested name are that name and the names around what stands before its last `$`. -/
theorem encloses_nested {outer before last : String} (hlast : '$' ∉ last.toList) :
    Encloses outer (before ++ "$" ++ last) ↔ outer = before ++ "$" ++ last ∨ Encloses outer before := by
  have hcut {before' last' : String} (hlast' : '$' ∉ last'.toList)
      (h : before ++ "$" ++ last = before' ++ "$" ++ last') : before = before' := by
    have hsplit := Text.splitAtLast?_append hlast before
    rw [show before ++ String.singleton '$' ++ last = before' ++ String.singleton '$' ++ last' from h,
      Text.splitAtLast?_append hlast' before'] at hsplit
    exact (Prod.mk.inj (Option.some.inj hsplit)).1.symm
  constructor
  · intro h
    rcases h with h | ⟨inner, h⟩
    · exact .inl h
    · refine .inr ?_
      by_cases hinner : '$' ∈ inner.toList
      · obtain ⟨middle, last', rfl, hlast'⟩ := Text.exists_last hinner
        refine .inr ⟨middle, hcut hlast' ?_⟩
        rw [h]
        simp only [String.append_assoc]
        rfl
      · exact .inl (hcut hinner h).symm
  · intro h
    rcases h with h | rfl | ⟨inner, rfl⟩
    · exact .inl h
    · exact .inr ⟨last, rfl⟩
    · exact .inr ⟨inner ++ "$" ++ last, by simp only [String.append_assoc]⟩

/-- The longest name around a name that has some property. -/
structure Nearest (P : String → Prop) (name outer : String) : Prop where
  encloses : Encloses outer name
  holds : P outer
  longest : ∀ other, Encloses other name → P other → other.length ≤ outer.length

theorem nearest_or_none (P : String → Prop) (name : String) :
    (∃ outer, Nearest P name outer) ∨ ∀ outer, Encloses outer name → ¬P outer := by
  induction name using name_induction with
  | segment name hname =>
    by_cases hp : P name
    · exact .inl ⟨name, .refl name, hp, fun other hother _ => hother.length_le⟩
    · refine .inr fun outer houter => ?_
      rw [(encloses_segment hname).mp houter]
      exact hp
  | nested before last hlast ih =>
    by_cases hp : P (before ++ "$" ++ last)
    · exact .inl ⟨_, .refl _, hp, fun other hother _ => hother.length_le⟩
    · -- The whole name lacks the property, so that the names before its last `$` decide.
      have hrest {outer : String} (houter : Encloses outer (before ++ "$" ++ last)) (h : P outer) :
          Encloses outer before := by
        rcases (encloses_nested hlast).mp houter with rfl | houter
        · exact absurd h hp
        · exact houter
      rcases ih with ⟨outer, hnear⟩ | hnone
      · exact .inl ⟨outer, (encloses_nested hlast).mpr (.inr hnear.encloses), hnear.holds,
          fun other hother h => hnear.longest other (hrest hother h) h⟩
      · exact .inr fun outer houter h => hnone outer (hrest houter h) h

/-! ## The nearest entry decides -/

section

variable {d d' : Dict String}

/-- A name is translated by the entry that is nearest to it, with what stands behind that name put back. -/
theorem translateWith_of_nearest {name outer hit : String} (h : Nearest (fun k => ∃ v, d[k]? = some v) name outer)
    (hhit : d[outer]? = some hit) :
    ∃ rest, name = outer ++ rest ∧ translateWith d name = hit ++ rest ∧ Encloses hit (hit ++ rest) := by
  rcases h.encloses with rfl | ⟨inner, rfl⟩
  · refine ⟨"", String.append_empty.symm, ?_, .inl String.append_empty.symm⟩
    rw [String.append_empty]
    exact translateWith_of_entry hhit
  · refine ⟨"$" ++ inner, String.append_assoc, ?_, .inr ⟨inner, String.append_assoc.symm⟩⟩
    rw [translateWith_nested inner, translateWith_of_entry hhit, String.append_assoc]
    intro piece hpiece
    -- An entry behind the outer name would be nearer.
    by_contra hentry
    have hlonger := h.longest _ hpiece.encloses (Option.ne_none_iff_exists'.mp hentry)
    simp only [String.length_append] at hlonger
    have : "$".length = 1 := rfl
    omega

/-- A name is kept if no name around it has an entry. -/
theorem translateWith_of_none {name : String} (h : ∀ outer, Encloses outer name → ¬∃ v, d[outer]? = some v) :
    translateWith d name = name := by
  have hnone {outer : String} (houter : Encloses outer name) : d[outer]? = none := by
    by_contra hentry
    exact h outer houter (Option.ne_none_iff_exists'.mp hentry)
  clear h
  induction name using name_induction with
  | segment name hname => exact translateWith_segment hname (hnone (.refl name))
  | nested before last hlast ih =>
    have hbefore := ih fun houter => hnone ((encloses_nested hlast).mpr (.inr houter))
    rw [translateWith_of_not_entry hlast (hnone (.refl _)), hbefore]

end

/-! ## There and back -/

/-- Of two names, the nearest ones with a counterpart in the other language are counterparts of each other, or
neither has one around it. -/
def Paired (R : String → String → Prop) (name image : String) : Prop :=
  (∃ a b, R a b ∧ Nearest (fun a => ∃ b, R a b) name a ∧ Nearest (fun b => ∃ a, R a b) image b) ∨
    ((∀ a, Encloses a name → ¬∃ b, R a b) ∧ ∀ b, Encloses b image → ¬∃ a, R a b)

/-- Two dictionaries with the same pairs, read from either side. -/
structure Opposite (R : String → String → Prop) (forth back : Dict String) : Prop where
  forth_iff : ∀ a b, forth[a]? = some b ↔ R a b
  back_iff : ∀ a b, back[b]? = some a ↔ R a b

section

variable {R : String → String → Prop} {forth back : Dict String}

theorem Opposite.flip (h : Opposite R forth back) : Opposite (fun b a => R a b) back forth :=
  ⟨fun b a => h.back_iff a b, fun b a => h.forth_iff a b⟩

/-- What the translation makes of a name whose nearest counterpart is known. -/
theorem Opposite.translate_of_nearest (h : Opposite R forth back) {name a b : String}
    (hnear : Nearest (fun a => ∃ b, R a b) name a) (hab : R a b) :
    ∃ rest, name = a ++ rest ∧ translateWith forth name = b ++ rest ∧ Encloses b (b ++ rest) := by
  simp only [← h.forth_iff] at hnear hab
  exact translateWith_of_nearest hnear hab

theorem Opposite.translate_of_none (h : Opposite R forth back) {name : String}
    (hnone : ∀ a, Encloses a name → ¬∃ b, R a b) : translateWith forth name = name := by
  simp only [← h.forth_iff] at hnone
  exact translateWith_of_none hnone

/-- Two texts with ends of the same length. -/
theorem append_inj_of_length {a a' rest rest' : String} (h : a ++ rest = a' ++ rest')
    (hlength : rest.length = rest'.length) : a = a' ∧ rest = rest' := by
  have hlists : a.toList ++ rest.toList = a'.toList ++ rest'.toList := by
    rw [← String.toList_append, h, String.toList_append]
  obtain ⟨ha, hrest⟩ := List.append_inj' hlists (by rw [String.length_toList, String.length_toList, hlength])
  exact ⟨String.toList_injective ha, String.toList_injective hrest⟩

/-- The way back restores a name exactly if its nearest counterpart and that of its image belong together. -/
theorem Opposite.restores_iff (h : Opposite R forth back) (name : String) :
    translateWith back (translateWith forth name) = name ↔ Paired R name (translateWith forth name) := by
  constructor
  · intro hback
    rcases nearest_or_none (fun a => ∃ b, R a b) name with ⟨a, hnear⟩ | hnone
    · obtain ⟨b, hab⟩ := hnear.holds
      obtain ⟨rest, hname, himage, hb⟩ := h.translate_of_nearest hnear hab
      rw [← himage] at hb
      rcases nearest_or_none (fun b => ∃ a, R a b) (translateWith forth name) with ⟨b', hnear'⟩ | hnone'
      · obtain ⟨a', hab'⟩ := hnear'.holds
        obtain ⟨rest', himage', hname', ha'⟩ := h.flip.translate_of_nearest hnear' hab'
        rw [← hname', hback] at ha'
        rw [hback] at hname'
        -- Neither way stops before the other one, since each would find the other's entry nearer.
        have hle := hnear.longest a' ha' ⟨b', hab'⟩
        have hle' := hnear'.longest b hb ⟨a, hab⟩
        have hlength := congrArg String.length (hname.symm.trans hname')
        have hlength' := congrArg String.length (himage.symm.trans himage')
        simp only [String.length_append] at hlength hlength'
        obtain ⟨rfl, -⟩ := append_inj_of_length (himage.symm.trans himage') (by omega)
        exact .inl ⟨a, b, hab, hnear, hnear'⟩
      · exact absurd ⟨a, hab⟩ (hnone' b hb)
    · have hkept := h.translate_of_none hnone
      rw [hkept] at hback ⊢
      refine .inr ⟨hnone, fun b hb hentry => ?_⟩
      rcases nearest_or_none (fun b => ∃ a, R a b) name with ⟨b', hnear'⟩ | hnone'
      · -- The name would have come from the other counterpart, which is not around it.
        obtain ⟨a', hab'⟩ := hnear'.holds
        obtain ⟨rest', -, hname', ha'⟩ := h.flip.translate_of_nearest hnear' hab'
        rw [← hname', hback] at ha'
        exact hnone a' ha' ⟨b', hab'⟩
      · exact hnone' b hb hentry
  · intro hpaired
    rcases hpaired with ⟨a, b, hab, hnear, hnear'⟩ | ⟨hnone, hnone'⟩
    · obtain ⟨rest, hname, himage, -⟩ := h.translate_of_nearest hnear hab
      obtain ⟨rest', himage', hback, -⟩ := h.flip.translate_of_nearest hnear' hab
      obtain rfl : rest = rest' := (String.append_right_inj b).mp (himage.symm.trans himage')
      rw [hback, ← hname]
    · have hkept := h.translate_of_none hnone
      rw [hkept] at hnone' ⊢
      exact h.flip.translate_of_none hnone'

end

end ClassNames

/-! ## Tables -/

/-- A record with this target name and this source name. -/
def MappingTable.Pairs (t : MappingTable) (target source : String) : Prop :=
  ∃ r, t.find? source = some r ∧ r.name ≠ "" ∧ r.name = target

namespace ClassNames

variable {t : MappingTable}

theorem opposite_ofTable (ht : t.TargetsDistinct) :
    Opposite t.Pairs (ofTable t).toSource (ofTable t).toTarget :=
  ⟨fun _ _ => toSource_eq_some_of_targets ht, fun _ _ => toTarget_eq_some⟩

/-- **The exact condition for the way back.** With distinct target names, a name is restored if and only if the
nearest target name around it and the nearest source name around its image are those of one record, or there is
neither; and the same with the languages exchanged. The two names of a record always restore each other. -/
theorem retracts (ht : t.TargetsDistinct) :
    (∀ name, (ofTable t).unmap ((ofTable t).map name) = name ↔ Paired t.Pairs name ((ofTable t).map name)) ∧
    (∀ name, (ofTable t).map ((ofTable t).unmap name) = name
      ↔ Paired (fun source target => t.Pairs target source) name ((ofTable t).unmap name)) ∧
    ∀ target source, t.Pairs target source →
      (ofTable t).unmap ((ofTable t).map target) = target ∧ (ofTable t).map ((ofTable t).unmap source) = source := by
  have hopposite := opposite_ofTable ht
  refine ⟨hopposite.restores_iff, hopposite.flip.restores_iff, fun target source hpair => ?_⟩
  have hsource : (ofTable t).map target = source := translateWith_of_entry ((hopposite.forth_iff _ _).mpr hpair)
  have htarget : (ofTable t).unmap source = target := translateWith_of_entry ((hopposite.back_iff _ _).mpr hpair)
  rw [hsource, htarget]
  exact ⟨rfl, hsource⟩

/-- The source name of one class is the target name of another, and a class that is nested in it has a record. -/
def nestedChainTable : MappingTable :=
  ((MappingTable.empty.insert "b" (.named "a")).insert "c" (.named "b")).insert "b$x" (.named "z")

/-- Names at several depths in the chain: three that come back, and one that is caught by another record. -/
theorem retracts_nestedChain : nestedChainTable.TargetsDistinct ∧
    Paired nestedChainTable.Pairs "a$y$1" "b$y$1" ∧
    Paired (fun source target => nestedChainTable.Pairs target source) "b$x$1" "z$1" ∧
    ¬Paired nestedChainTable.Pairs "a$x$1" "b$x$1" ∧
    (ofTable nestedChainTable).unmap ((ofTable nestedChainTable).map "b") = "b" := by
  have ht : nestedChainTable.TargetsDistinct := by decide
  obtain ⟨hforth, hback, hnames⟩ := retracts ht
  have hpair : nestedChainTable.Pairs "b" "c" := ⟨.named "b", rfl, by decide, rfl⟩
  exact ⟨ht, (hforth "a$y$1").mp (by decide +kernel), (hback "b$x$1").mp (by decide +kernel),
    fun h => absurd ((hforth "a$x$1").mpr h) (by decide +kernel), (hnames "b" "c" hpair).1⟩

end ClassNames

end Relabel
