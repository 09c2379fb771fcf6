import Relabel.Proofs.Naming.InputRows
import Relabel.Proofs.Naming.Retraction

/-!
# Records with one input name

Nothing keeps the records of a table from calling two classes of the input by one name: two records can have one
target name, and a record without a target name has its source name in the input, which can be the target name of
another one. The last of these records should then hide the others. What is looked up for a name of the input is
its translation and two rows of members, and these are entered one by one, without the empty ones. So a record
hides an earlier one only where it has something to say itself: what it lacks is taken from the record that it
should hide.

Main statement: for every name of the input, all that is looked up comes from the last record with that name if and
only if no other record with that name has what this one lacks. In any case each look-up by itself comes from the
last record that has something to say.
-/

set_option autoImplicit false

namespace Relabel

namespace MappingTable

/-! ## The last of some records -/

/-- The last record of a table with a property, in the order of source names. -/
structure Last (t : MappingTable) (P : String → ClassRecord → Prop) (s : String) (r : ClassRecord) : Prop where
  found : t.find? s = some r
  holds : P s r
  last : ∀ e ∈ t.records, s < e.1 → ¬P e.1 e.2

variable {t : MappingTable} {P : String → ClassRecord → Prop} {s s' o : String} {r r' : ClassRecord}

theorem exists_last (h : ∃ e ∈ t.records, P e.1 e.2) : ∃ s r, t.Last P s r := by
  classical
  obtain ⟨e, he, hp⟩ := h
  have hsorted : (t.records.filter fun e => P e.1 e.2).Pairwise fun e e' => e.1 < e'.1 :=
    (Dict.pairwise_toList _).filter _
  have hmem (e : String × ClassRecord) : e ∈ t.records.filter (fun e => P e.1 e.2) ↔ e ∈ t.records ∧ P e.1 e.2 := by
    rw [List.mem_filter, decide_eq_true_iff]
  rcases List.eq_nil_or_concat (t.records.filter fun e => P e.1 e.2) with hnil | ⟨before, last, hlast⟩
  · have hnone := (hmem e).mpr ⟨he, hp⟩
    rw [hnil] at hnone
    exact absurd hnone List.not_mem_nil
  · rw [List.concat_eq_append] at hlast
    rw [hlast] at hsorted hmem
    have hbefore := (List.pairwise_append.mp hsorted).2.2
    obtain ⟨hrecord, hholds⟩ := (hmem last).mp (List.mem_append_right _ (List.mem_singleton_self last))
    refine ⟨last.1, last.2, mem_records.mp hrecord, hholds, fun e' he' hlater hp' => ?_⟩
    rcases List.mem_append.mp ((hmem e').mpr ⟨he', hp'⟩) with hin | hin
    · exact String.lt_asymm hlater (hbefore e' hin last (List.mem_singleton_self last))
    · rw [List.mem_singleton.mp hin] at hlater
      exact String.lt_irrefl _ hlater

theorem Last.unique (h : t.Last P s r) (h' : t.Last P s' r') : s = s' ∧ r = r' := by
  have hnot : ¬s < s' := fun hlt => h.last (s', r') (mem_records.mpr h'.found) hlt h'.holds
  have hnot' : ¬s' < s := fun hlt => h'.last (s, r) (mem_records.mpr h.found) hlt h.holds
  obtain rfl : s = s' := le_antisymm (not_lt.mp hnot') (not_lt.mp hnot)
  exact ⟨rfl, Option.some.inj (h.found.symm.trans h'.found)⟩

/-- The last record with a property is the last one with a narrower property if it has that one. -/
theorem Last.narrow {Q : String → ClassRecord → Prop} (h : t.Last P s r) (hq : Q s r)
    (hqp : ∀ s r, Q s r → P s r) : t.Last Q s r :=
  ⟨h.found, hq, fun e he hlater hqe => h.last e he hlater (hqp e.1 e.2 hqe)⟩

/-! ## What a record says about a name of the input -/

/-- The record of a class that the input calls `o`. -/
def Calls (o s : String) (r : ClassRecord) : Prop := r.inputName s = o

/-- The record that translates `o`. -/
def Renames (o : String) (_ : String) (r : ClassRecord) : Prop := r.name ≠ "" ∧ r.name = o

/-- The record that renames members of a class that the input calls `o`. -/
def HasRow (kind : MemberKind) (o s : String) (r : ClassRecord) : Prop := Calls o s r ∧ r.row? kind ≠ none

instance (o s : String) (r : ClassRecord) : Decidable (Calls o s r) := inferInstanceAs (Decidable (_ = _))

instance (o s : String) (r : ClassRecord) : Decidable (Renames o s r) := inferInstanceAs (Decidable (_ ∧ _))

instance (kind : MemberKind) (o s : String) (r : ClassRecord) : Decidable (HasRow kind o s r) :=
  inferInstanceAs (Decidable (_ ∧ _ ≠ none))

/-- A name of the input that some record translates. -/
def Translated (t : MappingTable) (o : String) : Prop := ∃ e ∈ t.records, Renames o e.1 e.2

theorem Renames.calls (h : Renames o s r) : Calls o s r := (ClassRecord.inputName_of_named h.1).trans h.2

theorem Calls.renames (h : Calls o s r) (hname : r.name ≠ "") : Renames o s r :=
  ⟨hname, (ClassRecord.inputName_of_named hname).symm.trans h⟩

theorem Calls.source_eq (h : Calls o s r) (hname : r.name = "") : s = o :=
  (ClassRecord.inputName_of_unnamed hname).symm.trans h

theorem toSource_eq_some_iff_last :
    (ClassNames.ofTable t).toSource[o]? = some s ↔ ∃ r, t.Last (Renames o) s r := by
  have hsorted : (ClassNames.renamedRecords t).Pairwise fun e e' => e.1 < e'.1 := (Dict.pairwise_toList _).filter _
  rw [ClassNames.toSource_ofTable, Dict.getElem?_ofEntries_of_pairwise hsorted fun _ _ => String.lt_asymm]
  constructor
  · intro h
    obtain ⟨e, he, hentry, hlast⟩ := h
    obtain ⟨hname, rfl⟩ := Prod.mk.inj hentry
    obtain ⟨hfind, hne⟩ := ClassNames.mem_renamedRecords.mp he
    refine ⟨e.2, hfind, ⟨hne, hname⟩, fun e' he' hlater hrenames => ?_⟩
    exact hlast e' (ClassNames.mem_renamedRecords.mpr ⟨mem_records.mp he', hrenames.1⟩) hlater hrenames.2
  · intro h
    obtain ⟨r, hr⟩ := h
    refine ⟨(s, r), ClassNames.mem_renamedRecords.mpr ⟨hr.found, hr.holds.1⟩, Prod.ext hr.holds.2 rfl, ?_⟩
    intro e he hlater hname
    obtain ⟨hfind, hne⟩ := ClassNames.mem_renamedRecords.mp he
    exact hr.last e (mem_records.mpr hfind) hlater ⟨hne, hname⟩

theorem exists_toSource_iff : (∃ s, (ClassNames.ofTable t).toSource[o]? = some s) ↔ t.Translated o := by
  constructor
  · intro h
    obtain ⟨s, hs⟩ := h
    obtain ⟨r, hr⟩ := toSource_eq_some_iff_last.mp hs
    exact ⟨(s, r), mem_records.mpr hr.found, hr.holds⟩
  · intro h
    obtain ⟨s, r, hr⟩ := exists_last h
    exact ⟨s, toSource_eq_some_iff_last.mpr ⟨r, hr⟩⟩

theorem rows_eq_some_iff_last {kind : MemberKind} {row : MemberRow} :
    ((Renaming.ofTable t).rows kind)[o]? = some row
      ↔ ∃ s r, t.Last (HasRow kind o) s r ∧ r.row? kind = some row := by
  rw [Renaming.rows_eq_some]
  constructor
  · intro h
    obtain ⟨s, r, hfind, hcalls, hrow, hlast⟩ := h
    refine ⟨s, r, ⟨hfind, ⟨hcalls, by simp [hrow]⟩, fun e he hlater hhas => ?_⟩, hrow⟩
    exact hhas.2 (hlast e.1 e.2 (mem_records.mp he) hhas.1 hlater)
  · intro h
    obtain ⟨s, r, hr, hrow⟩ := h
    refine ⟨s, r, hr.found, hr.holds.1, hrow, fun s' r' hfind hcalls hlater => ?_⟩
    by_contra hne
    exact hr.last (s', r') (mem_records.mpr hfind) hlater ⟨hcalls, hne⟩

theorem rows_eq_none_iff {kind : MemberKind} : ((Renaming.ofTable t).rows kind)[o]? = none
    ↔ ∀ e ∈ t.records, Calls o e.1 e.2 → e.2.row? kind = none := by
  constructor
  · intro hnone e he hcalls
    by_contra hrow
    obtain ⟨s, r, hr⟩ := exists_last (P := HasRow kind o) ⟨e, he, hcalls, hrow⟩
    obtain ⟨row, hrow⟩ := Option.ne_none_iff_exists'.mp hr.holds.2
    rw [rows_eq_some_iff_last.mpr ⟨s, r, hr, hrow⟩] at hnone
    cases hnone
  · intro h
    by_contra hne
    obtain ⟨row, hrow⟩ := Option.ne_none_iff_exists'.mp hne
    obtain ⟨s, r, hr, -⟩ := rows_eq_some_iff_last.mp hrow
    exact hr.holds.2 (h (s, r) (mem_records.mpr hr.found) hr.holds.1)

/-! ## One record or several -/

/-- All that is looked up for the name `o` of the input is what one record says: the name is translated to the
source name of the record, or kept if the record has no target name and no class around the name is translated,
and the rows are those of the record. -/
structure AllFrom (t : MappingTable) (o s : String) (r : ClassRecord) : Prop where
  renamed : r.name ≠ "" → (ClassNames.ofTable t).map o = s
  kept : r.name = "" → (∀ outer, ClassNames.Encloses outer o → outer ≠ o → ¬t.Translated outer) →
    (ClassNames.ofTable t).map o = o
  rows : ∀ kind, ((Renaming.ofTable t).rows kind)[o]? = r.row? kind

/-- A record with the input name `o` lacks nothing that another record with this name has: a translation, or a row. -/
structure Covers (t : MappingTable) (o : String) (r : ClassRecord) : Prop where
  names : r.name = "" → (∀ outer, ClassNames.Encloses outer o → outer ≠ o → ¬t.Translated outer) → ¬t.Translated o
  rows : ∀ kind, r.row? kind = none → ∀ e ∈ t.records, Calls o e.1 e.2 → e.2.row? kind = none

/-- Each look-up by itself is what the last record says that has something to say. -/
structure EachFrom (t : MappingTable) (o : String) : Prop where
  renamed : ∀ outer rest s r, ClassNames.Nearest t.Translated o outer → o = outer ++ rest →
    t.Last (Renames outer) s r → (ClassNames.ofTable t).map o = s ++ rest
  kept : (∀ outer, ClassNames.Encloses outer o → ¬t.Translated outer) → (ClassNames.ofTable t).map o = o
  rows : ∀ kind row, ((Renaming.ofTable t).rows kind)[o]? = some row
    ↔ ∃ s r, t.Last (HasRow kind o) s r ∧ r.row? kind = some row

theorem map_of_last (h : t.Last (Renames o) s r) : (ClassNames.ofTable t).map o = s :=
  ClassNames.translateWith_of_entry (toSource_eq_some_iff_last.mpr ⟨r, h⟩)

theorem map_of_untranslated (h : ∀ outer, ClassNames.Encloses outer o → ¬t.Translated outer) :
    (ClassNames.ofTable t).map o = o :=
  ClassNames.translateWith_of_none fun outer houter hentry => h outer houter (exists_toSource_iff.mp hentry)

theorem eachFrom (t : MappingTable) (o : String) : t.EachFrom o := by
  refine ⟨fun outer rest s r hnear ho hlast => ?_, map_of_untranslated, fun _ _ => rows_eq_some_iff_last⟩
  have htranslated : t.Translated = fun k => ∃ v, (ClassNames.ofTable t).toSource[k]? = some v :=
    funext fun _ => propext exists_toSource_iff.symm
  rw [htranslated] at hnear
  obtain ⟨rest', ho', himage, -⟩ :=
    ClassNames.translateWith_of_nearest hnear (toSource_eq_some_iff_last.mpr ⟨r, hlast⟩)
  obtain rfl : rest = rest' := (String.append_right_inj outer).mp (ho.symm.trans ho')
  exact himage

variable (hlast : t.Last (Calls o) s r)

include hlast

/-- A record without a target name is not replaced by its own class, which another record then translates. -/
theorem map_ne_of_translated (hname : r.name = "") (h : t.Translated o) : (ClassNames.ofTable t).map o ≠ o := by
  intro hkept
  obtain ⟨s', r', hr'⟩ := exists_last h
  rw [map_of_last hr'] at hkept
  have hfind := hlast.found
  rw [hlast.holds.source_eq hname, ← hkept, hr'.found] at hfind
  obtain rfl := Option.some.inj hfind
  exact hr'.holds.1 hname

theorem covers_of_allFrom (h : t.AllFrom o s r) : t.Covers o r where
  names hname hunnested htranslated := map_ne_of_translated hlast hname htranslated (h.kept hname hunnested)
  rows kind hrow := rows_eq_none_iff.mp ((h.rows kind).trans hrow)

theorem allFrom_of_covers (h : t.Covers o r) : t.AllFrom o s r where
  renamed hname := map_of_last (hlast.narrow (hlast.holds.renames hname) fun _ _ => Renames.calls)
  kept hname hunnested := by
    refine map_of_untranslated fun outer houter => ?_
    by_cases hsame : outer = o
    · rw [hsame]
      exact h.names hname hunnested
    · exact hunnested outer houter hsame
  rows kind := by
    cases hrow : r.row? kind with
    | none => exact rows_eq_none_iff.mpr (h.rows kind hrow)
    | some row =>
      have hhas : HasRow kind o s r := ⟨hlast.holds, by simp [hrow]⟩
      exact rows_eq_some_iff_last.mpr ⟨s, r, hlast.narrow hhas fun _ _ => And.left, hrow⟩

omit hlast

/-- **When the last record hides the others.** For the input name of any record there is a last record with this
name. All that is looked up for the name comes from it exactly if no other record with the name has what it lacks,
and otherwise each look-up comes from the last record that has something to say. -/
theorem allFrom_iff_covers (hr : t.find? s = some r) (ho : r.inputName s = o) :
    ∃ s' r', t.Last (Calls o) s' r' ∧ (t.AllFrom o s' r' ↔ t.Covers o r') ∧ t.EachFrom o := by
  obtain ⟨s', r', hlast⟩ := exists_last (P := Calls o) ⟨(s, r), mem_records.mpr hr, ho⟩
  exact ⟨s', r', hlast, ⟨covers_of_allFrom hlast, allFrom_of_covers hlast⟩, eachFrom t o⟩

/-- Two records with the target name `a`, of which the last one renames no members, and a record without a target
name for a class that another record translates. -/
def twiceTable : MappingTable :=
  (((MappingTable.empty.insert "A" ((ClassRecord.named "a").withMethod "m" "()V" "run")).insert "B" (.named "a")).insert
    "C" (.named "d")).insert "d" (ClassRecord.blank.withMethod "m" "()V" "walk")

/-- The class `a` is translated by its last record and has the members of the first, and with `d` it is the other
way round. -/
theorem allFrom_iff_covers_twice :
    twiceTable.Last (Calls "a") "B" (.named "a") ∧ (ClassNames.ofTable twiceTable).map "a" = "B" ∧
    ((Renaming.ofTable twiceTable).rows .method)["a"]? = some ((∅ : MemberRow).insert "m()V" "run") ∧
    ¬twiceTable.AllFrom "a" "B" (.named "a") ∧
    twiceTable.Last (Calls "d") "d" (ClassRecord.blank.withMethod "m" "()V" "walk") ∧
    (ClassNames.ofTable twiceTable).map "d" = "C" ∧
    ((Renaming.ofTable twiceTable).rows .method)["d"]? = some ((∅ : MemberRow).insert "m()V" "walk") ∧
    ¬twiceTable.AllFrom "d" "d" (ClassRecord.blank.withMethod "m" "()V" "walk") := by
  have hA : ("A", (ClassRecord.named "a").withMethod "m" "()V" "run") ∈ twiceTable.records := mem_records.mpr rfl
  have hC : ("C", ClassRecord.named "d") ∈ twiceTable.records := mem_records.mpr rfl
  have hlastB : twiceTable.Last (Calls "a") "B" (.named "a") := ⟨rfl, rfl, by decide⟩
  have hlastd : twiceTable.Last (Calls "d") "d" (ClassRecord.blank.withMethod "m" "()V" "walk") :=
    ⟨rfl, rfl, by decide⟩
  have hself {o s : String} {r : ClassRecord} (hlast : twiceTable.Last (Renames o) s r) :
      ClassNames.Nearest twiceTable.Translated o o :=
    ⟨.refl o, ⟨(s, r), mem_records.mpr hlast.found, hlast.holds⟩, fun _ hother _ => hother.length_le⟩
  -- The last record of `a` has no row, so that the row of the first one is found.
  obtain ⟨s, r, hlast, hiff, heach⟩ := allFrom_iff_covers hlastB.found hlastB.holds
  obtain ⟨rfl, rfl⟩ := hlast.unique hlastB
  have hB : twiceTable.Last (Renames "a") "B" (.named "a") :=
    hlastB.narrow (hlastB.holds.renames (by decide)) fun _ _ => Renames.calls
  have hrowA : twiceTable.Last (HasRow .method "a") "A" ((ClassRecord.named "a").withMethod "m" "()V" "run") :=
    ⟨rfl, ⟨rfl, nofun⟩, by decide⟩
  have hnotB : ¬twiceTable.Covers "a" (.named "a") := fun h => by
    have hnone := h.rows .method rfl _ hA rfl
    cases hnone
  -- The last record of `d` has no target name, so that the translation of the first one is found.
  obtain ⟨s, r, hlast, hiffd, heachd⟩ := allFrom_iff_covers hlastd.found hlastd.holds
  obtain ⟨rfl, rfl⟩ := hlast.unique hlastd
  have hlastC : twiceTable.Last (Renames "d") "C" (.named "d") := ⟨rfl, ⟨by decide, rfl⟩, by decide⟩
  have hrowd : twiceTable.Last (HasRow .method "d") "d" (ClassRecord.blank.withMethod "m" "()V" "walk") :=
    hlastd.narrow ⟨rfl, nofun⟩ fun _ _ => And.left
  have hnotd : ¬twiceTable.Covers "d" (ClassRecord.blank.withMethod "m" "()V" "walk") := fun h =>
    h.names rfl (fun outer houter hne => absurd ((ClassNames.encloses_segment (by decide)).mp houter) hne)
      ⟨_, hC, by decide, rfl⟩
  exact ⟨hlastB, heach.renamed "a" "" "B" _ (hself hB) rfl hB, (heach.rows .method _).mpr ⟨_, _, hrowA, rfl⟩,
    fun h => hnotB (hiff.mp h), hlastd, heachd.renamed "d" "" "C" _ (hself hlastC) rfl hlastC,
    (heachd.rows .method _).mpr ⟨_, _, hrowd, rfl⟩, fun h => hnotd (hiffd.mp h)⟩

end MappingTable

end Relabel
