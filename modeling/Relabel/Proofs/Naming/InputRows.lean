import Relabel.Proofs.Mapping.Lookup

/-!
# Which row a class of the input has

Rows of members are entered under the input name of a record: its target name, or its source name if it has
none. The name that the input gives to a class is the translation of its source name, and the two differ for a
class without a target name whose outer class is renamed. Such a class has *moved*. Its row stays behind under
its source name, where no class with the translated name finds it, and where another class with that target
name finds it instead. Every other row is where the class is, and changes of access, which are looked up by
source names, are found for all classes.

Main statement: the row that is found under the name in the input, for every record of a table in which these
names are distinct.
-/

set_option autoImplicit false

namespace Relabel

/-- The row of a record for members of one kind, unless it is empty. -/
def ClassRecord.row? (r : ClassRecord) (kind : MemberKind) : Option MemberRow :=
  if (r.members kind).isEmpty then none else some (r.members kind)

theorem ClassRecord.row?_eq_some {r : ClassRecord} {kind : MemberKind} {row : MemberRow} :
    r.row? kind = some row ↔ r.members kind = row ∧ (r.members kind).isEmpty = false := by
  rw [row?]
  cases (r.members kind).isEmpty <;> simp

namespace MappingTable

/-- The name by which the input calls the class with a source name. -/
def inputOf (t : MappingTable) (s : String) : String := (ClassNames.ofTable t).unmap s

/-- A class without a target name that has another name in the input: it follows the class around it. -/
def Moved (t : MappingTable) (s : String) (r : ClassRecord) : Prop := r.name = "" ∧ t.inputOf s ≠ s

instance (t : MappingTable) (s : String) (r : ClassRecord) : Decidable (t.Moved s r) :=
  inferInstanceAs (Decidable (_ ∧ _))

/-- No two source names are translated to one name. -/
def TranslationsDistinct (t : MappingTable) : Prop :=
  ∀ e ∈ t.records, ∀ e' ∈ t.records, t.inputOf e.1 = t.inputOf e'.1 → e.1 = e'.1

instance (t : MappingTable) : Decidable t.TranslationsDistinct :=
  inferInstanceAs (Decidable (∀ e ∈ t.records, ∀ e' ∈ t.records, _ → _))

variable {t : MappingTable} {s : String} {r : ClassRecord}

theorem inputName_of_moved (h : t.Moved s r) : r.inputName s = s := ClassRecord.inputName_of_unnamed h.1

theorem inputName_of_not_moved (hr : t.find? s = some r) (h : ¬t.Moved s r) : r.inputName s = t.inputOf s := by
  by_cases hname : r.name = ""
  · rw [ClassRecord.inputName_of_unnamed hname]
    by_contra hne
    exact h ⟨hname, Ne.symm hne⟩
  · rw [ClassRecord.inputName_of_named hname]
    exact (ClassNames.translateWith_of_entry
      (ClassNames.toTarget_eq_some.mpr ⟨r, hr, hname, rfl⟩)).symm

end MappingTable

namespace Renaming

open MappingTable

variable {t : MappingTable} {kind : MemberKind} {owner s s' : String} {row : MemberRow} {r r' : ClassRecord}

/-- **The last record counts** among those with one input name and a row. -/
theorem rows_eq_some : ((ofTable t).rows kind)[owner]? = some row ↔
    ∃ s r, t.find? s = some r ∧ r.inputName s = owner ∧ r.row? kind = some row ∧
      ∀ s' r', t.find? s' = some r' → r'.inputName s' = owner → s < s' → r'.row? kind = none := by
  have hmem (s : String) (r : ClassRecord) :
      (s, r) ∈ recordsWith t kind ↔ t.find? s = some r ∧ (r.members kind).isEmpty = false := by
    rw [recordsWith, List.mem_filter, mem_records, Bool.not_eq_true']
  have hsorted : (recordsWith t kind).Pairwise fun e e' => e.1 < e'.1 := (Dict.pairwise_toList _).filter _
  rw [rows_ofTable, Dict.getElem?_ofEntries_of_pairwise hsorted fun _ _ => String.lt_asymm]
  constructor
  · intro h
    obtain ⟨⟨s, r⟩, he, hentry, hlast⟩ := h
    obtain ⟨hinput, hrow⟩ := Prod.mk.inj hentry
    obtain ⟨hfind, hne⟩ := (hmem s r).mp he
    refine ⟨s, r, hfind, hinput, ClassRecord.row?_eq_some.mpr ⟨hrow, hne⟩, ?_⟩
    intro s' r' hfind' hinput' hlater
    by_contra hrow'
    obtain ⟨row', hrow'⟩ := Option.ne_none_iff_exists'.mp hrow'
    have he' := (hmem s' r').mpr ⟨hfind', (ClassRecord.row?_eq_some.mp hrow').2⟩
    exact hlast _ he' hlater hinput'
  · intro h
    obtain ⟨s, r, hfind, hinput, hrow, hlast⟩ := h
    obtain ⟨hmembers, hne⟩ := ClassRecord.row?_eq_some.mp hrow
    refine ⟨(s, r), (hmem s r).mpr ⟨hfind, hne⟩, Prod.ext hinput hmembers, fun e he hlater hinput' => ?_⟩
    obtain ⟨hfind', hne'⟩ := (hmem e.1 e.2).mp he
    have hnone := hlast e.1 e.2 hfind' hinput' hlater
    rw [ClassRecord.row?_eq_some.mpr ⟨rfl, hne'⟩] at hnone
    cases hnone

/-- An input name that no record has. -/
theorem rows_eq_none (h : ∀ s r, t.find? s = some r → r.inputName s ≠ owner) :
    ((ofTable t).rows kind)[owner]? = none := by
  by_contra hne
  obtain ⟨row, hrow⟩ := Option.ne_none_iff_exists'.mp hne
  obtain ⟨s, r, hfind, hinput, -⟩ := rows_eq_some.mp hrow
  exact h s r hfind hinput

/-- An input name that one record has. -/
theorem rows_of_one (hr : t.find? s = some r) (hinput : r.inputName s = owner)
    (h : ∀ s' r', t.find? s' = some r' → r'.inputName s' = owner → s' = s) :
    ((ofTable t).rows kind)[owner]? = r.row? kind := by
  refine Option.ext fun row => rows_eq_some.trans ⟨fun hrow => ?_, fun hrow => ?_⟩
  · obtain ⟨s₁, r₁, hfind, hinput₁, hrow, -⟩ := hrow
    obtain rfl := h s₁ r₁ hfind hinput₁
    rw [Option.some.inj (hr.symm.trans hfind)]
    exact hrow
  · refine ⟨s, r, hr, hinput, hrow, fun s' r' hfind hinput' hlater => ?_⟩
    rw [h s' r' hfind hinput'] at hlater
    exact absurd hlater (String.lt_irrefl s)

/-- An input name that two records have: the later one counts if it has a row. -/
theorem rows_of_two (hr : t.find? s = some r) (hr' : t.find? s' = some r') (hlt : s < s')
    (hinput : r.inputName s = owner) (hinput' : r'.inputName s' = owner)
    (h : ∀ s₁ r₁, t.find? s₁ = some r₁ → r₁.inputName s₁ = owner → s₁ = s ∨ s₁ = s') :
    ((ofTable t).rows kind)[owner]? = (r'.row? kind).or (r.row? kind) := by
  refine Option.ext fun row => rows_eq_some.trans ⟨fun hrow => ?_, fun hrow => ?_⟩
  · obtain ⟨s₁, r₁, hfind, hinput₁, hrow, hlast⟩ := hrow
    rcases h s₁ r₁ hfind hinput₁ with rfl | rfl
    · rw [hlast s' r' hr' hinput' hlt, Option.none_or, Option.some.inj (hr.symm.trans hfind)]
      exact hrow
    · rw [Option.some.inj (hr'.symm.trans hfind), hrow, Option.some_or]
  · cases hrow' : r'.row? kind with
    | some row' =>
      rw [hrow', Option.some_or] at hrow
      refine ⟨s', r', hr', hinput', hrow'.trans hrow, fun s₁ r₁ hfind hinput₁ hlater => ?_⟩
      rcases h s₁ r₁ hfind hinput₁ with rfl | rfl
      · exact absurd hlater (String.lt_asymm hlt)
      · exact absurd hlater (String.lt_irrefl s₁)
    | none =>
      rw [hrow', Option.none_or] at hrow
      refine ⟨s, r, hr, hinput, hrow, fun s₁ r₁ hfind hinput₁ hlater => ?_⟩
      rcases h s₁ r₁ hfind hinput₁ with rfl | rfl
      · exact absurd hlater (String.lt_irrefl s₁)
      · rw [← Option.some.inj (hr'.symm.trans hfind)]
        exact hrow'

theorem access_ofTable (t : MappingTable) : (ofTable t).access
    = Dict.ofEntries ((t.records.filter fun e => !e.2.access.isEmpty).map fun e => (e.1, e.2.access)) := by
  rw [Dict.ofEntries, List.foldl_map, List.foldl_filter, ofTable]
  refine (List.foldl_hom Renaming.access fun n e => ?_).symm
  by_cases hempty : e.2.access.isEmpty = true <;> simp [enter, hempty]

/-- Changes of access are found under the source name of their record. -/
theorem accessRow?_eq (hr : t.find? s = some r) :
    (ofTable t).accessRow? s = if r.access.isEmpty then none else some r.access := by
  have hmem (e : String × ClassRecord) : e ∈ t.records.filter (fun e => !e.2.access.isEmpty)
      ↔ t.find? e.1 = some e.2 ∧ e.2.access.isEmpty = false := by
    rw [List.mem_filter, mem_records, Bool.not_eq_true']
  refine Option.ext fun row => ?_
  rw [accessRow?, access_ofTable, Dict.getElem?_ofEntries_map]
  · constructor
    · intro h
      obtain ⟨e, he, hentry⟩ := h
      obtain ⟨rfl, rfl⟩ := Prod.mk.inj hentry
      obtain ⟨hfind, hne⟩ := (hmem e).mp he
      rw [Option.some.inj (hr.symm.trans hfind), hne, if_neg Bool.false_ne_true]
    · intro h
      split at h
      · cases h
      · next hne =>
        obtain rfl := Option.some.inj h
        exact ⟨(s, r), (hmem (s, r)).mpr ⟨hr, Bool.eq_false_iff.mpr hne⟩, rfl⟩
  · intro e he e' he' hsource
    have hfind := ((hmem e).mp he).1
    have hsource : e.1 = e'.1 := hsource
    rw [hsource, ((hmem e').mp he').1] at hfind
    exact congrArg ClassRecord.access (Option.some.inj hfind).symm

/-- Which records have the input name that the class of a record has: the record itself unless its class has
moved, and the record that has this name as its source name if the class of that one has moved. -/
theorem of_inputName_eq (ht : t.TranslationsDistinct) (hr : t.find? s = some r) (hr' : t.find? s' = some r')
    (h : r'.inputName s' = t.inputOf s) :
    s' = s ∧ ¬t.Moved s r ∨ s' = t.inputOf s ∧ t.Moved s' r' := by
  by_cases hmoved : t.Moved s' r'
  · rw [inputName_of_moved hmoved] at h
    exact .inr ⟨h, hmoved⟩
  · rw [inputName_of_not_moved hr' hmoved] at h
    obtain rfl := ht (s', r') (mem_records.mpr hr') (s, r) (mem_records.mpr hr) h
    rw [Option.some.inj (hr.symm.trans hr')]
    exact .inl ⟨rfl, hmoved⟩

/-- Where no class that has moved left its row, the class has its own row or, having moved itself, none. -/
theorem rows_inputOf_of_stays (ht : t.TranslationsDistinct) (hr : t.find? s = some r)
    (h : ∀ r', t.find? (t.inputOf s) = some r' → ¬t.Moved (t.inputOf s) r') :
    ((ofTable t).rows kind)[t.inputOf s]? = if t.Moved s r then none else r.row? kind := by
  split
  · next hmoved =>
    refine rows_eq_none fun s₁ r₁ hfind hinput => ?_
    rcases of_inputName_eq ht hr hfind hinput with ⟨-, hnot⟩ | ⟨rfl, hmoved₁⟩
    · exact hnot hmoved
    · exact h r₁ hfind hmoved₁
  · next hmoved =>
    refine rows_of_one hr (inputName_of_not_moved hr hmoved) fun s₁ r₁ hfind hinput => ?_
    rcases of_inputName_eq ht hr hfind hinput with ⟨hsame, -⟩ | ⟨rfl, hmoved₁⟩
    · exact hsame
    · exact absurd hmoved₁ (h r₁ hfind)

/-- Where a class that has moved left its row, that row competes with the row of the class. -/
theorem rows_inputOf_of_moved (ht : t.TranslationsDistinct) (hr : t.find? s = some r)
    (hr' : t.find? (t.inputOf s) = some r') (h : t.Moved (t.inputOf s) r') :
    ((ofTable t).rows kind)[t.inputOf s]? =
      if t.Moved s r then r'.row? kind
      else if s < t.inputOf s then (r'.row? kind).or (r.row? kind)
      else (r.row? kind).or (r'.row? kind) := by
  have hinput' : r'.inputName (t.inputOf s) = t.inputOf s := inputName_of_moved h
  split
  · next hmoved =>
    refine rows_of_one hr' hinput' fun s₁ r₁ hfind hinput => ?_
    rcases of_inputName_eq ht hr hfind hinput with ⟨-, hnot⟩ | ⟨hsame, -⟩
    · exact absurd hmoved hnot
    · exact hsame
  · next hmoved =>
    have hinput := inputName_of_not_moved hr hmoved
    have hpair (s₁ : String) (r₁ : ClassRecord) (hfind : t.find? s₁ = some r₁)
        (hinput₁ : r₁.inputName s₁ = t.inputOf s) : s₁ = s ∨ s₁ = t.inputOf s :=
      (of_inputName_eq ht hr hfind hinput₁).imp And.left And.left
    split
    · next hlt => exact rows_of_two hr hr' hlt hinput hinput' hpair
    · next hlt =>
      -- The two source names differ, since only one of the two classes has moved.
      have hne : s ≠ t.inputOf s := by
        intro hsame
        rw [← hsame] at hr' h
        rw [Option.some.inj (hr'.symm.trans hr)] at h
        exact hmoved h
      have hgt : t.inputOf s < s := Std.lt_of_le_of_ne hlt (Ne.symm hne)
      exact rows_of_two hr' hr hgt hinput' hinput fun s₁ r₁ hfind hinput₁ => (hpair s₁ r₁ hfind hinput₁).symm

/-- **The row of a class of the input.** The class of a record has the row of the record unless it has moved,
and a class that has moved leaves its row behind for the class that now has its name. -/
theorem rows_inputOf (ht : t.TranslationsDistinct) (hr : t.find? s = some r) (kind : MemberKind) :
    ((∀ r', t.find? (t.inputOf s) = some r' → ¬t.Moved (t.inputOf s) r') →
      ((ofTable t).rows kind)[t.inputOf s]? = if t.Moved s r then none else r.row? kind) ∧
    (∀ r', t.find? (t.inputOf s) = some r' → t.Moved (t.inputOf s) r' →
      ((ofTable t).rows kind)[t.inputOf s]? =
        if t.Moved s r then r'.row? kind
        else if s < t.inputOf s then (r'.row? kind).or (r.row? kind)
        else (r.row? kind).or (r'.row? kind)) ∧
    (ofTable t).accessRow? s = if r.access.isEmpty then none else some r.access :=
  ⟨rows_inputOf_of_stays ht hr, fun _ hr' hmoved => rows_inputOf_of_moved ht hr hr' hmoved,
    accessRow?_eq hr⟩

/-! ## A sample -/

/-- A record without a target name for a class nested in `Outer`. -/
def innerRecord : ClassRecord := (ClassRecord.blank.withMethod "m" "()V" "run").withAccess "" ⟨.ofAll, false⟩

/-- The nested class moves along with `Outer`, and another class has its source name in the input. -/
def movedTable : MappingTable :=
  ((MappingTable.empty.insert "Outer" (.named "a")).insert "Outer$Inner" innerRecord).insert "Z" (.named "Outer$Inner")

/-- The row of the class that has moved is lost for it and found by the other class, while its change of access
is found. -/
theorem rows_inputOf_moved :
    movedTable.TranslationsDistinct ∧ movedTable.find? "Outer$Inner" = some innerRecord ∧
    movedTable.inputOf "Outer$Inner" = "a$Inner" ∧
    innerRecord.row? .method = some innerRecord.methods ∧
    ((ofTable movedTable).rows .method)["a$Inner"]? = none ∧
    (ofTable movedTable).accessRow? "Outer$Inner" = some innerRecord.access ∧
    movedTable.find? "Z" = some (.named "Outer$Inner") ∧
    ((ofTable movedTable).rows .method)["Outer$Inner"]? = some innerRecord.methods := by
  have hdistinct : movedTable.TranslationsDistinct := by decide +kernel
  have hfind : movedTable.find? "Outer$Inner" = some innerRecord := rfl
  have hfindZ : movedTable.find? "Z" = some (.named "Outer$Inner") := rfl
  have hinput : movedTable.inputOf "Outer$Inner" = "a$Inner" := by decide +kernel
  have hinputZ : movedTable.inputOf "Z" = "Outer$Inner" := by decide +kernel
  have hmoved : movedTable.Moved "Outer$Inner" innerRecord := by decide +kernel
  have hmovedZ : ¬movedTable.Moved "Z" (.named "Outer$Inner") := by decide +kernel
  obtain ⟨hlost, -, haccess⟩ := rows_inputOf hdistinct hfind .method
  obtain ⟨-, hgained, -⟩ := rows_inputOf hdistinct hfindZ .method
  rw [hinput, if_pos hmoved] at hlost
  rw [hinputZ] at hgained
  have hgained := hgained innerRecord hfind hmoved
  rw [if_neg hmovedZ, if_neg (by decide)] at hgained
  refine ⟨hdistinct, hfind, hinput, rfl, hlost fun r' hr' => ?_, haccess, hfindZ, hgained⟩
  cases (show movedTable.find? "a$Inner" = none from rfl).symm.trans hr'

end Renaming

end Relabel
