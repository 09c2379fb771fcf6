import Relabel.Proofs.Hierarchy.Inheritance
import Relabel.Proofs.Rename.Constants
import Relabel.Proofs.Text.Split
import Relabel.Proofs.Type.Descriptor

/-!
# What is looked up is what the records say

The dictionaries that are derived from a table are filled record by record, and a later record can replace
what an earlier one put in. It never does if the input calls no two classes by one name. Then each look-up
gives an entry exactly if some record says so, and the rest of the theory speaks of records only.
-/

set_option autoImplicit false

namespace Relabel

/-! ## Keys of members -/

namespace MemberKind

/-- The character that ends the name in the key of a member. -/
def separator : MemberKind → Char
  | .field => ':'
  | .method | .interfaceMethod => '('

/-- The name and the descriptor in the key of a member. -/
def split? : MemberKind → String → Option (String × String)
  | .field => splitFieldKey?
  | .method | .interfaceMethod => splitMethodKey?

/-- A descriptor by which the name in a key comes to its end: that of a method starts with a parenthesis. -/
def Ends (kind : MemberKind) (d : String) : Prop :=
  kind ≠ .field → d.toList.head? = some '('

theorem split?_key {kind : MemberKind} {n d : String} (hn : kind.separator ∉ n.toList) (hd : kind.Ends d) :
    kind.split? (kind.key n d) = some (n, d) := by
  cases kind with
  | field =>
    have hcut : Text.splitAtFirst? ':' (n ++ (":" ++ d)) = some (n, ":" ++ d) :=
      Text.splitAtFirst?_append hn (by simp)
    rw [split?, key, splitFieldKey?, ClassRecord.fieldKey, String.append_assoc, hcut]
    simp
  | method | interfaceMethod => exact Text.splitAtFirst?_append hn (hd (by simp))

theorem key_inj {kind : MemberKind} {n n' d d' : String} (hn : kind.separator ∉ n.toList)
    (hn' : kind.separator ∉ n'.toList) (hd : kind.Ends d) (hd' : kind.Ends d')
    (h : kind.key n d = kind.key n' d') : n = n' ∧ d = d' := by
  have hsplit := split?_key hn hd
  rw [h, split?_key hn' hd'] at hsplit
  obtain ⟨rfl, rfl⟩ := Prod.mk.inj (Option.some.inj hsplit)
  exact ⟨rfl, rfl⟩

end MemberKind

/-! ## Records -/

/-- The renamed members of one kind. -/
def ClassRecord.members (r : ClassRecord) : MemberKind → Dict String
  | .field => r.fields
  | .method | .interfaceMethod => r.methods

theorem MappingTable.mem_records {t : MappingTable} {e : String × ClassRecord} :
    e ∈ t.records ↔ t.find? e.1 = some e.2 :=
  Std.ExtTreeMap.mem_toList_iff_getElem?_eq_some

/-- The input calls no two classes by one name. -/
def MappingTable.InputsDistinct (t : MappingTable) : Prop :=
  ∀ e ∈ t.records, ∀ e' ∈ t.records, e.2.inputName e.1 = e'.2.inputName e'.1 → e.1 = e'.1

instance (t : MappingTable) : Decidable t.InputsDistinct :=
  inferInstanceAs (Decidable (∀ e ∈ t.records, ∀ e' ∈ t.records, _ → _))

theorem MappingTable.InputsDistinct.eq {t : MappingTable} (ht : t.InputsDistinct) {s s' : String}
    {r r' : ClassRecord} (hr : t.find? s = some r) (hr' : t.find? s' = some r')
    (hinput : r.inputName s = r'.inputName s') : s = s' :=
  ht (s, r) (mem_records.mpr hr) (s', r') (mem_records.mpr hr') hinput

theorem ClassRecord.inputName_of_named {s : String} {r : ClassRecord} (hr : r.name ≠ "") :
    r.inputName s = r.name := if_neg hr

theorem ClassRecord.inputName_of_unnamed {s : String} {r : ClassRecord} (hr : r.name = "") :
    r.inputName s = s := if_pos hr

/-- No two records have one target name. -/
def MappingTable.TargetsDistinct (t : MappingTable) : Prop :=
  ∀ e ∈ t.records, ∀ e' ∈ t.records, e.2.name ≠ "" → e.2.name = e'.2.name → e.1 = e'.1

instance (t : MappingTable) : Decidable t.TargetsDistinct :=
  inferInstanceAs (Decidable (∀ e ∈ t.records, ∀ e' ∈ t.records, _ → _ → _))

theorem MappingTable.InputsDistinct.targetsDistinct {t : MappingTable} (ht : t.InputsDistinct) :
    t.TargetsDistinct := by
  intro e he e' he' hname htarget
  refine ht e he e' he' ?_
  rw [ClassRecord.inputName_of_named hname, ClassRecord.inputName_of_named (htarget ▸ hname), htarget]

/-! ## Class names -/

namespace ClassNames

variable {t : MappingTable}

/-- The records with a target name. -/
def renamedRecords (t : MappingTable) : List (String × ClassRecord) :=
  t.records.filter fun e => e.2.name ≠ ""

theorem mem_renamedRecords {e : String × ClassRecord} :
    e ∈ renamedRecords t ↔ t.find? e.1 = some e.2 ∧ e.2.name ≠ "" := by
  rw [renamedRecords, List.mem_filter, MappingTable.mem_records, decide_eq_true_iff]

theorem toSource_ofTable (t : MappingTable) :
    (ofTable t).toSource = Dict.ofEntries ((renamedRecords t).map fun e => (e.2.name, e.1)) := by
  rw [Dict.ofEntries, List.foldl_map, renamedRecords, List.foldl_filter, ofTable]
  refine (List.foldl_hom ClassNames.toSource fun names e => ?_).symm
  by_cases hr : e.2.name = "" <;> simp [hr, insert]

theorem toTarget_ofTable (t : MappingTable) :
    (ofTable t).toTarget = Dict.ofEntries ((renamedRecords t).map fun e => (e.1, e.2.name)) := by
  rw [Dict.ofEntries, List.foldl_map, renamedRecords, List.foldl_filter, ofTable]
  refine (List.foldl_hom ClassNames.toTarget fun names e => ?_).symm
  by_cases hr : e.2.name = "" <;> simp [hr, insert]

theorem exists_renamedRecord {source target : String} :
    (∃ e ∈ renamedRecords t, e.1 = source ∧ e.2.name = target)
      ↔ ∃ r, t.find? source = some r ∧ r.name ≠ "" ∧ r.name = target := by
  constructor
  · intro h
    obtain ⟨e, he, rfl, rfl⟩ := h
    obtain ⟨hfind, hr⟩ := mem_renamedRecords.mp he
    exact ⟨e.2, hfind, hr, rfl⟩
  · intro h
    obtain ⟨r, hfind, hr, rfl⟩ := h
    exact ⟨(source, r), mem_renamedRecords.mpr ⟨hfind, hr⟩, rfl, rfl⟩

/-- The source name of a class is that of the record that has its target name. -/
theorem toSource_eq_some_of_targets (ht : t.TargetsDistinct) {target source : String} :
    (ofTable t).toSource[target]? = some source
      ↔ ∃ r, t.find? source = some r ∧ r.name ≠ "" ∧ r.name = target := by
  rw [toSource_ofTable, Dict.getElem?_ofEntries_map, ← exists_renamedRecord]
  · refine exists_congr fun e => and_congr_right fun _ => ?_
    rw [Prod.mk.injEq, and_comm]
  · intro e he e' he' hname
    obtain ⟨hfind, hr⟩ := mem_renamedRecords.mp he
    obtain ⟨hfind', -⟩ := mem_renamedRecords.mp he'
    exact ht e (MappingTable.mem_records.mpr hfind) e' (MappingTable.mem_records.mpr hfind') hr hname

theorem toSource_eq_some (ht : t.InputsDistinct) {target source : String} :
    (ofTable t).toSource[target]? = some source
      ↔ ∃ r, t.find? source = some r ∧ r.name ≠ "" ∧ r.name = target :=
  toSource_eq_some_of_targets ht.targetsDistinct

theorem toTarget_eq_some {source target : String} :
    (ofTable t).toTarget[source]? = some target
      ↔ ∃ r, t.find? source = some r ∧ r.name ≠ "" ∧ r.name = target := by
  rw [toTarget_ofTable, Dict.getElem?_ofEntries_map, ← exists_renamedRecord]
  · refine exists_congr fun e => and_congr_right fun _ => ?_
    rw [Prod.mk.injEq]
  · intro e he e' he' hsource
    have hsource : e.1 = e'.1 := hsource
    have hfind := (mem_renamedRecords.mp he).1
    rw [hsource, (mem_renamedRecords.mp he').1] at hfind
    exact congrArg ClassRecord.name (Option.some.inj hfind).symm

theorem translateSegments_of_entry {d : Dict String} {segments : List String} {hit : String}
    (hne : segments ≠ []) (h : d[nameOfSegments segments]? = some hit) :
    translateSegments d segments = hit := by
  match segments with
  | [] => exact absurd rfl hne
  | [segment] =>
    have hname : nameOfSegments [segment] = segment := by
      simp [nameOfSegments]
    rw [hname] at h
    rw [translateSegments, h, Option.getD_some]
  | segment :: outer :: rest =>
    rw [translateSegments, h]
    exact List.cons_ne_nil outer rest

/-- A name with an entry of its own is translated by it, whatever becomes of its outer class. -/
theorem translateWith_of_entry {d : Dict String} {name hit : String} (h : d[name]? = some hit) :
    translateWith d name = hit := by
  refine translateSegments_of_entry (Text.splitRev_ne_nil '$' name) ?_
  have hname : nameOfSegments (Text.splitRev '$' name) = name := Text.intercalate_splitRev '$' name
  rw [hname, h]

end ClassNames

/-! ## Rows of members -/

namespace Renaming

variable {t : MappingTable}

theorem classes_ofTable (t : MappingTable) : (ofTable t).classes = ClassNames.ofTable t := by
  unfold ofTable
  apply List.foldlRecOn (motive := fun n : Renaming => n.classes = ClassNames.ofTable t)
  · rfl
  · exact fun n hn e _ => hn

/-- The records that rename members of one kind. -/
def recordsWith (t : MappingTable) (kind : MemberKind) : List (String × ClassRecord) :=
  t.records.filter fun e => !(e.2.members kind).isEmpty

theorem rows_ofTable (t : MappingTable) (kind : MemberKind) :
    (ofTable t).rows kind
      = Dict.ofEntries ((recordsWith t kind).map fun e => (e.2.inputName e.1, e.2.members kind)) := by
  rw [Dict.ofEntries, List.foldl_map, recordsWith, List.foldl_filter, ofTable]
  cases kind with
  | field =>
    refine (List.foldl_hom Renaming.fields fun n e => ?_).symm
    by_cases hempty : e.2.fields.isEmpty = true <;> simp [enter, ClassRecord.members, hempty]
  | method | interfaceMethod =>
    refine (List.foldl_hom Renaming.methods fun n e => ?_).symm
    by_cases hempty : e.2.methods.isEmpty = true <;> simp [enter, ClassRecord.members, hempty]

/-- A class has what the record with its input name says. -/
theorem row_eq_some (ht : t.InputsDistinct) {kind : MemberKind} {owner key new : String} :
    (((ofTable t).rows kind)[owner]?).bind (·[key]?) = some new
      ↔ ∃ s r, t.find? s = some r ∧ r.inputName s = owner ∧ (r.members kind)[key]? = some new := by
  have hrow (row : MemberRow) : ((ofTable t).rows kind)[owner]? = some row
      ↔ ∃ e ∈ recordsWith t kind, (e.2.inputName e.1, e.2.members kind) = (owner, row) := by
    rw [rows_ofTable, Dict.getElem?_ofEntries_map]
    intro e he e' he' hinput
    have hfind := MappingTable.mem_records.mp (List.mem_of_mem_filter he)
    have hfind' := MappingTable.mem_records.mp (List.mem_of_mem_filter he')
    rw [ht.eq hfind hfind' hinput, hfind'] at hfind
    exact congrArg (ClassRecord.members · kind) (Option.some.inj hfind).symm
  rw [Option.bind_eq_some_iff]
  constructor
  · intro h
    obtain ⟨row, hr, hnew⟩ := h
    obtain ⟨⟨s, r⟩, he, hpair⟩ := (hrow row).mp hr
    obtain ⟨hinput, rfl⟩ := Prod.mk.inj hpair
    exact ⟨s, r, MappingTable.mem_records.mp (List.mem_of_mem_filter he), hinput, hnew⟩
  · intro h
    obtain ⟨s, r, hfind, rfl, hnew⟩ := h
    -- A row with an entry is not empty, so it was not left out.
    have hne : (r.members kind).isEmpty = false := by
      rw [Bool.eq_false_iff]
      intro hempty
      rw [Std.ExtTreeMap.isEmpty_iff.mp hempty] at hnew
      simp at hnew
    have he : (s, r) ∈ recordsWith t kind :=
      List.mem_filter.mpr ⟨MappingTable.mem_records.mpr hfind, by simp [hne]⟩
    exact ⟨r.members kind, (hrow _).mpr ⟨(s, r), he, rfl⟩, hnew⟩

end Renaming

end Relabel
