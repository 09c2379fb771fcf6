import Relabel.Mapping.Format
import Relabel.Proofs.Dict
import Relabel.Proofs.Json.RoundTrip
import Relabel.Proofs.Text.Split

/-!
# Mapping files hold what was written

Writing a table and reading it again gives the same table, unless the table has a key that reading refuses:
an empty class name, or a member key without a descriptor. A table put together by hand may have such keys,
and then reading what was written fails on the first of them.
-/

set_option autoImplicit false

namespace Relabel

namespace Json

/-! ## Dictionaries -/

theorem rawMembers_eq_map (members : List (String × Json String)) :
    rawMembers members = members.map fun m => (some m.1, m.2.raw) := by
  induction members with
  | nil => rfl
  | cons m members ih => rw [rawMembers, ih, List.map_cons]

theorem numberFreeMembers_iff (members : List (String × Json String)) :
    NumberFreeMembers members ↔ ∀ m ∈ members, m.2.NumberFree := by
  induction members with
  | nil => exact ⟨fun _ m hm => absurd hm List.not_mem_nil, fun _ => trivial⟩
  | cons m members ih => rw [NumberFreeMembers, ih, List.forall_mem_cons]

variable {α : Type} {value : α → Json String} {value? : Raw → Option α}

theorem foldlM_insert (hvalue : ∀ v, value? (value v).raw = some v) (entries : List (String × α)) :
    ∀ d : Dict α, (entries.map fun e => (some e.1, (value e.2).raw)).foldlM (fun d (key, v) => do
      return d.insert (← key) (← value? v)) d = some (entries.foldl (fun d e => d.insert e.1 e.2) d) := by
  induction entries with
  | nil => exact fun d => rfl
  | cons e entries ih =>
    intro d
    have hstep : (do return d.insert (← some e.1) (← value? (value e.2).raw)) = some (d.insert e.1 e.2) := by
      rw [hvalue]
      rfl
    rw [List.map_cons, List.foldlM_cons]
    exact (congrArg (· >>= _) hstep).trans (ih (d.insert e.1 e.2))

theorem dict?_toJson (hvalue : ∀ v, value? (value v).raw = some v) (d : Dict α) :
    Raw.dict? value? (d.toJson value).raw = some d := by
  have hmembers : (d.toJson value).raw = .object (d.toList.map fun e => (some e.1, (value e.2).raw)) := by
    rw [Dict.toJson, raw, rawMembers_eq_map, List.map_map]
    rfl
  rw [hmembers, Raw.dict?, foldlM_insert hvalue]
  exact congrArg some d.ofEntries_toList

theorem numberFree_toJson (hvalue : ∀ v, (value v).NumberFree) (d : Dict α) : (d.toJson value).NumberFree := by
  rw [Dict.toJson, NumberFree, numberFreeMembers_iff]
  intro m hm
  obtain ⟨e, -, rfl⟩ := List.mem_map.mp hm
  exact hvalue e.2

/-! ## Records -/

/-- The members of a record that are there. -/
def present (entries : List (String × Option (Json String))) : List (String × Json String) :=
  entries.flatMap fun e => (e.2.map fun v => (e.1, v)).toList

theorem rawMembers_present (entries : List (String × Option (Json String))) :
    rawMembers (present entries) = entries.flatMap fun e => (e.2.map fun v => (some e.1, v.raw)).toList := by
  rw [rawMembers_eq_map, present, List.map_flatMap]
  refine List.flatMap_congr fun e _ => ?_
  cases e.2 <;> rfl

theorem filter_of_notMem {entries : List (String × Option (Json String))} {name : String}
    (h : name ∉ entries.map Prod.fst) : (rawMembers (present entries)).filter (fun m => m.1 = some name) = [] := by
  rw [rawMembers_present, List.filter_eq_nil_iff]
  intro m hm hname
  obtain ⟨e, he, hm⟩ := List.mem_flatMap.mp hm
  obtain ⟨v, -, rfl⟩ := Option.map_eq_some_iff.mp (Option.mem_toList.mp hm)
  exact h (List.mem_map.mpr ⟨e, he, Option.some.inj (of_decide_eq_true hname)⟩)

/-- A member that may be missing is found by its name. -/
theorem filter_present {entries : List (String × Option (Json String))} (hnames : (entries.map Prod.fst).Nodup)
    {e : String × Option (Json String)} (he : e ∈ entries) :
    (rawMembers (present entries)).filter (fun m => m.1 = some e.1)
      = (e.2.map fun v => (some e.1, v.raw)).toList := by
  induction entries with
  | nil => cases he
  | cons e' entries ih =>
    obtain ⟨hnew, hnames⟩ := List.nodup_cons.mp hnames
    have hsplit : rawMembers (present (e' :: entries))
        = (e'.2.map fun v => (some e'.1, v.raw)).toList ++ rawMembers (present entries) := by
      rw [rawMembers_present, List.flatMap_cons, ← rawMembers_present]
    rw [hsplit, List.filter_append]
    rcases List.mem_cons.mp he with rfl | he
    · rw [filter_of_notMem hnew, List.append_nil]
      cases e.2 <;> simp
    · have hother : e'.1 ≠ e.1 := fun heq => hnew (heq ▸ List.mem_map_of_mem he)
      rw [ih hnames he]
      cases e'.2 <;> simp [hother]

theorem mapM_eq_some {β γ : Type} {f : β → Option γ} {g : β → γ} {xs : List β} (h : ∀ x ∈ xs, f x = some (g x)) :
    xs.mapM f = some (xs.map g) := by
  induction xs with
  | nil => rfl
  | cons x xs ih =>
    rw [List.mapM_cons, h x List.mem_cons_self, ih fun y hy => h y (List.mem_cons_of_mem x hy)]
    rfl

/-- A record gives back its members in their order, missing ones included. -/
theorem record?_present {entries : List (String × Option (Json String))} (hnames : (entries.map Prod.fst).Nodup) :
    Raw.record? (entries.map Prod.fst) (raw (.object (present entries)))
      = some (entries.map fun e => e.2.map raw) := by
  have hkeys : (rawMembers (present entries)).all (fun m => m.1.isSome) = true := by
    rw [rawMembers_eq_map, List.all_map]
    exact List.all_eq_true.mpr fun m _ => rfl
  change Raw.fields? _ _ = _
  rw [Raw.fields?, if_pos hkeys, List.mapM_map]
  refine mapM_eq_some fun e he => ?_
  simp only [Function.comp_apply, filter_present hnames he]
  cases e.2 <;> rfl

theorem numberFree_present {entries : List (String × Option (Json String))}
    (h : ∀ e ∈ entries, ∀ v ∈ e.2, v.NumberFree) : NumberFree (.object (present entries)) := by
  rw [NumberFree, numberFreeMembers_iff]
  intro m hm
  obtain ⟨e, he, hm⟩ := List.mem_flatMap.mp hm
  obtain ⟨v, hv, rfl⟩ := Option.map_eq_some_iff.mp (Option.mem_toList.mp hm)
  exact h e he v hv

end Json

open Json

/-! ## Changes of access -/

theorem Visibility.ofWord?_word (v : Visibility) : ofWord? v.word = some v := by
  cases v <;> decide

namespace AccessChange

theorem ofJson?_toJson (c : AccessChange) : ofJson? c.toJson.raw = some c := by
  let entries : List (String × Option (Json String)) :=
    [("access", some (.text c.visibility.word)), ("removeFinal", some (.bool c.removeFinal))]
  have hrecord := record?_present (by simp [entries] : (entries.map Prod.fst).Nodup)
  have hread : Raw.record? ["access", "removeFinal"] c.toJson.raw
      = some [some (.text (some c.visibility.word)), some (.bool c.removeFinal)] := hrecord
  rw [ofJson?, hread]
  change (Visibility.ofWord? c.visibility.word).bind _ = _
  rw [Visibility.ofWord?_word]
  rfl

theorem numberFree_toJson (c : AccessChange) : c.toJson.NumberFree := ⟨trivial, trivial, trivial⟩

end AccessChange

/-! ## Class records -/

namespace ClassRecord

/-- The members of a record, without those that would be empty. -/
def entries (r : ClassRecord) : List (String × Option (Json String)) :=
  [("name", if r.name = "" then none else some (.text r.name)),
    ("methods", if r.methods.isEmpty then none else some (r.methods.toJson .text)),
    ("fields", if r.fields.isEmpty then none else some (r.fields.toJson .text)),
    ("access", if r.access.isEmpty then none else some (r.access.toJson AccessChange.toJson))]

theorem toJson_eq (r : ClassRecord) : r.toJson = .object (present r.entries) := by
  have hunless {α : Type} (name : String) (value : α → Json String) (d : Dict α) :
      unlessEmpty name value d
        = ((if d.isEmpty then none else some (d.toJson value)).map fun v => (name, v)).toList := by
    unfold unlessEmpty
    split <;> rfl
  have hname : (if r.name = "" then [] else [("name", Json.text r.name)])
      = ((if r.name = "" then none else some (Json.text r.name)).map fun v => ("name", v)).toList := by
    split <;> rfl
  rw [toJson, hunless, hunless, hunless, hname, present, entries]
  simp

/-- An empty dictionary is left out and comes back as the default. -/
theorem optional?_dict {α : Type} {value : α → Json String} {value? : Raw → Option α}
    (hvalue : ∀ v, value? (value v).raw = some v) (d : Dict α) :
    Raw.optional? ∅ (Raw.dict? value?) ((if d.isEmpty then none else some (d.toJson value)).map raw) = some d := by
  split
  · next hempty => exact congrArg some (Std.ExtTreeMap.isEmpty_iff.mp hempty).symm
  · exact dict?_toJson hvalue d

theorem optional?_name (name : String) :
    Raw.optional? "" Raw.text? ((if name = "" then none else some (Json.text name)).map raw) = some name := by
  split
  · next hempty => exact congrArg some hempty.symm
  · rfl

theorem ofJson?_toJson (r : ClassRecord) : ofJson? r.toJson.raw = some r := by
  have hread : Raw.record? ["name", "methods", "fields", "access"] r.toJson.raw
      = some (r.entries.map fun e => e.2.map raw) := by
    rw [toJson_eq]
    have hnames : (r.entries.map Prod.fst).Nodup := by simp [entries]
    exact record?_present hnames
  rw [ofJson?, hread]
  simp only [entries, List.map_cons, List.map_nil, Option.bind_eq_bind, Option.bind_some, optional?_name]
  rw [optional?_dict (fun _ => rfl), optional?_dict (fun _ => rfl), optional?_dict AccessChange.ofJson?_toJson]
  rfl

theorem numberFree_toJson (r : ClassRecord) : r.toJson.NumberFree := by
  have htext (s : String) : NumberFree (.text s) := trivial
  have htexts (d : Dict String) : (d.toJson .text).NumberFree := Json.numberFree_toJson htext d
  have haccess := Json.numberFree_toJson AccessChange.numberFree_toJson r.access
  rw [toJson_eq]
  refine numberFree_present fun e he v hv => ?_
  simp only [entries, List.mem_cons, List.not_mem_nil, or_false] at he
  rcases he with rfl | rfl | rfl | rfl
  all_goals
    split at hv
    · cases hv
    · obtain rfl := Option.some.inj hv
      first | exact htext _ | exact htexts _ | exact haccess

end ClassRecord

/-! ## Tables -/

namespace MappingTable

/-- No class name is empty, and each member key has a descriptor: that of a method starts at its first
opening parenthesis, that of a field behind its first colon. -/
def Keyed (t : MappingTable) : Prop :=
  ∀ e ∈ t.records, e.1 ≠ "" ∧ (∀ k ∈ e.2.methods.keys, '(' ∈ k.toList) ∧ ∀ k ∈ e.2.fields.keys, ':' ∈ k.toList

theorem splitFieldKey?_isNone (k : String) : (splitFieldKey? k).isNone ↔ ':' ∉ k.toList := by
  rw [splitFieldKey?, Option.isNone_map]
  exact Text.splitAtFirst?_isNone

theorem recordFault?_eq_none (source : String) (r : ClassRecord) :
    recordFault? source r = none ↔
      source ≠ "" ∧ (∀ k ∈ r.methods.keys, '(' ∈ k.toList) ∧ ∀ k ∈ r.fields.keys, ':' ∈ k.toList := by
  have hmethods : (r.methods.keys.find? fun k => (splitMethodKey? k).isNone) = none
      ↔ ∀ k ∈ r.methods.keys, '(' ∈ k.toList := by
    simp only [List.find?_eq_none, splitMethodKey?, Text.splitAtFirst?_isNone, not_not]
  have hfields : (r.fields.keys.find? fun k => (splitFieldKey? k).isNone) = none
      ↔ ∀ k ∈ r.fields.keys, ':' ∈ k.toList := by
    simp only [List.find?_eq_none, splitFieldKey?_isNone, not_not]
  rw [← hmethods, ← hfields, recordFault?]
  split
  · next hempty => simp [hempty]
  split
  · next key hkey => simp [hkey]
  split
  · next key hkey => simp [hkey]
  · next hsource _ hmethod _ hfield => simp [hsource, hmethod, hfield]

theorem fault?_eq_none (t : MappingTable) : t.fault? = none ↔ t.Keyed := by
  rw [fault?, List.findSome?_eq_none_iff]
  exact forall₂_congr fun e _ => recordFault?_eq_none e.1 e.2

theorem ofJson?_toJson (t : MappingTable) : ofJson? t.toJson.raw = some t := by
  rw [ofJson?, toJson, dict?_toJson ClassRecord.ofJson?_toJson]
  rfl

/-- Reading a written table can only fail on its keys. -/
theorem ofString_eq (t : MappingTable) :
    ofString t.toString = match t.fault? with
      | none => .ok t
      | some fault => .error (.mapping fault) := by
  have hnumbers : t.toJson.NumberFree := Json.numberFree_toJson ClassRecord.numberFree_toJson t.classes
  rw [ofString, ofBytes, toString, parse?_pretty hnumbers, Option.bind_some, ofJson?_toJson]
  dsimp only
  cases t.fault? <;> rfl

/-- **A mapping file holds the table that was written**, exactly if every key can be read; otherwise reading it
is refused for one of the keys. -/
theorem ofString_toString (t : MappingTable) :
    (ofString t.toString = .ok t ↔ t.Keyed) ∧
      (t.Keyed ∨ ∃ fault, t.fault? = some fault ∧ ofString t.toString = .error (.mapping fault)) := by
  rw [ofString_eq, ← fault?_eq_none]
  cases t.fault? with
  | none => exact ⟨⟨fun _ => rfl, fun _ => rfl⟩, Or.inl rfl⟩
  | some fault => exact ⟨⟨nofun, nofun⟩, Or.inr ⟨fault, rfl, rfl⟩⟩

/-- A method key without a descriptor can be put into a table, but not read. -/
example : (MappingTable.empty.insert "a" (ClassRecord.blank.withMethod "b" "" "c")).fault?
    = some (.methodKey "a" "b") := by decide +kernel

end MappingTable

end Relabel
