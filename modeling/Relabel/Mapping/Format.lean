import Relabel.Json.Printer
import Relabel.Json.Reader
import Relabel.Mapping.Table

/-!
# Mapping files

A mapping file is a JSON object with a member per class. A class record has the optional members `name`,
`methods`, `fields` and `access`; a change of access has `access`, one of four words, and optionally
`removeFinal`. A record may also be an array of its members in that order. Members with other names are
ignored, a member of a record may not be repeated, and of repeated keys of a map the last one counts.

Writing leaves out what is empty and sorts every map by its keys, so a table has one written form.
-/

set_option autoImplicit false

namespace Relabel

/-! ## Reading -/

namespace Json

/-- The text of a value that is one. -/
def Raw.text? : Raw → Option String
  | .text value => value
  | _ => none

/-- The truth value of a value that is one. -/
def Raw.bool? : Raw → Option Bool
  | .bool value => some value
  | _ => none

/-- The entries of an object, whose keys must be texts. Later entries replace earlier ones. -/
def Raw.dict? {α : Type} (value? : Raw → Option α) : Raw → Option (Dict α)
  | .object members => members.foldlM (fun d (key, value) => do
      return d.insert (← key) (← value? value)) ∅
  | _ => none

/-- The values of the named members of a record, absent ones included. The keys must be texts, and no
named member may be repeated. -/
def Raw.fields? (names : List String) (members : List (Option String × Raw)) :
    Option (List (Option Raw)) :=
  if members.all fun (key, _) => key.isSome then
    names.mapM fun name =>
      match members.filter fun (key, _) => key = some name with
      | [] => some none
      | [(_, value)] => some (some value)
      | _ => none
  else none

/-- The values of a record with the named members, given by name or in order. -/
def Raw.record? (names : List String) : Raw → Option (List (Option Raw))
  | .object members => Raw.fields? names members
  | .array items =>
    if items.length ≤ names.length then
      some (items.map some ++ List.replicate (names.length - items.length) none)
    else none
  | _ => none

/-- What a value means, where an absent one has a default. -/
def Raw.optional? {α : Type} (default : α) (value? : Raw → Option α) : Option Raw → Option α
  | none => some default
  | some value => value? value

end Json

open Json

/-- A visibility: its word, or an object with the word as its only key and no value. -/
def Visibility.ofJson? : Raw → Option Visibility
  | .text value => value.bind ofWord?
  | .object [(key, .null)] => key.bind ofWord?
  | _ => none

/-- A change of access. -/
def AccessChange.ofJson? (j : Raw) : Option AccessChange := do
  match ← Raw.record? ["access", "removeFinal"] j with
  | [access, removeFinal] => do
    let visibility ← Visibility.ofJson? (← access)
    return ⟨visibility, ← Raw.optional? false Raw.bool? removeFinal⟩
  | _ => none

/-- A class record. -/
def ClassRecord.ofJson? (j : Raw) : Option ClassRecord := do
  match ← Raw.record? ["name", "methods", "fields", "access"] j with
  | [name, methods, fields, access] => do
    let name ← Raw.optional? "" Raw.text? name
    let methods ← Raw.optional? ∅ (Raw.dict? Raw.text?) methods
    let fields ← Raw.optional? ∅ (Raw.dict? Raw.text?) fields
    let access ← Raw.optional? ∅ (Raw.dict? AccessChange.ofJson?) access
    return ⟨name, methods, fields, access⟩
  | _ => none

namespace MappingTable

/-- A table with every member key in order. -/
def ofJson? (j : Raw) : Option MappingTable :=
  (Raw.dict? ClassRecord.ofJson? j).map fun classes => ⟨classes⟩

/-- The table in a file. -/
def ofBytes (bytes : Bytes) : Except Error MappingTable :=
  match (Json.parse? bytes).bind ofJson? with
  | none => .error (.mapping .notJson)
  | some t =>
    match t.fault? with
    | some fault => .error (.mapping fault)
    | none => .ok t

/-- The table in a text. -/
def ofString (s : String) : Except Error MappingTable :=
  ofBytes s.toUTF8.toList

end MappingTable

/-! ## Writing -/

/-- A change of access as JSON. -/
def AccessChange.toJson (c : AccessChange) : Json String :=
  .object [("access", .text c.visibility.word), ("removeFinal", .bool c.removeFinal)]

/-- A dictionary as JSON, with its keys in order. -/
def Dict.toJson {α : Type} (value : α → Json String) (d : Dict α) : Json String :=
  .object (d.toList.map fun (k, v) => (k, value v))

namespace ClassRecord

/-- A member that is left out when it is empty. -/
def unlessEmpty {α : Type} (name : String) (value : α → Json String) (d : Dict α) :
    List (String × Json String) :=
  if d.isEmpty then [] else [(name, d.toJson value)]

/-- A class record as JSON. -/
def toJson (r : ClassRecord) : Json String :=
  .object ((if r.name = "" then [] else [("name", .text r.name)])
    ++ unlessEmpty "methods" .text r.methods
    ++ unlessEmpty "fields" .text r.fields
    ++ unlessEmpty "access" AccessChange.toJson r.access)

end ClassRecord

namespace MappingTable

/-- A table as JSON. -/
def toJson (t : MappingTable) : Json String :=
  t.classes.toJson ClassRecord.toJson

/-- The written form of a table. -/
def toString (t : MappingTable) : String :=
  t.toJson.pretty

end MappingTable

end Relabel
