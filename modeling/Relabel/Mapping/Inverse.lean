import Relabel.Naming.ClassNames

/-!
# Tables seen from the other side

The inverse of a table has target names as keys and renames members back: their keys are built from
source names and from descriptors in which the classes have their source names. Changes of access speak
about source names only and are dropped.
-/

set_option autoImplicit false

namespace Relabel

namespace ClassRecord

/-- The name by which the input calls the class of a record. -/
def inputName (source : String) (r : ClassRecord) : String :=
  if r.name = "" then source else r.name

/-- The members of one kind, seen from the other side. -/
def invertMembers (split? : String → Option (String × String))
    (translate : String → Except Error String) (key : String → String → String)
    (members : Dict String) : Except Error (Dict String) :=
  members.toList.foldlM (fun inverse (targetKey, source) =>
    match split? targetKey with
    | none => .error (.mapping (.bareKey targetKey))
    | some (target, descriptor) => do
      return inverse.insert (key source (← translate descriptor)) target) ∅

/-- A record seen from the other side. -/
def inverted (names : ClassNames) (source : String) (r : ClassRecord) : Except Error ClassRecord := do
  let methods ← invertMembers splitMethodKey? (names.translateMethod .toSource) methodKey r.methods
  let fields ← invertMembers splitFieldKey? (names.translateField .toSource) fieldKey r.fields
  return ⟨if r.name = "" then "" else source, methods, fields, ∅⟩

end ClassRecord

/-- The inverse of a table. Of records with the same input name the last one counts. -/
def MappingTable.inverted (t : MappingTable) : Except Error MappingTable :=
  let names := ClassNames.ofTable t
  t.records.foldlM (fun inverse (source, r) => do
    return inverse.insert (r.inputName source) (← r.inverted names source)) .empty

end Relabel
