import Relabel.Access
import Relabel.Dict
import Relabel.Error
import Relabel.Text.Split

/-!
# Mapping tables

A mapping table tells how the classes of an obfuscated program, the *targets*, are called in its
*source*. Its keys are source names. A record without a target name describes a class that keeps its
name. Members are renamed by their target name together with their descriptor: a method under the name
followed by the descriptor, a field under the name, a colon and the descriptor. Access rows are keyed by
source names of members, and by the empty text for the class itself.

Every key of a member that is read from a file can be cut into a name and a descriptor; a table put
together by hand need not have that property.
-/

set_option autoImplicit false

namespace Relabel

/-- What a table says about one class. -/
structure ClassRecord where
  /-- The target name, empty for a class that keeps its name. -/
  name : String
  methods : Dict String
  fields : Dict String
  access : Dict AccessChange
  deriving DecidableEq

namespace ClassRecord

/-- A record that says nothing. -/
def blank : ClassRecord := ⟨"", ∅, ∅, ∅⟩

/-- A record with a target name only. -/
def named (name : String) : ClassRecord := { blank with name }

/-- The key of a method. -/
def methodKey (name descriptor : String) : String := name ++ descriptor

/-- The key of a field. -/
def fieldKey (name descriptor : String) : String := name ++ ":" ++ descriptor

/-- The record with a method renamed. -/
def withMethod (r : ClassRecord) (target descriptor source : String) : ClassRecord :=
  { r with methods := r.methods.insert (methodKey target descriptor) source }

/-- The record with a field renamed. -/
def withField (r : ClassRecord) (target descriptor source : String) : ClassRecord :=
  { r with fields := r.fields.insert (fieldKey target descriptor) source }

/-- The record with a change of access. -/
def withAccess (r : ClassRecord) (key : String) (change : AccessChange) : ClassRecord :=
  { r with access := r.access.insert key change }

end ClassRecord

/-- The name and the descriptor in the key of a method: the descriptor starts at the first opening
parenthesis. -/
def splitMethodKey? (key : String) : Option (String × String) :=
  Text.splitAtFirst? '(' key

/-- The name and the descriptor in the key of a field, around the first colon. -/
def splitFieldKey? (key : String) : Option (String × String) :=
  (Text.splitAtFirst? ':' key).map fun (name, rest) => (name, String.ofList (rest.toList.drop 1))

/-- Records by source name. -/
structure MappingTable where
  classes : Dict ClassRecord
  deriving DecidableEq

/-- How much a table renames. -/
structure MappingStats where
  classes : Nat
  renamedClasses : Nat
  methods : Nat
  fields : Nat
  accessTransforms : Nat
  deriving DecidableEq, Repr

namespace MappingTable

/-- The table without records. -/
def empty : MappingTable := ⟨∅⟩

/-- The records in the order of their source names. -/
def records (t : MappingTable) : List (String × ClassRecord) := t.classes.toList

/-- The record of a source name. -/
def find? (t : MappingTable) (source : String) : Option ClassRecord := t.classes[source]?

/-- The table with a record put in. -/
def insert (t : MappingTable) (source : String) (r : ClassRecord) : MappingTable :=
  ⟨t.classes.insert source r⟩

/-- The number of records. -/
def size (t : MappingTable) : Nat := t.classes.size

/-- Counts the renames of a table. -/
def stats (t : MappingTable) : MappingStats :=
  t.records.foldl (fun s (_, r) =>
    { s with
      renamedClasses := s.renamedClasses + if r.name = "" then 0 else 1
      methods := s.methods + r.methods.size
      fields := s.fields + r.fields.size
      accessTransforms := s.accessTransforms + r.access.size })
    ⟨t.size, 0, 0, 0, 0⟩

/-- The first fault of a record: its own key, then a method key, then a field key. -/
def recordFault? (source : String) (r : ClassRecord) : Option MappingFault :=
  if source = "" then some .emptyClassName
  else
    match r.methods.keys.find? fun k => (splitMethodKey? k).isNone with
    | some key => some (.methodKey source key)
    | none =>
      match r.fields.keys.find? fun k => (splitFieldKey? k).isNone with
      | some key => some (.fieldKey source key)
      | none => none

/-- The first fault of a table, in the order of its records. -/
def fault? (t : MappingTable) : Option MappingFault :=
  t.records.findSome? fun (source, r) => recordFault? source r

end MappingTable

end Relabel
