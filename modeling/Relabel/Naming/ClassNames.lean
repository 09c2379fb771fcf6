import Relabel.Mapping.Table
import Relabel.Type.Descriptor
import Relabel.Type.Signature

/-!
# Class names in two languages

Classes have a target name, by which the input calls them, and a source name. `ClassNames` translates
either way. The name of a nested class is the name of its outer class, a `$` and a segment; a name
that has no counterpart of its own follows its outer class and keeps its last segment, so an
anonymous class moves along with the class around it.
-/

set_option autoImplicit false

namespace Relabel

/-- Which way names are translated. -/
inductive Direction where
  | toSource
  | toTarget
  deriving DecidableEq, Repr

/-- Class names in both directions. -/
structure ClassNames where
  toSource : Dict String
  toTarget : Dict String
  deriving DecidableEq

namespace ClassNames

/-- No names. -/
def empty : ClassNames := ⟨∅, ∅⟩

/-- A pair of names. Each of them may replace an earlier counterpart of the same name. -/
def insert (names : ClassNames) (target source : String) : ClassNames :=
  ⟨names.toSource.insert target source, names.toTarget.insert source target⟩

/-- The names of a table, in the order of its records. -/
def ofTable (t : MappingTable) : ClassNames :=
  t.records.foldl (fun names (source, r) =>
    if r.name = "" then names else names.insert r.name source) empty

/-- The number of target names. -/
def size (names : ClassNames) : Nat := names.toSource.size

/-- The name that segments make up, the last segment first. -/
def nameOfSegments (segments : List String) : String :=
  "$".intercalate segments.reverse

/-- Translates a name given by its segments, the last segment first: the name itself if it is in the
dictionary, or else its outer name with the last segment put back. -/
def translateSegments (d : Dict String) : List String → String
  | [] => ""
  | [segment] => (d[segment]?).getD segment
  | segment :: outer =>
    match d[nameOfSegments (segment :: outer)]? with
    | some hit => hit
    | none => translateSegments d outer ++ "$" ++ segment

/-- Translates a name with a dictionary. -/
def translateWith (d : Dict String) (name : String) : String :=
  translateSegments d (Text.splitRev '$' name)

/-- The names of one direction. -/
def dict (names : ClassNames) : Direction → Dict String
  | .toSource => names.toSource
  | .toTarget => names.toTarget

/-- Translates a class name. -/
def translate (names : ClassNames) (way : Direction) (name : String) : String :=
  translateWith (names.dict way) name

/-- The source name of a class. -/
def map (names : ClassNames) (name : String) : String :=
  names.translate .toSource name

/-- The target name of a class. -/
def unmap (names : ClassNames) (name : String) : String :=
  names.translate .toTarget name

/-- Translates the name or array descriptor of a class constant. -/
def translateType (names : ClassNames) (way : Direction) (s : String) : Except Error String :=
  Descriptor.renameType (names.translate way) s

/-- Translates a field descriptor. -/
def translateField (names : ClassNames) (way : Direction) (s : String) : Except Error String :=
  Descriptor.renameField (names.translate way) s

/-- Translates a method descriptor. -/
def translateMethod (names : ClassNames) (way : Direction) (s : String) : Except Error String :=
  Descriptor.renameMethod (names.translate way) s

/-- Translates a generic signature. -/
def translateSignature (names : ClassNames) (way : Direction) (s : String) : Except Error String :=
  Signature.renameText (names.translate way) s

end ClassNames

end Relabel
