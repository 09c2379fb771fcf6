import Relabel.Jar.Remap
import Relabel.Json.Printer
import Relabel.Mapping.Table

/-!
# What the program prints

Reports and answers as JSON, the report of a run also as plain text, and failures with their causes: a
single cause is indented, several causes are numbered.
-/

set_option autoImplicit false

namespace Relabel

/-! ## Reports -/

namespace RemapReport

/-- A report as JSON. The run took `elapsed` milliseconds. -/
def toJson (r : RemapReport) (elapsed : Nat) : Json String :=
  .object
    [("input", .text r.input),
      ("output", .text r.output),
      ("entries", .nat r.archive.entries),
      ("classes", .nat r.archive.classes),
      ("classes_transformed", .nat r.archive.transformed),
      ("classes_unchanged", .nat r.archive.unchanged),
      ("classes_relocated", .nat r.archive.relocated),
      ("resources", .nat r.archive.resources),
      ("remap", .object
        [("classes_renamed", .nat r.renames.classes),
          ("fields_renamed", .nat r.renames.fields),
          ("methods_renamed", .nat r.renames.methods),
          ("references_renamed", .nat r.renames.references)]),
      ("access_patched", .nat r.patched),
      ("resolver", .object
        [("fetches", .nat r.resolver.fetches),
          ("resolved_owners", .nat r.resolver.resolvedOwners),
          ("unresolved_owners", .nat r.resolver.unresolvedOwners)]),
      ("duration_ms", .nat elapsed),
      ("sha256", .text r.digest)]

/-- A report as lines of text. The run took `elapsed` milliseconds. -/
def toText (r : RemapReport) (elapsed : Nat) : String :=
  "input: " ++ r.input ++ "\n"
    ++ "output: " ++ r.output ++ "\n"
    ++ "classes: " ++ toString r.archive.classes ++ " (" ++ toString r.archive.transformed
    ++ " transformed, " ++ toString r.archive.relocated ++ " relocated)\n"
    ++ "resources: " ++ toString r.archive.resources ++ "\n"
    ++ "renamed: " ++ toString r.renames.classes ++ " classes, " ++ toString r.renames.methods
    ++ " methods, " ++ toString r.renames.fields ++ " fields, " ++ toString r.renames.references
    ++ " references\n"
    ++ "access_patched: " ++ toString r.patched ++ "\n"
    ++ "hierarchy: " ++ toString r.resolver.fetches ++ " fetches, "
    ++ toString r.resolver.unresolvedOwners ++ " unresolved\n"
    ++ "duration_ms: " ++ toString elapsed ++ "\n"
    ++ "sha256: " ++ r.digest ++ "\n"

end RemapReport

/-! ## Answers -/

/-- The statistics of the mapping file at a path as JSON. -/
def MappingStats.toJson (s : MappingStats) (path : String) : Json String :=
  .object
    [("path", .text path),
      ("classes", .nat s.classes),
      ("renamed_classes", .nat s.renamedClasses),
      ("methods", .nat s.methods),
      ("fields", .nat s.fields),
      ("access_transforms", .nat s.accessTransforms)]

/-- A class name and what it becomes, as JSON. -/
def renamedJson (name mapped : String) (reverse : Bool) : Json String :=
  .object
    [("name", .text name),
      ("mapped", .text mapped),
      ("changed", .bool (mapped ≠ name)),
      ("reverse", .bool reverse)]

/-! ## Failures -/

/-- Why a command failed: what was attempted, and the causes, outermost first. -/
structure Failure where
  context : String
  causes : List String
  deriving DecidableEq, Repr

namespace Failure

/-- A number at the right of five columns. -/
def padded (n : Nat) : String :=
  let digits := toString n
  String.ofList (List.replicate (5 - digits.length) ' ') ++ digits

/-- A cause behind its heading, with the same indentation for its further lines. -/
def indented (heading further cause : String) : String :=
  heading ++ String.intercalate ("\n" ++ further) (Text.splitRev '\n' cause).reverse

/-- The text of causes. -/
def causesText : List String → String
  | [] => ""
  | [cause] => "\n\nCaused by:\n" ++ indented "    " "    " cause
  | causes =>
    "\n\nCaused by:" ++ String.join (causes.zipIdx.map fun (cause, n) =>
      "\n" ++ indented (padded n ++ ": ") "       " cause)

/-- The text of a failure. -/
def text (f : Failure) : String :=
  "Error: " ++ f.context ++ causesText f.causes ++ "\n"

end Failure

end Relabel
