import Relabel.Class.Name
import Relabel.CommandLine.Arguments
import Relabel.CommandLine.Report
import Relabel.Mapping.Inverse
import Relabel.Mapping.Load

/-!
# Running a command

A command works on a tree of files and prints. What it has to print may tell how long the work took, so
`Invocation.perform` does the work and hands back the rest of the run, which only needs that time.
-/

set_option autoImplicit false

namespace Relabel

/-- The files and the texts printed so far. -/
structure Session where
  files : Files
  /-- What went to standard output. -/
  output : String
  /-- What went to standard error. -/
  messages : String

/-- A step of a run. -/
abbrev Run := EStateM Failure Session

namespace Run

variable {α : Type}

/-- Runs an effect on the files, with the causes of an error told by `causes`. -/
def onFiles {ε : Type} (context : String) (causes : ε → List String) (e : EStateM ε Files α) :
    Run α := fun s =>
  match e s.files with
  | .ok a files => .ok a { s with files := files }
  | .error error files => .error ⟨context, causes error⟩ { s with files := files }

/-- Runs an effect that is attempted for the reason `context`. -/
def attempt (context : String) (e : Effect Files α) : Run α :=
  onFiles context Error.chain e

/-- Runs an effect on files alone that is attempted for the reason `context`. -/
def attemptFile (context : String) (e : FileEffect α) : Run α :=
  onFiles context (fun fault => [fault.message]) e

/-- Prints to standard output. -/
def print (text : String) : Run Unit :=
  modify fun s => { s with output := s.output ++ text }

/-- Prints to standard error. -/
def tell (text : String) : Run Unit :=
  modify fun s => { s with messages := s.messages ++ text }

end Run

/-- The name of the program in its messages. -/
def programName : String := "class-remapper"

/-- The environment variable that may name the mapping file. -/
def mappingsVariable : String := "CLASS_REMAPPER_MAPPINGS"

/-- The mapping file that is used if it is there and no other is named. -/
def defaultMappings : String := "mappings.json"

/-- The mapping file of a run: the one that is named, by an option or else by the environment, and the
default file if none is. -/
def mappingsPath (named? environment? : Option String) : Run String := do
  match named? with
  | some path => return path
  | none =>
    let path := environment?.getD ""
    if path ≠ "" then return path
    else if (← get).files.contains defaultMappings then return defaultMappings
    else throw ⟨"No mapping file: pass --mappings FILE or set " ++ mappingsVariable, []⟩

/-- The table of a run. -/
def loadTable (path : String) (reverse : Bool) : Run MappingTable := do
  let table ← Run.attempt ("Failed to load mapping file: " ++ path) (MappingTable.load path)
  if reverse then
    Run.attempt ("Failed to invert mapping file: " ++ path) (liftM table.inverted)
  else return table

/-- Prints a text on lines of its own, or writes it to a file. -/
def publish (content : String) (path? : Option String) : Run Unit := do
  match path? with
  | some path =>
    Run.attemptFile ("Failed to create directory: " ++ (Path.parent? path).getD "")
      (Files.makeParent path)
    Run.attemptFile ("Failed to write output: " ++ path)
      (Files.write path content.toUTF8.toList)
  | none =>
    Run.print content
    if content.toList.getLast? ≠ some '\n' then Run.print "\n"

/-- Remaps an archive. The rest of the run reports on it. -/
def RemapRequest.perform (r : RemapRequest) (table : MappingTable) : Run (Nat → Run Unit) := do
  let output := outputPath r.input r.output? r.reverse
  Run.tell ("[" ++ programName ++ "] " ++ r.input ++ " -> " ++ output ++ " (" ++ toString table.size
    ++ " mapped classes)\n")
  let report ← Run.attempt ("Failed to remap jar: " ++ r.input)
    (remapFile r.input output table r.classpath)
  return fun elapsed =>
    let content := match r.format with
      | .json => (report.toJson elapsed).pretty
      | .text => report.toText elapsed
    publish content r.report?

namespace Invocation

/-- The paths at which a run may read or write files. -/
def inputs (i : Invocation) (environment? : Option String) : List String :=
  let table := i.mappings?.getD (environment?.getD "")
  let table := if table = "" then defaultMappings else table
  match i.command with
  | .remap r =>
    let output := outputPath r.input r.output? r.reverse
    [table, r.input, output, temporaryPath output] ++ r.report?.toList
  | _ => [table]

/-- The paths at and below which a run may look for classes. -/
def classpath (i : Invocation) : List String :=
  match i.command with
  | .remap r => r.classpath
  | _ => []

/-- Does the work of a command. The rest of the run prints what it found, given the milliseconds that the
work took. -/
def perform (i : Invocation) (environment? : Option String) : Run (Nat → Run Unit) := do
  let path ← mappingsPath i.mappings? environment?
  match i.command with
  | .remap request => do
    let table ← loadTable path request.reverse
    request.perform table
  | .mappings => do
    let table ← loadTable path false
    return fun _ => publish (table.stats.toJson path).pretty none
  | .map name reverse => do
    let table ← loadTable path false
    let names := (Renaming.ofTable table).classes
    let name := normalizeClassName name
    let mapped := names.translate (if reverse then .toTarget else .toSource) name
    return fun _ => publish (renamedJson name mapped reverse).pretty none

end Invocation

/-- What a run leaves behind. -/
structure Outcome where
  exitCode : UInt8
  session : Session

/-- The outcome of a step that was the last one. -/
def Outcome.ofResult : EStateM.Result Failure Session Unit → Outcome
  | .ok () s => ⟨0, s⟩
  | .error failure s => ⟨1, { s with messages := s.messages ++ failure.text }⟩

/-- Runs a command whose work takes `elapsed` milliseconds. -/
def Invocation.run (i : Invocation) (environment? : Option String) (elapsed : Nat) (files : Files) :
    Outcome :=
  .ofResult ((i.perform environment? >>= fun report => report elapsed) ⟨files, "", ""⟩)

end Relabel
