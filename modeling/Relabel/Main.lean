import Relabel.CommandLine.Run

/-!
# The program

The command line program takes a picture of the files that its arguments name, runs the command on that
picture, and writes back what the run changed.
-/

set_option autoImplicit false

namespace Relabel

/-- The path of a place. -/
def absolutePath (place : Place) : String :=
  "/" ++ place.key

/-- Adds the file or the directory at a place, if there is one. -/
def readPlace (files : Files) (place : Place) : IO Files := do
  let path := (← IO.currentDir) / absolutePath place
  if ← path.isDir then return files.put place .directory
  if ← path.pathExists then
    return files.put place (.file (← IO.FS.readBinFile path).toList)
  return files

/-- Adds what is at a path, and the directories on the way to it. -/
def readPath (files : Files) (path : String) : IO Files :=
  let place := Files.placeOf files.home path
  (List.range place.length).foldrM (fun i files => readPlace files (place.drop i)) files

/-- Adds what is at a path and below it, and the directories on the way to it. -/
def readBelow (files : Files) (path : String) : IO Files := do
  let files ← readPath files path
  let root := (← IO.currentDir) / absolutePath (Files.placeOf files.home path)
  if ← root.isDir then
    (← root.walkDir).foldlM (fun files below =>
      readPlace files (Files.placeOf [] below.toString)) files
  else return files

/-- Writes what differs between two pictures. -/
def writeChanges (before after : Files) : IO Unit := do
  for (name, node) in after.nodes.toList do
    if before.nodes[name]? ≠ some node then
      match node with
      | .directory => IO.FS.createDirAll ("/" ++ name)
      | .file content => IO.FS.writeBinFile ("/" ++ name) ⟨content.toArray⟩
  for (name, _) in before.nodes.toList do
    if after.nodes[name]?.isNone then IO.FS.removeFile ("/" ++ name)

/-- Runs a command on the files of the machine. -/
def Invocation.runOnDisk (i : Invocation) : IO UInt32 := do
  let environment? ← IO.getEnv mappingsVariable
  let home := Files.placeOf [] (← IO.currentDir).toString
  let named ← (i.inputs environment?).foldlM readPath (.empty home)
  let before ← i.classpath.foldlM readBelow named
  let start ← IO.monoMsNow
  let outcome ← match i.perform environment? ⟨before, "", ""⟩ with
    | .error failure s => pure (Outcome.ofResult (.error failure s))
    | .ok report s => do
      let elapsed := (← IO.monoMsNow) - start
      pure (Outcome.ofResult (report elapsed s))
  writeChanges before outcome.session.files
  IO.print outcome.session.output
  IO.eprint outcome.session.messages
  return outcome.exitCode.toUInt32

end Relabel

open Relabel in
/-- The command line program. -/
def main (words : List String) : IO UInt32 := do
  match Invocation.parse words with
  | .ok invocation => invocation.runOnDisk
  | .error .help => do
    IO.print usage
    return 0
  | .error .misuse => do
    IO.eprint usage
    return 2
