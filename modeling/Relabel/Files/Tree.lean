import Relabel.Dict
import Relabel.Effect
import Relabel.Files.Path

/-!
# A tree of files

Files and directories by name, and the operations on them that a run of the program needs, with the
faults of an ordinary file system: a missing name, a file where a directory has to be, a directory where a
file has to be. Paths are followed name by name from the root or from the directory in which the program
runs, and the first name that cannot be followed decides the fault.

A place in the tree is the list of the names that lead to it, last one first. Every directory on the way
to a file is a member of the tree.
-/

set_option autoImplicit false

namespace Relabel

/-- A file or a directory. -/
inductive FileNode where
  | file (content : Bytes)
  | directory
  deriving DecidableEq, Repr

/-- The content of a file; a directory has none. -/
def FileNode.content? : FileNode → Option Bytes
  | .file content => some content
  | .directory => none

/-- The names that lead to a file or a directory from the root, last one first. -/
abbrev Place := List String

/-- A tree of files. -/
structure Files where
  /-- Everything but the root, by its names with slashes between them. -/
  nodes : Dict FileNode
  /-- Where relative paths start. -/
  home : Place

/-- A computation on a tree of files. -/
abbrev FileEffect := EStateM FileFault Files

namespace Place

/-- A place as a text. -/
def key (place : Place) : String :=
  String.intercalate "/" place.reverse

end Place

namespace Files

/-- The longest name. -/
def nameLimit : Nat := 255

/-- The longest path. -/
def pathLimit : Nat := 4095

/-- The tree that has nothing but the way to the directory in which the program runs. -/
def empty (home : Place) : Files where
  nodes := (List.range home.length).foldl (fun d i => d.insert (Place.key (home.drop i)) .directory) ∅
  home := home

/-- What is at a place. -/
def nodeAt? (files : Files) (place : Place) : Option FileNode :=
  if place.isEmpty then some .directory else files.nodes[place.key]?

/-- Puts something at a place. -/
def put (files : Files) (place : Place) (node : FileNode) : Files :=
  { files with nodes := files.nodes.insert place.key node }

/-- The place that the names of a path spell, wherever they lead. -/
def placeOf (home : Place) (path : String) : Place :=
  (Text.splitRev '/' path).foldr (fun name place =>
    if name = "" || name = "." then place
    else if name = ".." then place.tail
    else name :: place) (if Path.isAbsolute path then [] else home)

/-! ## Following paths -/

/-- The names of a path and the place where they start. Not every text is a path. -/
def openPath (files : Files) (path : String) : Except FileFault (Place × List String) :=
  if path.toList.any (· = '\x00') then .error .nulInName
  else if path = "" then .error .notFound
  else if pathLimit < path.utf8ByteSize then .error .nameTooLong
  else .ok (if Path.isAbsolute path then [] else files.home, (Text.splitRev '/' path).reverse)

/-- Goes from a place to one of its names. -/
def enter (files : Files) (place : Place) (name : String) : Except FileFault Place :=
  if files.nodeAt? place ≠ some .directory then .error .notADirectory
  else if name = "" ∨ name = "." then .ok place
  else if name = ".." then .ok place.tail
  else if nameLimit < name.utf8ByteSize then .error .nameTooLong
  else if (files.nodeAt? (name :: place)).isSome then .ok (name :: place)
  else .error .notFound

/-- The place a path leads to. -/
def locate (files : Files) (path : String) : Except FileFault Place := do
  let (start, names) ← files.openPath path
  names.foldlM files.enter start

/-- What a path leads to. -/
def find (files : Files) (path : String) : Except FileFault FileNode := do
  match files.nodeAt? (← files.locate path) with
  | some node => .ok node
  | none => .error .notFound

/-- Whether a path leads anywhere. -/
def contains (files : Files) (path : String) : Bool :=
  (files.find path).toOption.isSome

/-- Whether a path leads to a directory. -/
def isDirectory (files : Files) (path : String) : Bool :=
  (files.find path).toOption = some .directory

/-- Where a path would put something new: a directory, a name in it, and whether the path says by a
slash at its end that the name is that of a directory. -/
structure Target where
  directory : Place
  name : String
  slashed : Bool

/-- A name that is always taken, because it leads to a directory that is already there. -/
def Target.isTaken (t : Target) : Bool :=
  t.name = "" || t.name = "." || t.name = ".."

/-- The place of a target. -/
def Target.place (t : Target) : Place := t.name :: t.directory

/-- Follows all names of a path but the last. -/
def target (files : Files) (path : String) : Except FileFault Target := do
  let (start, names) ← files.openPath path
  let reversed := names.reverse.dropWhile (· = "")
  let directory ← reversed.tail.reverse.foldlM files.enter start
  if files.nodeAt? directory ≠ some .directory then .error .notADirectory
  else .ok ⟨directory, reversed.headD "", reversed.length < names.length⟩

/-- What is at a target. No directory can be asked for a name that is too long. -/
def lookUp? (files : Files) (t : Target) : Except FileFault (Option FileNode) :=
  if nameLimit < t.name.utf8ByteSize then .error .nameTooLong else .ok (files.nodeAt? t.place)

/-! ## Reading and writing -/

/-- The content of the file at a path. -/
def read (files : Files) (path : String) : Except FileFault Bytes := do
  match ← files.find path with
  | .file content => .ok content
  | .directory => .error .isADirectory

/-- What is read is the content of a file of the tree. -/
theorem exists_key_of_read {files : Files} {path : String} {bytes : Bytes}
    (h : files.read path = .ok bytes) : ∃ key : String, files.nodes[key]? = some (.file bytes) := by
  simp only [read, find] at h
  cases hl : files.locate path with
  | error e => simp [hl, bind, Except.bind] at h
  | ok place =>
    simp only [hl, bind, Except.bind] at h
    cases hn : files.nodeAt? place with
    | none => simp [hn] at h
    | some node =>
      simp only [hn] at h
      cases node with
      | directory => simp at h
      | file content =>
        obtain rfl := Except.ok.inj h
        unfold nodeAt? at hn
        split at hn
        · exact absurd hn (by simp)
        · exact ⟨place.key, hn⟩

/-- The content of the file at a path, all of it at once. A directory has nothing to show. -/
def readWhole (files : Files) (path : String) : Except FileFault Bytes := do
  match ← files.find path with
  | .file content => .ok content
  | .directory => .error .noSuchDevice

/-- A failure or a value, as an effect without changes. -/
def check {α : Type} (answer : Files → Except FileFault α) : FileEffect α := fun files =>
  match answer files with
  | .ok a => .ok a files
  | .error fault => .error fault files

/-- Makes a directory. -/
def makeDirectory (path : String) : FileEffect Unit := do
  let t ← check fun files => files.target path
  if t.isTaken then throw .alreadyExists
  if (← check fun files => files.lookUp? t).isSome then throw .alreadyExists
  modify fun files => files.put t.place .directory

/-- Makes a directory unless it is there. -/
def ensureDirectory (path : String) : FileEffect Unit := fun files =>
  match makeDirectory path files with
  | .ok () files => .ok () files
  | .error fault files => if files.isDirectory path then .ok () files else .error fault files

/-- Makes the first of some directories, each of which lies in the next one. Those that are missing are
made as well. -/
def makeDirectoriesFrom : List String → FileEffect Unit
  | [] => throw .notFound
  | path :: parents => fun files =>
    if path = "" then .ok () files
    else
      match ensureDirectory path files with
      | .error .notFound files =>
        match makeDirectoriesFrom parents files with
        | .ok () files => ensureDirectory path files
        | .error fault files => .error fault files
      | result => result

/-- Makes a directory and those in which it lies. -/
def makeDirectories (path : String) : FileEffect Unit :=
  makeDirectoriesFrom (Path.ancestors path)

/-- Makes the directory in which a path lies. -/
def makeParent (path : String) : FileEffect Unit :=
  match Path.parent? path with
  | some parent => if parent = "" then pure () else makeDirectories parent
  | none => pure ()

/-- Writes a file, whether or not it was there. A slash at the end asks for a directory, whatever the name
before it is. -/
def write (path : String) (content : Bytes) : FileEffect Unit := do
  let t ← check fun files => files.target path
  if t.isTaken ∨ t.slashed then throw .isADirectory
  if (← check fun files => files.lookUp? t) = some .directory then throw .isADirectory
  modify fun files => files.put t.place (.file content)

/-- Removes a file. -/
def remove (path : String) : FileEffect Unit := do
  let t ← check fun files => files.target path
  match ← check fun files => files.lookUp? t with
  | some (.file _) =>
    if t.slashed then throw .notADirectory
    modify fun files => { files with nodes := files.nodes.erase t.place.key }
  | some .directory => throw .isADirectory
  | none => throw .notFound

/-- Gives the file at one path another path, in the place of the file that is there. -/
def rename (source path : String) : FileEffect Unit := do
  let old ← check fun files => files.target source
  let t ← check fun files => files.target path
  if t.isTaken then throw .busy
  match ← check fun files => files.lookUp? old with
  | some (.file content) =>
    let present? ← check fun files => files.lookUp? t
    if t.slashed then throw .notADirectory
    if present? = some .directory then throw .isADirectory
    modify fun files =>
      Files.put { files with nodes := files.nodes.erase old.place.key } t.place (.file content)
  | some .directory => throw .isADirectory
  | none => throw .notFound

/-- The number of bytes in all files. -/
def totalSize (files : Files) : Nat :=
  files.nodes.foldl (fun n _ node =>
    match node with
    | .file content => n + content.length
    | .directory => n) 0

end Files

namespace FileEffect

variable {α : Type}

/-- An effect on files as an effect that fails with an error of the library. -/
def toEffect (e : FileEffect α) : Effect Files α := fun files =>
  match e files with
  | .ok a files => .ok a files
  | .error fault files => .error (.file fault) files

instance : MonadLift FileEffect (Effect Files) := ⟨toEffect⟩

end FileEffect

end Relabel
