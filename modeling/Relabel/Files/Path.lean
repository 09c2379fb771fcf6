import Relabel.Text.Split

/-!
# Paths

A path is a text whose names are separated by slashes. Repeated slashes, a slash at the end and single
dots, except one at the very start of a relative path, do not count as names. Taking the parent keeps the
spelling of what is left.
-/

set_option autoImplicit false

namespace Relabel.Path

/-- A path taken apart: whether it starts at the root, whether it starts with a single dot, and the texts
between its slashes after that. -/
structure Parts where
  rooted : Bool
  dotted : Bool
  /-- The texts between slashes, last one first, without those at the end that are no names. -/
  names : List String

/-- Texts between slashes, last one first, without those at the end that are no names. -/
def dropBlanks (names : List String) : List String :=
  names.dropWhile fun n => n = "" || n = "."

/-- Takes a path apart. -/
def parts (path : String) : Parts :=
  match (Text.splitRev '/' path).reverse with
  | "" :: rest => ⟨!rest.isEmpty, false, dropBlanks rest.reverse⟩
  | "." :: rest => ⟨false, true, dropBlanks rest.reverse⟩
  | pieces => ⟨false, false, dropBlanks pieces.reverse⟩

/-- Puts a path together. -/
def Parts.join (p : Parts) : String :=
  let names := p.names.reverse
  if p.rooted then "/" ++ String.intercalate "/" names
  else String.intercalate "/" (if p.dotted then "." :: names else names)

/-- The path without its last name; the root and the empty path have none. -/
def parent? (path : String) : Option String :=
  let p := parts path
  match p.names with
  | _ :: rest => some { p with names := dropBlanks rest }.join
  | [] => if p.dotted then some "" else none

/-- The last name of a path, unless it leads upwards. -/
def fileName? (path : String) : Option String :=
  match (parts path).names with
  | name :: _ => if name = ".." then none else some name
  | [] => none

/-- The last name cut at its last dot. A dot at its start does not count. -/
def splitName? (path : String) : Option (String × Option String) := do
  let name ← fileName? path
  match Text.splitAtLast? '.' name with
  | some (stem, extension) => if stem = "" then some (name, none) else some (stem, some extension)
  | none => some (name, none)

/-- A path that starts at the root. -/
def isAbsolute (path : String) : Bool :=
  match path.toList with
  | c :: _ => c = '/'
  | [] => false

/-- A path seen from a directory. An absolute path stays as it is. -/
def join (directory path : String) : String :=
  if isAbsolute path then path
  else
    match directory.toList.getLast? with
    | none => path
    | some c => if c = '/' then directory ++ path else directory ++ "/" ++ path

/-- A path followed by its parents, of which there are at most `fuel`. -/
def ancestorsFrom : (fuel : Nat) → String → List String
  | 0, path => [path]
  | fuel + 1, path =>
    match parent? path with
    | some up => path :: ancestorsFrom fuel up
    | none => [path]

/-- A path followed by its parents. Every parent is shorter. -/
def ancestors (path : String) : List String :=
  ancestorsFrom path.length path

end Relabel.Path
