/-!
# Cutting texts at characters

The few ways in which the library cuts a text: at every occurrence of a character, at its first
occurrence, at its last one, and behind a given beginning. Each of them loses nothing: the pieces with
the character between them are the text again.
-/

set_option autoImplicit false

namespace Relabel.Text

/-- The pieces between the occurrences of `c`, last piece first. `done` are the pieces already cut and
`piece` is the current one backwards. -/
def splitFrom (c : Char) (done : List String) (piece : List Char) : List Char → List String
  | [] => String.ofList piece.reverse :: done
  | x :: xs =>
    if x = c then splitFrom c (String.ofList piece.reverse :: done) [] xs
    else splitFrom c done (x :: piece) xs

/-- The pieces between the occurrences of `c`, last piece first. There is always at least one. -/
def splitRev (c : Char) (s : String) : List String :=
  splitFrom c [] [] s.toList

/-- The text before the first occurrence of `c`, and the text from it on. -/
def splitAtFirst? (c : Char) (s : String) : Option (String × String) :=
  let (before, rest) := s.toList.span (· ≠ c)
  if rest.isEmpty then none else some (String.ofList before, String.ofList rest)

/-- The text before the last occurrence of `c`, and the text after it. -/
def splitAtLast? (c : Char) (s : String) : Option (String × String) :=
  let (after, rest) := s.toList.reverse.span (· ≠ c)
  match rest with
  | [] => none
  | _ :: before => some (String.ofList before.reverse, String.ofList after.reverse)

/-- The text after the last occurrence of `c`; all of it if there is none. -/
def afterLast (c : Char) (s : String) : String :=
  match splitAtLast? c s with
  | some (_, after) => after
  | none => s

/-- The rest of a text that begins with `start`. -/
def stripPrefix? (start s : String) : Option String :=
  (List.isPrefixOf? start.toList s.toList).map String.ofList

/-- The rest of a text that ends with `ending`. -/
def stripSuffix? (ending s : String) : Option String :=
  (List.isPrefixOf? ending.toList.reverse s.toList.reverse).map fun cs => String.ofList cs.reverse

end Relabel.Text
