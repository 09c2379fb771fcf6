import Relabel.Text.Split
import Relabel.Type.Descriptor

/-!
# Generic signatures

A generic signature gives a class, a method or a field with its type parameters and arguments. Like a
descriptor it is parsed, renamed and printed again. The class of a nested type is spelled segment by
segment, each segment with its own type arguments, while renaming works on the whole name: the name of a
nested class is its segments with `$` between them, and what is printed for a segment is what its
renamed name adds to the renamed name of the segments before it.

A text that is no signature is refused at the byte at which it stops being the beginning of one.
-/

set_option autoImplicit false

namespace Relabel

mutual

/-- A type in a signature. -/
inductive TypeSignature where
  | primitive (letter : Char)
  | variable (name : String)
  /-- A class: its outermost segment with type arguments, and the segments nested in it. -/
  | classType (name : String) (arguments : Option (List TypeArgument)) (nested : List ClassSegment)
  /-- One or more dimensions of a type that is not an array. -/
  | array (dimensions : Nat) (element : TypeSignature)

/-- A type argument. -/
inductive TypeArgument where
  | wildcard
  /-- A wildcard with a bound; the sign tells on which side. -/
  | bounded (sign : Char) (bound : TypeSignature)
  | exact (type : TypeSignature)

/-- A nested segment of a class type. -/
structure ClassSegment where
  name : String
  arguments : Option (List TypeArgument)

end

/-- A type parameter with its bounds; a bound may be left out. -/
structure TypeParameter where
  name : String
  bounds : List (Option TypeSignature)

/-- What follows the type parameters. -/
inductive SignatureBody where
  /-- A method. One without a result is void. -/
  | method (parameters : List TypeSignature) (result? : Option TypeSignature)
      (throws : List TypeSignature)
  /-- The supertypes of a class, or the one type of a field. -/
  | types (types : List TypeSignature)

/-- A generic signature. Type parameters may be absent or an empty list. -/
structure Signature where
  parameters? : Option (List TypeParameter)
  body : SignatureBody

/-! ## Parsing -/

namespace Signature

/-- The rest of a text and the number of bytes before it. -/
structure Place where
  rest : List Char
  offset : Nat

/-- Takes characters off the front of a text, or fails at an offset. -/
abbrev Scanner (α : Type) := StateT Place (Except Nat) α

namespace Scanner

/-- Gives up at the current place. -/
def refuse {α : Type} : Scanner α := fun place => .error place.offset

/-- The next character. -/
def peek : Scanner (Option Char) := fun place => .ok (place.rest.head?, place)

/-- Moves on over characters that the text is known to continue with. -/
def advance (taken rest : List Char) : Scanner Unit := fun place =>
  .ok ((), ⟨rest, taken.foldl (fun n c => n + c.utf8Size) place.offset⟩)

/-- Takes one given character. -/
def expect (wanted : Char) : Scanner Unit := fun place =>
  match place.rest with
  | c :: rest => if c = wanted then advance [c] rest place else refuse place
  | [] => refuse place

/-- A name: the characters up to the first stop character, which must come, and at least one. -/
def identifier (stops : List Char) : Scanner String := fun place =>
  match place.rest.span (fun c => !stops.contains c) with
  | ([], _) => refuse place
  | (_, []) => refuse place
  | (name, rest) => (advance name rest *> pure (String.ofList name)) place

/-- Items up to a closing character, after `acc` backwards. Items take characters, so the length of the
text bounds their number. -/
def itemsUntil {α : Type} (close : Char) (item : Scanner α) (acc : List α) :
    (fuel : Nat) → Scanner (List α)
  | 0, place => refuse place
  | fuel + 1, place =>
    if place.rest.head? = some close then .ok (acc.reverse, place)
    else
      match item place with
      | .error offset => .error offset
      | .ok (a, place) => itemsUntil close item (a :: acc) fuel place

/-- Items that each follow a mark, after `acc` backwards. -/
def itemsMarked {α : Type} (mark : Char) (item : Scanner α) (acc : List α) :
    (fuel : Nat) → Scanner (List α)
  | 0, place => refuse place
  | fuel + 1, place =>
    match place.rest with
    | c :: rest =>
      if c = mark then
        match (advance [c] rest *> item) place with
        | .error offset => .error offset
        | .ok (a, place) => itemsMarked mark item (a :: acc) fuel place
      else .ok (acc.reverse, place)
    | [] => .ok (acc.reverse, place)

/-- Items up to the end of the text, after `acc` backwards. -/
def itemsToEnd {α : Type} (item : Scanner α) (acc : List α) : (fuel : Nat) → Scanner (List α)
  | 0, place => refuse place
  | fuel + 1, place =>
    if place.rest.isEmpty then .ok (acc.reverse, place)
    else
      match item place with
      | .error offset => .error offset
      | .ok (a, place) => itemsToEnd item (a :: acc) fuel place

end Scanner

open Scanner

/-- A primitive type, or what `reference` accepts. -/
def parseType (reference : Scanner TypeSignature) : Scanner TypeSignature := do
  match ← peek with
  | some c =>
    if primitiveLetters.contains c then
      expect c
      return .primitive c
    else reference
  | none => reference

/-- One type argument. -/
def parseArgument (reference : Scanner TypeSignature) : Scanner TypeArgument := do
  match ← peek with
  | some '*' =>
    expect '*'
    return .wildcard
  | some '+' =>
    expect '+'
    return .bounded '+' (← reference)
  | some '-' =>
    expect '-'
    return .bounded '-' (← reference)
  | _ => return .exact (← reference)

/-- Type arguments between angle brackets, if there are any. -/
def parseArguments (size : Nat) (reference : Scanner TypeSignature) :
    Scanner (Option (List TypeArgument)) := do
  if (← peek) = some '<' then
    expect '<'
    let arguments ← itemsUntil '>' (parseArgument reference) [] (size + 1)
    expect '>'
    return some arguments
  else return none

/-- A nested segment, behind its dot. -/
def parseSegment (size : Nat) (reference : Scanner TypeSignature) : Scanner ClassSegment := do
  let name ← identifier ['<', '.', ';']
  return ⟨name, ← parseArguments size reference⟩

/-- A class type. -/
def parseClass (size : Nat) (reference : Scanner TypeSignature) : Scanner TypeSignature := do
  expect 'L'
  let name ← identifier ['<', '.', ';']
  let arguments ← parseArguments size reference
  let nested ← itemsMarked '.' (parseSegment size reference) [] (size + 1)
  expect ';'
  return .classType name arguments nested

/-- A type variable. -/
def parseVariable : Scanner TypeSignature := do
  expect 'T'
  let name ← identifier [';']
  expect ';'
  return .variable name

/-- The brackets of an array type and the element type behind them. -/
def parseArray (size : Nat) (reference : Scanner TypeSignature) : Scanner TypeSignature := do
  let brackets ← fun (place : Place) =>
    let (brackets, rest) := place.rest.span (· = '[')
    (advance brackets rest *> pure brackets) place
  let element ← parseType do
    match ← peek with
    | some 'L' => parseClass size reference
    | some 'T' => parseVariable
    | _ => refuse
  return .array brackets.length element

/-- A reference type with arguments nested at most `fuel` levels deep, in a text of `size`
characters. -/
def parseReference (size : Nat) : (fuel : Nat) → Scanner TypeSignature
  | 0 => refuse
  | fuel + 1 => do
    match ← peek with
    | some 'L' => parseClass size (parseReference size fuel)
    | some 'T' => parseVariable
    | some '[' => parseArray size (parseReference size fuel)
    | _ => refuse

/-- One bound of a type parameter, behind its colon. -/
def parseBound (reference : Scanner TypeSignature) : Scanner (Option TypeSignature) := do
  match ← peek with
  | some 'L' | some 'T' | some '[' => return some (← reference)
  | _ => return none

/-- A type parameter. -/
def parseParameter (size : Nat) (reference : Scanner TypeSignature) : Scanner TypeParameter := do
  let name ← identifier [':']
  return ⟨name, ← itemsMarked ':' (parseBound reference) [] (size + 1)⟩

/-- Type parameters between angle brackets, if there are any. -/
def parseParameters (size : Nat) (reference : Scanner TypeSignature) :
    Scanner (Option (List TypeParameter)) := do
  if (← peek) = some '<' then
    expect '<'
    let parameters ← itemsUntil '>' (parseParameter size reference) [] (size + 1)
    expect '>'
    return some parameters
  else return none

/-- The result of a method. -/
def parseResult (reference : Scanner TypeSignature) : Scanner (Option TypeSignature) := do
  if (← peek) = some 'V' then
    expect 'V'
    return none
  else return some (← parseType reference)

/-- What follows the type parameters. -/
def parseBody (size : Nat) (reference : Scanner TypeSignature) : Scanner SignatureBody := do
  if (← peek) = some '(' then
    expect '('
    let parameters ← itemsUntil ')' (parseType reference) [] (size + 1)
    expect ')'
    let result? ← parseResult reference
    let throws ← itemsMarked '^' reference [] (size + 1)
    return .method parameters result? throws
  else
    let first ← reference
    let others ← itemsToEnd reference [] (size + 1)
    return .types (first :: others)

/-- A signature that takes up the whole text. -/
def scanner (size : Nat) : Scanner Signature := do
  let reference := parseReference size (size + 1)
  let parameters? ← parseParameters size reference
  let body ← parseBody size reference
  if (← peek).isSome then refuse
  return ⟨parameters?, body⟩

/-- The signature a text spells. -/
def ofString (s : String) : Except Error Signature :=
  match scanner s.length ⟨s.toList, 0⟩ with
  | .ok (signature, _) => .ok signature
  | .error offset => .error (.unsupported (.malformedSignature s offset))

end Signature

/-! ## Printing -/

mutual

/-- The spelling of a type. -/
def TypeSignature.print : TypeSignature → List Char
  | .primitive letter => [letter]
  | .variable name => 'T' :: (name.toList ++ [';'])
  | .classType name arguments nested =>
    'L' :: (name.toList ++ (TypeArgument.printOption arguments
      ++ (ClassSegment.printList nested ++ [';'])))
  | .array dimensions element => List.replicate dimensions '[' ++ element.print

/-- The spelling of a type argument. -/
def TypeArgument.print : TypeArgument → List Char
  | .wildcard => ['*']
  | .bounded sign bound => sign :: bound.print
  | .exact type => type.print

/-- The spelling of type arguments one after the other. -/
def TypeArgument.printList : List TypeArgument → List Char
  | [] => []
  | a :: rest => a.print ++ TypeArgument.printList rest

/-- The spelling of the type arguments of a class, if it has any. -/
def TypeArgument.printOption : Option (List TypeArgument) → List Char
  | none => []
  | some arguments => '<' :: (TypeArgument.printList arguments ++ ['>'])

/-- The spelling of a nested segment. -/
def ClassSegment.print : ClassSegment → List Char
  | ⟨name, arguments⟩ => '.' :: (name.toList ++ TypeArgument.printOption arguments)

/-- The spelling of nested segments. -/
def ClassSegment.printList : List ClassSegment → List Char
  | [] => []
  | s :: rest => s.print ++ ClassSegment.printList rest

end

/-- The spelling of a bound. -/
def TypeParameter.printBound : Option TypeSignature → List Char
  | none => [':']
  | some t => ':' :: t.print

/-- The spelling of a type parameter. -/
def TypeParameter.print (p : TypeParameter) : List Char :=
  p.name.toList ++ p.bounds.flatMap TypeParameter.printBound

/-- The spelling of a result. -/
def SignatureBody.printResult : Option TypeSignature → List Char
  | none => ['V']
  | some t => t.print

/-- The spelling of what follows the type parameters. -/
def SignatureBody.print : SignatureBody → List Char
  | .method parameters result? throws =>
    '(' :: (parameters.flatMap TypeSignature.print ++ (')' :: (SignatureBody.printResult result?
      ++ throws.flatMap fun t => '^' :: t.print)))
  | .types ts => ts.flatMap TypeSignature.print

/-- The spelling of a signature. -/
def Signature.print (s : Signature) : List Char :=
  (match s.parameters? with
    | none => []
    | some ps => '<' :: (ps.flatMap TypeParameter.print ++ ['>'])) ++ s.body.print

/-- The text of a signature. -/
def Signature.toString (s : Signature) : String :=
  String.ofList s.print

/-! ## Renaming -/

/-- What is printed for a nested segment: what the renamed name of the class adds to the renamed name of
its outer class, or else the last part of it. -/
def segmentName (f : String → String) (outer full : String) : String :=
  let renamed := f full
  match Text.stripPrefix? (f outer ++ "$") renamed with
  | some segment => segment
  | none => Text.afterLast '$' renamed

mutual

/-- Renames the classes of a type. -/
def TypeSignature.rename (f : String → String) : TypeSignature → TypeSignature
  | .primitive letter => .primitive letter
  | .variable name => .variable name
  | .classType name arguments nested =>
    .classType (f name) (TypeArgument.renameOption f arguments) (ClassSegment.renameList f name nested)
  | .array dimensions element => .array dimensions (element.rename f)

/-- Renames the classes of a type argument. -/
def TypeArgument.rename (f : String → String) : TypeArgument → TypeArgument
  | .wildcard => .wildcard
  | .bounded sign bound => .bounded sign (bound.rename f)
  | .exact type => .exact (type.rename f)

/-- Renames the classes of type arguments. -/
def TypeArgument.renameList (f : String → String) : List TypeArgument → List TypeArgument
  | [] => []
  | a :: rest => a.rename f :: TypeArgument.renameList f rest

/-- Renames the classes of optional type arguments. -/
def TypeArgument.renameOption (f : String → String) :
    Option (List TypeArgument) → Option (List TypeArgument)
  | none => none
  | some arguments => some (TypeArgument.renameList f arguments)

/-- Renames segments nested in the class with the full name `outer`. -/
def ClassSegment.renameList (f : String → String) (outer : String) :
    List ClassSegment → List ClassSegment
  | [] => []
  | ⟨name, arguments⟩ :: rest =>
    let full := outer ++ "$" ++ name
    ⟨segmentName f outer full, TypeArgument.renameOption f arguments⟩
      :: ClassSegment.renameList f full rest

end

/-- Renames the classes of a type parameter. -/
def TypeParameter.rename (f : String → String) (p : TypeParameter) : TypeParameter :=
  { p with bounds := p.bounds.map fun b => b.map (·.rename f) }

/-- Renames the classes of what follows the type parameters. -/
def SignatureBody.rename (f : String → String) : SignatureBody → SignatureBody
  | .method parameters result? throws =>
    .method (parameters.map (·.rename f)) (result?.map (·.rename f)) (throws.map (·.rename f))
  | .types ts => .types (ts.map (·.rename f))

namespace Signature

/-- Renames the classes of a signature. -/
def rename (f : String → String) (s : Signature) : Signature :=
  ⟨s.parameters?.map fun ps => ps.map (·.rename f), s.body.rename f⟩

/-- Renames the classes in the text of a signature. -/
def renameText (f : String → String) (text : String) : Except Error String :=
  (ofString text).map fun s => (s.rename f).toString

end Signature

end Relabel
