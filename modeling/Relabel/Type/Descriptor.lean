import Relabel.Error

/-!
# Descriptors

The type of a field, or the types of the parameters and the result of a method, as a class file spells
them. A descriptor is parsed, the class names in it are renamed, and it is printed again. Whether a text
is a descriptor does not depend on the renaming, and renaming nothing gives the text back.
-/

set_option autoImplicit false

namespace Relabel

/-- The letters of the primitive types. -/
def primitiveLetters : List Char := ['B', 'C', 'D', 'F', 'I', 'J', 'S', 'Z']

/-- A type that is not an array. -/
inductive ScalarType where
  | primitive (letter : Char)
  | object (name : String)
  deriving DecidableEq, Repr

/-- The type of a field: so many dimensions of a scalar. -/
structure FieldType where
  dimensions : Nat
  scalar : ScalarType
  deriving DecidableEq, Repr

/-- The type of a method. A method without a result is void. -/
structure MethodType where
  parameters : List FieldType
  result? : Option FieldType
  deriving DecidableEq, Repr

namespace ScalarType

/-- A scalar at the start of a text: a primitive letter, or a class name between `L` and `;`. -/
def parse : List Char → Option (ScalarType × List Char)
  | [] => none
  | c :: cs =>
    if primitiveLetters.contains c then some (.primitive c, cs)
    else if c = 'L' then
      match cs.span (· ≠ ';') with
      | ([], _) => none
      | (_, []) => none
      | (name, _ :: rest) => some (.object (String.ofList name), rest)
    else none

/-- The spelling of a scalar. -/
def print : ScalarType → List Char
  | .primitive letter => [letter]
  | .object name => 'L' :: (name.toList ++ [';'])

/-- Renames the class of a scalar. -/
def rename (f : String → String) : ScalarType → ScalarType
  | .primitive letter => .primitive letter
  | .object name => .object (f name)

end ScalarType

namespace FieldType

/-- A field type at the start of a text. -/
def parse (cs : List Char) : Option (FieldType × List Char) :=
  let (brackets, rest) := cs.span (· = '[')
  (ScalarType.parse rest).map fun (scalar, rest) => (⟨brackets.length, scalar⟩, rest)

/-- The spelling of a field type. -/
def print (t : FieldType) : List Char :=
  List.replicate t.dimensions '[' ++ t.scalar.print

/-- Renames the class of a field type. -/
def rename (f : String → String) (t : FieldType) : FieldType :=
  { t with scalar := t.scalar.rename f }

/-- The field type a text spells. -/
def ofString (s : String) : Except Error FieldType :=
  match parse s.toList with
  | none => .error (.unsupported (.malformedDescriptor .any s))
  | some (t, []) => .ok t
  | some (_, _ :: _) => .error (.unsupported (.malformedDescriptor .field s))

/-- The text of a field type. -/
def toString (t : FieldType) : String :=
  String.ofList t.print

end FieldType

namespace MethodType

/-- The parameter types up to the closing parenthesis, after `acc` backwards. A parameter takes at least
one character, so `fuel` characters hold at most `fuel` parameters. -/
def parseParameters (acc : List FieldType) :
    (fuel : Nat) → List Char → Except DescriptorKind (List FieldType × List Char)
  | _, [] => .error .method
  | _, ')' :: rest => .ok (acc.reverse, rest)
  | 0, _ => .error .any
  | fuel + 1, cs =>
    match FieldType.parse cs with
    | none => .error .any
    | some (t, rest) => parseParameters (t :: acc) fuel rest

/-- The result type, which must end the text. -/
def parseResult (cs : List Char) : Except DescriptorKind (Option FieldType) :=
  match cs with
  | 'V' :: rest => if rest.isEmpty then .ok none else .error .method
  | _ =>
    match FieldType.parse cs with
    | none => .error .any
    | some (t, rest) => if rest.isEmpty then .ok (some t) else .error .method

/-- A method type that takes up a whole text, or the kind of descriptor it fails to be. -/
def parse (cs : List Char) : Except DescriptorKind MethodType :=
  match cs with
  | '(' :: cs =>
    match parseParameters [] cs.length cs with
    | .error kind => .error kind
    | .ok (parameters, rest) =>
      match parseResult rest with
      | .error kind => .error kind
      | .ok result? => .ok ⟨parameters, result?⟩
  | _ => .error .method

/-- The spelling of a method type. -/
def print (t : MethodType) : List Char :=
  '(' :: (t.parameters.flatMap FieldType.print
    ++ ')' :: match t.result? with
      | none => ['V']
      | some r => r.print)

/-- Renames the classes of a method type. -/
def rename (f : String → String) (t : MethodType) : MethodType :=
  ⟨t.parameters.map (·.rename f), t.result?.map (·.rename f)⟩

/-- The method type a text spells. -/
def ofString (s : String) : Except Error MethodType :=
  match parse s.toList with
  | .ok t => .ok t
  | .error kind => .error (.unsupported (.malformedDescriptor kind s))

/-- The text of a method type. -/
def toString (t : MethodType) : String :=
  String.ofList t.print

end MethodType

namespace Descriptor

/-- Renames the class in a field descriptor. -/
def renameField (f : String → String) (s : String) : Except Error String :=
  (FieldType.ofString s).map fun t => (t.rename f).toString

/-- Renames the classes in a method descriptor. -/
def renameMethod (f : String → String) (s : String) : Except Error String :=
  (MethodType.ofString s).map fun t => (t.rename f).toString

/-- Renames the class a class constant names: an internal name or, for an array, a descriptor. -/
def renameType (f : String → String) (s : String) : Except Error String :=
  if s.toList.head? = some '[' then renameField f s else .ok (f s)

end Descriptor

end Relabel
