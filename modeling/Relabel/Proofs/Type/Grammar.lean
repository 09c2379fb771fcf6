import Relabel.Type.Signature

/-!
# The grammar of signatures

A signature is a list of type parameters and then a method or some types. The grammar is said of trees: a tree
is *spelled* if every name in it ends where its spelling ends, every type stands where such a type may stand,
and a bound is left out only where none could begin. The texts of the grammar are what is printed for such
trees.

A name ends at the first character that can follow it, so it may contain any other character. That leaves one
ambiguity: a type parameter ends at a colon, and its name could begin with the bracket that closes the list.
`Closes` rules this out, so that the first bracket in the place of a name closes the list.
-/

set_option autoImplicit false

namespace Relabel

/-- A name that ends at the first of the stop characters: it is not empty and has none of them. -/
def IsIdentifier (stops : List Char) (name : String) : Prop :=
  name ≠ "" ∧ ∀ c ∈ name.toList, c ∉ stops

instance (stops : List Char) (name : String) : Decidable (IsIdentifier stops name) :=
  @instDecidableAnd _ _ inferInstance (List.decidableBAll _ _)

/-- A type variable, a class or an array. -/
def TypeSignature.IsReference : TypeSignature → Prop
  | .primitive _ => False
  | _ => True

/-- A type without brackets in front of it. -/
def TypeSignature.IsScalar : TypeSignature → Prop
  | .array _ _ => False
  | _ => True

mutual

/-- A type: a primitive letter, `T name ;`, `L name arguments? { . name arguments? } ;`, or brackets and a
type. -/
def TypeSignature.Spelled : TypeSignature → Prop
  | .primitive letter => letter ∈ primitiveLetters
  | .variable name => IsIdentifier [';'] name
  | .classType name arguments nested =>
    IsIdentifier ['<', '.', ';'] name ∧ TypeArgument.SpelledOption arguments ∧ ClassSegment.SpelledList nested
  | .array dimensions element => 0 < dimensions ∧ element.IsScalar ∧ element.Spelled

/-- A type argument: `*`, a sign and a reference type, or a reference type. -/
def TypeArgument.Spelled : TypeArgument → Prop
  | .wildcard => True
  | .bounded sign bound => sign ∈ ['+', '-'] ∧ bound.IsReference ∧ bound.Spelled
  | .exact type => type.IsReference ∧ type.Spelled

/-- Type arguments one after the other. -/
def TypeArgument.SpelledList : List TypeArgument → Prop
  | [] => True
  | a :: rest => a.Spelled ∧ TypeArgument.SpelledList rest

/-- The type arguments of a class, if it has any: `< { argument } >`. -/
def TypeArgument.SpelledOption : Option (List TypeArgument) → Prop
  | none => True
  | some arguments => TypeArgument.SpelledList arguments

/-- Nested segments one after the other. -/
def ClassSegment.SpelledList : List ClassSegment → Prop
  | [] => True
  | ⟨name, arguments⟩ :: rest =>
    IsIdentifier ['<', '.', ';'] name ∧ TypeArgument.SpelledOption arguments ∧ ClassSegment.SpelledList rest

end

/-- A reference type. -/
def TypeSignature.SpelledReference (t : TypeSignature) : Prop := t.IsReference ∧ t.Spelled

/-- The characters with which a reference type begins. -/
def referenceLetters : List Char := ['L', 'T', '[']

namespace TypeParameter

/-- A type parameter: a name and then bounds, each a colon and perhaps a reference type, at least one. -/
structure Spelled (p : TypeParameter) : Prop where
  name : IsIdentifier [':'] p.name
  bounds : p.bounds ≠ []
  types : ∀ t, some t ∈ p.bounds → t.SpelledReference

/-- Type parameters one after the other. Where a bound is left out, no reference type can begin: behind the
last bound stands the name of the next parameter. -/
def SpelledRow : List TypeParameter → Prop
  | [] => True
  | p :: ps =>
    p.Spelled ∧
    (p.bounds.getLast? = some none → ∀ q ∈ ps.head?, ∀ c ∈ q.name.toList.head?, c ∉ referenceLetters) ∧
    SpelledRow ps

/-- The name of the parameter cannot be taken for the end of the list of parameters. -/
def Closes (p : TypeParameter) : Prop := p.name.toList.head? ≠ some '>'

end TypeParameter

/-- What follows the type parameters: `( { type } ) result { ^ reference type }`, where the result is a type
or void, or one or more reference types. -/
def SignatureBody.Spelled : SignatureBody → Prop
  | .method parameters result? throws =>
    (∀ t ∈ parameters, t.Spelled) ∧ (∀ t ∈ result?, t.Spelled) ∧ ∀ t ∈ throws, t.SpelledReference
  | .types ts => ts ≠ [] ∧ ∀ t ∈ ts, t.SpelledReference

namespace Signature

/-- A signature: perhaps `< { type parameter } >`, and a body. -/
structure Spelled (s : Signature) : Prop where
  parameters : ∀ ps ∈ s.parameters?, TypeParameter.SpelledRow ps
  body : s.body.Spelled

/-- The text derives from the grammar, with this tree. -/
def Spells (s : Signature) (text : String) : Prop := s.Spelled ∧ s.toString = text

/-- The list of type parameters ends at the first `>` in the place of a name. -/
def Closes (s : Signature) : Prop := ∀ ps ∈ s.parameters?, ∀ p ∈ ps, p.Closes

end Signature

end Relabel
