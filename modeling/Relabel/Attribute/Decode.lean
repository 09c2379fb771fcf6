import Relabel.Attribute.Basic
import Relabel.Bytes.Cursor

/-!
# Reading attributes

An attribute is read in two steps: its name index and its length delimit a body, and the name, looked up
in the pool, decides how the body is taken apart. A body that is taken apart must be used up; a raw body
always is. Reading can be asked to drop the attributes that only serve debuggers, at every level.

Values nest inside values and attributes inside attributes. Each level takes bytes of its own, so the
number of bytes bounds the nesting, and that bound is the fuel of the two recursions.
-/

set_option autoImplicit false

namespace Relabel

open Decoder

/-! ## Annotations -/

/-- The tags of constant values: the primitive types and the string. -/
def ElementValue.constTags : List UInt8 :=
  ['B', 'C', 'D', 'F', 'I', 'J', 'S', 'Z', 's'].map fun c => UInt8.ofNat c.toNat

/-- An annotation whose values are read by `value`. -/
def AnnotationInfo.decodeWith (value : Decoder ElementValue) : Decoder AnnotationInfo := do
  let type ← u16
  let elements ← counted do
    let name ← u16
    let v ← value
    return (name, v)
  return ⟨type, elements⟩

/-- An annotation value nested at most `fuel` levels deep. -/
def ElementValue.decode : (fuel : Nat) → Decoder ElementValue
  | 0 => do
    let tag ← u8
    fail (.unknownElement tag)
  | fuel + 1 => do
    let tag ← u8
    if constTags.contains tag then return .const tag (← u16)
    else if tag = 0x65 then
      let type ← u16
      return .enum type (← u16)
    else if tag = 0x63 then return .classLiteral (← u16)
    else if tag = 0x40 then return .nested (← AnnotationInfo.decodeWith (decode fuel))
    else if tag = 0x5b then return .array (← counted (decode fuel))
    else fail (.unknownElement tag)

/-- An annotation with values nested at most `fuel` levels deep. -/
def AnnotationInfo.decode (fuel : Nat) : Decoder AnnotationInfo :=
  decodeWith (ElementValue.decode fuel)

/-- What tells where a type annotation applies. The kind of target fixes its size, except that a local
variable has a counted table of ranges. -/
def TypeAnnotationInfo.decodeTarget (target : UInt8) : Decoder Bytes :=
  if target = 0x00 ∨ target = 0x01 ∨ target = 0x16 then take 1
  else if (0x10 ≤ target ∧ target ≤ 0x12) ∨ target = 0x17 ∨ (0x42 ≤ target ∧ target ≤ 0x46) then
    take 2
  else if 0x13 ≤ target ∧ target ≤ 0x15 then pure []
  else if 0x47 ≤ target ∧ target ≤ 0x4B then take 3
  else if target = 0x40 ∨ target = 0x41 then do
    let entries ← u16
    let table ← take (entries.toNat * 6)
    return Bytes.ofUInt16 entries ++ table
  else fail (.unknownTarget target)

/-- The path into a type, its length byte included. -/
def TypeAnnotationInfo.decodePath : Decoder Bytes := do
  let steps ← u8
  return steps :: (← take (steps.toNat * 2))

/-- A type annotation with values nested at most `fuel` levels deep. -/
def TypeAnnotationInfo.decode (fuel : Nat) : Decoder TypeAnnotationInfo := do
  let targetType ← u8
  let targetInfo ← decodeTarget targetType
  let typePath ← decodePath
  let info ← AnnotationInfo.decode fuel
  return ⟨targetType, targetInfo, typePath, info⟩

/-! ## Tables of indices -/

/-- An exception handler. -/
def ExceptionHandler.decode : Decoder ExceptionHandler := do
  let startPc ← u16
  let endPc ← u16
  let handlerPc ← u16
  return ⟨startPc, endPc, handlerPc, ← u16⟩

/-- An entry of a table of nested classes. -/
def InnerClass.decode : Decoder InnerClass := do
  let inner ← u16
  let outer ← u16
  let name ← u16
  return ⟨inner, outer, name, ← u16⟩

/-- A local variable. -/
def LocalVariable.decode : Decoder LocalVariable := do
  let startPc ← u16
  let length ← u16
  let name ← u16
  let descriptor ← u16
  return ⟨startPc, length, name, descriptor, ← u16⟩

/-! ## Attributes -/

/-- The data of an attribute of a given kind, from a body of `size` bytes. Attributes inside it are read
by `nested`. -/
def AttributeInfo.decodeWith (nested : Decoder (List Attribute)) (size : Nat) :
    AttributeKind → Decoder AttributeInfo
  | .code => do
    let maxStack ← u16
    let maxLocals ← u16
    let length ← u32
    let instructions ← take length.toNat
    let handlers ← counted ExceptionHandler.decode
    return .code maxStack maxLocals instructions handlers (← nested)
  | .signature => return .signature (← u16)
  | .innerClasses => return .innerClasses (← counted InnerClass.decode)
  | .enclosingMethod => do
    let owner ← u16
    return .enclosingMethod owner (← u16)
  | .localVariables => return .localVariables (← counted LocalVariable.decode)
  | .annotations => return .annotations (← counted (AnnotationInfo.decode size))
  | .parameterAnnotations => do
    let parameters ← u8
    return .parameterAnnotations (← times parameters.toNat (counted (AnnotationInfo.decode size)))
  | .typeAnnotations => return .typeAnnotations (← counted (TypeAnnotationInfo.decode size))
  | .annotationDefault => return .annotationDefault (← ElementValue.decode size)
  | .record => do
    let components ← counted do
      let name ← u16
      let descriptor ← u16
      let attributes ← nested
      return (⟨name, descriptor, attributes⟩ : RecordComponent)
    return .record components
  | .raw => return .raw (← takeRest)

/-- The data of an attribute with a given name, which must take up the whole body. -/
def AttributeInfo.decodeBody (nested : Decoder (List Attribute)) (name : String) (body : Bytes) :
    Except Error AttributeInfo :=
  match decodeWith nested body.length (AttributeKind.ofName name) (Cursor.start body) with
  | .error e => .error e
  | .ok (info, c) =>
    if c.rest.isEmpty then .ok info
    else .error (.classFile (.attributeTail name c.rest.length))

/-- An attribute, or nothing when it is dropped. -/
def Attribute.decodeWith (p : Pool) (skipDebug : Bool) (nested : Decoder (List Attribute)) :
    Decoder (Option Attribute) := do
  let name ← u16
  let length ← u32
  let body ← take length.toNat
  let text ← p.utf8 name
  if skipDebug && debugAttributes.contains text then return none
  let info ← AttributeInfo.decodeBody nested text body
  return some ⟨name, info⟩

/-- A counted list of attributes nested at most `fuel` levels deep. -/
def Attribute.decodeList (p : Pool) (skipDebug : Bool) : (fuel : Nat) → Decoder (List Attribute)
  | 0 => do
    let count ← u16
    let _ ← times count.toNat (take 6)
    return []
  | fuel + 1 => do
    let attributes ← counted (decodeWith p skipDebug (decodeList p skipDebug fuel))
    return attributes.reduceOption

end Relabel
