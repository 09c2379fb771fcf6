import Relabel.Attribute.Basic
import Relabel.Bytes.Encoding

/-!
# Writing attributes

Every count and length is computed from what is written. A body is completed before anything of its
attribute goes out, so a fault inside a body leaves no trace of that attribute, while the attributes
before it stay written.
-/

set_option autoImplicit false

namespace Relabel

/-! ## Annotations -/

mutual

/-- An annotation as bytes. -/
def AnnotationInfo.encode : AnnotationInfo → Encoding
  | ⟨type, elements⟩ =>
    .u16 type ++ .count .annotationElements elements.length
      ++ ElementValue.encodeNamed .empty elements

/-- An annotation value as bytes. -/
def ElementValue.encode : ElementValue → Encoding
  | .const tag index => .ofBytes (tag :: Bytes.ofUInt16 index)
  | .enum type name => .ofBytes (0x65 :: (Bytes.ofUInt16 type ++ Bytes.ofUInt16 name))
  | .classLiteral descriptor => .ofBytes (0x63 :: Bytes.ofUInt16 descriptor)
  | .nested value => .u8 0x40 ++ value.encode
  | .array values =>
    .u8 0x5b ++ .count .arrayElements values.length ++ ElementValue.encodeList .empty values

/-- Named values behind `acc`. -/
def ElementValue.encodeNamed (acc : Encoding) : List (UInt16 × ElementValue) → Encoding
  | [] => acc
  | (name, value) :: rest => ElementValue.encodeNamed (acc ++ (.u16 name ++ value.encode)) rest

/-- Values behind `acc`. -/
def ElementValue.encodeList (acc : Encoding) : List ElementValue → Encoding
  | [] => acc
  | value :: rest => ElementValue.encodeList (acc ++ value.encode) rest

end

/-- A list of annotations as bytes. -/
def AnnotationInfo.encodeList (annotations : List AnnotationInfo) : Encoding :=
  .counted .annotations AnnotationInfo.encode annotations

/-- A type annotation as bytes. -/
def TypeAnnotationInfo.encode (a : TypeAnnotationInfo) : Encoding :=
  .u8 a.targetType ++ .ofBytes a.targetInfo ++ .ofBytes a.typePath ++ a.info.encode

/-! ## Tables of indices -/

/-- An exception handler as bytes. -/
def ExceptionHandler.encode (h : ExceptionHandler) : Encoding :=
  .u16 h.startPc ++ .u16 h.endPc ++ .u16 h.handlerPc ++ .u16 h.catchType

/-- An entry of a table of nested classes as bytes. -/
def InnerClass.encode (c : InnerClass) : Encoding :=
  .u16 c.innerClass ++ .u16 c.outerClass ++ .u16 c.innerName ++ .u16 c.flags

/-- A local variable as bytes. -/
def LocalVariable.encode (v : LocalVariable) : Encoding :=
  .u16 v.startPc ++ .u16 v.length ++ .u16 v.name ++ .u16 v.descriptor ++ .u16 v.index

/-- Annotations per parameter; their number has eight bits. -/
def AnnotationInfo.encodeParameters (parameters : List (List AnnotationInfo)) : Encoding :=
  if parameters.length ≤ 255 then
    .u8 (UInt8.ofNat parameters.length) ++ .sequence AnnotationInfo.encodeList parameters
  else .refuse .tooManyParameters

/-! ## Attributes -/

/-- An attribute around a finished body. -/
def Attribute.encodeAround (name : UInt16) (body : Encoding) : Encoding :=
  match body.fault? with
  | some fault => ⟨#[], some fault⟩
  | none => .u16 name ++ .length .attribute body.bytes.size ++ body

mutual

/-- An attribute as bytes. -/
def Attribute.encode : Attribute → Encoding
  | ⟨name, info⟩ => Attribute.encodeAround name info.encode

/-- The body of an attribute as bytes. -/
def AttributeInfo.encode : AttributeInfo → Encoding
  | .code maxStack maxLocals instructions handlers attributes =>
    .u16 maxStack ++ .u16 maxLocals ++ .length .codeArray instructions.length
      ++ .ofBytes instructions ++ .counted .exceptionHandlers ExceptionHandler.encode handlers
      ++ .count .attributes attributes.length ++ Attribute.encodeItems .empty attributes
  | .signature index => .u16 index
  | .innerClasses classes => .counted .innerClasses InnerClass.encode classes
  | .enclosingMethod owner method => .u16 owner ++ .u16 method
  | .localVariables slots => .counted .localVariables LocalVariable.encode slots
  | .annotations annotations => AnnotationInfo.encodeList annotations
  | .parameterAnnotations parameters => AnnotationInfo.encodeParameters parameters
  | .typeAnnotations annotations => .counted .typeAnnotations TypeAnnotationInfo.encode annotations
  | .annotationDefault value => value.encode
  | .record components =>
    .count .recordComponents components.length ++ RecordComponent.encodeItems .empty components
  | .raw bytes => .ofBytes bytes

/-- A record component as bytes. -/
def RecordComponent.encode : RecordComponent → Encoding
  | ⟨name, descriptor, attributes⟩ =>
    .u16 name ++ .u16 descriptor ++ .count .attributes attributes.length
      ++ Attribute.encodeItems .empty attributes

/-- Attributes behind `acc`. -/
def Attribute.encodeItems (acc : Encoding) : List Attribute → Encoding
  | [] => acc
  | a :: rest => Attribute.encodeItems (acc ++ a.encode) rest

/-- Record components behind `acc`. -/
def RecordComponent.encodeItems (acc : Encoding) : List RecordComponent → Encoding
  | [] => acc
  | c :: rest => RecordComponent.encodeItems (acc ++ c.encode) rest

end

/-- A counted list of attributes as bytes. -/
def Attribute.encodeList (attributes : List Attribute) : Encoding :=
  .count .attributes attributes.length ++ Attribute.encodeItems .empty attributes

end Relabel
