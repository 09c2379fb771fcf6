import Relabel.Constant.Pool

/-!
# Attributes

An attribute is a named piece of data attached to a class, a field, a method, the code of a method or a
component of a record. The ones that mention class names, member names or descriptors are taken apart;
everything else stays raw bytes. Code and records contain attributes in turn, and an annotation's values
contain annotations, so both families are recursive.

Two models are compared field by field with the structural equality tests at the end.
-/

set_option autoImplicit false

namespace Relabel

/-- A range of code guarded by an exception handler. -/
structure ExceptionHandler where
  startPc : UInt16
  endPc : UInt16
  handlerPc : UInt16
  /-- The class of the exceptions caught, 0 for all. -/
  catchType : UInt16
  deriving DecidableEq, Repr

/-- A class nested in another. -/
structure InnerClass where
  innerClass : UInt16
  outerClass : UInt16
  /-- The simple name; 0 for an anonymous class. -/
  innerName : UInt16
  flags : UInt16
  deriving DecidableEq, Repr

/-- A local variable with its descriptor or its generic signature. -/
structure LocalVariable where
  startPc : UInt16
  length : UInt16
  name : UInt16
  descriptor : UInt16
  index : UInt16
  deriving DecidableEq, Repr

mutual

/-- An annotation: its type and its named values. -/
structure AnnotationInfo where
  type : UInt16
  elements : List (UInt16 × ElementValue)

/-- A value inside an annotation. -/
inductive ElementValue where
  /-- A constant; the tag tells its type. -/
  | const (tag : UInt8) (index : UInt16)
  | enum (type name : UInt16)
  /-- A class literal, given by a descriptor. -/
  | classLiteral (descriptor : UInt16)
  | nested (value : AnnotationInfo)
  | array (values : List ElementValue)

end

/-- An annotation on the use of a type. Where it applies is given by code offsets and local slots, never
by the pool, so it stays the bytes that were read. -/
structure TypeAnnotationInfo where
  targetType : UInt8
  targetInfo : Bytes
  /-- The path into the type, its length byte included. -/
  typePath : Bytes
  info : AnnotationInfo

mutual

/-- A named attribute. -/
structure Attribute where
  name : UInt16
  info : AttributeInfo

/-- The data of an attribute. -/
inductive AttributeInfo where
  | code (maxStack maxLocals : UInt16) (instructions : Bytes) (handlers : List ExceptionHandler)
      (attributes : List Attribute)
  | signature (index : UInt16)
  | innerClasses (classes : List InnerClass)
  | enclosingMethod (owner method : UInt16)
  /-- Local variables with descriptors or with signatures, depending on the attribute's name. -/
  | localVariables (slots : List LocalVariable)
  | annotations (annotations : List AnnotationInfo)
  | parameterAnnotations (parameters : List (List AnnotationInfo))
  | typeAnnotations (annotations : List TypeAnnotationInfo)
  | annotationDefault (value : ElementValue)
  | record (components : List RecordComponent)
  | raw (bytes : Bytes)

/-- A component of a record class. -/
structure RecordComponent where
  name : UInt16
  descriptor : UInt16
  attributes : List Attribute

end

/-- The name of an attribute in a pool. -/
def Attribute.nameIn (a : Attribute) (p : Pool) : Except Error String :=
  p.utf8 a.name

/-! ## Names with a meaning -/

/-- What the name of an attribute says about its data. -/
inductive AttributeKind where
  | code
  | signature
  | innerClasses
  | enclosingMethod
  | localVariables
  | annotations
  | parameterAnnotations
  | typeAnnotations
  | annotationDefault
  | record
  | raw
  deriving DecidableEq, Repr

/-- The name of the attribute that holds a method's code. -/
def codeName : String := "Code"

/-- The name of the table whose variables have generic signatures. -/
def localVariableTypeTableName : String := "LocalVariableTypeTable"

/-- The kind of attribute a name stands for. -/
def AttributeKind.ofName (name : String) : AttributeKind :=
  if name = codeName then .code
  else if name = "Signature" then .signature
  else if name = "InnerClasses" then .innerClasses
  else if name = "EnclosingMethod" then .enclosingMethod
  else if name = "LocalVariableTable" ∨ name = localVariableTypeTableName then .localVariables
  else if name = "RuntimeVisibleAnnotations" ∨ name = "RuntimeInvisibleAnnotations" then
    .annotations
  else if name = "RuntimeVisibleParameterAnnotations"
      ∨ name = "RuntimeInvisibleParameterAnnotations" then
    .parameterAnnotations
  else if name = "RuntimeVisibleTypeAnnotations" ∨ name = "RuntimeInvisibleTypeAnnotations" then
    .typeAnnotations
  else if name = "AnnotationDefault" then .annotationDefault
  else if name = "Record" then .record
  else .raw

/-- The attributes that only serve debuggers. -/
def debugAttributes : List String :=
  ["SourceFile", "SourceDebugExtension", "LineNumberTable", "LocalVariableTable",
    localVariableTypeTableName]

/-! ## Equality tests -/

mutual

/-- Equality of annotations. -/
def AnnotationInfo.beq : AnnotationInfo → AnnotationInfo → Bool
  | ⟨t, es⟩, ⟨t', es'⟩ => t == t' && ElementValue.beqNamed es es'

/-- Equality of annotation values. -/
def ElementValue.beq : ElementValue → ElementValue → Bool
  | .const t i, .const t' i' => t == t' && i == i'
  | .enum t n, .enum t' n' => t == t' && n == n'
  | .classLiteral d, .classLiteral d' => d == d'
  | .nested a, .nested a' => a.beq a'
  | .array vs, .array vs' => ElementValue.beqList vs vs'
  | _, _ => false

/-- Equality of lists of named values. -/
def ElementValue.beqNamed : List (UInt16 × ElementValue) → List (UInt16 × ElementValue) → Bool
  | [], [] => true
  | (n, v) :: vs, (n', v') :: vs' => n == n' && v.beq v' && ElementValue.beqNamed vs vs'
  | _, _ => false

/-- Equality of lists of values. -/
def ElementValue.beqList : List ElementValue → List ElementValue → Bool
  | [], [] => true
  | v :: vs, v' :: vs' => v.beq v' && ElementValue.beqList vs vs'
  | _, _ => false

end

instance : BEq AnnotationInfo := ⟨AnnotationInfo.beq⟩

instance : BEq ElementValue := ⟨ElementValue.beq⟩

deriving instance BEq for TypeAnnotationInfo

mutual

/-- Equality of attributes. -/
def Attribute.beq : Attribute → Attribute → Bool
  | ⟨n, i⟩, ⟨n', i'⟩ => n == n' && i.beq i'

/-- Equality of attribute data. -/
def AttributeInfo.beq : AttributeInfo → AttributeInfo → Bool
  | .code s l c h as, .code s' l' c' h' as' =>
    s == s' && l == l' && c == c' && h == h' && Attribute.beqList as as'
  | .signature i, .signature i' => i == i'
  | .innerClasses cs, .innerClasses cs' => cs == cs'
  | .enclosingMethod o m, .enclosingMethod o' m' => o == o' && m == m'
  | .localVariables vs, .localVariables vs' => vs == vs'
  | .annotations as, .annotations as' => as == as'
  | .parameterAnnotations ps, .parameterAnnotations ps' => ps == ps'
  | .typeAnnotations as, .typeAnnotations as' => as == as'
  | .annotationDefault v, .annotationDefault v' => v == v'
  | .record cs, .record cs' => RecordComponent.beqList cs cs'
  | .raw bs, .raw bs' => bs == bs'
  | _, _ => false

/-- Equality of record components. -/
def RecordComponent.beq : RecordComponent → RecordComponent → Bool
  | ⟨n, d, as⟩, ⟨n', d', as'⟩ => n == n' && d == d' && Attribute.beqList as as'

/-- Equality of lists of attributes. -/
def Attribute.beqList : List Attribute → List Attribute → Bool
  | [], [] => true
  | a :: as, a' :: as' => a.beq a' && Attribute.beqList as as'
  | _, _ => false

/-- Equality of lists of record components. -/
def RecordComponent.beqList : List RecordComponent → List RecordComponent → Bool
  | [], [] => true
  | c :: cs, c' :: cs' => c.beq c' && RecordComponent.beqList cs cs'
  | _, _ => false

end

instance : BEq Attribute := ⟨Attribute.beq⟩

end Relabel
