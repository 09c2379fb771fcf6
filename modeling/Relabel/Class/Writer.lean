import Relabel.Class.Stream

/-!
# Writing a class as its events arrive

A writer is a sink that encodes members as it receives them and keeps their bytes. The pool is only known
at the end, so the file is put together there. The end uses the header up: a second end needs a second
header. A member counts as soon as it arrives, and what could be encoded of it stays, also when encoding
it fails.

Instructions are never touched, so stack sizes and frames stay valid and nothing has to be computed;
the flags are kept for callers that want to know what was asked.
-/

set_option autoImplicit false

namespace Relabel

/-- What a writer of class files is asked to do. Bits without a meaning are kept. -/
structure WriterFlags where
  bits : UInt8
  deriving DecidableEq, Repr

/-- Nothing is asked. -/
def WriterFlags.none : WriterFlags := ⟨0⟩

/-- Both requests. -/
def WriterFlags.union (a b : WriterFlags) : WriterFlags := ⟨a.bits ||| b.bits⟩

/-- The state of a writer. -/
structure ClassWriter where
  flags : WriterFlags
  header? : Option Header
  fields : Array UInt8
  fieldCount : Nat
  methods : Array UInt8
  methodCount : Nat
  attributes : Array Attribute
  /-- The name of the class that was written. -/
  name? : Option String
  output? : Option Bytes

namespace ClassWriter

/-- A writer that received nothing. -/
def new (flags : WriterFlags) : ClassWriter :=
  ⟨flags, none, #[], 0, #[], 0, #[], none, none⟩

/-- Receives the header. -/
def onHeader (h : Header) : Effect ClassWriter Unit :=
  modify fun w => { w with header? := some h }

/-- Receives a field. -/
def onField (f : Member) : Effect ClassWriter Unit := fun w =>
  let e := f.encode
  let w := { w with fields := w.fields ++ e.bytes, fieldCount := w.fieldCount + 1 }
  match e.fault? with
  | none => .ok () w
  | some fault => .error fault w

/-- Receives a method. -/
def onMethod (f : Member) : Effect ClassWriter Unit := fun w =>
  let e := f.encode
  let w := { w with methods := w.methods ++ e.bytes, methodCount := w.methodCount + 1 }
  match e.fault? with
  | none => .ok () w
  | some fault => .error fault w

/-- Receives an attribute of the class. -/
def onAttribute (a : Attribute) : Effect ClassWriter Unit :=
  modify fun w => { w with attributes := w.attributes.push a }

/-- Receives the end and the pool, and puts the file together. -/
def onEnd (p : Pool) : Effect ClassWriter Unit := fun w =>
  match w.header? with
  | none => .error (.classFile .endBeforeHeader) w
  | some h =>
    let w := { w with header? := none }
    let e := encodeClass p h w.fieldCount w.fields w.methodCount w.methods w.attributes.toList
    match e.result with
    | .error fault => .error fault w
    | .ok bytes =>
      match h.className p with
      | .error fault => .error fault w
      | .ok name => .ok () { w with name? := some name, output? := some bytes }

/-- The writer as the end of a pass. -/
def sink : Sink ClassWriter := ⟨onHeader, onField, onMethod, onAttribute, onEnd⟩

/-- The file, once it was put together. -/
def bytes (w : ClassWriter) : Except Error Bytes :=
  match w.output? with
  | some bytes => .ok bytes
  | none => .error (.classFile .incompleteClass)

end ClassWriter

end Relabel
