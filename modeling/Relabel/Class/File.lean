import Relabel.Class.Stream

/-!
# Class files

The pool and the header of a class file are read at once, so a file whose header does not name a class
is refused early. The body is read when its events are asked for, one element at a time; elements before
a malformed one are still produced.
-/

set_option autoImplicit false

namespace Relabel

/-- What a reader of class files is asked to do. Bits without a meaning are kept. -/
structure ReaderFlags where
  bits : UInt8
  deriving DecidableEq, Repr

namespace ReaderFlags

/-- Nothing is asked. -/
def none : ReaderFlags := ⟨0⟩

/-- Drop the attributes that only serve debuggers. -/
def skipDebug : ReaderFlags := ⟨1⟩

/-- Hand stack frames over in full. They are never compressed here, so this asks for nothing more. -/
def expandFrames : ReaderFlags := ⟨2⟩

/-- Both requests. -/
def union (a b : ReaderFlags) : ReaderFlags := ⟨a.bits ||| b.bits⟩

/-- Whether debug attributes are dropped. -/
def skipsDebug (f : ReaderFlags) : Bool :=
  f.bits &&& 1 != 0

end ReaderFlags

/-- A class file with its pool and header read. -/
structure ClassFile where
  bytes : Bytes
  pool : Pool
  header : Header
  /-- The place where the body starts. -/
  body : Cursor

namespace ClassFile

/-- Reads everything before the body. -/
def decodeHead : Decoder (Pool × Header) := do
  let magic ← Decoder.u32
  if magic ≠ classMagic then Decoder.fail (.badMagic magic)
  let minor ← Decoder.u16
  let major ← Decoder.u16
  let pool ← Pool.decode
  let flags ← Decoder.u16
  let thisClass ← Decoder.u16
  let superClass ← Decoder.u16
  let interfaces ← Decoder.counted Decoder.u16
  return (pool, ⟨minor, major, flags, thisClass, superClass, interfaces⟩)

/-- Reads the pool and the header, which must name the class. -/
def ofBytes (bytes : Bytes) : Except Error ClassFile :=
  match decodeHead (Cursor.start bytes) with
  | .error e => .error e
  | .ok ((pool, header), body) =>
    match header.className pool with
    | .error e => .error e
    | .ok _ => .ok ⟨bytes, pool, header, body⟩

/-- The internal name of the class. -/
def className (f : ClassFile) : Except Error String :=
  f.header.className f.pool

/-- The internal name of the superclass. -/
def superName? (f : ClassFile) : Except Error (Option String) :=
  f.header.superName? f.pool

/-- The internal names of the interfaces. -/
def interfaceNames (f : ClassFile) : Except Error (List String) :=
  f.header.interfaceNames f.pool

/-- The supertypes in the order in which they are searched. -/
def parents (f : ClassFile) : Except Error (List String) :=
  f.header.parents f.pool

/-! ## The body -/

/-- A reader that hands elements on as it goes: the place it has reached and the elements so far,
latest first. -/
abbrev BodyReader := EStateM Error (Cursor × List ClassItem)

/-- Reads something that is not an element. -/
def BodyReader.skip {α : Type} (d : Decoder α) : BodyReader α := fun (c, items) =>
  match d c with
  | .ok (a, c) => .ok a (c, items)
  | .error e => .error e (c, items)

/-- Reads `n` elements. -/
def BodyReader.elements (d : Decoder ClassItem) : Nat → BodyReader Unit
  | 0, s => .ok () s
  | n + 1, (c, items) =>
    match d c with
    | .ok (item, c) => elements d n (c, item :: items)
    | .error e => .error e (c, items)

/-- Hands elements on that were read together. -/
def BodyReader.emit (items : List ClassItem) : BodyReader Unit := fun (c, before) =>
  .ok () (c, items.reverse ++ before)

/-- Reads the fields, the methods and the attributes, which must end the file. The attributes are read
together: if one of them is malformed, none is handed on. -/
def BodyReader.all (p : Pool) (skipDebug : Bool) (fuel : Nat) : BodyReader Unit := do
  let fields ← skip Decoder.u16
  elements (ClassItem.field <$> Member.decode p skipDebug fuel) fields.toNat
  let methods ← skip Decoder.u16
  elements (ClassItem.method <$> Member.decode p skipDebug fuel) methods.toNat
  let attributes ← skip (Attribute.decodeList p skipDebug fuel)
  emit (attributes.map .attr)
  let left ← skip Decoder.remaining
  if left ≠ 0 then throw (.classFile (.bodyTail left))

/-- The events of a class file. -/
def events (f : ClassFile) (flags : ReaderFlags) : ClassEvents :=
  match BodyReader.all f.pool flags.skipsDebug f.body.rest.length (f.body, []) with
  | .ok () (_, items) => ⟨f.pool, f.header, items.reverse, none⟩
  | .error e (_, items) => ⟨f.pool, f.header, items.reverse, some e⟩

end ClassFile

end Relabel
