import Relabel.Attribute.Decode
import Relabel.Attribute.Encode
import Relabel.Constant.Codec

/-!
# Classes

The parts of a class file around its constant pool: the header, which names the class and its
supertypes, and the members. All names are indices into the pool.
-/

set_option autoImplicit false

namespace Relabel

/-- The number every class file starts with. -/
def classMagic : UInt32 := 0xCAFEBABE

/-- The header of a class. -/
structure Header where
  minor : UInt16
  major : UInt16
  flags : UInt16
  thisClass : UInt16
  /-- The superclass; 0 for the root of the hierarchy and for module descriptions. -/
  superClass : UInt16
  interfaces : List UInt16
  deriving DecidableEq, Repr

namespace Header

/-- The header of nothing in particular. -/
def blank : Header := ⟨0, 0, 0, 0, 0, []⟩

/-- The internal name of the class. -/
def className (h : Header) (p : Pool) : Except Error String :=
  p.className h.thisClass

/-- The internal name of the superclass. -/
def superName? (h : Header) (p : Pool) : Except Error (Option String) :=
  p.className? h.superClass

/-- The internal names of the interfaces. -/
def interfaceNames (h : Header) (p : Pool) : Except Error (List String) :=
  h.interfaces.mapM p.className

/-- The supertypes in the order in which they are searched: the superclass, then the interfaces. -/
def parents (h : Header) (p : Pool) : Except Error (List String) := do
  let super ← h.superName? p
  let interfaces ← h.interfaceNames p
  return super.toList ++ interfaces

end Header

/-- A field or a method. -/
structure Member where
  flags : UInt16
  name : UInt16
  descriptor : UInt16
  attributes : List Attribute
  deriving BEq

namespace Member

/-- The name of a member in a pool. -/
def nameIn (m : Member) (p : Pool) : Except Error String :=
  p.utf8 m.name

/-- The descriptor of a member in a pool. -/
def descriptorIn (m : Member) (p : Pool) : Except Error String :=
  p.utf8 m.descriptor

/-- Reads a member with attributes nested at most `fuel` levels deep. -/
def decode (p : Pool) (skipDebug : Bool) (fuel : Nat) : Decoder Member := do
  let flags ← Decoder.u16
  let name ← Decoder.u16
  let descriptor ← Decoder.u16
  let attributes ← Attribute.decodeList p skipDebug fuel
  return ⟨flags, name, descriptor, attributes⟩

/-- A member as bytes. -/
def encode (m : Member) : Encoding :=
  .u16 m.flags ++ .u16 m.name ++ .u16 m.descriptor ++ Attribute.encodeList m.attributes

end Member

/-- A class as bytes, around fields and methods that are already encoded. -/
def encodeClass (p : Pool) (h : Header) (fieldCount : Nat) (fields : Array UInt8)
    (methodCount : Nat) (methods : Array UInt8) (attributes : List Attribute) : Encoding :=
  .u32 classMagic ++ .u16 h.minor ++ .u16 h.major ++ p.encode ++ .u16 h.flags ++ .u16 h.thisClass
    ++ .u16 h.superClass ++ .counted .interfaces .u16 h.interfaces
    ++ .count .fields fieldCount ++ ⟨fields, none⟩
    ++ .count .methods methodCount ++ ⟨methods, none⟩ ++ Attribute.encodeList attributes

end Relabel
