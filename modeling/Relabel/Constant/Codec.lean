import Relabel.Bytes.Encoding
import Relabel.Constant.Pool

/-!
# The constant pool as bytes

A constant is a tag byte and a payload, and a pool is its slot count followed by the constants of slots
1, 2, and so on. An unusable slot is written as nothing: a wide constant counts for two slots and is
written once.
-/

set_option autoImplicit false

namespace Relabel

/-- The tag of a member reference. -/
def MemberKind.tag : MemberKind → UInt8
  | .field => 9
  | .method => 10
  | .interfaceMethod => 11

namespace Constant

/-- Two indices. -/
def decodePair {α : Type} (f : UInt16 → UInt16 → α) : Decoder α := do
  let a ← Decoder.u16
  let b ← Decoder.u16
  return f a b

/-- The payload behind a tag byte that stood just before the cursor. -/
def decodePayload (tag : UInt8) : Decoder Constant := do
  match tag with
  | 1 => do
    let n ← Decoder.u16
    return .utf8 (← Decoder.take n.toNat)
  | 3 => return .integer (← Decoder.u32)
  | 4 => return .float (← Decoder.u32)
  | 5 => return .long (← Decoder.u64)
  | 6 => return .double (← Decoder.u64)
  | 7 => return .classRef (← Decoder.u16)
  | 8 => return .string (← Decoder.u16)
  | 9 => decodePair (.member .field)
  | 10 => decodePair (.member .method)
  | 11 => decodePair (.member .interfaceMethod)
  | 12 => decodePair .nameAndType
  | 15 => do
    let kind ← Decoder.u8
    return .methodHandle kind (← Decoder.u16)
  | 16 => return .methodType (← Decoder.u16)
  | 17 => decodePair .dynamic
  | 18 => decodePair .invokeDynamic
  | 19 => return .moduleRef (← Decoder.u16)
  | 20 => return .packageRef (← Decoder.u16)
  | _ => do
    let pos ← Decoder.position
    Decoder.fail (.unknownConstant tag (pos - 1))

/-- A tag byte and its payload. -/
def decode : Decoder Constant := do
  decodePayload (← Decoder.u8)

/-- A tag and two indices. -/
def encodePair (tag : UInt8) (a b : UInt16) : Encoding :=
  .ofBytes (tag :: (Bytes.ofUInt16 a ++ Bytes.ofUInt16 b))

/-- A tag and an index. -/
def encodeIndex (tag : UInt8) (i : UInt16) : Encoding :=
  .ofBytes (tag :: Bytes.ofUInt16 i)

/-- A constant as bytes. The length of a text has sixteen bits. -/
def encode : Constant → Encoding
  | .utf8 bytes =>
    .u8 1 ++
      if bytes.length ≤ 65535 then
        .ofBytes (Bytes.ofUInt16 (UInt16.ofNat bytes.length) ++ bytes)
      else .refuse .textTooLong
  | .integer bits => .ofBytes (3 :: Bytes.ofUInt32 bits)
  | .float bits => .ofBytes (4 :: Bytes.ofUInt32 bits)
  | .long bits => .ofBytes (5 :: Bytes.ofUInt64 bits)
  | .double bits => .ofBytes (6 :: Bytes.ofUInt64 bits)
  | .classRef name => encodeIndex 7 name
  | .string text => encodeIndex 8 text
  | .member kind owner nt => encodePair kind.tag owner nt
  | .nameAndType name descriptor => encodePair 12 name descriptor
  | .methodHandle kind reference => .ofBytes (15 :: kind :: Bytes.ofUInt16 reference)
  | .methodType descriptor => encodeIndex 16 descriptor
  | .dynamic bootstrap nt => encodePair 17 bootstrap nt
  | .invokeDynamic bootstrap nt => encodePair 18 bootstrap nt
  | .moduleRef name => encodeIndex 19 name
  | .packageRef name => encodeIndex 20 name
  | .unusable => .empty

end Constant

namespace Pool

/-- Reads constants until the pool has `count` slots. Each constant adds at least one, so `fuel` missing
slots take at most `fuel` constants. -/
def decodeSlots (count : Nat) : (fuel : Nat) → Pool → Decoder Pool
  | 0, p, c => .ok (p, c)
  | fuel + 1, p, c =>
    if p.slots.size < count then
      match Constant.decode c with
      | .error e => .error e
      | .ok (constant, c) => decodeSlots count fuel (p.append constant) c
    else .ok (p, c)

/-- A pool behind its slot count. -/
def decode : Decoder Pool := do
  let count ← Decoder.u16
  if count = 0 then Decoder.fail .emptyPool
  let p ← decodeSlots count.toNat count.toNat .empty
  if p.slots.size ≠ count.toNat then Decoder.fail .wideOverrun
  return p

/-- A pool as bytes. -/
def encode (p : Pool) : Encoding :=
  .u16 p.count ++ Encoding.sequence Constant.encode (p.slots.toList.drop 1)

end Pool

end Relabel
