import Relabel.Zip.Entry
import Relabel.Zip.Image

/-!
# Extra fields

After the fixed fields of a record and its name stand further fields, each with a number for its kind and
a length. Two kinds matter. The wide numbers give what does not fit into 32 bits: a fixed field that holds
the greatest number refers to them. The cipher field belongs to an entry whose packed bytes are ciphered,
and gives the method they were packed with before that.

Other fields are passed over. Fields that end too early are left alone from there on, and what was read
before still counts.
-/

set_option autoImplicit false

namespace Relabel.Zip

/-- What extra fields can say of an entry. -/
structure Extent where
  size : Nat
  packedSize : Nat
  /-- Where the entry is if nothing stands before the first one. -/
  offset : Nat
  method : Method
  ciphered : Bool

namespace Extent

/-- The kind of the field of wide numbers. -/
def wideKind : Nat := 1

/-- The kind of the cipher field. -/
def cipherKind : Nat := 0x9901

/-- The length of the cipher field. -/
def cipherLength : Nat := 7

/-- The only maker of cipher fields. -/
def cipherVendor : Nat := 0x4541

/-- What the fixed fields of a ciphered entry have for its method. -/
def cipherMethod : Method := .other 99

/-- The number that a fixed field refers to, off the front of the wide numbers, if it refers to one. -/
def wide? (field : Nat) (bytes : Bytes) : Option (Nat × Bytes) :=
  if field = 0xffffffff then
    if bytes.length < 8 then none else some (littleEndian (bytes.take 8), bytes.drop 8)
  else some (field, bytes)

/-- Takes the wide numbers that the fixed fields refer to off the front; the rest is absent when they end
too early. -/
def readWide (e : Extent) (bytes : Bytes) : Extent × Option Bytes :=
  match wide? e.size bytes with
  | none => (e, none)
  | some (size, bytes) =>
    let e := { e with size := size }
    match wide? e.packedSize bytes with
    | none => (e, none)
    | some (packedSize, bytes) =>
      let e := { e with packedSize := packedSize }
      match wide? e.offset bytes with
      | none => (e, none)
      | some (offset, bytes) => ({ e with offset := offset }, some bytes)

/-- Takes a cipher field off the front; the rest is absent when it ends too early. -/
def readCipher (e : Extent) : Bytes → Except ArchiveFault (Extent × Option Bytes)
  | v₁ :: v₂ :: i₁ :: i₂ :: strength :: m₁ :: m₂ :: rest =>
    let version := littleEndian [v₁, v₂]
    if littleEndian [i₁, i₂] ≠ cipherVendor then .error .badCipherVendor
    else if version = 0 ∨ 2 < version then .error .badCipherVersion
    else if strength = 0 ∨ 3 < strength then .error .badCipherStrength
    else
      let method := .ofCode (UInt16.ofNat (littleEndian [m₁, m₂]))
      .ok ({ e with method := method, ciphered := true }, some rest)
  | _ => .ok (e, none)

/-- Reads at most `fuel` extra fields. What a field of wide numbers has beyond those referred to is passed
over. A cipher field is followed by as many bytes that say nothing as it has itself. -/
def readFields : (fuel : Nat) → Extent → Bytes → Except ArchiveFault Extent
  | fuel + 1, e, k₁ :: k₂ :: l₁ :: l₂ :: bytes => do
    let kind := littleEndian [k₁, k₂]
    let length := littleEndian [l₁, l₂]
    if kind = wideKind then
      match e.readWide bytes with
      | (e, none) => return e
      | (e, some rest) => readFields fuel e (rest.drop (length - (bytes.length - rest.length)))
    else if kind = cipherKind then
      if length ≠ cipherLength then throw .badCipherLength
      match ← e.readCipher bytes with
      | (e, none) => return e
      | (e, some rest) => readFields fuel e (rest.drop length)
    else readFields fuel e (bytes.drop length)
  | _, e, _ => .ok e

/-- What the fixed fields and all extra fields say of an entry. -/
def withFields (e : Extent) (bytes : Bytes) : Except ArchiveFault Extent := do
  let e ← readFields bytes.length e bytes
  if e.method = cipherMethod ∧ ¬e.ciphered then throw .noCipherField
  return e

end Extent

end Relabel.Zip
