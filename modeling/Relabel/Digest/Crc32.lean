import Relabel.Constant.Basic

/-!
# CRC-32

The checksum that an archive keeps for every entry: the remainder of the bytes, taken as a polynomial over
two elements with the lowest bit first, by the polynomial `0xedb88320`. The table holds the remainder of
every single byte.
-/

set_option autoImplicit false

namespace Relabel.Crc32

/-- Divides out one bit. -/
def shiftBit (r : UInt32) : UInt32 :=
  if r &&& 1 = 1 then (r >>> 1) ^^^ 0xedb88320 else r >>> 1

/-- The remainder of one byte. -/
def ofByte (n : Nat) : UInt32 :=
  Nat.repeat shiftBit 8 (UInt32.ofNat n)

/-- The remainders of all bytes. -/
def table : Array UInt32 :=
  (Array.range 256).map ofByte

/-- Takes one more byte into a remainder. -/
def update (r : UInt32) (byte : UInt8) : UInt32 :=
  table.getD (r.toUInt8 ^^^ byte).toNat 0 ^^^ (r >>> 8)

/-- The checksum of a byte string. -/
def checksum (bytes : Bytes) : UInt32 :=
  bytes.foldl update 0xffffffff ^^^ 0xffffffff

end Relabel.Crc32
