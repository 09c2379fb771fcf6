import Relabel.Error

/-!
# Reading bytes in order

A `Cursor` is what is left of a byte string together with the number of bytes already taken from it. A
`Decoder` takes bytes off the front of a cursor and gives a value, or fails at the position it had
reached. Numbers are big-endian.
-/

set_option autoImplicit false

namespace Relabel

/-- A place in a byte string. -/
structure Cursor where
  /-- The bytes that were not taken yet. -/
  rest : Bytes
  /-- How many bytes were taken. -/
  pos : Nat
  deriving DecidableEq, Repr

/-- The cursor at the start of a byte string. -/
def Cursor.start (bytes : Bytes) : Cursor := ⟨bytes, 0⟩

/-- A computation that takes bytes off the front of a cursor. -/
abbrev Decoder (α : Type) := StateT Cursor (Except Error) α

namespace Bytes

/-- Splits off exactly `n` bytes, put after `acc` backwards; absent when there are fewer. -/
def splitOff (acc : Bytes) : Nat → Bytes → Option (Bytes × Bytes)
  | 0, bytes => some (acc.reverse, bytes)
  | _ + 1, [] => none
  | n + 1, b :: bytes => splitOff (b :: acc) n bytes

theorem splitOff_eq (acc : Bytes) (n : Nat) (bytes : Bytes) :
    splitOff acc n bytes =
      if n ≤ bytes.length then some (acc.reverse ++ bytes.take n, bytes.drop n) else none := by
  fun_induction splitOff acc n bytes with
  | case1 acc bytes => simp
  | case2 acc n => simp
  | case3 acc n b bytes ih => simp [ih]

/-- The number a byte string spells, most significant byte first. -/
def toNatBE (bytes : Bytes) : Nat :=
  bytes.foldl (fun n b => n * 256 + b.toNat) 0

/-- The two bytes of a number. -/
def ofUInt16 (n : UInt16) : Bytes :=
  [(n >>> 8).toUInt8, n.toUInt8]

/-- The four bytes of a number. -/
def ofUInt32 (n : UInt32) : Bytes :=
  [(n >>> 24).toUInt8, (n >>> 16).toUInt8, (n >>> 8).toUInt8, n.toUInt8]

/-- The eight bytes of a number. -/
def ofUInt64 (n : UInt64) : Bytes :=
  [(n >>> 56).toUInt8, (n >>> 48).toUInt8, (n >>> 40).toUInt8, (n >>> 32).toUInt8,
    (n >>> 24).toUInt8, (n >>> 16).toUInt8, (n >>> 8).toUInt8, n.toUInt8]

end Bytes

namespace Decoder

/-- Fails with a class fault. -/
def fail {α : Type} (fault : ClassFault) : Decoder α := fun _ =>
  .error (.classFile fault)

/-- The number of bytes taken so far. -/
def position : Decoder Nat := fun c =>
  .ok (c.pos, c)

/-- The number of bytes left. -/
def remaining : Decoder Nat := fun c =>
  .ok (c.rest.length, c)

/-- Exactly `n` bytes. -/
def take (n : Nat) : Decoder Bytes := fun c =>
  match Bytes.splitOff [] n c.rest with
  | some (taken, rest) => .ok (taken, ⟨rest, c.pos + n⟩)
  | none => .error (.classFile (.truncated n c.pos))

/-- All bytes that are left. -/
def takeRest : Decoder Bytes := fun c =>
  .ok (c.rest, ⟨[], c.pos + c.rest.length⟩)

/-- One byte. -/
def u8 : Decoder UInt8 := do
  return UInt8.ofNat (Bytes.toNatBE (← take 1))

/-- A two byte number. -/
def u16 : Decoder UInt16 := do
  return UInt16.ofNat (Bytes.toNatBE (← take 2))

/-- A four byte number. -/
def u32 : Decoder UInt32 := do
  return UInt32.ofNat (Bytes.toNatBE (← take 4))

/-- An eight byte number. -/
def u64 : Decoder UInt64 := do
  return UInt64.ofNat (Bytes.toNatBE (← take 8))

/-- Runs a decoder `n` times, its values put after `acc` backwards. -/
def timesFrom {α : Type} (d : Decoder α) (acc : List α) : Nat → Decoder (List α)
  | 0, c => .ok (acc.reverse, c)
  | n + 1, c =>
    match d c with
    | .error e => .error e
    | .ok (a, c) => timesFrom d (a :: acc) n c

/-- Runs a decoder `n` times. -/
def times {α : Type} (n : Nat) (d : Decoder α) : Decoder (List α) :=
  timesFrom d [] n

/-- A list behind a sixteen bit count. -/
def counted {α : Type} (d : Decoder α) : Decoder (List α) := do
  times (← u16).toNat d

end Decoder

end Relabel
