import Relabel.Bytes.Cursor

/-!
# Writing bytes in order

An `Encoding` is what an attempt to write produced: the bytes up to the point where writing stopped and,
if it stopped early, why. Appending to an encoding that failed changes nothing, so the bytes of a failed
encoding are exactly those written before the fault, and `Encoding.result` forgets them.
-/

set_option autoImplicit false

namespace Relabel

/-- Bytes written so far, and the reason if writing stopped. -/
structure Encoding where
  bytes : Array UInt8
  fault? : Option Error
  deriving DecidableEq, Repr

namespace Encoding

/-- Nothing written. -/
def empty : Encoding := ⟨#[], none⟩

/-- Plain bytes. -/
def ofBytes (bytes : Bytes) : Encoding := ⟨bytes.toArray, none⟩

/-- A refusal before anything is written. -/
def refuse (refusal : Refusal) : Encoding := ⟨#[], some (.unsupported refusal)⟩

/-- Writing that continues with `b` unless `a` failed. -/
def append (a b : Encoding) : Encoding :=
  match a with
  | ⟨bytes, some fault⟩ => ⟨bytes, some fault⟩
  | ⟨bytes, none⟩ => ⟨bytes ++ b.bytes, b.fault?⟩

instance : Append Encoding := ⟨append⟩

/-- One byte. -/
def u8 (n : UInt8) : Encoding := ofBytes [n]

/-- A two byte number. -/
def u16 (n : UInt16) : Encoding := ofBytes (Bytes.ofUInt16 n)

/-- A four byte number. -/
def u32 (n : UInt32) : Encoding := ofBytes (Bytes.ofUInt32 n)

/-- A sixteen bit count of list items. -/
def count (what : Counted) (n : Nat) : Encoding :=
  if n ≤ 65535 then u16 (UInt16.ofNat n) else refuse (.tooMany what n)

/-- A 32 bit length of a byte string. -/
def length (what : Sized) (n : Nat) : Encoding :=
  if n ≤ 4294967295 then u32 (UInt32.ofNat n) else refuse (.tooLarge what n)

/-- Items one after the other. -/
def sequence {α : Type} (f : α → Encoding) (items : List α) : Encoding :=
  items.foldl (fun acc a => acc ++ f a) empty

/-- A list behind its sixteen bit count. -/
def counted {α : Type} (what : Counted) (f : α → Encoding) (items : List α) : Encoding :=
  count what items.length ++ sequence f items

/-- The bytes of a complete encoding. -/
def result (e : Encoding) : Except Error Bytes :=
  match e.fault? with
  | none => .ok e.bytes.toList
  | some error => .error error

end Encoding

end Relabel
