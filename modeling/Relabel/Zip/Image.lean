import Relabel.Error

/-!
# The bytes of an archive file

An archive is read by position, from its end towards its start, so the whole file is at hand. Numbers in
it stand lowest byte first, and everything that is read should lie inside the file.
-/

set_option autoImplicit false

namespace Relabel.Zip

/-- The number that some bytes stand for, lowest byte first. -/
def littleEndian (bytes : Bytes) : Nat :=
  bytes.foldr (fun b n => b.toNat + 256 * n) 0

/-- The file that is being read. -/
abbrev Image := Array UInt8

namespace Image

/-- The number in the `n` bytes at a position. -/
def number? (image : Image) (pos n : Nat) : Option Nat :=
  if pos + n ≤ image.size then some (littleEndian (image.extract pos (pos + n)).toList) else none

/-- The number in the `n` bytes at a position of a file that should be long enough. -/
def number (image : Image) (pos n : Nat) : Except ArchiveFault Nat :=
  match image.number? pos n with
  | some k => .ok k
  | none => .error (.unreadable .unexpectedEnd)

/-- The `n` bytes at a position of a file that should be long enough. -/
def slice (image : Image) (pos n : Nat) : Except ArchiveFault Bytes :=
  if pos + n ≤ image.size then .ok (image.extract pos (pos + n)).toList
  else .error (.unreadable .unexpectedEnd)

end Image

end Relabel.Zip
