import Relabel.Zip.Image

/-!
# Where the directory of an archive is

The directory is the last part of an archive and ends with a record that says where it starts. That
record is searched for from the end of the file, because a comment may follow it. Something may also
stand before the first entry: all positions are then off by the same number of bytes, the lead, which is
how far the directory is from where it should be.

The numbers of that record have 16 and 32 bits. An archive that outgrows them has a second, wide record
before it, and between the two a locator that says where the wide record is. If there is a locator, only
the wide record counts.
-/

set_option autoImplicit false

namespace Relabel.Zip

/-- What the end of a directory starts with. -/
def endMark : Nat := 0x06054b50

/-- What the wide record at the end of a directory starts with. -/
def wideEndMark : Nat := 0x06064b50

/-- What the locator of the wide record starts with. -/
def locatorMark : Nat := 0x07064b50

/-- The size of the end of the directory without a comment. -/
def endSize : Nat := 22

/-- How far before the last record the wide record is at least. -/
def wideEndRoom : Nat := 60

/-- The size of the locator of the wide record. -/
def locatorSize : Nat := 20

/-- What a number must stay below to be written in 64 bits. -/
def wideLimit : Nat := 0x10000000000000000

/-! ## The last record -/

/-- Looks for the end of the directory at a position and at the `more` positions before it. -/
def findEnd (image : Image) : (more pos : Nat) → Option Nat
  | 0, pos => if image.number? pos 4 = some endMark then some pos else none
  | more + 1, pos =>
    if image.number? pos 4 = some endMark then some pos
    else
      match pos with
      | 0 => none
      | pos + 1 => findEnd image more pos

/-- The position of the end of the directory. A comment after it has at most 65535 bytes. -/
def endPosition (image : Image) : Except ArchiveFault Nat :=
  if image.size < endSize then .error .tooShort
  else
    match findEnd image 65535 (image.size - endSize) with
    | some pos => .ok pos
    | none => .error .noDirectoryEnd

/-- The record at the end of a directory. -/
structure DirectoryEnd where
  pos : Nat
  disk : Nat
  directoryDisk : Nat
  countHere : Nat
  count : Nat
  size : Nat
  offset : Nat
  commentLength : Nat

namespace DirectoryEnd

/-- Some number of the record is the greatest one, which stands for any that does not fit. -/
def isTooSmall (e : DirectoryEnd) : Bool :=
  e.disk = 0xffff || e.directoryDisk = 0xffff || e.countHere = 0xffff || e.count = 0xffff
    || e.size = 0xffffffff || e.offset = 0xffffffff

/-- The record at the end of the directory of a file. -/
def read (image : Image) : Except ArchiveFault DirectoryEnd := do
  let pos ← endPosition image
  let disk ← image.number (pos + 4) 2
  let directoryDisk ← image.number (pos + 6) 2
  let countHere ← image.number (pos + 8) 2
  let count ← image.number (pos + 10) 2
  let size ← image.number (pos + 12) 4
  let offset ← image.number (pos + 16) 4
  let commentLength ← image.number (pos + 20) 2
  let _ ← image.slice (pos + endSize) commentLength
  return ⟨pos, disk, directoryDisk, countHere, count, size, offset, commentLength⟩

end DirectoryEnd

/-! ## The wide record -/

/-- What says where the wide record is. -/
structure Locator where
  disk : Nat
  /-- Where the wide record is if nothing stands before the first entry. -/
  offset : Nat

/-- The locator of a file, if it has one. It stands before the last record when nothing but the comment
follows that one. -/
def Locator.read? (image : Image) (e : DirectoryEnd) : Except ArchiveFault (Option Locator) := do
  let back := locatorSize + endSize + e.commentLength
  if image.size < back then return none
  let pos := image.size - back
  if (← image.number pos 4) ≠ locatorMark then return none
  let disk ← image.number (pos + 4) 4
  let offset ← image.number (pos + 8) 8
  return some ⟨disk, offset⟩

/-- Looks for the wide record at `more` positions from a given one on. -/
def findWideEnd (image : Image) : (more pos : Nat) → Option Nat
  | 0, _ => none
  | more + 1, pos =>
    if image.number? pos 4 = some wideEndMark then some pos else findWideEnd image more (pos + 1)

/-! ## The directory -/

/-- Where the directory of an archive is. -/
structure DirectoryRange where
  /-- How many bytes stand before what the archive takes for its start. -/
  lead : Nat
  start : Nat
  count : Nat

namespace DirectoryRange

/-- Where the directory is if there is no wide record. -/
def ofEnd (e : DirectoryEnd) : Except ArchiveFault DirectoryRange :=
  if e.pos < e.size + e.offset then .error .badDirectoryRange
  else .ok ⟨e.pos - e.size - e.offset, e.pos - e.size, e.countHere⟩

/-- Where the directory is if there is a wide record. -/
def ofLocator (image : Image) (e : DirectoryEnd) (l : Locator) :
    Except ArchiveFault DirectoryRange := do
  if ¬e.isTooSmall ∧ e.disk ≠ l.disk then throw .severalDisks
  if e.pos < wideEndRoom then throw .noRoomForWideEnd
  match findWideEnd image (e.pos - wideEndRoom + 1 - l.offset) l.offset with
  | none => throw .noWideDirectoryEnd
  | some pos =>
    let disk ← image.number (pos + 16) 4
    let directoryDisk ← image.number (pos + 20) 4
    let count ← image.number (pos + 32) 8
    let offset ← image.number (pos + 48) 8
    if disk ≠ directoryDisk then throw .severalDisks
    let lead := pos - l.offset
    if wideLimit ≤ offset + lead then throw .badDirectoryRange
    return ⟨lead, offset + lead, count⟩

/-- Where the directory of a file is. -/
def read (image : Image) : Except ArchiveFault DirectoryRange := do
  let e ← DirectoryEnd.read image
  if ¬e.isTooSmall ∧ e.disk ≠ e.directoryDisk then throw .severalDisks
  match ← Locator.read? image e with
  | none => ofEnd e
  | some l => ofLocator image e l

end DirectoryRange

end Relabel.Zip
