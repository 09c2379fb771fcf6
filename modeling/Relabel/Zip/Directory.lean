import Relabel.Zip.DirectoryEnd
import Relabel.Zip.Extra
import Relabel.Zip.Name

/-!
# Reading archives

The directory of an archive has a record for every entry. A record can be read although the entry it
points to cannot, and an archive is only as damaged as the entries one looks at, so each record keeps the
outcome of looking up its entry.
-/

set_option autoImplicit false

namespace Relabel.Zip

/-- What the directory says of an entry. -/
structure Record where
  name : String
  /-- A locked entry can be copied but not unpacked. -/
  locked : Bool
  /-- The packed bytes are ciphered, whether or not the entry is marked as locked. -/
  ciphered : Bool
  entry : Except ArchiveFault Entry

namespace Record

/-- The record of an entry that is there. -/
def ofEntry (e : Entry) : Record := ⟨e.name, false, false, .ok e⟩

/-- The entry of a record, packed as it is. -/
def raw (r : Record) : Except Error Entry :=
  match r.entry with
  | .ok e => .ok e
  | .error fault => .error (.archive fault)

/-- The entry of a record and its content. -/
def unpacked (r : Record) : Except Error (Entry × Bytes) :=
  if r.locked then .error (.archive .encrypted)
  else do
    let e ← r.raw
    if r.ciphered ∧ e.method.isKnown then throw (.archive .encrypted)
    return (e, ← e.content)

/-- The content of the entry of a record. -/
def content (r : Record) : Except Error Bytes :=
  r.unpacked.map Prod.snd

end Record

/-! ## Records and entries -/

/-- What a record of the directory starts with. -/
def recordMark : Nat := 0x02014b50

/-- What an entry starts with. -/
def entryMark : Nat := 0x04034b50

/-- The packed bytes of the entry at a position. If the file ends first, they are cut short. -/
def entryData (image : Image) (pos size : Nat) : Except ArchiveFault Bytes := do
  if (← image.number pos 4) ≠ entryMark then throw .badEntryHeader
  let nameLength ← image.number (pos + 26) 2
  let extraLength ← image.number (pos + 28) 2
  let start := pos + 30 + nameLength + extraLength
  return (image.extract start (start + size)).toList

/-- The record at a position, and the position after it. -/
def readRecord (image : Image) (lead pos : Nat) : Except ArchiveFault (Record × Nat) := do
  if (← image.number pos 4) ≠ recordMark then throw .badDirectoryHeader
  let system ← image.number (pos + 5) 1
  let flags ← image.number (pos + 8) 2
  let method ← image.number (pos + 10) 2
  let time ← image.number (pos + 12) 2
  let date ← image.number (pos + 14) 2
  let checksum ← image.number (pos + 16) 4
  let packedSize ← image.number (pos + 20) 4
  let size ← image.number (pos + 24) 4
  let nameLength ← image.number (pos + 28) 2
  let extraLength ← image.number (pos + 30) 2
  let commentLength ← image.number (pos + 32) 2
  let attributes ← image.number (pos + 38) 4
  let offset ← image.number (pos + 42) 4
  let name := decodeName (flags / 2048 % 2 = 1) (← image.slice (pos + 46) nameLength)
  let extra ← image.slice (pos + 46 + nameLength) extraLength
  let _ ← image.slice (pos + 46 + nameLength + extraLength) commentLength
  let extent ← Extent.withFields
    ⟨size, packedSize, offset, .ofCode (UInt16.ofNat method), false⟩ extra
  if wideLimit ≤ lead + extent.offset then throw .offsetTooLarge
  let entry := (entryData image (lead + extent.offset) extent.packedSize).map fun data =>
    { name := name
      stamp := ⟨UInt16.ofNat date, UInt16.ofNat time⟩
      mode := .ofAttributes system attributes
      method := extent.method
      checksum := UInt32.ofNat checksum
      size := UInt64.ofNat extent.size
      packedSize := UInt64.ofNat extent.packedSize
      data := data }
  return (⟨name, flags % 2 = 1, extent.ciphered, entry⟩,
    pos + 46 + nameLength + extraLength + commentLength)

/-- The next `count` records behind `acc` backwards. -/
def readRecords (image : Image) (lead : Nat) :
    (count pos : Nat) → List Record → Except ArchiveFault (List Record)
  | 0, _, acc => .ok acc.reverse
  | count + 1, pos, acc =>
    match readRecord image lead pos with
    | .error fault => .error fault
    | .ok (record, next) => readRecords image lead count next (record :: acc)

/-- The records of the directory of an archive. -/
def readDirectory (bytes : Bytes) : Except ArchiveFault (List Record) := do
  let image : Image := bytes.toArray
  let range ← DirectoryRange.read image
  readRecords image range.lead range.count range.start []

end Relabel.Zip
