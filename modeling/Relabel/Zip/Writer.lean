import Relabel.Zip.Directory

/-!
# Writing archives

Entries are written one after the other, each behind a header, and the directory follows them.

A number that does not fit its field is written as the greatest one that does, and stands in full in an
extra field of the entry or in the wide record at the end of the directory.
-/

set_option autoImplicit false

namespace Relabel.Zip

/-- A two byte number, lowest byte first. -/
def le16 (n : UInt16) : Bytes :=
  [n.toUInt8, (n >>> 8).toUInt8]

/-- A four byte number, lowest byte first. -/
def le32 (n : UInt32) : Bytes :=
  [n.toUInt8, (n >>> 8).toUInt8, (n >>> 16).toUInt8, (n >>> 24).toUInt8]

/-- An eight byte number, lowest byte first. -/
def le64 (n : UInt64) : Bytes :=
  le32 n.toUInt32 ++ le32 (n >>> 32).toUInt32

/-- The greatest two byte number. -/
def limit16 : Nat := 0xffff

/-- The greatest four byte number. -/
def limit32 : Nat := 0xffffffff

/-- A count as a two byte number, as far as it fits. -/
def clamp16 (n : Nat) : Bytes :=
  le16 (UInt16.ofNat (min n limit16))

/-- A size or a position as a four byte number, as far as it fits. -/
def clamp32 (n : Nat) : Bytes :=
  le32 (UInt32.ofNat (min n limit32))

/-- The mark of a system whose attributes have the mode in them. -/
def madeBy : UInt16 := 3 * 256 + 46

/-- The extra field of some wide numbers; none is written for no numbers. -/
def wideField (numbers : List Nat) : Bytes :=
  if numbers.isEmpty then []
  else
    le16 (UInt16.ofNat Extent.wideKind) ++ le16 (UInt16.ofNat (8 * numbers.length))
      ++ numbers.flatMap fun n => le64 (UInt64.ofNat n)

namespace Entry

/-- The name of an entry as bytes. -/
def nameBytes (e : Entry) : Bytes :=
  e.name.toUTF8.toList

/-- Whether the name needs to be marked as UTF-8. -/
def nameFlags (e : Entry) : UInt16 :=
  if e.name.toList.all fun c => c.toNat < 128 then 0 else 2048

/-- One of the sizes of an entry does not fit into four bytes. -/
def isLarge (e : Entry) : Bool :=
  limit32 < max e.packedSize.toNat e.size.toNat

/-- The version of the format that is needed: four and a half for a large entry, otherwise two. -/
def formatVersion (e : Entry) : UInt16 :=
  if e.isLarge then 45 else 20

/-- What the header of an entry and its record in the directory have in common, given the sizes that are
written and the extra fields. -/
def commonHeader (e : Entry) (packedSize size : Nat) (extra : Bytes) : Bytes :=
  le16 e.formatVersion ++ le16 e.nameFlags ++ le16 e.method.code ++ le16 e.stamp.time
    ++ le16 e.stamp.date ++ le32 e.checksum ++ clamp32 packedSize ++ clamp32 size
    ++ le16 (UInt16.ofNat e.nameBytes.length) ++ le16 (UInt16.ofNat extra.length)

/-- An entry with its header. The header of a large entry has both sizes in the extra field. -/
def encode (e : Entry) : Bytes :=
  let size := e.size.toNat
  let packedSize := e.packedSize.toNat
  let header :=
    if e.isLarge then
      let extra := wideField [size, packedSize]
      e.commonHeader limit32 limit32 extra ++ e.nameBytes ++ extra
    else e.commonHeader packedSize size [] ++ e.nameBytes
  le32 (UInt32.ofNat entryMark) ++ header ++ e.data

/-- The record of an entry that stands at a position. The extra field has what does not fit, and nothing
else. -/
def encodeRecord (e : Entry) (pos : Nat) : Bytes :=
  let size := e.size.toNat
  let packedSize := e.packedSize.toNat
  let extra := wideField ([size, packedSize, pos].filter (limit32 < ·))
  le32 (UInt32.ofNat recordMark) ++ le16 madeBy ++ e.commonHeader packedSize size extra
    ++ le16 0 ++ le16 0 ++ le16 0 ++ le16 0 ++ le16 e.mode ++ clamp32 pos
    ++ e.nameBytes ++ extra

end Entry

/-- The wide record at the end of a directory, and its locator. -/
def encodeWideEnd (count size offset : Nat) : Bytes :=
  let version := 46
  let wide (n : Nat) := le64 (UInt64.ofNat n)
  le32 (UInt32.ofNat wideEndMark) ++ le64 44 ++ le16 version ++ le16 version ++ le32 0 ++ le32 0
    ++ wide count ++ wide count ++ wide size ++ wide offset
    ++ le32 (UInt32.ofNat locatorMark) ++ le32 0 ++ wide (offset + size) ++ le32 1

/-- The end of a directory of `count` records. -/
def encodeEnd (count size offset : Nat) : Bytes :=
  (if limit16 < count ∨ limit32 < max size offset then encodeWideEnd count size offset else [])
    ++ le32 (UInt32.ofNat endMark) ++ le16 0 ++ le16 0 ++ clamp16 count ++ clamp16 count
    ++ clamp32 size ++ clamp32 offset ++ le16 0

/-- The archive of some entries. -/
def writeArchive (entries : List Entry) : Bytes :=
  let (body, directory) := entries.foldl
    (fun ((body, directory) : Array UInt8 × Array UInt8) e =>
      let record := e.encodeRecord body.size
      (body.appendList e.encode, directory.appendList record)) (#[], #[])
  (body ++ directory).toList ++ encodeEnd entries.length directory.size body.size

end Relabel.Zip
