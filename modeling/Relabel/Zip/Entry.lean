import Relabel.Digest.Crc32
import Relabel.Error
import Relabel.Zip.Inflate

/-!
# Entries of an archive

An `Entry` is what an archive keeps of one file or directory: its packed bytes with their checksum, the
time stamp and the mode. It can be copied without being unpacked. `Entry.ofContent` and `Entry.content` go back
and forth between an entry and the bytes it stands for.

The two sizes are what the archive says, and nothing checks them: the packed bytes are fewer when the file
ends before they do, and a copy still says what was said before.
-/

set_option autoImplicit false

namespace Relabel.Zip

/-- How the bytes of an entry are packed. -/
inductive Method where
  | stored
  | deflated
  /-- A way of packing that only copying can deal with. -/
  | other (code : UInt16)
  deriving DecidableEq, Repr

namespace Method

/-- The number of a method in an archive. -/
def code : Method → UInt16
  | .stored => 0
  | .deflated => 8
  | .other code => code

/-- The method with a number. -/
def ofCode (code : UInt16) : Method :=
  if code = 0 then .stored else if code = 8 then .deflated else .other code

/-- A method that unpacking can deal with. -/
def isKnown : Method → Bool
  | .stored | .deflated => true
  | .other _ => false

end Method

/-- A time of day to two seconds and a date from 1980 on, as an archive keeps them. -/
structure Stamp where
  date : UInt16
  time : UInt16
  deriving DecidableEq, Repr

namespace Stamp

/-- The stamp of a moment. -/
def of (year month day hour minute second : Nat) : Stamp where
  date := UInt16.ofNat ((year - 1980) * 512 + month * 32 + day)
  time := UInt16.ofNat (hour * 2048 + minute * 32 + second / 2)

/-- Year, month, day, hour, minute and second of a stamp. -/
def fields (s : Stamp) : List Nat :=
  let date := s.date.toNat
  let time := s.time.toNat
  [date / 512 + 1980, date / 32 % 16, date % 32, time / 2048, time / 32 % 64, time % 32 * 2]

end Stamp

/-- Who may do what with a file, in the lowest nine bits, and above them what kind of file it is. -/
abbrev Mode := UInt16

namespace Mode

/-- A file that anybody may read. -/
def file : Mode := 0o100644

/-- A directory that anybody may list. -/
def directory : Mode := 0o040755

/-- What may be done, whatever kind of file it is. -/
def permissions (m : Mode) : Mode := m &&& 0o777

/-- The permissions of a mode, for a file. -/
def asFile (m : Mode) : Mode := m.permissions ||| 0o100000

/-- What a record says of an entry with its attributes and the number of the system that they belong to:
one system has the mode in them, another one marks directories and what may not be changed. A copy keeps
the permissions and no more, and an entry of which nothing is known is a file. -/
def ofAttributes (system attributes : Nat) : Mode :=
  if attributes = 0 then file
  else if system = 3 then permissions (UInt16.ofNat (attributes / 65536))
  else if system = 0 then
    let mode : Mode := if attributes / 16 % 2 = 1 then 0o775 else 0o664
    if attributes % 2 = 1 then mode &&& 0o555 else mode
  else file

end Mode

/-- An entry of an archive. -/
structure Entry where
  name : String
  stamp : Stamp
  mode : Mode
  method : Method
  /-- The checksum of the content. -/
  checksum : UInt32
  /-- The size of the content, as recorded. -/
  size : UInt64
  /-- The size of the packed content, as recorded. -/
  packedSize : UInt64
  /-- The packed content, as far as it is there. -/
  data : Bytes
  deriving DecidableEq, Repr

/-- A name that ends in a slash of either kind is that of a directory. -/
def isDirectoryName (name : String) : Bool :=
  match name.toList.getLast? with
  | some c => c = '/' || c = '\\'
  | none => false

namespace Entry

/-- The entry with a given content. -/
def ofContent (name : String) (method : Method) (stamp : Stamp) (mode : Mode) (content : Bytes) :
    Entry :=
  let data := if method = .deflated then deflate content else content
  { name := name
    stamp := stamp
    mode := mode
    method := method
    checksum := Crc32.checksum content
    size := UInt64.ofNat content.length
    packedSize := UInt64.ofNat data.length
    data := data }

/-- The bytes an entry is packed from, whether or not they are the right ones. -/
def unpack (e : Entry) : Except Error Bytes :=
  match e.method with
  | .stored => .ok e.data
  | .deflated =>
    match inflate e.data with
    | .ok content => .ok content
    | .error .incomplete => .error (.file .incompleteStream)
    | .error .corrupt => .error (.file .corruptStream)
  | .other _ => .error (.archive .unknownMethod)

/-- The content of an entry. -/
def content (e : Entry) : Except Error Bytes :=
  match e.unpack with
  | .error error => .error error
  | .ok content =>
    if Crc32.checksum content = e.checksum then .ok content else .error (.file .badChecksum)

end Entry

end Relabel.Zip
