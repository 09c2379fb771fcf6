import Relabel.Error
import Relabel.Text.Utf16

/-!
# Modified UTF-8

The text encoding of class files. A text is taken as its UTF-16 code units and each unit is written in
one, two or three bytes, so a character outside the basic plane becomes two units of three bytes each. The
NUL unit takes the two byte form: an encoded text never contains a zero byte.

Reading is more liberal than writing: a unit may come in a longer form than it needs. What `encode`
writes is the shortest spelling of a text, and most texts are plain ASCII, which `decode` recognises
first and takes over byte for byte.
-/

set_option autoImplicit false

namespace Relabel.ModifiedUtf8

open Text

/-! ## Writing -/

/-- One to three bytes for a code unit. -/
def encodeUnit (u : UInt16) : Bytes :=
  if 0x0001 ≤ u ∧ u ≤ 0x007F then [u.toUInt8]
  else if u ≤ 0x07FF then
    [(u >>> 6).toUInt8 &&& 0x1F ||| 0xC0, u.toUInt8 &&& 0x3F ||| 0x80]
  else
    [(u >>> 12).toUInt8 &&& 0x0F ||| 0xE0, (u >>> 6).toUInt8 &&& 0x3F ||| 0x80,
      u.toUInt8 &&& 0x3F ||| 0x80]

/-- The bytes of a text. -/
def encode (s : String) : Bytes :=
  s.toList.flatMap fun c => (units c).flatMap encodeUnit

/-! ## Reading -/

/-- The second or third byte of a longer form. -/
def isContinuation (b : UInt8) : Bool :=
  b &&& 0xC0 == 0x80

/-- The code units of a byte string, behind `acc` backwards. -/
def decodeUnits (acc : List UInt16) : Bytes → Except Error (List UInt16)
  | [] => .ok acc.reverse
  | b0 :: rest =>
    if b0 &&& 0x80 == 0 then
      if b0 == 0 then .error (.classFile .rawNul) else decodeUnits (b0.toUInt16 :: acc) rest
    else if b0 &&& 0xE0 == 0xC0 then
      match rest with
      | b1 :: rest =>
        if isContinuation b1 then
          decodeUnits (((b0 &&& 0x1F).toUInt16 <<< 6 ||| (b1 &&& 0x3F).toUInt16) :: acc) rest
        else .error (.classFile .truncatedText)
      | [] => .error (.classFile .truncatedText)
    else if b0 &&& 0xF0 == 0xE0 then
      match rest with
      | b1 :: b2 :: rest =>
        if isContinuation b1 && isContinuation b2 then
          decodeUnits (((b0 &&& 0x0F).toUInt16 <<< 12 ||| (b1 &&& 0x3F).toUInt16 <<< 6
            ||| (b2 &&& 0x3F).toUInt16) :: acc) rest
        else .error (.classFile .truncatedText)
      | _ => .error (.classFile .truncatedText)
    else .error (.classFile (.badLeadByte b0))

/-- The text of a byte string, unit by unit. -/
def decodeGeneral (bytes : Bytes) : Except Error String :=
  match decodeUnits [] bytes with
  | .error e => .error e
  | .ok us =>
    match charsOfUnits [] us with
    | some cs => .ok (String.ofList cs)
    | none => .error (.unsupported .unpairedSurrogate)

/-- The bytes that stand for themselves: ASCII without NUL. -/
def isPlain (b : UInt8) : Bool :=
  0x01 ≤ b && b < 0x80

/-- The text of a byte string of plain bytes. -/
def decodePlain (bytes : Bytes) : String :=
  String.ofList (bytes.map fun b => Char.ofNat b.toNat)

/-- The text of a byte string. -/
def decode (bytes : Bytes) : Except Error String :=
  if bytes.all isPlain then .ok (decodePlain bytes) else decodeGeneral bytes

end Relabel.ModifiedUtf8
