import Relabel.Constant.Basic

/-!
# Names of archive entries

An entry says whether its name is UTF-8. If it is, every ill formed stretch of it is replaced by one
replacement character; if it is not, the name is in the character set of the first personal computers,
code page 437. Names are written in plain ASCII or as UTF-8.
-/

set_option autoImplicit false

namespace Relabel.Zip

/-! ## Code page 437 -/

/-- The characters of the bytes from 128 on. -/
def upperHalf : String :=
  "ÇüéâäàåçêëèïîìÄÅÉæÆôöòûùÿÖÜ¢£¥₧ƒ" ++
  "áíóúñÑªº¿⌐¬½¼¡«»░▒▓│┤╡╢╖╕╣║╗╝╜╛┐" ++
  "└┴┬├─┼╞╟╚╔╩╦╠═╬╧╨╤╥╙╘╒╓╫╪┘┌█▄▌▐▀" ++
  "αßΓπΣσµτΦΘΩδ∞φε∩≡±≥≤⌠⌡÷≈°∙·√ⁿ²■\u00a0"

/-- The character of a byte in code page 437. -/
def codePageChar (byte : UInt8) : Char :=
  if byte < 128 then Char.ofNat byte.toNat
  else (upperHalf.toList[byte.toNat - 128]?).getD ' '

/-! ## UTF-8 with replacements -/

/-- What a byte that starts a character asks of the bytes after it: how many there are, the least and the
greatest value of the first of them, and the bits of the character that the byte holds itself. -/
def leadByte? (b : UInt8) : Option (Nat × UInt8 × UInt8 × Nat) :=
  if b < 0x80 then some (0, 0, 0, b.toNat)
  else if b < 0xc2 then none
  else if b < 0xe0 then some (1, 0x80, 0xbf, b.toNat - 0xc0)
  else if b = 0xe0 then some (2, 0xa0, 0xbf, 0)
  else if b = 0xed then some (2, 0x80, 0x9f, 13)
  else if b < 0xf0 then some (2, 0x80, 0xbf, b.toNat - 0xe0)
  else if b = 0xf0 then some (3, 0x90, 0xbf, 0)
  else if b < 0xf4 then some (3, 0x80, 0xbf, b.toNat - 0xf0)
  else if b = 0xf4 then some (3, 0x80, 0x8f, 4)
  else none

/-- What is being read: nothing, or a character that still needs `more` bytes, of which the next lies
between two values. -/
structure Pending where
  more : Nat
  least : UInt8
  greatest : UInt8
  bits : Nat

/-- Reads the rest of a name behind `acc` backwards. A byte that does not continue the pending character
ends it, and is then looked at as the start of another one. -/
def decodeLossyFrom (acc : List Char) : Option Pending → Bytes → List Char
  | none, [] => acc.reverse
  | some _, [] => ('\uFFFD' :: acc).reverse
  | pending?, b :: rest =>
    let start (acc : List Char) : List Char × Option Pending :=
      match leadByte? b with
      | none => ('\uFFFD' :: acc, none)
      | some (0, _, _, bits) => (Char.ofNat bits :: acc, none)
      | some (more, least, greatest, bits) => (acc, some ⟨more, least, greatest, bits⟩)
    let (acc, pending?) := match pending? with
      | none => start acc
      | some p =>
        if p.least ≤ b ∧ b ≤ p.greatest then
          let bits := p.bits * 64 + (b.toNat - 0x80)
          if p.more ≤ 1 then (Char.ofNat bits :: acc, none)
          else (acc, some ⟨p.more - 1, 0x80, 0xbf, bits⟩)
        else start ('\uFFFD' :: acc)
    decodeLossyFrom acc pending? rest

/-- The text of UTF-8 bytes. -/
def decodeLossy (bytes : Bytes) : String :=
  String.ofList (decodeLossyFrom [] none bytes)

/-- The name that the bytes of an entry spell. -/
def decodeName (isUtf8 : Bool) (bytes : Bytes) : String :=
  if isUtf8 then decodeLossy bytes else String.ofList (bytes.map codePageChar)

end Relabel.Zip
