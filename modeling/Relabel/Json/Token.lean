import Relabel.Constant.Basic
import Relabel.Text.Utf16

/-!
# JSON tokens

The lexical level of JSON, strict: the four blanks, the punctuation, the three literals, numbers without
leading zeros, and strings without raw control characters. A string is taken apart into bytes and escaped
code units first; whether those spell a text is a separate question, with the answer in the token.
-/

set_option autoImplicit false

namespace Relabel.Json

/-- A token. A string that denotes no text is a token all the same. -/
inductive Token where
  | openObject
  | closeObject
  | openArray
  | closeArray
  | comma
  | colon
  | null
  | bool (value : Bool)
  | number (text : String)
  | text (value : Option String)
  deriving DecidableEq, Repr

/-- The ASCII code of a character. -/
def code (c : Char) : UInt8 := UInt8.ofNat c.toNat

/-- The blanks that may stand between tokens. -/
def isSpace (b : UInt8) : Bool :=
  b == 0x20 || b == 0x0a || b == 0x0d || b == 0x09

/-- A decimal digit. -/
def isDigit (b : UInt8) : Bool :=
  0x30 ≤ b && b ≤ 0x39

/-! ## Strings -/

/-- A part of a string: a byte that stands for itself or for its short escape, or an escaped code unit. -/
inductive Piece where
  | byte (b : UInt8)
  | unit (u : UInt16)
  deriving DecidableEq, Repr

/-- The value of a hexadecimal digit. -/
def hexValue? (b : UInt8) : Option Nat :=
  if isDigit b then some (b.toNat - 0x30)
  else if 0x61 ≤ b ∧ b ≤ 0x66 then some (b.toNat - 0x61 + 10)
  else if 0x41 ≤ b ∧ b ≤ 0x46 then some (b.toNat - 0x41 + 10)
  else none

/-- The code unit of four hexadecimal digits. -/
def unit? (a b c d : UInt8) : Option UInt16 := do
  let a ← hexValue? a
  let b ← hexValue? b
  let c ← hexValue? c
  let d ← hexValue? d
  return UInt16.ofNat (((a * 16 + b) * 16 + c) * 16 + d)

/-- The byte a one letter escape stands for. -/
def shortEscape? (b : UInt8) : Option UInt8 :=
  if b == code '"' || b == code '\\' || b == code '/' then some b
  else if b == code 'b' then some 0x08
  else if b == code 'f' then some 0x0c
  else if b == code 'n' then some 0x0a
  else if b == code 'r' then some 0x0d
  else if b == code 't' then some 0x09
  else none

/-- The pieces of a string up to its closing quote, behind `acc` backwards, and what follows it. -/
def pieces (acc : List Piece) : Bytes → Option (List Piece × Bytes)
  | [] => none
  | b :: rest =>
    if b == code '"' then some (acc.reverse, rest)
    else if b == code '\\' then
      match rest with
      | [] => none
      | e :: rest =>
        if e == code 'u' then
          match rest with
          | h1 :: h2 :: h3 :: h4 :: rest =>
            match unit? h1 h2 h3 h4 with
            | some u => pieces (.unit u :: acc) rest
            | none => none
          | _ => none
        else
          match shortEscape? e with
          | some b => pieces (.byte b :: acc) rest
          | none => none
    else if b < 0x20 then none
    else pieces (.byte b :: acc) rest

/-- The UTF-8 bytes of pieces, behind `acc` backwards; absent when an escaped surrogate stands alone. -/
def pieceBytes (acc : Bytes) : List Piece → Option Bytes
  | [] => some acc.reverse
  | .byte b :: rest => pieceBytes (b :: acc) rest
  | .unit u :: rest =>
    if Text.isHighSurrogate u then
      match rest with
      | .unit v :: rest =>
        if Text.isLowSurrogate v then
          pieceBytes ((String.utf8EncodeChar (Text.pairChar u v)).reverse ++ acc) rest
        else none
      | _ => none
    else if Text.isLowSurrogate u then none
    else pieceBytes ((String.utf8EncodeChar (Char.ofNat u.toNat)).reverse ++ acc) rest

/-- The text that pieces spell. -/
def pieceText? (ps : List Piece) : Option String := do
  let bytes ← pieceBytes [] ps
  String.fromUTF8? ⟨bytes.toArray⟩

/-! ## Numbers -/

/-- One digit or more. -/
def digits? (bytes : Bytes) : Option (Bytes × Bytes) :=
  match bytes.span isDigit with
  | ([], _) => none
  | found => some found

/-- A whole number without leading zeros. -/
def integer? (bytes : Bytes) : Option (Bytes × Bytes) :=
  match bytes with
  | 0x30 :: rest => some ([0x30], rest)
  | _ => digits? bytes

/-- A point with digits behind it, if there is a point. -/
def fraction? (bytes : Bytes) : Option (Bytes × Bytes) :=
  match bytes with
  | 0x2e :: rest => (digits? rest).map fun (ds, rest) => (0x2e :: ds, rest)
  | _ => some ([], bytes)

/-- An exponent, if there is its letter. -/
def exponent? (bytes : Bytes) : Option (Bytes × Bytes) :=
  match bytes with
  | [] => some ([], [])
  | e :: rest =>
    if e == code 'e' || e == code 'E' then
      match rest with
      | s :: rest' =>
        if s == code '+' || s == code '-' then
          (digits? rest').map fun (ds, rest) => (e :: s :: ds, rest)
        else (digits? rest).map fun (ds, rest) => (e :: ds, rest)
      | [] => none
    else some ([], bytes)

/-- A number. -/
def number? (bytes : Bytes) : Option (String × Bytes) := do
  let (sign, bytes) : Bytes × Bytes := match bytes with
    | 0x2d :: rest => ([0x2d], rest)
    | _ => ([], bytes)
  let (whole, bytes) ← integer? bytes
  let (part, bytes) ← fraction? bytes
  let (power, bytes) ← exponent? bytes
  let spelling := sign ++ whole ++ part ++ power
  return (String.ofList (spelling.map fun b => Char.ofNat b.toNat), bytes)

/-! ## Tokens -/

/-- The rest of a text that begins with a literal. -/
def literal? (name : String) (token : Token) (bytes : Bytes) : Option (Token × Bytes) :=
  (List.isPrefixOf? (name.toList.map code) bytes).map fun rest => (token, rest)

/-- The token at the start of a text that does not start with a blank. -/
def token? (bytes : Bytes) : Option (Token × Bytes) :=
  match bytes with
  | [] => none
  | b :: rest =>
    if b == 0x7b then some (.openObject, rest)
    else if b == 0x7d then some (.closeObject, rest)
    else if b == code '[' then some (.openArray, rest)
    else if b == code ']' then some (.closeArray, rest)
    else if b == code ',' then some (.comma, rest)
    else if b == code ':' then some (.colon, rest)
    else if b == code '"' then
      (pieces [] rest).map fun (ps, rest) => (.text (pieceText? ps), rest)
    else if b == code 'n' then literal? "null" .null bytes
    else if b == code 't' then literal? "true" (.bool true) bytes
    else if b == code 'f' then literal? "false" (.bool false) bytes
    else (number? bytes).map fun (spelling, rest) => (.number spelling, rest)

/-- The tokens of a text, behind `acc` backwards. A token or a blank takes at least one byte, so the
length of the text is enough fuel. -/
def tokens (acc : List Token) : (fuel : Nat) → Bytes → Option (List Token)
  | _, [] => some acc.reverse
  | 0, _ :: _ => none
  | fuel + 1, b :: rest =>
    if isSpace b then tokens acc fuel rest
    else
      match token? (b :: rest) with
      | none => none
      | some (t, rest) => tokens (t :: acc) fuel rest

end Relabel.Json
