/-!
# Hexadecimal text

Numbers and bytes in base sixteen, always in lower case. A byte takes exactly two digits, so a digest or
a byte string of `n` bytes has `2 * n` of them.
-/

set_option autoImplicit false

namespace Relabel.Text

/-- The digit of a value below sixteen. -/
def hexDigit (n : Nat) : Char :=
  if n < 10 then Char.ofNat ('0'.toNat + n) else Char.ofNat ('a'.toNat + (n - 10))

/-- The `width` lowest digits of a number, most significant first. -/
def hexFixed : (width : Nat) → Nat → List Char
  | 0, _ => []
  | width + 1, n => hexFixed width (n / 16) ++ [hexDigit (n % 16)]

/-- A number with no leading zeros. -/
def hexNumber (n : Nat) : String :=
  String.ofList (Nat.toDigits 16 n)

/-- A number padded with zeros to `width` digits. -/
def hexPadded (width n : Nat) : String :=
  String.ofList (hexFixed width n)

/-- Two digits for each byte. -/
def hexBytes (bytes : List UInt8) : String :=
  String.ofList (bytes.flatMap fun b => [hexDigit (b.toNat / 16), hexDigit (b.toNat % 16)])

end Relabel.Text
