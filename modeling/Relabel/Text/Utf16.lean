/-!
# UTF-16 code units

A character of the basic plane is one code unit; any other is a surrogate pair, whose halves lie in two
ranges that no character has. A sequence of units spells a text exactly when every half has its partner.
-/

set_option autoImplicit false

namespace Relabel.Text

/-- The UTF-16 code units of a character. -/
def units (c : Char) : List UInt16 :=
  let n := c.toNat
  if n < 0x10000 then [UInt16.ofNat n]
  else
    let offset := n - 0x10000
    [UInt16.ofNat (0xD800 + offset / 0x400), UInt16.ofNat (0xDC00 + offset % 0x400)]

/-- The first half of a surrogate pair. -/
def isHighSurrogate (u : UInt16) : Bool :=
  0xD800 ≤ u && u ≤ 0xDBFF

/-- The second half of a surrogate pair. -/
def isLowSurrogate (u : UInt16) : Bool :=
  0xDC00 ≤ u && u ≤ 0xDFFF

/-- The character of a surrogate pair. -/
def pairChar (high low : UInt16) : Char :=
  Char.ofNat (0x10000 + (high.toNat - 0xD800) * 0x400 + (low.toNat - 0xDC00))

/-- The characters of a sequence of code units, behind `acc` backwards; absent when a surrogate stands
alone. -/
def charsOfUnits (acc : List Char) : List UInt16 → Option (List Char)
  | [] => some acc.reverse
  | u :: rest =>
    if isHighSurrogate u then
      match rest with
      | [] => none
      | v :: rest => if isLowSurrogate v then charsOfUnits (pairChar u v :: acc) rest else none
    else if isLowSurrogate u then none
    else charsOfUnits (Char.ofNat u.toNat :: acc) rest

end Relabel.Text
