/-!
# Blank characters

The characters with the Unicode property White_Space: the ASCII blanks, the next-line control, the
no-break space and the spaces and separators of the general punctuation and ideographic blocks.
-/

set_option autoImplicit false

namespace Relabel.Text

/-- The blank characters, in code point order. -/
def blanks : List Char :=
  ['\x09', '\x0a', '\x0b', '\x0c', '\x0d', ' ', '\u0085', '\u00a0', '\u1680', '\u2000', '\u2001',
    '\u2002', '\u2003', '\u2004', '\u2005', '\u2006', '\u2007', '\u2008', '\u2009', '\u200a', '\u2028',
    '\u2029', '\u202f', '\u205f', '\u3000']

/-- Membership in `blanks`. -/
def isBlank (c : Char) : Bool :=
  blanks.contains c

/-- A text without the blanks at either end. -/
def trimBlanks (s : String) : String :=
  let front := s.toList.dropWhile isBlank
  String.ofList (front.reverse.dropWhile isBlank).reverse

end Relabel.Text
