import Relabel.Text.Hex
import Relabel.Text.Unprintable

/-!
# Quotations in messages

A message that mentions a text of the input quotes it, so that the message stays on one line and every
character of it can be told apart. The quote character and the backslash are escaped, the four control
characters with a short name are written by it, and any other character that does not stand by itself is
written by its number. A text goes between double quotes and a single character between apostrophes;
neither kind escapes the quote of the other.
-/

set_option autoImplicit false

namespace Relabel.Text

/-- The spelling of one character inside a quotation delimited by `quote`. -/
def quotedChars (quote c : Char) : List Char :=
  if c = quote ∨ c = '\\' then ['\\', c]
  else if c = '\x00' then ['\\', '0']
  else if c = '\t' then ['\\', 't']
  else if c = '\n' then ['\\', 'n']
  else if c = '\r' then ['\\', 'r']
  else if isUnprintable c then
    ['\\', 'u', '\x7b'] ++ (hexNumber c.toNat).toList ++ ['\x7d']
  else [c]

/-- A text between double quotes. -/
def quote (s : String) : String :=
  String.ofList ('"' :: s.toList.flatMap (quotedChars '"') ++ ['"'])

/-- A character between apostrophes. -/
def quoteChar (c : Char) : String :=
  String.ofList ('\'' :: quotedChars '\'' c ++ ['\''])

end Relabel.Text
