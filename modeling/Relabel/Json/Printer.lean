import Relabel.Json.Value
import Relabel.Text.Hex

/-!
# Printing JSON

One member or item a line, indented by two blanks a level, and an empty array or object on one line. The
quote, the backslash and the control characters are escaped, with a letter where there is one; every
other character is written as it is.
-/

set_option autoImplicit false

namespace Relabel.Json

/-- The spelling of a character inside a string. -/
def escape (c : Char) : List Char :=
  if c = '"' then ['\\', '"']
  else if c = '\\' then ['\\', '\\']
  else if c = '\x08' then ['\\', 'b']
  else if c = '\x0c' then ['\\', 'f']
  else if c = '\n' then ['\\', 'n']
  else if c = '\r' then ['\\', 'r']
  else if c = '\t' then ['\\', 't']
  else if c.toNat < 0x20 then ['\\', 'u'] ++ Text.hexFixed 4 c.toNat
  else [c]

/-- A string with its quotes. -/
def quoted (s : String) : String :=
  String.ofList ('"' :: (s.toList.flatMap escape ++ ['"']))

/-- A new line with the indentation of a level. -/
def newline (level : Nat) : String :=
  String.ofList ('\n' :: List.replicate (2 * level) ' ')

mutual

/-- A value behind `acc`, inside `level` levels. -/
def write (level : Nat) (acc : String) : Json String → String
  | .null => acc ++ "null"
  | .bool true => acc ++ "true"
  | .bool false => acc ++ "false"
  | .number spelling => acc ++ spelling
  | .text value => acc ++ quoted value
  | .array [] => acc ++ "[]"
  | .array (item :: items) =>
    writeItems (level + 1) (write (level + 1) (acc ++ "[" ++ newline (level + 1)) item) items
      ++ newline level ++ "]"
  | .object [] => acc ++ "\x7b\x7d"
  | .object ((key, value) :: members) =>
    writeMembers (level + 1)
      (write (level + 1) (acc ++ "\x7b" ++ newline (level + 1) ++ quoted key ++ ": ") value) members
      ++ newline level ++ "\x7d"

/-- Further items of an array behind `acc`. -/
def writeItems (level : Nat) (acc : String) : List (Json String) → String
  | [] => acc
  | item :: items => writeItems level (write level (acc ++ "," ++ newline level) item) items

/-- Further members of an object behind `acc`. -/
def writeMembers (level : Nat) (acc : String) : List (String × Json String) → String
  | [] => acc
  | (key, value) :: members =>
    writeMembers level (write level (acc ++ "," ++ newline level ++ quoted key ++ ": ") value) members

end

/-- The text of a value, without a final new line. -/
def pretty (j : Json String) : String := write 0 "" j

end Relabel.Json
