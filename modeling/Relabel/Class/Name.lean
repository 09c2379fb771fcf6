import Relabel.Text.Blank
import Relabel.Text.Split

/-!
# Names as people write them

A class may be given with dots between its packages, with a file extension and with stray blanks. The
internal name has slashes and none of these.
-/

set_option autoImplicit false

namespace Relabel

/-- What stands behind the internal name of a class in the name of its file. -/
def classEnding : String := ".class"

/-- A text without an ending, taken off as often as it is there. The ending is not empty, so every time
the text gets shorter. -/
def dropEndings (ending : List Char) : (fuel : Nat) → List Char → List Char
  | 0, reversed => reversed
  | fuel + 1, reversed =>
    match List.isPrefixOf? ending reversed with
    | some rest => dropEndings ending fuel rest
    | none => reversed

/-- The internal name of a class that is given in any of the usual ways. -/
def normalizeClassName (raw : String) : String :=
  let reversed := (Text.trimBlanks raw).toList.reverse
  let bare := (dropEndings classEnding.toList.reverse reversed.length reversed).reverse
  String.ofList ((bare.filter fun c => !Text.isBlank c).map fun c => if c = '.' then '/' else c)

end Relabel
