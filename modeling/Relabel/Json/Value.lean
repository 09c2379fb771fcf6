/-!
# JSON values

`τ` is the type of texts. What is written has proper texts; what is read may contain spellings that
follow the grammar and still denote no text, such as half a surrogate pair, and only a reader that uses
the text has to mind.
-/

set_option autoImplicit false

namespace Relabel

/-- A JSON value. Members keep their order and may repeat a key. -/
inductive Json (τ : Type) where
  | null
  | bool (value : Bool)
  /-- A number, by its spelling. -/
  | number (text : String)
  | text (value : τ)
  | array (items : List (Json τ))
  | object (members : List (τ × Json τ))

/-- A natural number. -/
def Json.nat {τ : Type} (n : Nat) : Json τ := .number (toString n)

end Relabel
