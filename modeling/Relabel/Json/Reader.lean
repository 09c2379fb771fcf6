import Relabel.Json.Token
import Relabel.Json.Value

/-!
# Reading JSON

Tokens are put together with an explicit stack of the arrays and objects that are still open, so values
may nest to any depth. Reading accepts exactly one value with nothing but blanks around it.
-/

set_option autoImplicit false

namespace Relabel.Json

/-- A value as it is read: a text may turn out to denote none. -/
abbrev Raw := Json (Option String)

/-- An array or object that is still open, with what it holds so far backwards. -/
inductive Frame where
  | array (items : List Raw)
  | object (members : List (Option String × Raw))
  /-- An object with a key that waits for its value. -/
  | pending (members : List (Option String × Raw)) (key : Option String)

/-- What has to come next. -/
inductive Mode where
  | value
  | firstItem
  | firstKey
  | nextKey
  | colon
  /-- Nothing: a value is complete. -/
  | complete (value : Raw)

/-- The value a token is by itself. -/
def Token.scalar? : Token → Option Raw
  | .null => some .null
  | .bool b => some (.bool b)
  | .number s => some (.number s)
  | .text s => some (.text s)
  | _ => none

/-- The open frames and the mode after the first token of a value. -/
def beginValue (frames : List Frame) (t : Token) : Option (List Frame × Mode) :=
  match t with
  | .openArray => some (.array [] :: frames, .firstItem)
  | .openObject => some (.object [] :: frames, .firstKey)
  | t => t.scalar?.map fun v => (frames, .complete v)

/-- The open frames and the mode after a key. -/
def beginMember (frames : List Frame) (t : Token) : Option (List Frame × Mode) :=
  match frames, t with
  | .object ms :: frames, .text k => some (.pending ms k :: frames, .colon)
  | _, _ => none

/-- The open frames and the mode after a token that follows a complete value. -/
def afterValue (frames : List Frame) (v : Raw) (t : Token) : Option (List Frame × Mode) :=
  match frames, t with
  | .array vs :: frames, .comma => some (.array (v :: vs) :: frames, .value)
  | .array vs :: frames, .closeArray => some (frames, .complete (.array (v :: vs).reverse))
  | .pending ms k :: frames, .comma => some (.object ((k, v) :: ms) :: frames, .nextKey)
  | .pending ms k :: frames, .closeObject =>
    some (frames, .complete (.object ((k, v) :: ms).reverse))
  | _, _ => none

/-- One token. -/
def step (frames : List Frame) (mode : Mode) (t : Token) : Option (List Frame × Mode) :=
  match mode with
  | .value => beginValue frames t
  | .firstItem =>
    match frames, t with
    | .array [] :: frames, .closeArray => some (frames, .complete (.array []))
    | frames, t => beginValue frames t
  | .firstKey =>
    match frames, t with
    | .object [] :: frames, .closeObject => some (frames, .complete (.object []))
    | frames, t => beginMember frames t
  | .nextKey => beginMember frames t
  | .colon => if t = .colon then some (frames, .value) else none
  | .complete v => afterValue frames v t

/-- The value that tokens make up. -/
def build (frames : List Frame) (mode : Mode) : List Token → Option Raw
  | [] =>
    match frames, mode with
    | [], .complete v => some v
    | _, _ => none
  | t :: ts =>
    match step frames mode t with
    | none => none
    | some (frames, mode) => build frames mode ts

/-- The value a text spells. -/
def parse? (bytes : Bytes) : Option Raw := do
  let ts ← tokens [] bytes.length bytes
  build [] .value ts

end Relabel.Json
