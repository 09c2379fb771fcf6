import Relabel.Json.Printer
import Relabel.Json.Reader
import Relabel.Proofs.Json.Token

/-!
# A written value is read back

Writing and reading meet at the tokens of a value: what is written lexes to them, with blanks in between that
lex to nothing, and the reader puts them together to the value again, whatever frames are open around it.
Values with numbers are left out, because where a number ends depends on what follows it.
-/

set_option autoImplicit false

namespace Relabel.Json

/-! ## Tokens of a value -/

mutual

/-- A value as it is read, where each text is known to be one. -/
def raw : Json String → Raw
  | .null => .null
  | .bool value => .bool value
  | .number spelling => .number spelling
  | .text value => .text (some value)
  | .array items => .array (rawItems items)
  | .object members => .object (rawMembers members)

/-- Items of an array as they are read. -/
def rawItems : List (Json String) → List Raw
  | [] => []
  | item :: items => item.raw :: rawItems items

/-- Members of an object as they are read. -/
def rawMembers : List (String × Json String) → List (Option String × Raw)
  | [] => []
  | (key, value) :: members => (some key, value.raw) :: rawMembers members

end

mutual

/-- No number occurs in the value. -/
def NumberFree : Json String → Prop
  | .null | .bool _ | .text _ => True
  | .number _ => False
  | .array items => NumberFreeItems items
  | .object members => NumberFreeMembers members

/-- No number occurs in items of an array. -/
def NumberFreeItems : List (Json String) → Prop
  | [] => True
  | item :: items => item.NumberFree ∧ NumberFreeItems items

/-- No number occurs in members of an object. -/
def NumberFreeMembers : List (String × Json String) → Prop
  | [] => True
  | (_, value) :: members => value.NumberFree ∧ NumberFreeMembers members

end

mutual

/-- The tokens of a value. -/
def spelled : Json String → List Token
  | .null => [.null]
  | .bool value => [.bool value]
  | .number spelling => [.number spelling]
  | .text value => [.text (some value)]
  | .array [] => [.openArray, .closeArray]
  | .array (item :: items) => .openArray :: (item.spelled ++ (spelledItems items ++ [.closeArray]))
  | .object [] => [.openObject, .closeObject]
  | .object ((key, value) :: members) =>
    .openObject :: .text (some key) :: .colon :: (value.spelled ++ (spelledMembers members ++ [.closeObject]))

/-- The tokens of further items of an array. -/
def spelledItems : List (Json String) → List Token
  | [] => []
  | item :: items => .comma :: (item.spelled ++ spelledItems items)

/-- The tokens of further members of an object. -/
def spelledMembers : List (String × Json String) → List Token
  | [] => []
  | (key, value) :: members =>
    .comma :: .text (some key) :: .colon :: (value.spelled ++ spelledMembers members)

end

/-! ## Writing -/

/-- What is written is `acc` with something behind it that is read as these tokens. -/
def Extends (out acc : String) (ts : List Token) : Prop :=
  ∃ cs, out.toList = acc.toList ++ cs ∧ Lexes cs ts

variable {acc out : String} {ts us : List Token}

theorem Extends.trans {out' : String} (h : Extends out acc ts) (h' : Extends out' out us) :
    Extends out' acc (ts ++ us) := by
  obtain ⟨cs, hout, hcs⟩ := h
  obtain ⟨ds, hout', hds⟩ := h'
  exact ⟨cs ++ ds, by rw [hout', hout, List.append_assoc], hcs.append hds⟩

/-- Something is written behind. -/
theorem Extends.write (h : Extends out acc ts) {s : String} (hs : Lexes s.toList us) :
    Extends (out ++ s) acc (ts ++ us) :=
  h.trans ⟨s.toList, String.toList_append, hs⟩

/-- Something is written behind that lexes to nothing. -/
theorem Extends.blank (h : Extends out acc ts) {s : String} (hs : Lexes s.toList []) :
    Extends (out ++ s) acc ts := by
  have hblank := h.write hs
  rwa [List.append_nil] at hblank

theorem extends_self (acc : String) : Extends acc acc [] := ⟨[], (List.append_nil _).symm, lexes_nil⟩

theorem extends_append (acc : String) {s : String} (hs : Lexes s.toList ts) : Extends (acc ++ s) acc ts :=
  (extends_self acc).write hs

theorem lexes_newline (level : Nat) : Lexes (newline level).toList [] := by
  rw [newline, String.toList_ofList]
  refine lexes_blanks fun c hc => ?_
  rcases List.mem_cons.mp hc with rfl | hc
  · exact Or.inr rfl
  · exact Or.inl (List.eq_of_mem_replicate hc)

theorem lexes_comma : Lexes ",".toList [.comma] :=
  lexes_token (by decide) (by decide) fun _ => rfl

theorem lexes_colon : Lexes ": ".toList [.colon] := by
  have hcolon : Lexes [':'] [.colon] := lexes_token (by decide) (by decide) fun _ => rfl
  have hblank : Lexes [' '] [] := lexes_blanks (by simp)
  exact hcolon.append hblank

theorem lexes_openArray : Lexes "[".toList [.openArray] :=
  lexes_token (by decide) (by decide) fun _ => rfl

theorem lexes_closeArray : Lexes "]".toList [.closeArray] :=
  lexes_token (by decide) (by decide) fun _ => rfl

theorem lexes_openObject : Lexes "\x7b".toList [.openObject] :=
  lexes_token (by decide) (by decide) fun _ => rfl

theorem lexes_closeObject : Lexes "\x7d".toList [.closeObject] :=
  lexes_token (by decide) (by decide) fun _ => rfl

/-- The key of a member and the colon behind it. -/
theorem Extends.key (h : Extends out acc ts) (key : String) :
    Extends (out ++ quoted key ++ ": ") acc (ts ++ [.text (some key), .colon]) := by
  have hkey := (h.write (lexes_quoted key)).write lexes_colon
  rwa [List.append_assoc] at hkey

mutual

theorem extends_write (level : Nat) (acc : String) : (j : Json String) → j.NumberFree →
    Extends (write level acc j) acc j.spelled
  | .null, _ => extends_append acc (lexes_token (by decide) (by decide) fun _ => rfl)
  | .bool true, _ => extends_append acc (lexes_token (by decide) (by decide) fun _ => rfl)
  | .bool false, _ => extends_append acc (lexes_token (by decide) (by decide) fun _ => rfl)
  | .number _, h => h.elim
  | .text value, _ => extends_append acc (lexes_quoted value)
  | .array [], _ => extends_append acc (lexes_openArray.append lexes_closeArray)
  | .array (item :: items), h => by
    obtain ⟨hitem, hitems⟩ := h
    have hopen := (extends_append acc lexes_openArray).blank (lexes_newline (level + 1))
    have hfirst := hopen.trans (extends_write (level + 1) _ item hitem)
    have hrest := hfirst.trans (extends_writeItems (level + 1) _ items hitems)
    have hclose := (hrest.blank (lexes_newline level)).write lexes_closeArray
    rw [write, spelled]
    simpa using hclose
  | .object [], _ => extends_append acc (lexes_openObject.append lexes_closeObject)
  | .object ((key, value) :: members), h => by
    obtain ⟨hvalue, hmembers⟩ := h
    have hopen := (extends_append acc lexes_openObject).blank (lexes_newline (level + 1))
    have hfirst := (hopen.key key).trans (extends_write (level + 1) _ value hvalue)
    have hrest := hfirst.trans (extends_writeMembers (level + 1) _ members hmembers)
    have hclose := (hrest.blank (lexes_newline level)).write lexes_closeObject
    rw [write, spelled]
    simpa using hclose

theorem extends_writeItems (level : Nat) (acc : String) : (items : List (Json String)) → NumberFreeItems items →
    Extends (writeItems level acc items) acc (spelledItems items)
  | [], _ => extends_self acc
  | item :: items, h => by
    obtain ⟨hitem, hitems⟩ := h
    have hcomma := (extends_append acc lexes_comma).blank (lexes_newline level)
    have hrest := (hcomma.trans (extends_write level _ item hitem)).trans (extends_writeItems level _ items hitems)
    rw [writeItems, spelledItems]
    simpa using hrest

theorem extends_writeMembers (level : Nat) (acc : String) : (members : List (String × Json String)) →
    NumberFreeMembers members → Extends (writeMembers level acc members) acc (spelledMembers members)
  | [], _ => extends_self acc
  | (key, value) :: members, h => by
    obtain ⟨hvalue, hmembers⟩ := h
    have hcomma := (extends_append acc lexes_comma).blank (lexes_newline level)
    have hrest := ((hcomma.key key).trans (extends_write level _ value hvalue)).trans
      (extends_writeMembers level _ members hmembers)
    rw [writeMembers, spelledMembers]
    simpa using hrest

end

/-! ## Reading -/

/-- The first token of a value does not end an array. -/
theorem build_firstItem (frames : List Frame) (j : Json String) (rest : List Token) :
    build (.array [] :: frames) .firstItem (j.spelled ++ rest)
      = build (.array [] :: frames) .value (j.spelled ++ rest) := by
  cases j with
  | null | bool | number | text => rfl
  | array items => cases items <;> rfl
  | object members => cases members <;> rfl

mutual

theorem build_spelled (frames : List Frame) (rest : List Token) : (j : Json String) →
    build frames .value (j.spelled ++ rest) = build frames (.complete j.raw) rest
  | .null | .bool _ | .number _ | .text _ => rfl
  | .array [] => rfl
  | .array (item :: items) => by
    have hfirst := build_firstItem frames item (spelledItems items ++ .closeArray :: rest)
    rw [build_spelled _ _ item, build_spelledItems [] frames item.raw rest items] at hfirst
    rw [spelled, List.cons_append, List.append_assoc, List.append_assoc]
    exact hfirst
  | .object [] => rfl
  | .object ((key, value) :: members) => by
    have hfirst := build_spelled (.pending [] (some key) :: frames) (spelledMembers members ++ .closeObject :: rest)
      value
    rw [build_spelledMembers [] frames (some key) value.raw rest members] at hfirst
    simp only [spelled, List.cons_append, List.append_assoc]
    exact hfirst

/-- Items behind those of an open array and a complete one. -/
theorem build_spelledItems (done : List Raw) (frames : List Frame) (last : Raw) (rest : List Token) :
    (items : List (Json String)) →
    build (.array done :: frames) (.complete last) (spelledItems items ++ .closeArray :: rest)
      = build frames (.complete (.array (done.reverse ++ last :: rawItems items))) rest
  | [] => by
    change build frames (.complete (.array (last :: done).reverse)) rest = _
    rw [List.reverse_cons, rawItems]
  | item :: items => by
    have hitem := build_spelled (.array (last :: done) :: frames) (spelledItems items ++ .closeArray :: rest) item
    rw [build_spelledItems (last :: done) frames item.raw rest items, List.reverse_cons, List.append_assoc] at hitem
    simp only [spelledItems, List.cons_append, List.append_assoc]
    exact hitem

/-- Members behind those of an open object and a complete one. -/
theorem build_spelledMembers (done : List (Option String × Raw)) (frames : List Frame) (key : Option String)
    (last : Raw) (rest : List Token) : (members : List (String × Json String)) →
    build (.pending done key :: frames) (.complete last) (spelledMembers members ++ .closeObject :: rest)
      = build frames (.complete (.object (done.reverse ++ (key, last) :: rawMembers members))) rest
  | [] => by
    change build frames (.complete (.object ((key, last) :: done).reverse)) rest = _
    rw [List.reverse_cons, rawMembers]
  | (next, value) :: members => by
    have hvalue := build_spelled (.pending ((key, last) :: done) (some next) :: frames)
      (spelledMembers members ++ .closeObject :: rest) value
    rw [build_spelledMembers ((key, last) :: done) frames (some next) value.raw rest members, List.reverse_cons,
      List.append_assoc] at hvalue
    simp only [spelledMembers, List.cons_append, List.append_assoc]
    exact hvalue

end

/-- **A written value is read back.** -/
theorem parse?_pretty {j : Json String} (h : j.NumberFree) : parse? j.pretty.toUTF8.toList = some j.raw := by
  obtain ⟨cs, htext, hlexes⟩ := extends_write 0 "" j h
  obtain ⟨fuel, -, htokens⟩ := hlexes [] 0 []
  have hbytes : j.pretty.toUTF8.toList = Text.utf8 cs := by
    rw [Text.toUTF8_eq, pretty, htext]
    rfl
  have hbuild := build_spelled [] [] j
  rw [List.append_nil] at hbuild
  rw [parse?, hbytes]
  rw [Nat.add_zero, List.append_nil, List.append_nil, tokens, List.reverse_reverse] at htokens
  rw [htokens]
  exact hbuild

end Relabel.Json
