import Relabel.Json.Printer
import Relabel.Json.Token
import Relabel.Proofs.Text.Utf8

/-!
# Written strings are one token

A written string is read byte by byte and put together again. Each character is followed from its spelling
to the pieces that are read off it, and from the pieces to the bytes of the character; a string does the same
for all of them. `Lexes` says the same of any text: whatever stands behind it, its tokens are read first.
-/

set_option autoImplicit false

namespace Relabel.Json

open Text (utf8)

/-! ## Pieces of a string -/

/-- The bytes are read as these pieces, whatever follows. -/
def ReadAs (bytes : Bytes) (ps : List Piece) : Prop :=
  ∀ acc rest, pieces acc (bytes ++ rest) = pieces (ps.reverse ++ acc) rest

/-- The pieces stand for these bytes, whatever follows. -/
def StandFor (ps : List Piece) (bytes : Bytes) : Prop :=
  ∀ acc rest, pieceBytes acc (ps ++ rest) = pieceBytes (bytes.reverse ++ acc) rest

/-- The bytes that stand for themselves inside a string. -/
def IsLiteral (b : UInt8) : Prop := 0x20 ≤ b.toNat ∧ b.toNat ≠ 0x22 ∧ b.toNat ≠ 0x5c

theorem pieces_literal {b : UInt8} (hb : IsLiteral b) (acc : List Piece) (rest : Bytes) :
    pieces acc (b :: rest) = pieces (.byte b :: acc) rest := by
  obtain ⟨hcontrol, hquote, hslash⟩ := hb
  have hq : ¬(b == code '"') = true := by simp [code, ← UInt8.toNat_inj, hquote]
  have hs : ¬(b == code '\\') = true := by simp [code, ← UInt8.toNat_inj, hslash]
  have hc : ¬b < 0x20 := by simp [UInt8.lt_iff_toNat_lt, hcontrol]
  rw [pieces.eq_def]
  simp only [if_neg hq, if_neg hs, if_neg hc]

theorem readAs_literals {bytes : Bytes} (h : ∀ b ∈ bytes, IsLiteral b) :
    ReadAs bytes (bytes.map Piece.byte) := by
  induction bytes with
  | nil => exact fun acc rest => rfl
  | cons b bytes ih =>
    intro acc rest
    rw [List.cons_append, pieces_literal (h b List.mem_cons_self),
      ih (fun x hx => h x (List.mem_cons_of_mem b hx))]
    simp

theorem standFor_bytes (bytes : Bytes) : StandFor (bytes.map Piece.byte) bytes := by
  induction bytes with
  | nil => exact fun acc rest => rfl
  | cons b bytes ih =>
    intro acc rest
    rw [List.map_cons, List.cons_append, pieceBytes, ih]
    simp

theorem readAs_short {e b : UInt8} (he : ¬(e == code 'u') = true) (hb : shortEscape? e = some b) :
    ReadAs [0x5c, e] [.byte b] := by
  intro acc rest
  change pieces acc (0x5c :: e :: rest) = pieces (.byte b :: acc) rest
  rw [pieces.eq_def]
  simp only [if_neg (show ¬(0x5c == code '"') = true by decide), if_pos (show (0x5c == code '\\') = true from rfl),
    if_neg he, hb]

/-- The four digits of a control character spell its code unit. -/
theorem unit?_hexFixed : ∀ n < 0x20,
    utf8 (Text.hexFixed 4 n) = [0x30, 0x30, 0x30 + UInt8.ofNat (n / 16), code (Text.hexDigit (n % 16))] ∧
    unit? 0x30 0x30 (0x30 + UInt8.ofNat (n / 16)) (code (Text.hexDigit (n % 16))) = some (UInt16.ofNat n) := by
  decide

theorem readAs_unit {n : Nat} (hn : n < 0x20) :
    ReadAs (utf8 (['\\', 'u'] ++ Text.hexFixed 4 n)) [.unit (UInt16.ofNat n)] := by
  intro acc rest
  obtain ⟨hdigits, hunit⟩ := unit?_hexFixed n hn
  rw [Text.utf8_append, hdigits]
  change pieces acc (0x5c :: 0x75 :: 0x30 :: 0x30 :: _ :: _ :: rest) = pieces (.unit (UInt16.ofNat n) :: acc) rest
  rw [pieces.eq_def]
  simp only [if_neg (show ¬(0x5c == code '"') = true by decide),
    if_pos (show (0x5c == code '\\') = true from rfl), if_pos (show (0x75 == code 'u') = true from rfl), hunit]

theorem standFor_unit {c : Char} (hc : c.toNat < 0x20) :
    StandFor [.unit (UInt16.ofNat c.toNat)] (utf8 [c]) := by
  intro acc rest
  have hvalue : (UInt16.ofNat c.toNat).toNat = c.toNat := by
    rw [UInt16.toNat_ofNat']
    omega
  have hhigh : ¬Text.isHighSurrogate (UInt16.ofNat c.toNat) = true := by
    simp only [Text.isHighSurrogate, Bool.and_eq_true, decide_eq_true_eq, UInt16.le_iff_toNat_le, hvalue]
    have : (0xD800 : UInt16).toNat = 0xD800 := rfl
    omega
  have hlow : ¬Text.isLowSurrogate (UInt16.ofNat c.toNat) = true := by
    simp only [Text.isLowSurrogate, Bool.and_eq_true, decide_eq_true_eq, UInt16.le_iff_toNat_le, hvalue]
    have : (0xDC00 : UInt16).toNat = 0xDC00 := rfl
    omega
  rw [List.singleton_append, pieceBytes.eq_def]
  simp only [if_neg hhigh, if_neg hlow, hvalue, Char.ofNat_toNat, Text.utf8, List.flatMap_singleton]

/-- The bytes of a character that needs no escape stand for themselves. -/
theorem isLiteral_of_mem {c : Char} (hquote : c ≠ '"') (hslash : c ≠ '\\') (hcontrol : ¬c.toNat < 0x20) :
    ∀ b ∈ String.utf8EncodeChar c, IsLiteral b := by
  intro b hb
  rcases Nat.lt_or_ge c.toNat 0x80 with hascii | hwide
  · have hother (d : Char) (hd : c ≠ d) : c.toNat ≠ d.toNat := fun heq => hd (Char.toNat_inj.mp heq)
    rw [Text.utf8EncodeChar_of_lt hascii, List.mem_singleton] at hb
    have hvalue : b.toNat = c.toNat := by
      rw [hb, UInt8.toNat_ofNat']
      omega
    rw [IsLiteral, hvalue]
    exact ⟨Nat.le_of_not_lt hcontrol, hother '"' hquote, hother '\\' hslash⟩
  · have hb := Text.le_of_mem_utf8EncodeChar hwide b hb
    exact ⟨by omega, by omega, by omega⟩

/-- A character is read off its spelling. -/
theorem readAs_escape (c : Char) : ∃ ps, ReadAs (utf8 (escape c)) ps ∧ StandFor ps (utf8 [c]) := by
  have hshort (d : Char) (e b : UInt8) (he : ¬(e == code 'u') = true) (hb : shortEscape? e = some b)
      (hd : utf8 [d] = [b]) : ∃ ps, ReadAs [0x5c, e] ps ∧ StandFor ps (utf8 [d]) := by
    refine ⟨[.byte b], readAs_short he hb, ?_⟩
    rw [hd]
    exact standFor_bytes [b]
  unfold escape
  split
  · next hc =>
    subst hc
    exact hshort '"' (code '"') 0x22 (by decide) rfl rfl
  split
  · next hc =>
    subst hc
    exact hshort '\\' (code '\\') 0x5c (by decide) rfl rfl
  split
  · next hc =>
    subst hc
    exact hshort '\x08' (code 'b') 0x08 (by decide) rfl rfl
  split
  · next hc =>
    subst hc
    exact hshort '\x0c' (code 'f') 0x0c (by decide) rfl rfl
  split
  · next hc =>
    subst hc
    exact hshort '\n' (code 'n') 0x0a (by decide) rfl rfl
  split
  · next hc =>
    subst hc
    exact hshort '\r' (code 'r') 0x0d (by decide) rfl rfl
  split
  · next hc =>
    subst hc
    exact hshort '\t' (code 't') 0x09 (by decide) rfl rfl
  split
  · next hc => exact ⟨_, readAs_unit hc, standFor_unit hc⟩
  · next hquote hslash _ _ _ _ _ hcontrol =>
    refine ⟨(utf8 [c]).map Piece.byte, readAs_literals ?_, standFor_bytes _⟩
    rw [Text.utf8, List.flatMap_singleton]
    exact isLiteral_of_mem hquote hslash hcontrol

theorem readAs_flatMap_escape (cs : List Char) :
    ∃ ps, ReadAs (utf8 (cs.flatMap escape)) ps ∧ StandFor ps (utf8 cs) := by
  induction cs with
  | nil => exact ⟨[], fun acc rest => rfl, fun acc rest => rfl⟩
  | cons c cs ih =>
    obtain ⟨ps, hread, hstand⟩ := readAs_escape c
    obtain ⟨qs, hreads, hstands⟩ := ih
    refine ⟨ps ++ qs, fun acc rest => ?_, fun acc rest => ?_⟩
    · rw [List.flatMap_cons, Text.utf8_append, List.append_assoc, hread, hreads]
      simp
    · rw [List.append_assoc, hstand, hstands, ← List.singleton_append (l := cs), Text.utf8_append,
        List.reverse_append, List.append_assoc]

/-! ## Tokens -/

/-- The text is read as these tokens, whatever follows. Every token and every blank takes a byte at least, so
there is fuel left for what follows. -/
def Lexes (cs : List Char) (ts : List Token) : Prop :=
  ∀ acc fuel rest, ∃ fuel', fuel ≤ fuel' ∧
    tokens acc ((utf8 cs).length + fuel) (utf8 cs ++ rest) = tokens (ts.reverse ++ acc) fuel' rest

theorem lexes_nil : Lexes [] [] := fun acc fuel rest => ⟨fuel, Nat.le_refl fuel, by simp⟩

theorem Lexes.append {cs ds : List Char} {ts us : List Token} (hcs : Lexes cs ts) (hds : Lexes ds us) :
    Lexes (cs ++ ds) (ts ++ us) := by
  intro acc fuel rest
  obtain ⟨first, hfirst, heq⟩ := hcs acc ((utf8 ds).length + fuel) (utf8 ds ++ rest)
  obtain ⟨second, hsecond, heq'⟩ := hds (ts.reverse ++ acc) (first - (utf8 ds).length) rest
  refine ⟨second, by omega, ?_⟩
  rw [show (utf8 ds).length + (first - (utf8 ds).length) = first by omega] at heq'
  rw [Text.utf8_append, List.length_append, List.append_assoc, Nat.add_assoc, heq, heq', List.reverse_append,
    List.append_assoc]

/-- A text that begins with no blank and is one token. -/
theorem lexes_token {c : Char} {cs : List Char} {t : Token} (hascii : c.toNat < 0x80)
    (hspace : isSpace (UInt8.ofNat c.toNat) = false)
    (htoken : ∀ rest, token? (utf8 (c :: cs) ++ rest) = some (t, rest)) : Lexes (c :: cs) [t] := by
  intro acc fuel rest
  have hbytes : utf8 (c :: cs) = UInt8.ofNat c.toNat :: utf8 cs := by
    rw [Text.utf8_cons, Text.utf8EncodeChar_of_lt hascii, List.singleton_append]
  have htoken := htoken rest
  rw [hbytes] at htoken ⊢
  refine ⟨(utf8 cs).length + fuel, by omega, ?_⟩
  rw [List.length_cons, show (utf8 cs).length + 1 + fuel = (utf8 cs).length + fuel + 1 by omega,
    List.cons_append, tokens]
  rw [List.cons_append] at htoken
  simp only [hspace, htoken]
  rfl

theorem lexes_blanks {cs : List Char} (h : ∀ c ∈ cs, c = ' ' ∨ c = '\n') : Lexes cs [] := by
  induction cs with
  | nil => exact lexes_nil
  | cons c cs ih =>
    have hone : Lexes [c] [] := by
      intro acc fuel rest
      rcases h c List.mem_cons_self with rfl | rfl
      · exact ⟨fuel, Nat.le_refl fuel, by rw [Nat.add_comm]; rfl⟩
      · exact ⟨fuel, Nat.le_refl fuel, by rw [Nat.add_comm]; rfl⟩
    exact hone.append (ih fun x hx => h x (List.mem_cons_of_mem c hx))

/-- **A written string is one token**, with the text that was written. -/
theorem lexes_quoted (s : String) : Lexes (quoted s).toList [.text (some s)] := by
  rw [quoted, String.toList_ofList]
  refine lexes_token (by decide) (by decide) fun rest => ?_
  obtain ⟨ps, hread, hstand⟩ := readAs_flatMap_escape s.toList
  have hpieces : pieces [] (utf8 (s.toList.flatMap escape ++ ['"']) ++ rest) = some (ps, rest) := by
    rw [Text.utf8_append, List.append_assoc, hread, List.append_nil]
    change pieces ps.reverse (0x22 :: rest) = _
    rw [pieces.eq_def]
    simp [code]
  have htext : pieceText? ps = some s := by
    have hbytes := hstand [] []
    rw [List.append_nil, List.append_nil, pieceBytes, List.reverse_reverse] at hbytes
    rw [pieceText?, hbytes]
    exact Text.fromUTF8?_utf8 s
  have hfirst : utf8 ('"' :: (s.toList.flatMap escape ++ ['"'])) ++ rest
      = 0x22 :: (utf8 (s.toList.flatMap escape ++ ['"']) ++ rest) := rfl
  rw [hfirst]
  change (pieces [] _).map _ = _
  rw [hpieces, Option.map_some]
  simp only [htext]

end Relabel.Json
