import Relabel.Proofs.Text.ModifiedUtf8

/-!
# The shortest spelling of a text

Reading modified UTF-8 accepts more than writing produces: a code unit may stand in any of the three forms that
has room for it, so a text has many spellings. What `encode` writes is the canonical one. It has no zero byte and
no lead byte of four byte forms, it reads back as the text, and every other spelling of the text is longer.

A spelling is taken apart unit by unit. For one unit the three forms are compared with the one that is written;
lengths add up, so a spelling that is not longer is the written one in each of its units. The units of a text are
determined by the text, which carries the comparison over to texts.
-/

set_option autoImplicit false

namespace Relabel.ModifiedUtf8

open Text

/-! ## Bytes that are written -/

theorem toNat_le_of_and (b m : UInt8) : (b &&& m).toNat ≤ m.toNat := by
  rw [UInt8.toNat_and]
  exact Nat.and_le_right

/-- A byte with a payload under a mark lies between the mark and the mark with all payload bits. -/
theorem toNat_marked {m c : UInt8} {n k : Nat} (hm : m.toNat = 2 ^ n - 1) (hc : c.toNat = k <<< n) (b : UInt8) :
    (b &&& m ||| c).toNat = c.toNat + (b &&& m).toNat := by
  have hpayload : (b &&& m).toNat < 2 ^ n := by
    have hle := toNat_le_of_and b m
    have hpos := Nat.two_pow_pos n
    omega
  rw [UInt8.or_comm, UInt8.toNat_or, hc, ← Nat.shiftLeft_add_eq_or_of_lt hpayload]

theorem bounds_of_toNat {b : UInt8} (hpos : 0 < b.toNat) (hlt : b.toNat < 0xF0) : b ≠ 0x00 ∧ b < 0xF0 := by
  refine ⟨fun hzero => ?_, UInt8.lt_iff_toNat_lt.mpr hlt⟩
  rw [hzero] at hpos
  exact absurd hpos (Nat.lt_irrefl 0)

theorem bounds_marked {m c : UInt8} (n k : Nat) (hm : m.toNat = 2 ^ n - 1) (hc : c.toNat = k <<< n)
    (hpos : 0 < c.toNat) (hlt : c.toNat + m.toNat < 0xF0) (b : UInt8) :
    b &&& m ||| c ≠ 0x00 ∧ b &&& m ||| c < 0xF0 := by
  have hvalue := toNat_marked hm hc b
  have hle := toNat_le_of_and b m
  exact bounds_of_toNat (by omega) (by omega)

theorem bounds_continuation (b : UInt8) : b &&& 0x3F ||| 0x80 ≠ 0x00 ∧ b &&& 0x3F ||| 0x80 < 0xF0 :=
  bounds_marked 6 2 rfl rfl (by decide) (by decide) b

/-- **No byte that is written is zero or starts a longer form.** -/
theorem bounds_of_mem_encodeUnit {u : UInt16} {b : UInt8} (h : b ∈ encodeUnit u) : b ≠ 0x00 ∧ b < 0xF0 := by
  unfold encodeUnit at h
  split at h
  · next hu =>
    have hpos : 1 ≤ u.toNat := UInt16.le_iff_toNat_le.mp hu.1
    have hle : u.toNat ≤ 0x7F := UInt16.le_iff_toNat_le.mp hu.2
    have hbyte : b.toNat = u.toNat := by
      rw [List.mem_singleton.mp h, UInt16.toNat_toUInt8]
      omega
    exact bounds_of_toNat (by omega) (by omega)
  · split at h
    · rcases List.mem_pair.mp h with rfl | rfl
      · exact bounds_marked 5 6 rfl rfl (by decide) (by decide) _
      · exact bounds_continuation _
    · rw [List.mem_cons, List.mem_pair] at h
      rcases h with rfl | rfl | rfl
      · exact bounds_marked 4 14 rfl rfl (by decide) (by decide) _
      · exact bounds_continuation _
      · exact bounds_continuation _

/-! ## Spellings of a unit -/

/-- The code unit in two bytes. -/
def unitOfTwo (b0 b1 : UInt8) : UInt16 := (b0 &&& 0x1F).toUInt16 <<< 6 ||| (b1 &&& 0x3F).toUInt16

/-- The code unit in three bytes. -/
def unitOfThree (b0 b1 b2 : UInt8) : UInt16 :=
  (b0 &&& 0x0F).toUInt16 <<< 12 ||| (b1 &&& 0x3F).toUInt16 <<< 6 ||| (b2 &&& 0x3F).toUInt16

/-- The forms in which a code unit is read, whether or not they are the one in which it is written. -/
inductive Spells : UInt16 → Bytes → Prop where
  | one {b : UInt8} : isPlain b = true → Spells b.toUInt16 [b]
  | two {b0 b1 : UInt8} : b0 &&& 0xE0 = 0xC0 → isContinuation b1 = true → Spells (unitOfTwo b0 b1) [b0, b1]
  | three {b0 b1 b2 : UInt8} : b0 &&& 0xF0 = 0xE0 → isContinuation b1 = true → isContinuation b2 = true →
      Spells (unitOfThree b0 b1 b2) [b0, b1, b2]

/-- A byte is what two masks show of it, if they cover it. -/
theorem and_or_and {m k : UInt8} (h : m ||| k = 0xFF) (b : UInt8) : b &&& m ||| b &&& k = b := by
  have hfull : b &&& (m ||| k) = b := by
    rw [h]
    exact UInt8.and_neg_one
  calc b &&& m ||| b &&& k
      = b &&& (m ||| k) := by
        apply UInt8.eq_of_toBitVec_eq
        simp only [UInt8.toBitVec_and, UInt8.toBitVec_or]
        ext i hi
        simp only [BitVec.getElem_and, BitVec.getElem_or, Bool.and_or_distrib_left]
    _ = b := hfull

/-- A byte with a mark is its payload under the mark. -/
theorem marked_eq {b m k c : UInt8} (hmark : b &&& k = c) (h : m ||| k = 0xFF) : b &&& m ||| c = b := by
  rw [← hmark, and_or_and h]

theorem continuation_eq {b : UInt8} (h : isContinuation b = true) : b &&& 0x3F ||| 0x80 = b :=
  marked_eq (k := 0xC0) (eq_of_beq h) rfl

/-- A byte without the highest bit is ASCII. -/
theorem isPlain_of_and_highBit {b : UInt8} (hmark : b &&& 0x80 = 0) (hzero : b ≠ 0) : isPlain b = true := by
  have hlow : b &&& 0x7F = b := by
    have h := marked_eq (m := 0x7F) hmark rfl
    rwa [UInt8.or_zero] at h
  have hlt : b.toNat ≤ 0x7F := by
    rw [← hlow]
    exact toNat_le_of_and b 0x7F
  have hpos : b.toNat ≠ 0 := fun h => hzero (UInt8.toNat.inj h)
  simp only [isPlain, Bool.and_eq_true, decide_eq_true_eq, UInt8.le_iff_toNat_le, UInt8.lt_iff_toNat_lt]
  exact ⟨Nat.one_le_iff_ne_zero.mpr hpos, Nat.lt_succ_of_le hlt⟩

theorem toNat_and_low (b m : UInt8) {n : Nat} (hm : m.toNat = 2 ^ n - 1) :
    (b &&& m).toUInt16.toNat = b.toNat % 2 ^ n := by
  rw [UInt8.toNat_toUInt16, UInt8.toNat_and, hm, Nat.and_two_pow_sub_one_eq_mod]

theorem toNat_unitOfTwo (b0 b1 : UInt8) :
    (unitOfTwo b0 b1).toNat = b0.toNat % 2 ^ 5 * 2 ^ 6 + b1.toNat % 2 ^ 6 := by
  have hhigh : (b0.toNat % 2 ^ 5) <<< 6 % 2 ^ 16 = (b0.toNat % 2 ^ 5) <<< 6 := by
    rw [Nat.shiftLeft_eq]
    omega
  have hlow : b1.toNat % 2 ^ 6 < 2 ^ 6 := Nat.mod_lt _ (by decide)
  rw [unitOfTwo, UInt16.toNat_or, UInt16.toNat_shiftLeft, toNat_and_low b0 0x1F (n := 5) rfl,
    toNat_and_low b1 0x3F (n := 6) rfl, show (6 : UInt16).toNat % 16 = 6 from rfl, hhigh, shiftLeft_or_eq_add hlow]

theorem toNat_unitOfThree (b0 b1 b2 : UInt8) : (unitOfThree b0 b1 b2).toNat
    = b0.toNat % 2 ^ 4 * 2 ^ 12 + b1.toNat % 2 ^ 6 * 2 ^ 6 + b2.toNat % 2 ^ 6 := by
  have hhigh : (b0.toNat % 2 ^ 4) <<< 12 % 2 ^ 16 = (b0.toNat % 2 ^ 4) <<< 12 := by
    rw [Nat.shiftLeft_eq]
    omega
  have hmid : (b1.toNat % 2 ^ 6) <<< 6 % 2 ^ 16 = b1.toNat % 2 ^ 6 * 2 ^ 6 := by
    rw [Nat.shiftLeft_eq]
    omega
  have hmid_lt : b1.toNat % 2 ^ 6 * 2 ^ 6 < 2 ^ 12 := by omega
  have hlow : b2.toNat % 2 ^ 6 < 2 ^ 6 := Nat.mod_lt _ (by decide)
  have htop : b0.toNat % 2 ^ 4 * 2 ^ 12 + b1.toNat % 2 ^ 6 * 2 ^ 6
      = (b0.toNat % 2 ^ 4 * 2 ^ 6 + b1.toNat % 2 ^ 6) <<< 6 := by
    rw [Nat.shiftLeft_eq]
    omega
  rw [unitOfThree, UInt16.toNat_or, UInt16.toNat_or, UInt16.toNat_shiftLeft, UInt16.toNat_shiftLeft,
    toNat_and_low b0 0x0F (n := 4) rfl, toNat_and_low b1 0x3F (n := 6) rfl, toNat_and_low b2 0x3F (n := 6) rfl,
    show (6 : UInt16).toNat % 16 = 6 from rfl, show (12 : UInt16).toNat % 16 = 12 from rfl, hhigh, hmid,
    shiftLeft_or_eq_add hmid_lt, htop, shiftLeft_or_eq_add hlow]
  omega

/-- The payload of a byte comes back if the unit has the bits of the byte at its place. -/
theorem payload_eq {u s : UInt16} {b m : UInt8} (k n : Nat) (hs : s.toNat % 16 = k) (hm : m.toNat = 2 ^ n - 1)
    (hn : 2 ^ n ∣ 2 ^ 8) (h : u.toNat / 2 ^ k % 2 ^ n = b.toNat % 2 ^ n) :
    (u >>> s).toUInt8 &&& m = b &&& m := by
  apply UInt8.toNat.inj
  have hunit := toNat_payload u s m k n hs hm hn
  rw [UInt8.toNat_toUInt16, h, ← toNat_and_low b m hm, UInt8.toNat_toUInt16] at hunit
  exact hunit

theorem payload_eq_last {u : UInt16} {b : UInt8} (h : u.toNat % 2 ^ 6 = b.toNat % 2 ^ 6) :
    u.toUInt8 &&& 0x3F = b &&& 0x3F := by
  have hshift := payload_eq (u := u) (s := 0) (b := b) (m := 0x3F) 0 6 rfl rfl (by decide)
    (by rwa [pow_zero, Nat.div_one])
  rwa [UInt16.shiftRight_zero] at hshift

/-! ## Spellings of several units -/

/-- A spelling is not shorter than another one, and it is the other one if it is not longer either. -/
def Shortest (short spelling : Bytes) : Prop :=
  short.length ≤ spelling.length ∧ (short.length = spelling.length → spelling = short)

theorem Shortest.refl (spelling : Bytes) : Shortest spelling spelling := ⟨le_refl _, fun _ => rfl⟩

theorem Shortest.of_lt {short spelling : Bytes} (h : short.length < spelling.length) : Shortest short spelling :=
  ⟨h.le, fun heq => absurd heq h.ne⟩

theorem Shortest.append {a a' b b' : Bytes} (h : Shortest a a') (h' : Shortest b b') :
    Shortest (a ++ b) (a' ++ b') := by
  have hle := h.1
  have hle' := h'.1
  constructor
  · simp only [List.length_append]
    omega
  · intro hlength
    simp only [List.length_append] at hlength
    rw [h.2 (by omega), h'.2 (by omega)]

/-- **The form in which a unit is written is the shortest** of those in which it is read. -/
theorem Spells.shortest {u : UInt16} {form : Bytes} (h : Spells u form) : Shortest (encodeUnit u) form := by
  cases h with
  | one hb =>
    rw [encodeUnit_of_isPlain hb]
    exact .refl _
  | @two b0 b1 h0 h1 =>
    have hvalue := toNat_unitOfTwo b0 b1
    have hle : unitOfTwo b0 b1 ≤ 0x07FF := by
      rw [UInt16.le_iff_toNat_le, hvalue, show (0x07FF : UInt16).toNat = 0x07FF from rfl]
      omega
    by_cases hplain : 0x0001 ≤ unitOfTwo b0 b1 ∧ unitOfTwo b0 b1 ≤ 0x007F
    · rw [encodeUnit, if_pos hplain]
      exact .of_lt Nat.one_lt_two
    · rw [encodeUnit, if_neg hplain, if_pos hle, payload_eq 6 5 rfl rfl (by decide) (b := b0) (by omega),
        payload_eq_last (b := b1) (by omega), marked_eq h0 rfl, continuation_eq h1]
      exact .refl _
  | @three b0 b1 b2 h0 h1 h2 =>
    have hvalue := toNat_unitOfThree b0 b1 b2
    by_cases hplain : 0x0001 ≤ unitOfThree b0 b1 b2 ∧ unitOfThree b0 b1 b2 ≤ 0x007F
    · rw [encodeUnit, if_pos hplain]
      exact .of_lt (Nat.lt_succ_of_lt Nat.one_lt_two)
    · by_cases htwo : unitOfThree b0 b1 b2 ≤ 0x07FF
      · rw [encodeUnit, if_neg hplain, if_pos htwo]
        exact .of_lt (Nat.lt_succ_self 2)
      · rw [encodeUnit, if_neg hplain, if_neg htwo, payload_eq 12 4 rfl rfl (by decide) (b := b0) (by omega),
          payload_eq 6 6 rfl rfl (by decide) (b := b1) (by omega), payload_eq_last (b := b2) (by omega),
          marked_eq h0 rfl, continuation_eq h1, continuation_eq h2]
        exact .refl _

/-- Several code units, each in one of its forms. -/
inductive Spelled : List UInt16 → Bytes → Prop where
  | nil : Spelled [] []
  | cons {u : UInt16} {us : List UInt16} {form rest : Bytes} : Spells u form → Spelled us rest →
      Spelled (u :: us) (form ++ rest)

theorem Spelled.shortest {us : List UInt16} {bytes : Bytes} (h : Spelled us bytes) :
    Shortest (us.flatMap encodeUnit) bytes := by
  induction h with
  | nil => exact .refl []
  | cons hform _ ih =>
    rw [List.flatMap_cons]
    exact hform.shortest.append ih

/-- What is read is spelled by the bytes it is read from. -/
theorem spelled_of_decodeUnits {acc us : List UInt16} {bytes : Bytes} (h : decodeUnits acc bytes = .ok us) :
    ∃ vs, us = acc.reverse ++ vs ∧ Spelled vs bytes := by
  have hnext {acc : List UInt16} {u : UInt16} {form rest : Bytes} (hform : Spells u form)
      (hrest : ∃ vs, us = (u :: acc).reverse ++ vs ∧ Spelled vs rest) :
      ∃ vs, us = acc.reverse ++ vs ∧ Spelled vs (form ++ rest) := by
    obtain ⟨vs, hus, hvs⟩ := hrest
    refine ⟨u :: vs, ?_, .cons hform hvs⟩
    rw [hus, List.reverse_cons, List.append_assoc, List.singleton_append]
  -- The first byte tells the form: a plain byte, or one of the two marks; all other cases are errors.
  fun_induction decodeUnits acc bytes with
  | case1 acc =>
    obtain rfl := Except.ok.inj h
    exact ⟨[], (List.append_nil _).symm, .nil⟩
  | case3 acc b0 rest hmark hzero ih =>
    exact hnext (.one (isPlain_of_and_highBit (eq_of_beq hmark) (ne_of_beq_false (Bool.eq_false_iff.mpr hzero)))) (ih h)
  | case4 acc b0 _ hmark b1 rest h1 ih => exact hnext (.two (eq_of_beq hmark) h1) (ih h)
  | case7 acc b0 _ _ hmark b1 b2 rest hcont ih =>
    rw [Bool.and_eq_true] at hcont
    exact hnext (.three (eq_of_beq hmark) hcont.1 hcont.2) (ih h)
  | case2 | case5 | case6 | case8 | case9 | case10 => cases h

/-! ## Units of a text -/

/-- A unit that is no half of a pair is that of one character. -/
theorem units_of_not_surrogate {u : UInt16} (hhigh : isHighSurrogate u = false) (hlow : isLowSurrogate u = false) :
    units (Char.ofNat u.toNat) = [u] := by
  rw [Bool.eq_false_iff, ne_eq, isHighSurrogate_iff] at hhigh
  rw [Bool.eq_false_iff, ne_eq, isLowSurrogate_iff] at hlow
  have hlt : u.toNat < 0x10000 := u.toNat_lt
  have hvalid : u.toNat.isValidChar := by
    unfold Nat.isValidChar
    omega
  have hchar : (Char.ofNat u.toNat).toNat = u.toNat := by
    rw [Char.toNat_ofNat, if_pos hvalid]
  rw [units, hchar]
  simp only [if_pos hlt, UInt16.ofNat_toNat]

/-- The two halves of a pair are the units of its character. -/
theorem units_pairChar {u v : UInt16} (hhigh : isHighSurrogate u = true) (hlow : isLowSurrogate v = true) :
    units (pairChar u v) = [u, v] := by
  rw [isHighSurrogate_iff] at hhigh
  rw [isLowSurrogate_iff] at hlow
  have hvalid : (0x10000 + (u.toNat - 0xD800) * 0x400 + (v.toNat - 0xDC00)).isValidChar := by
    unfold Nat.isValidChar
    omega
  have hchar : (pairChar u v).toNat = 0x10000 + (u.toNat - 0xD800) * 0x400 + (v.toNat - 0xDC00) := by
    rw [pairChar, Char.toNat_ofNat, if_pos hvalid]
  have hu : 0xD800 + (0x10000 + (u.toNat - 0xD800) * 0x400 + (v.toNat - 0xDC00) - 0x10000) / 0x400 = u.toNat := by
    omega
  have hv : 0xDC00 + (0x10000 + (u.toNat - 0xD800) * 0x400 + (v.toNat - 0xDC00) - 0x10000) % 0x400 = v.toNat := by
    omega
  rw [units, hchar]
  simp only [if_neg (show ¬0x10000 + (u.toNat - 0xD800) * 0x400 + (v.toNat - 0xDC00) < 0x10000 by omega), hu, hv,
    UInt16.ofNat_toNat]

/-- **The units of a text are those it was made of.** -/
theorem flatMap_units_of_charsOfUnits {acc cs : List Char} {us : List UInt16} (h : charsOfUnits acc us = some cs) :
    ∃ ds, cs = acc.reverse ++ ds ∧ ds.flatMap units = us := by
  have hnext {acc : List Char} {c : Char} {rest : List UInt16}
      (hrest : ∃ ds, cs = (c :: acc).reverse ++ ds ∧ ds.flatMap units = rest) :
      ∃ ds, cs = acc.reverse ++ ds ∧ ds.flatMap units = units c ++ rest := by
    obtain ⟨ds, hcs, hds⟩ := hrest
    refine ⟨c :: ds, ?_, ?_⟩
    · rw [hcs, List.reverse_cons, List.append_assoc, List.singleton_append]
    · rw [List.flatMap_cons, hds]
  fun_induction charsOfUnits acc us with
  | case1 acc => exact ⟨[], by rw [List.append_nil]; exact (Option.some.inj h).symm, rfl⟩
  | case3 acc u hhigh v rest hlow ih =>
    have hpair := hnext (ih h)
    rw [units_pairChar hhigh hlow] at hpair
    exact hpair
  | case6 acc u rest hhigh hlow ih =>
    have hsingle := hnext (ih h)
    rw [units_of_not_surrogate (Bool.eq_false_iff.mpr hhigh) (Bool.eq_false_iff.mpr hlow)] at hsingle
    exact hsingle
  | case2 | case4 | case5 => cases h

/-! ## Texts -/

/-- **What is written is the shortest spelling** of a text that is read. -/
theorem shortest_of_decode {bytes : Bytes} {s : String} (h : decode bytes = .ok s) : Shortest (encode s) bytes := by
  rw [decode_eq_decodeGeneral, decodeGeneral] at h
  cases hus : decodeUnits [] bytes with
  | error e =>
    rw [hus] at h
    cases h
  | ok us =>
    rw [hus] at h
    cases hcs : charsOfUnits [] us with
    | none =>
      simp only [hcs] at h
      cases h
    | some cs =>
      simp only [hcs] at h
      obtain rfl := Except.ok.inj h
      obtain ⟨vs, hvs, hspelled⟩ := spelled_of_decodeUnits hus
      obtain ⟨ds, hds, hunits⟩ := flatMap_units_of_charsOfUnits hcs
      rw [List.reverse_nil, List.nil_append] at hvs hds
      subst hvs hds
      rw [encode_eq_flatMap, String.toList_ofList, hunits]
      exact hspelled.shortest

/-- **A canonical, lossless encoding.** A text is written without a zero byte and without a lead byte of a four
byte form, and it is read back. Bytes are read the same way by the short cut for plain ones and by the general
rule, and if they are the spelling of a text, then they are what is written for it or longer. -/
theorem encoding_canonical :
    (∀ s : String, (∀ b ∈ encode s, b ≠ 0x00 ∧ b < 0xF0) ∧ decode (encode s) = .ok s) ∧
    ∀ bytes : Bytes, (bytes.all isPlain = true → decodeGeneral bytes = .ok (decodePlain bytes)) ∧
      decode bytes = decodeGeneral bytes ∧
      ∀ s, decode bytes = .ok s →
        (encode s).length ≤ bytes.length ∧ ((encode s).length = bytes.length ↔ bytes = encode s) := by
  refine ⟨fun s => ⟨fun b hb => ?_, decode_encode s⟩, fun bytes => ⟨fun hplain => ?_, ?_, fun s hs => ?_⟩⟩
  · obtain ⟨c, -, hc⟩ := List.mem_flatMap.mp hb
    obtain ⟨u, -, hu⟩ := List.mem_flatMap.mp hc
    exact bounds_of_mem_encodeUnit hu
  · rw [← decode_eq_decodeGeneral, decode, if_pos hplain]
  · exact decode_eq_decodeGeneral bytes
  · obtain ⟨hle, heq⟩ := shortest_of_decode hs
    exact ⟨hle, heq, fun h => congrArg List.length h.symm⟩

/-- A NUL in its two bytes, an `A` in three bytes where one would do, and a character outside the basic plane. -/
def wideBytes : Bytes := [0xC0, 0x80, 0xE0, 0x81, 0x81, 0xED, 0xA0, 0xBD, 0xED, 0xB8, 0x80]

theorem encoding_canonical_wide :
    ([0x41, 0x42] : Bytes).all isPlain = true ∧ decodeGeneral [0x41, 0x42] = .ok (decodePlain [0x41, 0x42]) ∧
    (0x80 : UInt8) ∈ encode "\x00" ∧ (0x80 : UInt8) ≠ 0x00 ∧ (0x80 : UInt8) < 0xF0 ∧
    decode wideBytes = .ok "\x00A😀" ∧ (encode "\x00A😀").length = 9 ∧ wideBytes ≠ encode "\x00A😀" := by
  obtain ⟨hwritten, hread⟩ := encoding_canonical
  have hmem : (0x80 : UInt8) ∈ encode "\x00" := by decide
  have hplain : ([0x41, 0x42] : Bytes).all isPlain = true := by decide
  have hwide : decode wideBytes = .ok "\x00A😀" := by rfl
  have hlength : (encode "\x00A😀").length = 9 := by decide
  obtain ⟨-, heq⟩ := (hread wideBytes).2.2 _ hwide
  refine ⟨hplain, (hread [0x41, 0x42]).1 hplain, hmem, (hwritten "\x00").1 _ hmem |>.1, (hwritten "\x00").1 _ hmem |>.2,
    hwide, hlength, fun h => ?_⟩
  have hsame := heq.mpr h
  rw [hlength] at hsame
  exact absurd hsame (by decide)

end Relabel.ModifiedUtf8
