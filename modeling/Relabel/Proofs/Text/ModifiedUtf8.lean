import Mathlib
import Relabel.Text.ModifiedUtf8

/-!
# Modified UTF-8 reads back what it writes

`decode (encode s) = .ok s` for every text. The proof goes one unit and one character at a time: the one to
three bytes of a unit are read as that unit, whatever follows, and the one or two units of a character
are read as that character. The short cut for plain bytes is a case of the general rule
(`decode_eq_decodeGeneral`), so it never has to be looked at again.
-/

set_option autoImplicit false

namespace Relabel.ModifiedUtf8

open Text

/-! ## Bytes of a unit -/

/-- A payload under a mark, seen through a mask. -/
theorem marked_and (b m c k : UInt8) : (b &&& m ||| c) &&& k = b &&& (m &&& k) ||| c &&& k := by
  apply UInt8.eq_of_toBitVec_eq
  simp only [UInt8.toBitVec_and, UInt8.toBitVec_or]
  ext i hi
  simp only [BitVec.getElem_and, BitVec.getElem_or, Bool.and_or_distrib_right, Bool.and_assoc]

/-- A mask that misses the payload sees the mark. -/
theorem marked_and_of_disjoint {m k : UInt8} (hm : m &&& k = 0) (b c : UInt8) :
    (b &&& m ||| c) &&& k = c &&& k := by
  rw [marked_and, hm, UInt8.and_zero, UInt8.zero_or]

/-- A mask that misses the mark sees the payload. -/
theorem marked_and_payload {m c : UInt8} (hc : c &&& m = 0) (b : UInt8) :
    (b &&& m ||| c) &&& m = b &&& m := by
  rw [marked_and, UInt8.and_self, hc, UInt8.or_zero]

theorem isContinuation_marked (b : UInt8) : isContinuation (b &&& 0x3F ||| 0x80) = true := by
  rw [isContinuation, marked_and_of_disjoint rfl]
  decide

theorem and_highBit_of_lt {b : UInt8} (hb : b.toNat < 2 ^ 7) : b &&& 0x80 = 0 := by
  have hlow : b &&& 0x7F = b := by
    apply UInt8.toNat.inj
    rw [UInt8.toNat_and, show (0x7F : UInt8).toNat = 2 ^ 7 - 1 from rfl,
      Nat.and_two_pow_sub_one_of_lt_two_pow hb]
  rw [← hlow, UInt8.and_assoc]
  exact UInt8.and_zero

/-- The bits a byte takes from a unit: `n` of them, above the `k` lowest. -/
theorem toNat_payload (u shift : UInt16) (m : UInt8) (k n : Nat) (hs : shift.toNat % 16 = k)
    (hm : m.toNat = 2 ^ n - 1) (hn : 2 ^ n ∣ 2 ^ 8) :
    ((u >>> shift).toUInt8 &&& m).toUInt16.toNat = u.toNat / 2 ^ k % 2 ^ n := by
  simp only [UInt8.toNat_toUInt16, UInt8.toNat_and, UInt16.toNat_toUInt8, UInt16.toNat_shiftRight,
    hm, hs, Nat.and_two_pow_sub_one_eq_mod, Nat.shiftRight_eq_div_pow]
  exact Nat.mod_mod_of_dvd _ hn

theorem toNat_payload_last (u : UInt16) : (u.toUInt8 &&& 0x3F).toUInt16.toNat = u.toNat % 2 ^ 6 := by
  have h := toNat_payload u 0 0x3F 0 6 rfl rfl (by decide)
  simpa using h

/-- A number put above `n` free bits, with a payload in them. -/
theorem shiftLeft_or_eq_add {a b n : Nat} (hb : b < 2 ^ n) : a <<< n ||| b = a * 2 ^ n + b := by
  rw [← Nat.shiftLeft_add_eq_or_of_lt hb, Nat.shiftLeft_eq]

theorem unit_of_two (u : UInt16) (hu : u ≤ 0x07FF) :
    ((u >>> 6).toUInt8 &&& 0x1F).toUInt16 <<< 6 ||| (u.toUInt8 &&& 0x3F).toUInt16 = u := by
  have hle : u.toNat ≤ 0x07FF := UInt16.le_iff_toNat_le.mp hu
  apply UInt16.toNat.inj
  have hhigh : (u.toNat / 2 ^ 6 % 2 ^ 5) <<< 6 % 2 ^ 16 = (u.toNat / 2 ^ 6) <<< 6 := by
    rw [Nat.shiftLeft_eq, Nat.shiftLeft_eq]
    omega
  have hlow : u.toNat % 2 ^ 6 < 2 ^ 6 := Nat.mod_lt _ (by decide)
  rw [UInt16.toNat_or, UInt16.toNat_shiftLeft, toNat_payload u 6 0x1F 6 5 rfl rfl (by decide),
    toNat_payload_last, show (6 : UInt16).toNat % 16 = 6 from rfl, hhigh, shiftLeft_or_eq_add hlow]
  omega

theorem unit_of_three (u : UInt16) :
    ((u >>> 12).toUInt8 &&& 0x0F).toUInt16 <<< 12 ||| ((u >>> 6).toUInt8 &&& 0x3F).toUInt16 <<< 6
      ||| (u.toUInt8 &&& 0x3F).toUInt16 = u := by
  have hlt : u.toNat < 2 ^ 16 := u.toNat_lt
  apply UInt16.toNat.inj
  have hhigh : (u.toNat / 2 ^ 12 % 2 ^ 4) <<< 12 % 2 ^ 16 = (u.toNat / 2 ^ 12) <<< 12 := by
    rw [Nat.shiftLeft_eq, Nat.shiftLeft_eq]
    omega
  have hmid : (u.toNat / 2 ^ 6 % 2 ^ 6) <<< 6 % 2 ^ 16 = u.toNat / 2 ^ 6 % 2 ^ 6 * 2 ^ 6 := by
    rw [Nat.shiftLeft_eq]
    omega
  have hmid_lt : u.toNat / 2 ^ 6 % 2 ^ 6 * 2 ^ 6 < 2 ^ 12 := by omega
  have hlow : u.toNat % 2 ^ 6 < 2 ^ 6 := Nat.mod_lt _ (by decide)
  have htop : u.toNat / 2 ^ 12 * 2 ^ 12 + u.toNat / 2 ^ 6 % 2 ^ 6 * 2 ^ 6
      = (u.toNat / 2 ^ 6) <<< 6 := by
    rw [Nat.shiftLeft_eq]
    omega
  rw [UInt16.toNat_or, UInt16.toNat_or, UInt16.toNat_shiftLeft, UInt16.toNat_shiftLeft,
    toNat_payload u 12 0x0F 12 4 rfl rfl (by decide), toNat_payload u 6 0x3F 6 6 rfl rfl (by decide),
    toNat_payload_last, show (6 : UInt16).toNat % 16 = 6 from rfl,
    show (12 : UInt16).toNat % 16 = 12 from rfl, hhigh, hmid, shiftLeft_or_eq_add hmid_lt, htop,
    shiftLeft_or_eq_add hlow]
  omega

/-! ## Units -/

/-- The bytes of a unit are read as that unit, whatever follows them. -/
theorem decodeUnits_encodeUnit (acc : List UInt16) (u : UInt16) (rest : Bytes) :
    decodeUnits acc (encodeUnit u ++ rest) = decodeUnits (u :: acc) rest := by
  unfold encodeUnit
  split
  · next hu =>
    have hlow : u.toNat ≤ 0x7F := UInt16.le_iff_toNat_le.mp hu.2
    have hpos : 1 ≤ u.toNat := UInt16.le_iff_toNat_le.mp hu.1
    have hbyte : u.toUInt8.toNat = u.toNat := by
      rw [UInt16.toNat_toUInt8]
      omega
    have hmark : u.toUInt8 &&& 0x80 = 0 := and_highBit_of_lt (by omega)
    have hzero : u.toUInt8 ≠ 0 := by
      intro h
      have := congrArg UInt8.toNat h
      rw [hbyte, UInt8.toNat_zero] at this
      omega
    have hback : u.toUInt8.toUInt16 = u := by
      apply UInt16.toNat.inj
      rw [UInt8.toNat_toUInt16, hbyte]
    rw [List.singleton_append, decodeUnits.eq_def]
    simp [hmark, hzero, hback]
  · split
    · next hu =>
      rw [List.cons_append, List.cons_append, List.nil_append, decodeUnits.eq_def]
      dsimp only
      rw [marked_and_of_disjoint (k := 0x80) rfl, marked_and_of_disjoint (k := 0xE0) rfl,
        marked_and_payload (m := 0x1F) rfl, marked_and_payload (m := 0x3F) rfl, unit_of_two u hu,
        isContinuation_marked]
      rfl
    · rw [List.cons_append, List.cons_append, List.cons_append, List.nil_append, decodeUnits.eq_def]
      dsimp only
      rw [marked_and_of_disjoint (k := 0x80) rfl, marked_and_of_disjoint (k := 0xE0) rfl,
        marked_and_of_disjoint (k := 0xF0) rfl, marked_and_payload (m := 0x0F) rfl,
        marked_and_payload (m := 0x3F) rfl, marked_and_payload (m := 0x3F) rfl, unit_of_three u,
        isContinuation_marked, isContinuation_marked]
      rfl

theorem decodeUnits_flatMap (us : List UInt16) (acc : List UInt16) :
    decodeUnits acc (us.flatMap encodeUnit) = .ok (acc.reverse ++ us) := by
  induction us generalizing acc with
  | nil => simp [decodeUnits]
  | cons u us ih => rw [List.flatMap_cons, decodeUnits_encodeUnit, ih]; simp

/-! ## Characters -/

theorem toNat_not_surrogate (c : Char) : c.toNat < 0xD800 ∨ 0xDFFF < c.toNat :=
  c.valid.imp id And.left

theorem toNat_lt_limit (c : Char) : c.toNat < 0x110000 := by
  have hc : c.toNat < 0xD800 ∨ 0xDFFF < c.toNat ∧ c.toNat < 0x110000 := c.valid
  omega

theorem isHighSurrogate_iff (u : UInt16) :
    isHighSurrogate u = true ↔ 0xD800 ≤ u.toNat ∧ u.toNat ≤ 0xDBFF := by
  simp only [isHighSurrogate, Bool.and_eq_true, decide_eq_true_eq, UInt16.le_iff_toNat_le]
  exact Iff.rfl

theorem isLowSurrogate_iff (u : UInt16) :
    isLowSurrogate u = true ↔ 0xDC00 ≤ u.toNat ∧ u.toNat ≤ 0xDFFF := by
  simp only [isLowSurrogate, Bool.and_eq_true, decide_eq_true_eq, UInt16.le_iff_toNat_le]
  exact Iff.rfl

/-- The units of a character are read as that character, whatever follows them. -/
theorem charsOfUnits_units (acc : List Char) (c : Char) (rest : List UInt16) :
    charsOfUnits acc (units c ++ rest) = charsOfUnits (c :: acc) rest := by
  have hlimit := toNat_lt_limit c
  unfold units
  by_cases hc : c.toNat < 0x10000
  · have hu : (UInt16.ofNat c.toNat).toNat = c.toNat := UInt16.toNat_ofNat_of_lt hc
    have hno := toNat_not_surrogate c
    have hhigh : isHighSurrogate (UInt16.ofNat c.toNat) = false := by
      rw [Bool.eq_false_iff, ne_eq, isHighSurrogate_iff, hu]
      omega
    have hlow : isLowSurrogate (UInt16.ofNat c.toNat) = false := by
      rw [Bool.eq_false_iff, ne_eq, isLowSurrogate_iff, hu]
      omega
    -- A scalar value is no surrogate, so its only unit is taken for itself.
    simp only [if_pos hc, List.singleton_append]
    rw [charsOfUnits.eq_def]
    simp [hhigh, hlow, hu, Char.ofNat_toNat]
  · have hoff : c.toNat - 0x10000 < 0x100000 := by omega
    have hhi : (UInt16.ofNat (0xD800 + (c.toNat - 0x10000) / 0x400)).toNat
        = 0xD800 + (c.toNat - 0x10000) / 0x400 := UInt16.toNat_ofNat_of_lt (by simp only [UInt16.size]; omega)
    have hlo : (UInt16.ofNat (0xDC00 + (c.toNat - 0x10000) % 0x400)).toNat
        = 0xDC00 + (c.toNat - 0x10000) % 0x400 := UInt16.toNat_ofNat_of_lt (by simp only [UInt16.size]; omega)
    have hhigh : isHighSurrogate (UInt16.ofNat (0xD800 + (c.toNat - 0x10000) / 0x400)) = true := by
      rw [isHighSurrogate_iff, hhi]
      omega
    have hlow : isLowSurrogate (UInt16.ofNat (0xDC00 + (c.toNat - 0x10000) % 0x400)) = true := by
      rw [isLowSurrogate_iff, hlo]
      omega
    have hpair : pairChar (UInt16.ofNat (0xD800 + (c.toNat - 0x10000) / 0x400))
        (UInt16.ofNat (0xDC00 + (c.toNat - 0x10000) % 0x400)) = c := by
      rw [pairChar, hhi, hlo]
      have hsum : 0x10000 + (0xD800 + (c.toNat - 0x10000) / 0x400 - 0xD800) * 0x400
          + (0xDC00 + (c.toNat - 0x10000) % 0x400 - 0xDC00) = c.toNat := by omega
      rw [hsum, Char.ofNat_toNat]
    simp only [if_neg hc, List.cons_append, List.nil_append]
    rw [charsOfUnits.eq_def]
    simp only [hhigh, hlow, hpair, if_true]

theorem charsOfUnits_flatMap (cs acc : List Char) :
    charsOfUnits acc (cs.flatMap units) = some (acc.reverse ++ cs) := by
  induction cs generalizing acc with
  | nil => simp [charsOfUnits]
  | cons c cs ih => rw [List.flatMap_cons, charsOfUnits_units, ih]; simp

/-! ## Texts -/

theorem encode_eq_flatMap (s : String) : encode s = (s.toList.flatMap units).flatMap encodeUnit := by
  rw [encode, List.flatMap_assoc]

theorem decodeGeneral_encode (s : String) : decodeGeneral (encode s) = .ok s := by
  rw [decodeGeneral, encode_eq_flatMap, decodeUnits_flatMap]
  simp only [List.reverse_nil, List.nil_append]
  rw [charsOfUnits_flatMap]
  simp

theorem toNat_of_isPlain {b : UInt8} (hb : isPlain b = true) : 1 ≤ b.toNat ∧ b.toNat < 0x80 := by
  simpa [isPlain, UInt8.le_iff_toNat_le, UInt8.lt_iff_toNat_lt] using hb

/-- A plain byte is the encoding of a unit. -/
theorem encodeUnit_of_isPlain {b : UInt8} (hb : isPlain b = true) : encodeUnit b.toUInt16 = [b] := by
  have hle := toNat_of_isPlain hb
  have hunit : (0x0001 : UInt16) ≤ b.toUInt16 ∧ b.toUInt16 ≤ 0x007F := by
    rw [UInt16.le_iff_toNat_le, UInt16.le_iff_toNat_le, UInt8.toNat_toUInt16]
    exact ⟨hle.1, Nat.le_of_lt_succ hle.2⟩
  rw [encodeUnit, if_pos hunit]
  simp

/-- And the unit is that of a character. -/
theorem units_of_isPlain {b : UInt8} (hb : isPlain b = true) :
    units (Char.ofNat b.toNat) = [b.toUInt16] := by
  have hle := toNat_of_isPlain hb
  have hchar : (Char.ofNat b.toNat).toNat = b.toNat := by
    have hvalid : b.toNat.isValidChar := Or.inl (by omega)
    rw [Char.ofNat, dif_pos hvalid]
    rfl
  rw [units, hchar]
  simp only [if_pos (show b.toNat < 0x10000 by omega)]
  congr 1
  apply UInt16.toNat.inj
  rw [UInt8.toNat_toUInt16]
  exact UInt16.toNat_ofNat_of_lt (show b.toNat < UInt16.size by simp only [UInt16.size]; omega)

/-- Plain bytes are read by the general rule as well. -/
theorem decode_eq_decodeGeneral (bytes : Bytes) : decode bytes = decodeGeneral bytes := by
  unfold decode
  split
  · next hall =>
    have hencode : encode (decodePlain bytes) = bytes := by
      rw [encode_eq_flatMap, decodePlain, String.toList_ofList]
      induction bytes with
      | nil => rfl
      | cons b bytes ih =>
        rw [List.all_cons, Bool.and_eq_true] at hall
        rw [List.map_cons, List.flatMap_cons, List.flatMap_append, units_of_isPlain hall.1, ih hall.2]
        simp [encodeUnit_of_isPlain hall.1]
    rw [← decodeGeneral_encode (decodePlain bytes), hencode]
  · rfl

/-- **Reading gives back what was written.** -/
theorem decode_encode (s : String) : decode (encode s) = .ok s := by
  rw [decode_eq_decodeGeneral, decodeGeneral_encode]

end Relabel.ModifiedUtf8
