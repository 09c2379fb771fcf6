import Mathlib.Tactic.NormNum
import Mathlib.Tactic.Ring
import Relabel.Zip.Entry

/-!
# Packed bytes come out again

Data is packed as a row of blocks of plain bytes. Such a block starts at a whole byte, and everything in it
but the three bits of its head lies in whole bytes, so unpacking it is reading bytes: `bits_byte` and
`bits_two` say what bits at the start of a byte are, and from there on places are counted in bytes.

The row is followed block by block. What stands before a block and what stands behind it is part of the
statement, since the unpacking goes on in the same data.
-/

set_option autoImplicit false

namespace Relabel.Zip

namespace BitReader

variable {α β : Type}

theorem bind_of_ok {x : BitReader α} {f : α → BitReader β} {c c' : BitCursor} {a : α}
    (h : x c = .ok (a, c')) : (x >>= f) c = f a c' := by
  change Except.bind (x c) _ = _
  rw [h]
  rfl

theorem pure_eq (a : α) (c : BitCursor) : (pure a : BitReader α) c = .ok (a, c) := rfl

/-! ## Bits of a byte -/

theorem bit_of_byte {data : Array UInt8} {k i : Nat} {b : UInt8} (hb : data[k]? = some b) (hi : i < 8) :
    bit ⟨data, 8 * k + i⟩ = .ok (b.toNat / 2 ^ i % 2, ⟨data, 8 * k + i + 1⟩) := by
  have hbyte : (8 * k + i) / 8 = k := by omega
  have hplace : (8 * k + i) % 8 = i := by omega
  simp only [bit, hbyte, hplace, hb, Nat.shiftRight_eq_div_pow]

theorem bits_of_byte {data : Array UInt8} {k : Nat} {b : UInt8} (hb : data[k]? = some b) (n i : Nat)
    (h : i + n ≤ 8) :
    bits n ⟨data, 8 * k + i⟩ = .ok (b.toNat / 2 ^ i % 2 ^ n, ⟨data, 8 * k + i + n⟩) := by
  induction n generalizing i with
  | zero => simp [bits, pure_eq, Nat.mod_one]
  | succ n ih =>
    have hrest := ih (i + 1) (by omega)
    rw [← Nat.add_assoc] at hrest
    rw [bits, bind_of_ok (bit_of_byte hb (by omega)), bind_of_ok hrest, pure_eq]
    have hvalue : b.toNat / 2 ^ i % 2 + 2 * (b.toNat / 2 ^ (i + 1) % 2 ^ n)
        = b.toNat / 2 ^ i % 2 ^ (n + 1) := by
      rw [pow_succ' 2 n, Nat.mod_mul, pow_succ, Nat.div_div_eq_div_mul]
    rw [hvalue]
    simp only [Nat.add_assoc, Nat.add_comm 1 n]

/-- Eight bits at the start of a byte are that byte. -/
theorem bits_byte {data : Array UInt8} {k : Nat} {b : UInt8} (hb : data[k]? = some b) :
    bits 8 ⟨data, 8 * k⟩ = .ok (b.toNat, ⟨data, 8 * (k + 1)⟩) := by
  have h := bits_of_byte hb 8 0 (by omega)
  have hlt : b.toNat < 2 ^ 8 := b.toNat_lt
  simpa [Nat.mod_eq_of_lt hlt, Nat.mul_add] using h

theorem byte_of_byte {data : Array UInt8} {k : Nat} {b : UInt8} (hb : data[k]? = some b) :
    byte ⟨data, 8 * k⟩ = .ok (b, ⟨data, 8 * (k + 1)⟩) := by
  rw [byte, bind_of_ok (bits_byte hb), pure_eq]
  simp

theorem bits_add (m n : Nat) :
    bits (m + n) = (do
      let low ← bits m
      let high ← bits n
      return low + 2 ^ m * high) := by
  induction m with
  | zero =>
    rw [Nat.zero_add, bits, pure_bind]
    simp only [pow_zero, one_mul, Nat.zero_add, bind_pure]
  | succ m ih =>
    rw [Nat.succ_add, bits, ih, bits]
    simp only [bind_assoc, pure_bind]
    congr 1
    funext low
    congr 1
    funext middle
    congr 1
    funext high
    congr 1
    ring

/-- Sixteen bits at the start of a byte are that byte and the next, lowest first. -/
theorem bits_two {data : Array UInt8} {k : Nat} {low high : UInt8} (hlow : data[k]? = some low)
    (hhigh : data[k + 1]? = some high) :
    bits 16 ⟨data, 8 * k⟩ = .ok (low.toNat + 256 * high.toNat, ⟨data, 8 * (k + 2)⟩) := by
  rw [bits_add 8 8, bind_of_ok (bits_byte hlow), bind_of_ok (bits_byte hhigh)]
  rfl

end BitReader

open BitReader

/-! ## Blocks -/

theorem toNat_split (n : UInt16) : n.toUInt8.toNat + 256 * (n >>> 8).toUInt8.toNat = n.toNat := by
  have hlt := n.toNat_lt
  have height : UInt16.toNat 8 % 16 = 8 := by decide
  simp only [UInt16.toNat_toUInt8, UInt16.toNat_shiftRight, Nat.shiftRight_eq_div_pow, height]
  omega

theorem toNat_complement (n : UInt16) : n.toNat + (n ^^^ 0xffff).toNat = 65535 := by
  have hnot : n ^^^ 0xffff = ~~~n := UInt16.xor_neg_one
  have hlt := n.toNat_lt
  rw [hnot, UInt16.toNat_not, UInt16.size]
  omega

theorem inflatePlain_append (before bytes behind : List UInt8) (out : Array UInt8) :
    inflatePlain bytes.length out ⟨(before ++ bytes ++ behind).toArray, 8 * before.length⟩
      = .ok (out ++ bytes, ⟨(before ++ bytes ++ behind).toArray, 8 * (before ++ bytes).length⟩) := by
  induction bytes generalizing before out with
  | nil => simp [inflatePlain]
  | cons b bytes ih =>
    have hb : (before ++ b :: bytes ++ behind).toArray[before.length]? = some b := by simp
    have hrest := ih (before ++ [b]) (out.push b)
    simp only [List.append_assoc, List.cons_append, List.nil_append, List.length_append, List.length_cons,
      List.length_nil, Nat.zero_add] at hrest hb
    simp only [List.length_cons, inflatePlain, List.append_assoc, List.cons_append]
    rw [byte_of_byte hb]
    simp only [hrest]
    simp

/-- The five bytes before the content of a plain block. -/
theorem plainBlock_head (last : Bool) (bytes : Bytes) :
    ∃ low high low' high' : UInt8,
      plainBlock last bytes = [if last then 1 else 0, low, high, low', high'] ++ bytes
        ∧ (bytes.length ≤ plainLimit → low.toNat + 256 * high.toNat = bytes.length)
        ∧ low.toNat + 256 * high.toNat + (low'.toNat + 256 * high'.toNat) = 65535 := by
  refine ⟨_, _, _, _, rfl, fun hlength => ?_, ?_⟩
  · rw [toNat_split]
    apply UInt16.toNat_ofNat_of_lt'
    unfold plainLimit at hlength
    change bytes.length < 65536
    omega
  · rw [toNat_split, toNat_split, toNat_complement]

/-- One plain block between others is unpacked, and what is behind it comes next. -/
theorem inflateBlocks_plainBlock (fuel : Nat) (last : Bool) (before bytes behind : List UInt8)
    (out : Array UInt8) (hlength : bytes.length ≤ plainLimit) :
    inflateBlocks (fuel + 1) out
        ⟨(before ++ plainBlock last bytes ++ behind).toArray, 8 * before.length⟩
      = if last then .ok (out ++ bytes)
        else inflateBlocks fuel (out ++ bytes)
          ⟨(before ++ plainBlock last bytes ++ behind).toArray,
            8 * (before ++ plainBlock last bytes).length⟩ := by
  obtain ⟨low, high, low', high', hblock, hsize, hcheck⟩ := plainBlock_head last bytes
  rw [hsize hlength] at hcheck
  have hplain := inflatePlain_append (before ++ [if last then 1 else 0, low, high, low', high']) bytes
    behind out
  rw [hblock, ← List.append_assoc before]
  generalize hdata : (before ++ [if last then 1 else 0, low, high, low', high'] ++ bytes ++ behind).toArray
    = data at hplain ⊢
  have hat (i : Nat) (hi : i < 5) :
      data[before.length + i]? = [if last then 1 else 0, low, high, low', high'][i]? := by
    rw [← hdata, List.append_assoc, List.append_assoc, List.getElem?_toArray,
      List.getElem?_append_right (Nat.le_add_right _ _), Nat.add_sub_cancel_left,
      List.getElem?_append_left hi]
  -- The head of the block is in the lowest three bits of its first byte.
  have hlast : bit ⟨data, 8 * before.length⟩
      = .ok (if last then 1 else 0, ⟨data, 8 * before.length + 1⟩) := by
    have h := bit_of_byte (hat 0 (by omega)) (Nat.zero_lt_succ 7)
    cases last <;> exact h
  have hkind : bits 2 ⟨data, 8 * before.length + 1⟩ = .ok (0, ⟨data, 8 * before.length + 3⟩) := by
    have h := bits_of_byte (hat 0 (by omega)) 2 1 (by omega)
    cases last <;> exact h
  have halign : align ⟨data, 8 * before.length + 3⟩ = .ok ((), ⟨data, 8 * (before.length + 1)⟩) := by
    have hpos : (8 * before.length + 3 + 7) / 8 * 8 = 8 * (before.length + 1) := by omega
    simp only [align, hpos]
  -- Behind it stand the length and its complement.
  have hlow := bits_two (hat 1 (by omega)) (hat 2 (by omega))
  have hhigh := bits_two (hat 3 (by omega)) (hat 4 (by omega))
  rw [hsize hlength] at hlow
  have hbody : inflateBlock 0 out ⟨data, 8 * before.length + 3⟩
      = inflatePlain bytes.length out ⟨data, 8 * (before.length + 5)⟩ := by
    have hget : (get : BitReader BitCursor) ⟨data, 8 * before.length + 3⟩
        = .ok (⟨data, 8 * before.length + 3⟩, ⟨data, 8 * before.length + 3⟩) := rfl
    rw [inflateBlock, bind_of_ok hget]
    change (align >>= _) _ = _
    rw [bind_of_ok halign, bind_of_ok hlow, bind_of_ok hhigh, if_pos hcheck]
  rw [List.length_append] at hplain
  rw [inflateBlocks, bind_of_ok hlast, bind_of_ok hkind, bind_of_ok (hbody.trans hplain), pure_eq]
  cases last <;> rfl

/-! ## Rows of blocks -/

theorem deflateFrom_eq_append (fuel : Nat) (out : Array UInt8) (bytes : Bytes) :
    deflateFrom fuel out bytes = out.toList ++ deflateFrom fuel #[] bytes := by
  induction fuel generalizing out bytes with
  | zero => simp [deflateFrom]
  | succ fuel ih =>
    rw [deflateFrom, deflateFrom]
    split
    · simp
    · rw [ih, ih (Array.appendList _ _)]
      simp

/-- A row that is not over yet: a full block, and the row of the rest. -/
theorem deflateFrom_succ (fuel : Nat) {bytes : Bytes} (h : bytes.drop plainLimit ≠ []) :
    deflateFrom (fuel + 1) #[] bytes
      = plainBlock false (bytes.take plainLimit) ++ deflateFrom fuel #[] (bytes.drop plainLimit) := by
  rw [deflateFrom]
  split
  · next hnil => exact absurd hnil h
  · rw [deflateFrom_eq_append]
    simp

/-- A row of one block. -/
theorem deflateFrom_last (fuel : Nat) {bytes : Bytes} (h : fuel = 0 ∨ bytes.drop plainLimit = []) :
    deflateFrom fuel #[] bytes = plainBlock true bytes := by
  cases fuel with
  | zero => simp [deflateFrom]
  | succ fuel =>
    obtain h | h := h
    · exact absurd h (Nat.succ_ne_zero fuel)
    · simp [deflateFrom, h]

theorem inflateBlocks_deflateFrom (fuel work : Nat) (before : List UInt8) (out : Array UInt8)
    (bytes : Bytes) (hfuel : bytes.length ≤ plainLimit * (fuel + 1)) (hwork : fuel < work) :
    inflateBlocks work out ⟨(before ++ deflateFrom fuel #[] bytes).toArray, 8 * before.length⟩
      = .ok (out ++ bytes) := by
  induction fuel generalizing work before out bytes with
  | zero =>
    obtain ⟨work, rfl⟩ : ∃ w, work = w + 1 := ⟨work - 1, by omega⟩
    have h := inflateBlocks_plainBlock work true before bytes [] out (by omega)
    rw [List.append_nil] at h
    rw [deflateFrom_last 0 (.inl rfl), h, if_pos rfl]
  | succ fuel ih =>
    obtain ⟨work, rfl⟩ : ∃ w, work = w + 1 := ⟨work - 1, by omega⟩
    by_cases hrest : bytes.drop plainLimit = []
    · have hlength : bytes.length ≤ plainLimit := List.drop_eq_nil_iff.mp hrest
      have h := inflateBlocks_plainBlock work true before bytes [] out hlength
      rw [List.append_nil] at h
      rw [deflateFrom_last _ (.inr hrest), h, if_pos rfl]
    · have hleft : (bytes.drop plainLimit).length ≤ plainLimit * (fuel + 1) := by
        rw [List.length_drop]
        rw [Nat.mul_succ] at hfuel
        omega
      rw [deflateFrom_succ _ hrest, ← List.append_assoc,
        inflateBlocks_plainBlock _ _ _ _ _ _ (List.length_take_le _ _), if_neg Bool.false_ne_true,
        ih work _ _ _ hleft (by omega)]
      congr 1
      apply Array.toList_inj.mp
      simp

/-- Packing adds to what is packed. -/
theorem length_le_deflateFrom (fuel : Nat) (bytes : Bytes) :
    bytes.length ≤ (deflateFrom fuel #[] bytes).length := by
  have hblock (last : Bool) (bytes : Bytes) : bytes.length ≤ (plainBlock last bytes).length := by
    simp only [plainBlock, List.length_cons]
    omega
  induction fuel generalizing bytes with
  | zero =>
    rw [deflateFrom_last 0 (.inl rfl)]
    exact hblock true bytes
  | succ fuel ih =>
    by_cases hrest : bytes.drop plainLimit = []
    · rw [deflateFrom_last _ (.inr hrest)]
      exact hblock true bytes
    · have hfull := hblock false (bytes.take plainLimit)
      have hbehind := ih (bytes.drop plainLimit)
      rw [deflateFrom_succ _ hrest, List.length_append]
      rw [List.length_take] at hfull
      rw [List.length_drop] at hbehind
      omega

/-- **Nothing is lost in packing**: what is packed comes out again. -/
theorem inflate_deflate (bytes : Bytes) : inflate (deflate bytes) = .ok bytes := by
  have hfuel : bytes.length ≤ plainLimit * (bytes.length / plainLimit + 1) :=
    (Nat.lt_mul_div_succ bytes.length (by decide)).le
  have hwork : bytes.length / plainLimit < 8 * (deflate bytes).length + 1 := by
    have hblocks := Nat.div_le_self bytes.length plainLimit
    have hlength : bytes.length ≤ (deflate bytes).length := length_le_deflateFrom _ bytes
    omega
  have h := inflateBlocks_deflateFrom _ _ [] #[] bytes hfuel hwork
  change inflateBlocks _ #[] ⟨(deflate bytes).toArray, 0⟩ = _ at h
  rw [inflate, h]
  simp [Except.map]

/-- An entry that is made for a content has that content. -/
theorem Entry.content_ofContent (name : String) {method : Method} (hmethod : method.isKnown) (stamp : Stamp)
    (mode : Mode) (content : Bytes) : (ofContent name method stamp mode content).content = .ok content := by
  cases method with
  | stored => simp [Entry.content, unpack, ofContent]
  | deflated => simp [Entry.content, unpack, ofContent, inflate_deflate]
  | other code => simp [Method.isKnown] at hmethod

end Relabel.Zip
