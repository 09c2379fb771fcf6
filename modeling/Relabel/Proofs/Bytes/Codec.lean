import Mathlib.Algebra.Group.Nat.Defs
import Relabel.Bytes.Encoding
import Relabel.Hierarchy.Supertypes

/-!
# Readers that undo writers

`e.Between c c'` says that the bytes from the place `c` to the place `c'` are exactly those that `e` writes,
and that `e` writes all it wants to. A decoder and an encoder fit together if

```
d c = .ok (a, c')  ↔  P a ∧ (e a).Between c c'
```

and this one equation, `Decoder.Reads`, is proved of every pair in the library. Read from left to right it
says that what was read is written back byte for byte; from right to left, that what was written is read
again, however it goes on afterwards. `P` is what a value must satisfy for its encoding to be one that the
decoder accepts, and it is what the decoder promises of the values it gives.

Appending encodings is going from place to place (`between_append`), as is running decoders one after the
other (`Decoder.bind_eq_ok`). So most proofs below only match the places of one side with those of the other.
-/

set_option autoImplicit false

namespace Relabel

/-! ## Encodings -/

namespace Encoding

variable {α : Type}

@[simp] theorem empty_append (e : Encoding) : empty ++ e = e := by
  change append ⟨#[], none⟩ e = e
  simp [append]

@[simp] theorem append_empty (e : Encoding) : e ++ empty = e := by
  change append e ⟨#[], none⟩ = e
  obtain ⟨bytes, fault?⟩ := e
  cases fault? <;> simp [append]

theorem append_assoc (a b c : Encoding) : a ++ b ++ c = a ++ (b ++ c) := by
  change append (append a b) c = append a (append b c)
  obtain ⟨x, fx⟩ := a
  obtain ⟨y, fy⟩ := b
  obtain ⟨z, fz⟩ := c
  cases fx <;> cases fy <;> simp [append, Array.append_assoc]

theorem ofBytes_append (x y : Bytes) : ofBytes x ++ ofBytes y = ofBytes (x ++ y) := by
  change append ⟨x.toArray, none⟩ ⟨y.toArray, none⟩ = _
  simp [append, ofBytes]

theorem append_eq_ofBytes {a b : Encoding} {bytes : Bytes} :
    a ++ b = ofBytes bytes ↔ ∃ x y, a = ofBytes x ∧ b = ofBytes y ∧ bytes = x ++ y := by
  constructor
  · intro h
    obtain ⟨x, fx⟩ := a
    obtain ⟨y, fy⟩ := b
    change append ⟨x, fx⟩ ⟨y, fy⟩ = ⟨bytes.toArray, none⟩ at h
    -- A fault on either side is a fault of the whole.
    cases fx with
    | some e => simp [append] at h
    | none =>
      simp only [append, Encoding.mk.injEq] at h
      obtain ⟨hbytes, rfl⟩ := h
      refine ⟨x.toList, y.toList, by simp [ofBytes], by simp [ofBytes], ?_⟩
      rw [← Array.toList_append, hbytes]
  · rintro ⟨x, y, rfl, rfl, rfl⟩
    exact ofBytes_append x y

theorem fault?_append {a b : Encoding} : (a ++ b).fault? = none ↔ a.fault? = none ∧ b.fault? = none := by
  change (append a b).fault? = none ↔ _
  obtain ⟨bytes, fault?⟩ := a
  cases fault? <;> simp [append]

theorem bytes_append {a b : Encoding} (h : a.fault? = none) : (a ++ b).bytes = a.bytes ++ b.bytes := by
  change (append a b).bytes = _
  obtain ⟨bytes, fault?⟩ := a
  obtain rfl : fault? = none := h
  rfl

theorem result_eq_ok {e : Encoding} {bytes : Bytes} : e.result = .ok bytes ↔ e = ofBytes bytes := by
  obtain ⟨b, fault?⟩ := e
  cases fault? with
  | none =>
    simp only [result, ofBytes, Except.ok.injEq, Encoding.mk.injEq, and_true]
    constructor
    · intro h
      simp [← h]
    · intro h
      simp [h]
  | some e => simp [result, ofBytes]

/-- What is complete is its bytes. -/
theorem exists_ofBytes {e : Encoding} (h : e.fault? = none) : ∃ bytes, e = ofBytes bytes := by
  refine ⟨e.bytes.toList, result_eq_ok.mp ?_⟩
  simp only [result, h]

@[simp] theorem sequence_nil (f : α → Encoding) : sequence f [] = empty := rfl

/-- The fold behind `sequence` only adds at the end of what is already there. -/
theorem foldl_append (f : α → Encoding) (items : List α) (start : Encoding) :
    items.foldl (fun acc a => acc ++ f a) start = start ++ sequence f items := by
  induction items generalizing start with
  | nil => simp
  | cons a items ih =>
    have hsequence : sequence f (a :: items) = f a ++ sequence f items := by
      rw [sequence, List.foldl_cons, empty_append, ih]
    rw [List.foldl_cons, ih, hsequence, append_assoc]

theorem sequence_cons (f : α → Encoding) (a : α) (items : List α) :
    sequence f (a :: items) = f a ++ sequence f items := by
  rw [sequence, List.foldl_cons, empty_append, foldl_append]

theorem sequence_map {β : Type} (f : β → Encoding) (g : α → β) (items : List α) :
    sequence f (items.map g) = sequence (fun a => f (g a)) items := by
  rw [sequence, List.foldl_map, sequence]

/-! ## Between two places -/

/-- The bytes between two places are those of a complete encoding. -/
def Between (e : Encoding) (c c' : Cursor) : Prop :=
  ∃ bytes, e = ofBytes bytes ∧ c.rest = bytes ++ c'.rest ∧ c'.pos = c.pos + bytes.length

theorem between_ofBytes {bytes : Bytes} {c c' : Cursor} : (ofBytes bytes).Between c c' ↔
    c.rest = bytes ++ c'.rest ∧ c'.pos = c.pos + bytes.length := by
  constructor
  · rintro ⟨x, hx, h⟩
    obtain rfl : bytes = x := by simpa [ofBytes] using hx
    exact h
  · exact fun h => ⟨bytes, rfl, h⟩

theorem between_append {a b : Encoding} {c c' : Cursor} :
    (a ++ b).Between c c' ↔ ∃ c₁, a.Between c c₁ ∧ b.Between c₁ c' := by
  constructor
  · rintro ⟨bytes, h, hrest, hpos⟩
    obtain ⟨x, y, hx, hy, rfl⟩ := append_eq_ofBytes.mp h
    refine ⟨⟨y ++ c'.rest, c.pos + x.length⟩, ⟨x, hx, ?_, rfl⟩, ⟨y, hy, rfl, ?_⟩⟩
    · rw [hrest, List.append_assoc]
    · rw [hpos, List.length_append, Nat.add_assoc]
  · rintro ⟨c₁, ⟨x, rfl, hx, hposx⟩, ⟨y, rfl, hy, hposy⟩⟩
    refine ⟨x ++ y, ofBytes_append x y, ?_, ?_⟩
    · rw [hx, hy, List.append_assoc]
    · rw [hposy, hposx, List.length_append, Nat.add_assoc]

@[simp] theorem between_empty {c c' : Cursor} : empty.Between c c' ↔ c = c' := by
  rw [show empty = ofBytes [] from rfl, between_ofBytes]
  constructor
  · rintro ⟨hrest, hpos⟩
    cases c
    cases c'
    simp_all
  · rintro rfl
    simp

@[simp] theorem not_between_refuse {refusal : Refusal} {c c' : Cursor} : ¬(refuse refusal).Between c c' := by
  rintro ⟨bytes, h, -⟩
  simp [refuse, ofBytes] at h

theorem Between.length_le {e : Encoding} {c c' : Cursor} (h : e.Between c c') :
    c'.rest.length ≤ c.rest.length := by
  obtain ⟨bytes, -, hrest, -⟩ := h
  rw [hrest, List.length_append]
  omega

theorem Between.length_eq {bytes : Bytes} {c c' : Cursor} (h : (ofBytes bytes).Between c c') :
    c.rest.length = bytes.length + c'.rest.length := by
  rw [(between_ofBytes.mp h).1, List.length_append]

theorem Between.fault?_eq_none {e : Encoding} {c c' : Cursor} (h : e.Between c c') : e.fault? = none := by
  obtain ⟨bytes, rfl, -⟩ := h
  rfl

/-- An encoding that was read up to the end of a byte string is that byte string. -/
theorem Between.result_of_nil {e : Encoding} {c c' : Cursor} (h : e.Between c c') (hend : c'.rest = []) :
    e.result = .ok c.rest := by
  obtain ⟨bytes, he, hrest, -⟩ := h
  rw [hend, List.append_nil] at hrest
  exact result_eq_ok.mpr (hrest ▸ he)

theorem between_count {what : Counted} {n : Nat} {c c' : Cursor} :
    (count what n).Between c c' ↔ ∃ k : UInt16, k.toNat = n ∧ (u16 k).Between c c' := by
  unfold count
  split
  · next hn =>
    have hk : (UInt16.ofNat n).toNat = n := UInt16.toNat_ofNat_of_lt (by simp only [UInt16.size]; omega)
    constructor
    · exact fun h => ⟨UInt16.ofNat n, hk, h⟩
    · rintro ⟨k, rfl, h⟩
      rwa [UInt16.ofNat_toNat]
  · next hn =>
    simp only [not_between_refuse, false_iff, not_exists]
    rintro k ⟨rfl, -⟩
    have := k.toNat_lt
    omega

theorem between_length {what : Sized} {n : Nat} {c c' : Cursor} :
    (length what n).Between c c' ↔ ∃ k : UInt32, k.toNat = n ∧ (u32 k).Between c c' := by
  unfold length
  split
  · next hn =>
    have hk : (UInt32.ofNat n).toNat = n := UInt32.toNat_ofNat_of_lt (by simp only [UInt32.size]; omega)
    constructor
    · exact fun h => ⟨UInt32.ofNat n, hk, h⟩
    · rintro ⟨k, rfl, h⟩
      rwa [UInt32.ofNat_toNat]
  · next hn =>
    simp only [not_between_refuse, false_iff, not_exists]
    rintro k ⟨rfl, -⟩
    have := k.toNat_lt
    omega

end Encoding

/-! ## Numbers as bytes -/

namespace Bytes

theorem toNatBE_cons (b : UInt8) (bytes : Bytes) :
    toNatBE (b :: bytes) = b.toNat * 256 ^ bytes.length + toNatBE bytes := by
  have hfrom (bytes : Bytes) (start : Nat) : bytes.foldl (fun n b => n * 256 + b.toNat) start
      = start * 256 ^ bytes.length + toNatBE bytes := by
    induction bytes generalizing start with
    | nil => simp [toNatBE]
    | cons b bytes ih =>
      have hzero : toNatBE (b :: bytes) = b.toNat * 256 ^ bytes.length + toNatBE bytes := by
        rw [toNatBE, List.foldl_cons, ih, Nat.zero_mul, Nat.zero_add]
      rw [List.foldl_cons, ih, hzero, List.length_cons, Nat.pow_succ', Nat.add_mul, Nat.mul_assoc,
        Nat.add_assoc]
  rw [toNatBE, List.foldl_cons, hfrom, Nat.zero_mul, Nat.zero_add]

theorem toNatBE_lt (bytes : Bytes) : toNatBE bytes < 256 ^ bytes.length := by
  induction bytes with
  | nil => simp [toNatBE]
  | cons b bytes ih =>
    have hb : b.toNat + 1 ≤ 256 := b.toNat_lt
    have hle := Nat.mul_le_mul_right (256 ^ bytes.length) hb
    rw [toNatBE_cons, List.length_cons, Nat.pow_succ']
    rw [Nat.add_mul, Nat.one_mul] at hle
    omega

/-- Byte strings of one length are told apart by the numbers they spell. -/
theorem eq_of_toNatBE_eq : ∀ {x y : Bytes}, x.length = y.length → toNatBE x = toNatBE y → x = y
  | [], [], _, _ => rfl
  | a :: x, b :: y, hlen, h => by
    have hlen : x.length = y.length := Nat.succ.inj hlen
    have hx := toNatBE_lt x
    have hy := toNatBE_lt y
    rw [toNatBE_cons, toNatBE_cons, hlen] at h
    rw [hlen] at hx
    -- The leading byte is the quotient by the weight of its place, the rest is the remainder.
    have hquot := congrArg (· / 256 ^ y.length) h
    have hrem := congrArg (· % 256 ^ y.length) h
    have hpos : 0 < 256 ^ y.length := Nat.pow_pos (by decide)
    simp only [Nat.mul_add_mod_of_lt hx, Nat.mul_add_mod_of_lt hy] at hrem
    simp only [Nat.mul_comm _ (256 ^ y.length), Nat.mul_add_div hpos, Nat.div_eq_of_lt hx,
      Nat.div_eq_of_lt hy, Nat.add_zero] at hquot
    rw [UInt8.toNat_inj.mp hquot, eq_of_toNatBE_eq hlen hrem]

theorem toNatBE_ofUInt16 (n : UInt16) : toNatBE (ofUInt16 n) = n.toNat := by
  have := n.toNat_lt
  simp [toNatBE, ofUInt16, Nat.shiftRight_eq_div_pow]
  omega

theorem toNatBE_ofUInt32 (n : UInt32) : toNatBE (ofUInt32 n) = n.toNat := by
  have := n.toNat_lt
  simp [toNatBE, ofUInt32, Nat.shiftRight_eq_div_pow]
  omega

theorem digit_add (n m : Nat) : n / (m * 256) * 256 + n / m % 256 = n / m := by
  rw [← Nat.div_div_eq_div_mul, Nat.div_add_mod']

theorem toNatBE_ofUInt64 (n : UInt64) : toNatBE (ofUInt64 n) = n.toNat := by
  have hn := n.toNat_lt
  have htop : n.toNat / 2 ^ 56 < 256 := by omega
  have h₆ := digit_add n.toNat (2 ^ 48)
  have h₅ := digit_add n.toNat (2 ^ 40)
  have h₄ := digit_add n.toNat (2 ^ 32)
  have h₃ := digit_add n.toNat (2 ^ 24)
  have h₂ := digit_add n.toNat (2 ^ 16)
  have h₁ := digit_add n.toNat (2 ^ 8)
  have h₀ := digit_add n.toNat 1
  simp only [Nat.reducePow, Nat.reduceMul, Nat.div_one] at htop h₀ h₁ h₂ h₃ h₄ h₅ h₆
  simp only [toNatBE, ofUInt64, List.foldl, UInt64.toNat_toUInt8, UInt64.toNat_shiftRight,
    UInt64.reduceToNat, Nat.reduceMod, Nat.reducePow, Nat.shiftRight_eq_div_pow, Nat.zero_mul, Nat.zero_add]
  -- Eight digits at once are too many for `omega`, so they are put together one after the other.
  rw [Nat.mod_eq_of_lt htop, h₆, h₅, h₄, h₃, h₂, h₁, h₀]

end Bytes

/-! ## Decoders -/

namespace Decoder

open Encoding

variable {α : Type}

theorem return_eq_ok {β : Type} {d : Decoder α} {f : α → β} {b : β} {c c' : Cursor} :
    (do return f (← d) : Decoder β) c = .ok (b, c') ↔ ∃ a, f a = b ∧ d c = .ok (a, c') := by
  rw [bind_eq_ok]
  constructor
  · rintro ⟨a, c₁, ha, hpure⟩
    obtain ⟨rfl, rfl⟩ := pure_eq_ok.mp hpure
    exact ⟨a, rfl, ha⟩
  · rintro ⟨a, rfl, ha⟩
    exact ⟨a, c', ha, rfl⟩

theorem map_eq_ok {β : Type} {f : α → β} {d : Decoder α} {b : β} {c c' : Cursor} :
    (f <$> d : Decoder β) c = .ok (b, c') ↔ ∃ a, f a = b ∧ d c = .ok (a, c') := by
  rw [map_eq_pure_bind, return_eq_ok]

theorem lift_eq_ok {x : Except Error α} {a : α} {c c' : Cursor} :
    (liftM x : Decoder α) c = .ok (a, c') ↔ x = .ok a ∧ c = c' := by
  cases x with
  | error e => simp [liftM, monadLift, MonadLift.monadLift, StateT.lift, bind, Except.bind]
  | ok b =>
    simp [liftM, monadLift, MonadLift.monadLift, StateT.lift, bind, Except.bind, pure, Except.pure]

theorem take_eq_ok {n : Nat} {bytes : Bytes} {c c' : Cursor} :
    take n c = .ok (bytes, c') ↔ bytes.length = n ∧ (ofBytes bytes).Between c c' := by
  rw [take, Bytes.splitOff_eq, between_ofBytes]
  obtain ⟨rest, pos⟩ := c
  obtain ⟨rest', pos'⟩ := c'
  by_cases hn : n ≤ rest.length
  · simp only [if_pos hn, List.reverse_nil, List.nil_append, Except.ok.injEq, Prod.mk.injEq,
      Cursor.mk.injEq]
    constructor
    · rintro ⟨rfl, rfl, rfl⟩
      simp [hn]
    · rintro ⟨rfl, rfl, rfl⟩
      simp
  · simp only [if_neg hn, reduceCtorEq, false_iff, not_and]
    rintro rfl hrest
    rw [hrest, List.length_append] at hn
    omega

/-- A number of fixed width is read from the bytes that spell it. -/
theorem number_eq_ok (width : Nat) (ofNat : Nat → α) (toNat : α → Nat) (spell : α → Bytes)
    (hofNat : ∀ n a, n < 256 ^ width → (ofNat n = a ↔ n = toNat a))
    (hlen : ∀ a, (spell a).length = width) (hspell : ∀ a, Bytes.toNatBE (spell a) = toNat a)
    {a : α} {c c' : Cursor} :
    (do return ofNat (Bytes.toNatBE (← take width)) : Decoder α) c = .ok (a, c') ↔
      (ofBytes (spell a)).Between c c' := by
  rw [bind_eq_ok]
  constructor
  · rintro ⟨bytes, c₁, htake, hpure⟩
    obtain ⟨hwidth, hbetween⟩ := take_eq_ok.mp htake
    obtain ⟨hvalue, rfl⟩ := pure_eq_ok.mp hpure
    have hlt := Bytes.toNatBE_lt bytes
    rw [hwidth] at hlt
    have hnat := (hofNat _ _ hlt).mp hvalue
    have hbytes : bytes = spell a :=
      Bytes.eq_of_toNatBE_eq (hwidth.trans (hlen a).symm) (hnat.trans (hspell a).symm)
    exact hbytes ▸ hbetween
  · intro h
    refine ⟨spell a, c', take_eq_ok.mpr ⟨hlen a, h⟩, pure_eq_ok.mpr ⟨?_, rfl⟩⟩
    have hlt := Bytes.toNatBE_lt (spell a)
    rw [hlen a] at hlt
    exact (hofNat _ _ hlt).mpr (hspell a)

theorem u8_eq_ok {n : UInt8} {c c' : Cursor} : u8 c = .ok (n, c') ↔ (Encoding.u8 n).Between c c' := by
  refine number_eq_ok 1 UInt8.ofNat UInt8.toNat (fun a => [a]) (fun k a hk => ?_) (fun _ => rfl) fun a => ?_
  · rw [← UInt8.toNat_inj, UInt8.toNat_ofNat_of_lt' hk]
  · simp [Bytes.toNatBE]

theorem u16_eq_ok {n : UInt16} {c c' : Cursor} :
    u16 c = .ok (n, c') ↔ (Encoding.u16 n).Between c c' := by
  refine number_eq_ok 2 UInt16.ofNat UInt16.toNat Bytes.ofUInt16 (fun k a hk => ?_) (fun _ => rfl)
    Bytes.toNatBE_ofUInt16
  rw [← UInt16.toNat_inj, UInt16.toNat_ofNat_of_lt' hk]

theorem u32_eq_ok {n : UInt32} {c c' : Cursor} :
    u32 c = .ok (n, c') ↔ (Encoding.u32 n).Between c c' := by
  refine number_eq_ok 4 UInt32.ofNat UInt32.toNat Bytes.ofUInt32 (fun k a hk => ?_) (fun _ => rfl)
    Bytes.toNatBE_ofUInt32
  rw [← UInt32.toNat_inj, UInt32.toNat_ofNat_of_lt' hk]

theorem u64_eq_ok {n : UInt64} {c c' : Cursor} :
    u64 c = .ok (n, c') ↔ (ofBytes (Bytes.ofUInt64 n)).Between c c' := by
  refine number_eq_ok 8 UInt64.ofNat UInt64.toNat Bytes.ofUInt64 (fun k a hk => ?_) (fun _ => rfl)
    Bytes.toNatBE_ofUInt64
  rw [← UInt64.toNat_inj, UInt64.toNat_ofNat_of_lt' hk]

theorem pair_eq_ok {β : Type} {f : UInt16 → UInt16 → β} {x : β} {c c' : Cursor} :
    (do let a ← u16; return f a (← u16) : Decoder β) c = .ok (x, c') ↔
      ∃ a b, f a b = x ∧ (Encoding.u16 a ++ Encoding.u16 b).Between c c' := by
  rw [bind_eq_ok]
  constructor
  · rintro ⟨a, c₁, ha, h⟩
    obtain ⟨b, hx, hb⟩ := return_eq_ok.mp h
    exact ⟨a, b, hx, between_append.mpr ⟨c₁, u16_eq_ok.mp ha, u16_eq_ok.mp hb⟩⟩
  · rintro ⟨a, b, hx, h⟩
    obtain ⟨c₁, ha, hb⟩ := between_append.mp h
    exact ⟨a, c₁, u16_eq_ok.mpr ha, return_eq_ok.mpr ⟨b, hx, u16_eq_ok.mpr hb⟩⟩

theorem quadruple_eq_ok {β : Type} {f : UInt16 → UInt16 → UInt16 → UInt16 → β} {x : β} {c c' : Cursor} :
    (do let i ← u16; let j ← u16; let a ← u16; return f i j a (← u16) : Decoder β) c = .ok (x, c') ↔
      ∃ i j a b, f i j a b = x ∧ (Encoding.u16 i ++ Encoding.u16 j ++ Encoding.u16 a
        ++ Encoding.u16 b).Between c c' := by
  simp only [append_assoc]
  rw [bind_eq_ok]
  constructor
  · rintro ⟨i, c₁, hi, h⟩
    obtain ⟨j, c₂, hj, h⟩ := bind_eq_ok.mp h
    obtain ⟨a, b, hx, hab⟩ := pair_eq_ok.mp h
    exact ⟨i, j, a, b, hx, between_append.mpr ⟨c₁, u16_eq_ok.mp hi,
      between_append.mpr ⟨c₂, u16_eq_ok.mp hj, hab⟩⟩⟩
  · rintro ⟨i, j, a, b, hx, h⟩
    obtain ⟨c₁, hi, h⟩ := between_append.mp h
    obtain ⟨c₂, hj, hab⟩ := between_append.mp h
    exact ⟨i, c₁, u16_eq_ok.mpr hi, bind_eq_ok.mpr ⟨j, c₂, u16_eq_ok.mpr hj,
      pair_eq_ok.mpr ⟨a, b, hx, hab⟩⟩⟩

/-- A decoder reads what an encoder writes of the values with a property, wherever at most `n` bytes are
left. Decoders of nested data are bounded by the bytes that are left, which is what `n` is for. -/
def Reads (n : Nat) (P : α → Prop) (e : α → Encoding) (d : Decoder α) : Prop :=
  ∀ c a c', c.rest.length ≤ n → (d c = .ok (a, c') ↔ P a ∧ (e a).Between c c')

theorem reads_u16 (n : Nat) : Reads n (fun _ => True) Encoding.u16 u16 := by
  intro c a c' _
  rw [u16_eq_ok, true_and]

/-- What was read before a run of decoders is put in front of what they give. -/
theorem timesFrom_eq_ok {d : Decoder α} {k : Nat} {acc xs : List α} {c c' : Cursor} :
    timesFrom d acc k c = .ok (xs, c') ↔ ∃ ys, xs = acc.reverse ++ ys ∧ times k d c = .ok (ys, c') := by
  unfold times
  induction k generalizing acc xs c with
  | zero =>
    simp only [timesFrom, Except.ok.injEq, Prod.mk.injEq, List.reverse_nil]
    constructor
    · rintro ⟨rfl, rfl⟩
      exact ⟨[], (List.append_nil _).symm, rfl, rfl⟩
    · rintro ⟨_, rfl, rfl, rfl⟩
      exact ⟨(List.append_nil _).symm, rfl⟩
  | succ k ih =>
    rw [timesFrom, timesFrom]
    cases d c with
    | error e => simp
    | ok r =>
      obtain ⟨a, c₁⟩ := r
      dsimp only
      rw [ih]
      constructor
      · rintro ⟨ys, rfl, hys⟩
        exact ⟨a :: ys, by simp, ih.mpr ⟨ys, by simp, hys⟩⟩
      · rintro ⟨_, rfl, h⟩
        obtain ⟨ys, rfl, hys⟩ := ih.mp h
        exact ⟨ys, by simp, hys⟩

theorem times_zero_eq_ok {d : Decoder α} {xs : List α} {c c' : Cursor} :
    times 0 d c = .ok (xs, c') ↔ xs = [] ∧ c = c' := by
  simp [times, timesFrom, eq_comm]

theorem times_succ_eq_ok {d : Decoder α} {k : Nat} {xs : List α} {c c' : Cursor} :
    times (k + 1) d c = .ok (xs, c') ↔
      ∃ a c₁ ys, xs = a :: ys ∧ d c = .ok (a, c₁) ∧ times k d c₁ = .ok (ys, c') := by
  rw [times, timesFrom]
  cases d c with
  | error e => simp
  | ok r =>
    obtain ⟨a, c₁⟩ := r
    dsimp only
    rw [timesFrom_eq_ok]
    constructor
    · rintro ⟨ys, rfl, hys⟩
      exact ⟨a, c₁, ys, rfl, rfl, hys⟩
    · rintro ⟨_, _, ys, rfl, ⟨⟩, hys⟩
      exact ⟨ys, rfl, hys⟩

theorem times_eq_ok {n : Nat} {P : α → Prop} {e : α → Encoding} {d : Decoder α} (hd : Reads n P e d)
    {k : Nat} {xs : List α} {c c' : Cursor} (hc : c.rest.length ≤ n) :
    times k d c = .ok (xs, c') ↔ xs.length = k ∧ (∀ x ∈ xs, P x) ∧ (sequence e xs).Between c c' := by
  induction k generalizing xs c with
  | zero =>
    rw [times_zero_eq_ok, List.length_eq_zero_iff]
    constructor
    · rintro ⟨rfl, rfl⟩
      simp
    · rintro ⟨rfl, -, hbetween⟩
      exact ⟨rfl, by simpa using hbetween⟩
  | succ k ih =>
    rw [times_succ_eq_ok]
    constructor
    · rintro ⟨a, c₁, ys, rfl, ha, hys⟩
      obtain ⟨hP, hbetween⟩ := (hd _ _ _ hc).mp ha
      obtain ⟨rfl, hall, hrest⟩ := (ih (Nat.le_trans hbetween.length_le hc)).mp hys
      rw [sequence_cons, between_append]
      exact ⟨rfl, by simpa using ⟨hP, hall⟩, c₁, hbetween, hrest⟩
    · rintro ⟨hlen, hall, hbetween⟩
      cases xs with
      | nil => cases hlen
      | cons a ys =>
        rw [sequence_cons, between_append] at hbetween
        obtain ⟨c₁, hfirst, hrest⟩ := hbetween
        refine ⟨a, c₁, ys, rfl, (hd _ _ _ hc).mpr ⟨hall a (by simp), hfirst⟩, ?_⟩
        exact (ih (Nat.le_trans hfirst.length_le hc)).mpr
          ⟨Nat.succ.inj hlen, fun x hx => hall x (by simp [hx]), hrest⟩

/-- **Counted lists are read as they are written**, whatever the count is a count of. -/
theorem Reads.counted {n : Nat} {P : α → Prop} {e : α → Encoding} {d : Decoder α} (hd : Reads n P e d)
    (what : Counted) : Reads n (∀ x ∈ ·, P x) (Encoding.counted what e) (counted d) := by
  intro c xs c' hc
  simp only [Decoder.counted, bind_eq_ok, Encoding.counted, between_append, between_count]
  constructor
  · rintro ⟨k, c₁, hk, hxs⟩
    have hk := u16_eq_ok.mp hk
    obtain ⟨hlen, hall, hrest⟩ := (times_eq_ok hd (Nat.le_trans hk.length_le hc)).mp hxs
    exact ⟨hall, c₁, ⟨k, hlen.symm, hk⟩, hrest⟩
  · rintro ⟨hall, c₁, ⟨k, hlen, hk⟩, hrest⟩
    refine ⟨k, c₁, u16_eq_ok.mpr hk, ?_⟩
    exact (times_eq_ok hd (Nat.le_trans hk.length_le hc)).mpr ⟨hlen.symm, hall, hrest⟩

end Decoder

end Relabel
