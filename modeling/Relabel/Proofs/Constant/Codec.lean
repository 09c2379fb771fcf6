import Relabel.Proofs.Bytes.Codec
import Relabel.Proofs.Constant.Pool

/-!
# The constant pool as bytes and back

Every usable constant is read back from its bytes, and only usable constants are. A pool is laid out as its
constants one after the other, a wide one with an unusable slot behind it; that layout is what reading
produces, what every operation on a pool keeps, and what makes the written pool readable: a pool with an
unusable slot anywhere else would lose it on the way.
-/

set_option autoImplicit false

namespace Relabel

open Decoder Encoding

namespace Constant

/-! ## One constant -/

/-- The tag of a usable constant. -/
def tag? : Constant → Option UInt8
  | .utf8 _ => some 1
  | .integer _ => some 3
  | .float _ => some 4
  | .long _ => some 5
  | .double _ => some 6
  | .classRef _ => some 7
  | .string _ => some 8
  | .member kind _ _ => some kind.tag
  | .nameAndType _ _ => some 12
  | .methodHandle _ _ => some 15
  | .methodType _ => some 16
  | .dynamic _ _ => some 17
  | .invokeDynamic _ _ => some 18
  | .moduleRef _ => some 19
  | .packageRef _ => some 20
  | .unusable => none

/-- What stands behind the tag of a constant. -/
def payload : Constant → Encoding
  | .utf8 bytes =>
    if bytes.length ≤ 65535 then ofBytes (Bytes.ofUInt16 (UInt16.ofNat bytes.length) ++ bytes)
    else refuse .textTooLong
  | .integer bits | .float bits => .u32 bits
  | .long bits | .double bits => ofBytes (Bytes.ofUInt64 bits)
  | .classRef i | .string i | .methodType i | .moduleRef i | .packageRef i => .u16 i
  | .member _ a b | .nameAndType a b | .dynamic a b | .invokeDynamic a b => .u16 a ++ .u16 b
  | .methodHandle kind reference => .u8 kind ++ .u16 reference
  | .unusable => .empty

theorem tag?_isSome {k : Constant} : k.tag?.isSome = true ↔ k ≠ .unusable := by
  cases k <;> simp [tag?]

theorem encode_eq {k : Constant} {tag : UInt8} (hk : k.tag? = some tag) :
    k.encode = Encoding.u8 tag ++ k.payload := by
  cases k
  case unusable => cases hk
  all_goals
    obtain rfl := Option.some.inj hk
    simp [encode, encodePair, encodeIndex, payload, Encoding.u8, Encoding.u16, Encoding.u32, ofBytes_append]

/-- The length of a text is counted in sixteen bits. -/
theorem between_payload_utf8 {bytes : Bytes} {c c' : Cursor} : (payload (.utf8 bytes)).Between c c' ↔
    ∃ n : UInt16, n.toNat = bytes.length ∧ (Encoding.u16 n ++ ofBytes bytes).Between c c' := by
  rw [payload]
  split
  · next hlen =>
    have hn : (UInt16.ofNat bytes.length).toNat = bytes.length := UInt16.toNat_ofNat_of_lt' (by
      simp only [UInt16.size]
      omega)
    rw [← ofBytes_append]
    constructor
    · exact fun h => ⟨_, hn, h⟩
    · rintro ⟨n, hlen, h⟩
      rwa [← hlen, UInt16.ofNat_toNat]
  · next hlen =>
    simp only [not_between_refuse, false_iff, not_exists]
    rintro n ⟨hn, -⟩
    have := n.toNat_lt
    omega

theorem payload_of_decodePayload {tag : UInt8} {k : Constant} {c c' : Cursor}
    (h : decodePayload tag c = .ok (k, c')) : k.tag? = some tag ∧ k.payload.Between c c' := by
  unfold decodePayload at h
  split at h
  case h_1 =>
    obtain ⟨n, c₁, hn, h⟩ := bind_eq_ok.mp h
    obtain ⟨bytes, c₂, hbytes, hpure⟩ := bind_eq_ok.mp h
    obtain ⟨rfl, rfl⟩ := pure_eq_ok.mp hpure
    obtain ⟨hlen, hbytes⟩ := take_eq_ok.mp hbytes
    exact ⟨rfl, between_payload_utf8.mpr ⟨n, hlen.symm, between_append.mpr ⟨c₁, u16_eq_ok.mp hn, hbytes⟩⟩⟩
  case h_12 =>
    obtain ⟨kind, c₁, hkind, h⟩ := bind_eq_ok.mp h
    obtain ⟨i, rfl, hi⟩ := return_eq_ok.mp h
    exact ⟨rfl, between_append.mpr ⟨c₁, u8_eq_ok.mp hkind, u16_eq_ok.mp hi⟩⟩
  case h_18 =>
    obtain ⟨pos, c₁, -, h⟩ := bind_eq_ok.mp h
    simp [Decoder.fail] at h
  case h_2 | h_3 =>
    obtain ⟨bits, rfl, hbits⟩ := return_eq_ok.mp h
    exact ⟨rfl, u32_eq_ok.mp hbits⟩
  case h_4 | h_5 =>
    obtain ⟨bits, rfl, hbits⟩ := return_eq_ok.mp h
    exact ⟨rfl, u64_eq_ok.mp hbits⟩
  case h_8 | h_9 | h_10 | h_11 | h_14 | h_15 =>
    obtain ⟨i, j, rfl, hij⟩ := pair_eq_ok.mp h
    exact ⟨rfl, hij⟩
  -- All that is left are the constants that are one index.
  all_goals
    obtain ⟨i, rfl, hi⟩ := return_eq_ok.mp h
    exact ⟨rfl, u16_eq_ok.mp hi⟩

theorem decodePayload_of_payload {tag : UInt8} {k : Constant} {c c' : Cursor} (hk : k.tag? = some tag)
    (h : k.payload.Between c c') : decodePayload tag c = .ok (k, c') := by
  cases k with
  | unusable => cases hk
  | utf8 bytes =>
    obtain rfl : 1 = tag := Option.some.inj hk
    obtain ⟨n, hlen, h⟩ := between_payload_utf8.mp h
    obtain ⟨c₁, hn, hbytes⟩ := between_append.mp h
    refine bind_eq_ok.mpr ⟨n, c₁, u16_eq_ok.mpr hn, bind_eq_ok.mpr ⟨bytes, c', ?_, rfl⟩⟩
    exact take_eq_ok.mpr ⟨hlen.symm, hbytes⟩
  | integer bits | float bits =>
    obtain rfl := Option.some.inj hk
    exact return_eq_ok.mpr ⟨_, rfl, u32_eq_ok.mpr h⟩
  | long bits | double bits =>
    obtain rfl := Option.some.inj hk
    exact return_eq_ok.mpr ⟨_, rfl, u64_eq_ok.mpr h⟩
  | classRef i | string i | methodType i | moduleRef i | packageRef i =>
    obtain rfl := Option.some.inj hk
    exact return_eq_ok.mpr ⟨_, rfl, u16_eq_ok.mpr h⟩
  | member kind a b =>
    obtain rfl := Option.some.inj hk
    cases kind <;> exact pair_eq_ok.mpr ⟨a, b, rfl, h⟩
  | nameAndType a b | dynamic a b | invokeDynamic a b =>
    obtain rfl := Option.some.inj hk
    exact pair_eq_ok.mpr ⟨a, b, rfl, h⟩
  | methodHandle kind i =>
    obtain rfl : 15 = tag := Option.some.inj hk
    obtain ⟨c₁, hkind, hi⟩ := between_append.mp h
    exact bind_eq_ok.mpr ⟨kind, c₁, u8_eq_ok.mpr hkind, return_eq_ok.mpr ⟨i, rfl, u16_eq_ok.mpr hi⟩⟩

/-- **Constants are read as they are written**, and only usable ones are read. -/
theorem reads_decode (n : Nat) : Reads n (· ≠ .unusable) encode decode := by
  intro c k c' _
  rw [decode, bind_eq_ok]
  constructor
  · rintro ⟨tag, c₁, htag, h⟩
    obtain ⟨hk, hpayload⟩ := payload_of_decodePayload h
    refine ⟨tag?_isSome.mp (by rw [hk]; rfl), ?_⟩
    rw [encode_eq hk, between_append]
    exact ⟨c₁, u8_eq_ok.mp htag, hpayload⟩
  · rintro ⟨husable, hbetween⟩
    obtain ⟨tag, hk⟩ := Option.isSome_iff_exists.mp (tag?_isSome.mpr husable)
    rw [encode_eq hk, between_append] at hbetween
    obtain ⟨c₁, htag, hpayload⟩ := hbetween
    exact ⟨tag, c₁, u8_eq_ok.mpr htag, decodePayload_of_payload hk hpayload⟩

/-! ## The layout of slots -/

/-- Slots that hold constants one after the other, each wide one with an unusable slot behind it. -/
inductive LaidOut : List Constant → Prop where
  | nil : LaidOut []
  | narrow {k : Constant} {slots : List Constant} : k ≠ .unusable → k.isWide = false → LaidOut slots →
      LaidOut (k :: slots)
  | wide {k : Constant} {slots : List Constant} : k.isWide = true → LaidOut slots →
      LaidOut (k :: .unusable :: slots)

theorem ne_unusable_of_isWide {k : Constant} (hk : k.isWide = true) : k ≠ .unusable := by
  rintro rfl
  cases hk

theorem LaidOut.append {slots more : List Constant} (h : LaidOut slots) (hmore : LaidOut more) :
    LaidOut (slots ++ more) := by
  induction h with
  | nil => exact hmore
  | narrow hk hw _ ih => exact .narrow hk hw ih
  | wide hw _ ih => exact .wide hw ih

theorem LaidOut.set {slots : List Constant} (h : LaidOut slots) {i : Nat} {old k : Constant}
    (hold : slots[i]? = some old) (husable : old ≠ .unusable) (hk : k ≠ .unusable)
    (hwide : old.isWide = k.isWide) : LaidOut (slots.set i k) := by
  induction h generalizing i with
  | nil => simp at hold
  | narrow hk' hw hrest ih =>
    cases i with
    | zero =>
      obtain rfl := Option.some.inj hold
      exact .narrow hk (hwide ▸ hw) hrest
    | succ i => exact .narrow hk' hw (ih hold)
  | wide hw hrest ih =>
    match i with
    | 0 =>
      obtain rfl := Option.some.inj hold
      exact .wide (hwide ▸ hw) hrest
    | 1 =>
      -- The slot behind a wide constant is not one that can be replaced.
      obtain rfl := Option.some.inj hold
      exact absurd rfl husable
    | i + 2 => exact .wide hw (ih hold)

end Constant

namespace Pool

open Constant

theorem toList_appendSlots (slots : Array Constant) (k : Constant) : (appendSlots slots k).toList
    = slots.toList ++ (if k.isWide then [k, .unusable] else [k]) := by
  unfold appendSlots
  split <;> simp

theorem laidOut_slots {k : Constant} (hk : k ≠ .unusable) :
    LaidOut (if k.isWide then [k, .unusable] else [k]) := by
  split
  · next hw => exact .wide hw .nil
  · next hw => exact .narrow hk (Bool.eq_false_iff.mpr hw) .nil

/-- A pool whose slots are laid out behind slot 0 and can be counted in sixteen bits. -/
structure WellFormed (p : Pool) : Prop where
  layout : ∃ slots, p.slots.toList = .unusable :: slots ∧ LaidOut slots
  size_le : p.slots.size ≤ 65535

theorem wellFormed_empty : empty.WellFormed := ⟨⟨[], rfl, .nil⟩, by decide⟩

/-! ## Reading a pool -/

theorem slots_of_decodeSlots {count : Nat} : ∀ {fuel : Nat} {p q : Pool} {c c' : Cursor},
    decodeSlots count fuel p c = .ok (q, c') → ∃ slots, q.slots.toList = p.slots.toList ++ slots ∧
      LaidOut slots ∧ (Encoding.sequence Constant.encode slots).Between c c' := by
  intro fuel
  induction fuel with
  | zero =>
    intro p q c c' h
    simp only [decodeSlots, Except.ok.injEq, Prod.mk.injEq] at h
    obtain ⟨rfl, rfl⟩ := h
    exact ⟨[], by simp, .nil, by simp⟩
  | succ fuel ih =>
    intro p q c c' h
    rw [decodeSlots] at h
    split at h
    · cases hx : Constant.decode c with
      | error e => simp [hx] at h
      | ok r =>
        obtain ⟨k, c₁⟩ := r
        simp only [hx] at h
        obtain ⟨hk, hfirst⟩ := (reads_decode _ c k c₁ (Nat.le_refl _)).mp hx
        obtain ⟨slots, hslots, hlaid, hrest⟩ := ih h
        rw [Pool.append, toList_appendSlots, List.append_assoc] at hslots
        refine ⟨_, hslots, (laidOut_slots hk).append hlaid, ?_⟩
        split
        · -- The slot behind a wide constant is written as nothing.
          simp only [List.cons_append, List.nil_append, sequence_cons, Constant.encode, empty_append]
          exact between_append.mpr ⟨c₁, hfirst, hrest⟩
        · simp only [List.cons_append, List.nil_append, sequence_cons]
          exact between_append.mpr ⟨c₁, hfirst, hrest⟩
    · simp only [Except.ok.injEq, Prod.mk.injEq] at h
      obtain ⟨rfl, rfl⟩ := h
      exact ⟨[], by simp, .nil, by simp⟩

theorem decodeSlots_of_slots (count : Nat) {slots : List Constant} (hlaid : LaidOut slots) :
    ∀ (fuel : Nat) (p : Pool) {c c' : Cursor}, slots.length ≤ fuel → p.slots.size + slots.length = count →
      (Encoding.sequence Constant.encode slots).Between c c' →
      ∃ q, decodeSlots count fuel p c = .ok (q, c') ∧ q.slots.toList = p.slots.toList ++ slots := by
  -- One more constant, which takes the first of the remaining slots.
  have hstep {fuel : Nat} {p : Pool} {c c₁ : Cursor} {k : Constant} (hlt : p.slots.size < count)
      (hk : k ≠ .unusable) (hfirst : k.encode.Between c c₁) :
      decodeSlots count (fuel + 1) p c = decodeSlots count fuel (p.append k) c₁ := by
    rw [decodeSlots, if_pos hlt, (reads_decode _ c k c₁ (Nat.le_refl _)).mpr ⟨hk, hfirst⟩]
  induction hlaid with
  | nil =>
    intro fuel p c c' _ hsize hbetween
    obtain rfl : c = c' := by simpa using hbetween
    refine ⟨p, ?_, by simp⟩
    cases fuel with
    | zero => rfl
    | succ fuel => rw [decodeSlots, if_neg (by simp at hsize; omega)]
  | @narrow k slots hk hw _ ih =>
    intro fuel p c c' hfuel hsize hbetween
    rw [sequence_cons, between_append] at hbetween
    obtain ⟨c₁, hfirst, hrest⟩ := hbetween
    rw [List.length_cons] at hfuel hsize
    obtain ⟨fuel, rfl⟩ := Nat.exists_eq_succ_of_ne_zero (show fuel ≠ 0 by omega)
    have hsize' : (p.append k).slots.size + slots.length = count := by
      simp only [Pool.append, appendSlots, hw, Bool.false_eq_true, if_false, Array.size_push]
      omega
    obtain ⟨q, hq, hslots⟩ := ih fuel _ (by omega) hsize' hrest
    refine ⟨q, by rw [hstep (by omega) hk hfirst, hq], ?_⟩
    simp [hslots, Pool.append, toList_appendSlots, hw]
  | @wide k slots hw _ ih =>
    intro fuel p c c' hfuel hsize hbetween
    rw [sequence_cons, sequence_cons, between_append] at hbetween
    obtain ⟨c₁, hfirst, hrest⟩ := hbetween
    rw [Constant.encode, empty_append] at hrest
    rw [List.length_cons, List.length_cons] at hfuel hsize
    obtain ⟨fuel, rfl⟩ := Nat.exists_eq_succ_of_ne_zero (show fuel ≠ 0 by omega)
    have hsize' : (p.append k).slots.size + slots.length = count := by
      simp only [Pool.append, appendSlots, hw, if_true, Array.size_push]
      omega
    obtain ⟨q, hq, hslots⟩ := ih fuel _ (by omega) hsize' hrest
    refine ⟨q, by rw [hstep (by omega) (ne_unusable_of_isWide hw) hfirst, hq], ?_⟩
    simp [hslots, Pool.append, toList_appendSlots, hw]

/-- What a pool was read from is what it is written as. -/
theorem between_of_decode {p : Pool} {c c' : Cursor} (h : decode c = .ok (p, c')) :
    p.WellFormed ∧ p.encode.Between c c' := by
  obtain ⟨count, c₁, hcount, h⟩ := bind_eq_ok.mp h
  split at h
  · exact absurd h (by simp [Decoder.fail, bind, StateT.bind, Except.bind])
  obtain ⟨q, c₂, hq, h⟩ := bind_eq_ok.mp h
  split at h
  · exact absurd h (by simp [Decoder.fail, bind, StateT.bind, Except.bind])
  next hsize =>
  obtain ⟨rfl, rfl⟩ := pure_eq_ok.mp h
  obtain ⟨slots, hslots, hlaid, hbetween⟩ := slots_of_decodeSlots hq
  have hsize : q.slots.size = count.toNat := by simpa using hsize
  have hlt := count.toNat_lt
  refine ⟨⟨⟨slots, hslots, hlaid⟩, by omega⟩, ?_⟩
  rw [Pool.encode, between_append, Pool.count, hsize, UInt16.ofNat_toNat, hslots]
  exact ⟨c₁, u16_eq_ok.mp hcount, hbetween⟩

/-- **A well-formed pool is read from what it is written as.** The index of the two may differ. -/
theorem decode_of_between {p : Pool} (hp : p.WellFormed) {c c' : Cursor} (h : p.encode.Between c c') :
    ∃ q, decode c = .ok (q, c') ∧ q.slots = p.slots := by
  obtain ⟨⟨slots, hslots, hlaid⟩, hle⟩ := hp
  rw [Pool.encode, between_append, hslots] at h
  obtain ⟨c₁, hcount, hbetween⟩ := h
  have hsize : p.slots.size = slots.length + 1 := by
    rw [← Array.length_toList, hslots, List.length_cons]
  have htoNat : p.count.toNat = p.slots.size := UInt16.toNat_ofNat_of_lt' (by
    simp only [UInt16.size]
    omega)
  have hne : p.count ≠ 0 := by
    intro hzero
    rw [hzero] at htoNat
    simp at htoNat
    omega
  obtain ⟨q, hq, hqslots⟩ := decodeSlots_of_slots p.count.toNat hlaid p.count.toNat .empty (by omega)
    (by simp [empty]; omega) hbetween
  have heq : q.slots = p.slots := by
    rw [← Array.toList_inj, hqslots, hslots]
    rfl
  refine ⟨q, ?_, heq⟩
  refine bind_eq_ok.mpr ⟨p.count, c₁, u16_eq_ok.mpr hcount, ?_⟩
  rw [if_neg hne]
  refine bind_eq_ok.mpr ⟨q, c', hq, ?_⟩
  rw [if_neg (by rw [heq, htoNat]; simp)]
  rfl

/-! ## The index of a pool that was read -/

/-- The pool that is read from constants one after the other: its index has the first of equal constants. -/
def ofSlots (slots : Array Constant) : Pool :=
  (slots.toList.filter (· ≠ .unusable)).foldl append .empty

theorem ofSlots_append {k : Constant} (hk : k ≠ .unusable) (slots : Array Constant) :
    ofSlots (appendSlots slots k) = (ofSlots slots).append k := by
  have husable : (if k.isWide then [k, .unusable] else [k]).filter (· ≠ .unusable) = [k] := by
    split <;> simp [hk]
  rw [ofSlots, toList_appendSlots, List.filter_append, husable, List.foldl_concat, ofSlots]

theorem ofSlots_of_decodeSlots {count fuel : Nat} {p q : Pool} {c c' : Cursor} (hp : ofSlots p.slots = p)
    (h : decodeSlots count fuel p c = .ok (q, c')) : ofSlots q.slots = q := by
  induction fuel generalizing p c with
  | zero =>
    obtain ⟨rfl, -⟩ := Prod.mk.inj (Except.ok.inj h)
    exact hp
  | succ fuel ih =>
    rw [decodeSlots] at h
    split at h
    · cases hx : Constant.decode c with
      | error e => simp [hx] at h
      | ok r =>
        obtain ⟨k, c₁⟩ := r
        simp only [hx] at h
        obtain ⟨hk, -⟩ := (reads_decode _ c k c₁ (Nat.le_refl _)).mp hx
        refine ih ?_ h
        show ofSlots (appendSlots p.slots k) = p.append k
        rw [ofSlots_append hk, hp]
    · obtain ⟨rfl, -⟩ := Prod.mk.inj (Except.ok.inj h)
      exact hp

/-- **Pools that were read are the same if their slots are**, index and all. -/
theorem eq_of_decode {p q : Pool} {c c' d d' : Cursor} (hp : decode c = .ok (p, c'))
    (hq : decode d = .ok (q, d')) (h : q.slots = p.slots) : q = p := by
  have hslots {p : Pool} {c c' : Cursor} (hp : decode c = .ok (p, c')) : ofSlots p.slots = p := by
    obtain ⟨count, c₁, -, hp⟩ := bind_eq_ok.mp hp
    split at hp
    · exact absurd hp (by simp [Decoder.fail, bind, StateT.bind, Except.bind])
    obtain ⟨q, c₂, hq, hp⟩ := bind_eq_ok.mp hp
    split at hp
    · exact absurd hp (by simp [Decoder.fail, bind, StateT.bind, Except.bind])
    obtain ⟨rfl, rfl⟩ := pure_eq_ok.mp hp
    exact ofSlots_of_decodeSlots rfl hq
  rw [← hslots hp, ← hslots hq, h]

end Pool

end Relabel
