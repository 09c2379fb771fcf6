import Relabel.Proofs.Attribute.Codec
import Relabel.Proofs.Class.Replay
import Relabel.Proofs.Constant.Reachable

/-!
# Class files as bytes and back

A class file is a head and a body. The head is read at once and the body when its events are asked for, but
both are read from what they are written as, and the pool in the head is what the names of the attributes in
the body are looked up in. Two statements come out of it. A file whose body can be read is written back byte
for byte, by a writer and through a model; it is only reading that can fail, because all that was read can be
written. And a model that can be written is read back, provided that its pool was built in the usual ways,
that its header names the class and that its attributes are what their names announce.
-/

set_option autoImplicit false

namespace Relabel

open ClassEvents Decoder Encoding

/-! ## Members -/

/-- The attributes of a member are what their names announce. -/
def Member.WellKinded (p : Pool) (f : Member) : Prop :=
  ∀ a ∈ f.attributes, Attribute.WellKinded p a

theorem Member.reads_decode (p : Pool) (n : Nat) :
    Reads n (WellKinded p) encode (decode p false n) := by
  intro c f c' hc
  have hattributes := Attribute.reads_decodeList p n
  rw [decode, bind_eq_ok, encode, append_assoc, append_assoc, between_append]
  constructor
  · intro h
    obtain ⟨flags, c₁, hflags, h⟩ := h
    obtain ⟨name, c₂, hname, h⟩ := bind_eq_ok.mp h
    obtain ⟨descriptor, c₃, hdescriptor, h⟩ := bind_eq_ok.mp h
    obtain ⟨attributes, rfl, hread⟩ := return_eq_ok.mp h
    have hflags := u16_eq_ok.mp hflags
    have hname := u16_eq_ok.mp hname
    have hdescriptor := u16_eq_ok.mp hdescriptor
    have hc₃ : c₃.rest.length ≤ n := Nat.le_trans hdescriptor.length_le
      (Nat.le_trans hname.length_le (Nat.le_trans hflags.length_le hc))
    obtain ⟨hkind, hread⟩ := (hattributes _ _ _ hc₃).mp hread
    exact ⟨hkind, c₁, hflags, between_append.mpr ⟨c₂, hname, between_append.mpr ⟨c₃, hdescriptor, hread⟩⟩⟩
  · intro h
    obtain ⟨hkind, c₁, hflags, h⟩ := h
    obtain ⟨c₂, hname, h⟩ := between_append.mp h
    obtain ⟨c₃, hdescriptor, h⟩ := between_append.mp h
    have hc₃ : c₃.rest.length ≤ n := Nat.le_trans hdescriptor.length_le
      (Nat.le_trans hname.length_le (Nat.le_trans hflags.length_le hc))
    refine ⟨_, c₁, u16_eq_ok.mpr hflags, bind_eq_ok.mpr ⟨_, c₂, u16_eq_ok.mpr hname, ?_⟩⟩
    refine bind_eq_ok.mpr ⟨_, c₃, u16_eq_ok.mpr hdescriptor, return_eq_ok.mpr ⟨f.attributes, rfl, ?_⟩⟩
    exact (hattributes _ _ _ hc₃).mpr ⟨hkind, h⟩

/-! ## The two parts of a file -/

/-- Everything before the body, as bytes. -/
def Header.encode (h : Header) (p : Pool) : Encoding :=
  .u32 classMagic ++ (.u16 h.minor ++ (.u16 h.major ++ (p.encode ++ (.u16 h.flags ++ (.u16 h.thisClass
    ++ (.u16 h.superClass ++ .counted .interfaces .u16 h.interfaces))))))

namespace ClassModel

/-- The fields, the methods and the attributes of a model, as bytes. -/
def encodeBody (m : ClassModel) : Encoding :=
  .counted .fields Member.encode m.fields.toList
    ++ (.counted .methods Member.encode m.methods.toList ++ Attribute.encodeList m.attributes.toList)

/-- The attributes of a model are what their names announce, at every depth. -/
structure WellKinded (m : ClassModel) : Prop where
  fields : ∀ f ∈ m.fields.toList, f.WellKinded m.pool
  methods : ∀ f ∈ m.methods.toList, f.WellKinded m.pool
  attributes : ∀ a ∈ m.attributes.toList, Attribute.WellKinded m.pool a

theorem toBytes_eq_ok {m : ClassModel} {bytes : Bytes} :
    m.toBytes = .ok bytes ↔ m.header.encode m.pool ++ m.encodeBody = ofBytes bytes := by
  -- Members that can be encoded make the same bytes in front of the rest as in between.
  have hparts (hm : m.Encodes) : m.toBytes = (m.header.encode m.pool ++ m.encodeBody).result := by
    have hsequence {e : Encoding} (he : e.fault? = none) : (⟨e.bytes, none⟩ : Encoding) = e := by
      rw [← he]
    rw [toBytes_of_encodes hm, encodeClass, hsequence hm.1, hsequence hm.2]
    simp only [Header.encode, encodeBody, Encoding.counted, append_assoc, Array.length_toList]
  constructor
  · intro h
    rw [hparts (encodes_of_toBytes h)] at h
    exact result_eq_ok.mp h
  · intro h
    have hfault : (m.header.encode m.pool ++ m.encodeBody).fault? = none := by
      rw [h]
      rfl
    simp only [encodeBody, Encoding.counted, fault?_append] at hfault
    rw [hparts ⟨hfault.2.1.2, hfault.2.2.1.2⟩]
    exact result_eq_ok.mpr h

end ClassModel

/-! ## The head -/

theorem ClassFile.head_of_decodeHead {p : Pool} {h : Header} {c c' : Cursor}
    (hd : decodeHead c = .ok ((p, h), c')) :
    (∃ c₁ c₂, Pool.decode c₁ = .ok (p, c₂)) ∧ (h.encode p).Between c c' := by
  obtain ⟨magic, c₁, hmagic, hd⟩ := bind_eq_ok.mp hd
  split at hd
  · exact absurd hd (by simp [Decoder.fail, bind, StateT.bind, Except.bind])
  next hvalue =>
  obtain rfl : magic = classMagic := Classical.not_not.mp hvalue
  obtain ⟨minor, c₂, hminor, hd⟩ := bind_eq_ok.mp hd
  obtain ⟨major, c₃, hmajor, hd⟩ := bind_eq_ok.mp hd
  obtain ⟨pool, c₄, hpool, hd⟩ := bind_eq_ok.mp hd
  obtain ⟨flags, c₅, hflags, hd⟩ := bind_eq_ok.mp hd
  obtain ⟨this, c₆, hthis, hd⟩ := bind_eq_ok.mp hd
  obtain ⟨super, c₇, hsuper, hd⟩ := bind_eq_ok.mp hd
  obtain ⟨interfaces, heq, hinterfaces⟩ := return_eq_ok.mp hd
  obtain ⟨rfl, rfl⟩ := Prod.mk.inj heq
  obtain ⟨-, hread⟩ := Pool.between_of_decode hpool
  obtain ⟨-, hinterfaces⟩ := ((reads_u16 _).counted .interfaces _ _ _ (Nat.le_refl _)).mp hinterfaces
  refine ⟨⟨c₃, c₄, hpool⟩, between_append.mpr ⟨c₁, u32_eq_ok.mp hmagic, between_append.mpr ⟨c₂, u16_eq_ok.mp hminor, ?_⟩⟩⟩
  refine between_append.mpr ⟨c₃, u16_eq_ok.mp hmajor, between_append.mpr ⟨c₄, hread, ?_⟩⟩
  refine between_append.mpr ⟨c₅, u16_eq_ok.mp hflags, between_append.mpr ⟨c₆, u16_eq_ok.mp hthis, ?_⟩⟩
  exact between_append.mpr ⟨c₇, u16_eq_ok.mp hsuper, hinterfaces⟩

theorem ClassFile.decodeHead_of_head {p : Pool} (hp : p.WellFormed) {h : Header} {c c' : Cursor}
    (hd : (h.encode p).Between c c') : ∃ q, decodeHead c = .ok ((q, h), c') ∧ q.slots = p.slots := by
  obtain ⟨c₁, hmagic, hd⟩ := between_append.mp hd
  obtain ⟨c₂, hminor, hd⟩ := between_append.mp hd
  obtain ⟨c₃, hmajor, hd⟩ := between_append.mp hd
  obtain ⟨c₄, hpool, hd⟩ := between_append.mp hd
  obtain ⟨c₅, hflags, hd⟩ := between_append.mp hd
  obtain ⟨c₆, hthis, hd⟩ := between_append.mp hd
  obtain ⟨c₇, hsuper, hinterfaces⟩ := between_append.mp hd
  obtain ⟨q, hq, hslots⟩ := Pool.decode_of_between hp hpool
  refine ⟨q, bind_eq_ok.mpr ⟨classMagic, c₁, u32_eq_ok.mpr hmagic, ?_⟩, hslots⟩
  rw [if_neg (by simp)]
  refine bind_eq_ok.mpr ⟨_, c₂, u16_eq_ok.mpr hminor, bind_eq_ok.mpr ⟨_, c₃, u16_eq_ok.mpr hmajor, ?_⟩⟩
  refine bind_eq_ok.mpr ⟨q, c₄, hq, bind_eq_ok.mpr ⟨_, c₅, u16_eq_ok.mpr hflags, ?_⟩⟩
  refine bind_eq_ok.mpr ⟨_, c₆, u16_eq_ok.mpr hthis, bind_eq_ok.mpr ⟨_, c₇, u16_eq_ok.mpr hsuper, ?_⟩⟩
  refine return_eq_ok.mpr ⟨h.interfaces, rfl, ?_⟩
  exact ((reads_u16 _).counted .interfaces _ _ _ (Nat.le_refl _)).mpr ⟨by simp, hinterfaces⟩

/-! ## The body -/

namespace ClassFile.BodyReader

theorem skip_eq_ok {α : Type} {d : Decoder α} {a : α} {c : Cursor} {items : List ClassItem}
    {x : Cursor × List ClassItem} : skip d (c, items) = .ok a x ↔ d c = .ok (a, x.1) ∧ x.2 = items := by
  obtain ⟨c', items'⟩ := x
  cases hd : d c with
  | error e => simp [skip, hd]
  | ok r =>
    obtain ⟨a', c₁⟩ := r
    simp only [skip, hd, EStateM.Result.ok.injEq, Prod.mk.injEq, Except.ok.injEq]
    constructor
    · intro h
      exact ⟨⟨h.1, h.2.1⟩, h.2.2.symm⟩
    · intro h
      exact ⟨h.1.1, h.1.2, h.2.symm⟩

/-- Elements are handed on in the order in which they are read. -/
theorem elements_eq_ok {α : Type} {d : Decoder α} (f : α → ClassItem) {k : Nat} {c : Cursor}
    {items : List ClassItem} {x : Cursor × List ClassItem} : elements (f <$> d) k (c, items) = .ok () x ↔
      ∃ xs : List α, Decoder.times k d c = .ok (xs, x.1) ∧ x.2 = (xs.map f).reverse ++ items := by
  induction k generalizing c items with
  | zero =>
    obtain ⟨c', items'⟩ := x
    simp only [elements, EStateM.Result.ok.injEq, true_and, Prod.mk.injEq, times_zero_eq_ok]
    constructor
    · intro h
      exact ⟨[], ⟨rfl, h.1⟩, h.2.symm⟩
    · intro h
      obtain ⟨xs, ⟨rfl, hc⟩, hitems⟩ := h
      exact ⟨hc, hitems.symm⟩
  | succ k ih =>
    constructor
    · intro h
      rw [elements] at h
      cases hx : (f <$> d : Decoder ClassItem) c with
      | error err => simp [hx] at h
      | ok r =>
        obtain ⟨item, c₁⟩ := r
        simp only [hx] at h
        obtain ⟨a, rfl, ha⟩ := map_eq_ok.mp hx
        obtain ⟨xs, hxs, hitems⟩ := ih.mp h
        exact ⟨a :: xs, times_succ_eq_ok.mpr ⟨a, c₁, xs, rfl, ha, hxs⟩, by simp [hitems]⟩
    · intro h
      obtain ⟨xs, hxs, hitems⟩ := h
      obtain ⟨a, c₁, ys, rfl, ha, hys⟩ := times_succ_eq_ok.mp hxs
      rw [elements, (map_eq_ok (f := f)).mpr ⟨a, rfl, ha⟩]
      exact ih.mpr ⟨ys, hys, by simp [hitems]⟩

/-- A counted list of elements. -/
theorem counted_eq_ok {α β : Type} {d : Decoder α} (f : α → ClassItem) {rest : BodyReader β} {b : β}
    {c : Cursor} {items : List ClassItem} {x : Cursor × List ClassItem} :
    (do let k ← skip u16; elements (f <$> d) k.toNat; rest : BodyReader β) (c, items) = .ok b x ↔
      ∃ xs c₁, Decoder.counted d c = .ok (xs, c₁) ∧ rest (c₁, (xs.map f).reverse ++ items) = .ok b x := by
  constructor
  · intro h
    obtain ⟨k, ⟨c₁, items₁⟩, hskip, h⟩ := Effect.bind_eq_ok.mp h
    obtain ⟨hk, hitems₁⟩ := skip_eq_ok.mp hskip
    obtain ⟨⟨⟩, ⟨c₂, items₂⟩, helements, h⟩ := Effect.bind_eq_ok.mp h
    obtain ⟨xs, hxs, hitems₂⟩ := (elements_eq_ok f).mp helements
    simp only at hitems₁ hitems₂
    rw [hitems₂, hitems₁] at h
    exact ⟨xs, c₂, bind_eq_ok.mpr ⟨k, c₁, hk, hxs⟩, h⟩
  · intro h
    obtain ⟨xs, c₂, hcounted, h⟩ := h
    obtain ⟨k, c₁, hk, hxs⟩ := bind_eq_ok.mp hcounted
    refine Effect.bind_eq_ok.mpr ⟨k, (c₁, items), skip_eq_ok.mpr ⟨hk, rfl⟩, ?_⟩
    exact Effect.bind_eq_ok.mpr ⟨(), (c₂, (xs.map f).reverse ++ items),
      (elements_eq_ok f).mpr ⟨xs, hxs, rfl⟩, h⟩

/-- What ends a body: the attributes, with nothing behind them. -/
theorem attributes_eq_ok {d : Decoder (List Attribute)} {c : Cursor} {items : List ClassItem}
    {x : Cursor × List ClassItem} :
    (do let attributes ← skip d
        emit (attributes.map .attr)
        let left ← skip Decoder.remaining
        if left ≠ 0 then throw (.classFile (.bodyTail left)) : BodyReader Unit) (c, items) = .ok () x ↔
      ∃ attributes, d c = .ok (attributes, x.1) ∧ x.1.rest = [] ∧
        x.2 = (attributes.map ClassItem.attr).reverse ++ items := by
  constructor
  · intro h
    obtain ⟨attributes, ⟨c₁, items₁⟩, hskip, h⟩ := Effect.bind_eq_ok.mp h
    obtain ⟨hattributes, hitems⟩ := skip_eq_ok.mp hskip
    obtain ⟨⟨⟩, x₂, hemit, h⟩ := Effect.bind_eq_ok.mp h
    obtain ⟨-, rfl⟩ := EStateM.Result.ok.inj hemit
    obtain ⟨left, ⟨c₃, items₃⟩, hremaining, h⟩ := Effect.bind_eq_ok.mp h
    obtain ⟨hleft, hitems₃⟩ := skip_eq_ok.mp hremaining
    obtain ⟨rfl, rfl⟩ := Prod.mk.inj (Except.ok.inj hleft)
    split at h
    · cases h
    · next hzero =>
      obtain ⟨-, rfl⟩ := Effect.pure_eq_ok.mp h
      simp only at hitems hitems₃
      refine ⟨attributes, hattributes, List.length_eq_zero_iff.mp (Classical.not_not.mp hzero), ?_⟩
      rw [hitems₃, hitems]
  · intro h
    obtain ⟨attributes, hattributes, hnil, hitems⟩ := h
    obtain ⟨c', items'⟩ := x
    obtain rfl : items' = _ := hitems
    refine Effect.bind_eq_ok.mpr ⟨attributes, (c', items), skip_eq_ok.mpr ⟨hattributes, rfl⟩, ?_⟩
    refine Effect.bind_eq_ok.mpr ⟨(), _, rfl, Effect.bind_eq_ok.mpr ⟨0, _, skip_eq_ok.mpr ⟨?_, rfl⟩, rfl⟩⟩
    simp [Decoder.remaining, show c'.rest = [] from hnil]

end ClassFile.BodyReader

namespace ClassModel

/-- The body of a class file, as a model without a header. -/
def decodeBody (p : Pool) (skipDebug : Bool) (fuel : Nat) : Decoder ClassModel := do
  let fields ← Decoder.counted (Member.decode p skipDebug fuel)
  let methods ← Decoder.counted (Member.decode p skipDebug fuel)
  let attributes ← Attribute.decodeList p skipDebug fuel
  return ⟨p, .blank, fields.toArray, methods.toArray, attributes.toArray⟩

theorem pool_of_decodeBody {p : Pool} {skipDebug : Bool} {fuel : Nat} {m : ClassModel} {c c' : Cursor}
    (h : decodeBody p skipDebug fuel c = .ok (m, c')) : m.pool = p := by
  obtain ⟨fields, c₁, -, h⟩ := bind_eq_ok.mp h
  obtain ⟨methods, c₂, -, h⟩ := bind_eq_ok.mp h
  obtain ⟨attributes, rfl, -⟩ := return_eq_ok.mp h
  rfl

/-- **The body of a file is read as it is written.** -/
theorem reads_decodeBody (p : Pool) (n : Nat) :
    Reads n (fun m => m.pool = p ∧ m.header = .blank ∧ m.WellKinded) encodeBody (decodeBody p false n) := by
  have hfields := (Member.reads_decode p n).counted .fields
  have hmethods := (Member.reads_decode p n).counted .methods
  have hattributes := Attribute.reads_decodeList p n
  intro c m c' hc
  rw [decodeBody, bind_eq_ok]
  constructor
  · intro h
    obtain ⟨fields, c₁, hf, h⟩ := h
    obtain ⟨methods, c₂, hm, h⟩ := bind_eq_ok.mp h
    obtain ⟨attributes, rfl, ha⟩ := return_eq_ok.mp h
    obtain ⟨hfkind, hf⟩ := (hfields _ _ _ hc).mp hf
    have hc₁ := Nat.le_trans hf.length_le hc
    obtain ⟨hmkind, hm⟩ := (hmethods _ _ _ hc₁).mp hm
    obtain ⟨hakind, ha⟩ := (hattributes _ _ _ (Nat.le_trans hm.length_le hc₁)).mp ha
    exact ⟨⟨rfl, rfl, hfkind, hmkind, hakind⟩, between_append.mpr ⟨c₁, hf, between_append.mpr ⟨c₂, hm, ha⟩⟩⟩
  · intro h
    obtain ⟨⟨rfl, hheader, hkind⟩, h⟩ := h
    obtain ⟨c₁, hf, h⟩ := between_append.mp h
    obtain ⟨c₂, hm, ha⟩ := between_append.mp h
    have hc₁ := Nat.le_trans hf.length_le hc
    refine ⟨m.fields.toList, c₁, (hfields _ _ _ hc).mpr ⟨hkind.fields, hf⟩, ?_⟩
    refine bind_eq_ok.mpr ⟨m.methods.toList, c₂, (hmethods _ _ _ hc₁).mpr ⟨hkind.methods, hm⟩, ?_⟩
    refine return_eq_ok.mpr ⟨m.attributes.toList, ?_, ?_⟩
    · rw [← hheader]
    · exact (hattributes _ _ _ (Nat.le_trans hm.length_le hc₁)).mpr ⟨hkind.attributes, ha⟩

end ClassModel

namespace ClassFile.BodyReader

/-- What is handed on is the model that can be read at once. -/
theorem all_iff {p : Pool} {skipDebug : Bool} {n : Nat} {c : Cursor} {x : Cursor × List ClassItem} :
    all p skipDebug n (c, []) = .ok () x ↔ ∃ m, ClassModel.decodeBody p skipDebug n c = .ok (m, x.1) ∧
      x.1.rest = [] ∧ x.2.reverse = m.events.items := by
  rw [all, counted_eq_ok .field]
  constructor
  · intro h
    obtain ⟨fields, c₁, hfields, h⟩ := h
    obtain ⟨methods, c₂, hmethods, h⟩ := (counted_eq_ok .method).mp h
    obtain ⟨attributes, hattributes, hnil, hitems⟩ := attributes_eq_ok.mp h
    refine ⟨_, bind_eq_ok.mpr ⟨fields, c₁, hfields, bind_eq_ok.mpr ⟨methods, c₂, hmethods,
      return_eq_ok.mpr ⟨attributes, rfl, hattributes⟩⟩⟩, hnil, ?_⟩
    simp [hitems, ClassModel.events]
  · intro h
    obtain ⟨m, hm, hnil, hitems⟩ := h
    obtain ⟨fields, c₁, hfields, hm⟩ := bind_eq_ok.mp hm
    obtain ⟨methods, c₂, hmethods, hm⟩ := bind_eq_ok.mp hm
    obtain ⟨attributes, rfl, hattributes⟩ := return_eq_ok.mp hm
    refine ⟨fields, c₁, hfields, (counted_eq_ok .method).mpr ⟨methods, c₂, hmethods, ?_⟩⟩
    refine attributes_eq_ok.mpr ⟨attributes, hattributes, hnil, ?_⟩
    rw [← List.reverse_reverse x.2, hitems]
    simp [ClassModel.events]

/-! ### What was read before a failure

Reading may break off at any element. The invariant of the reader is that all elements handed on so far can be
written, and it is said of the state after a run, whether the run failed or not. -/

/-- Members that can be encoded. -/
def Sound (n : Nat) (x : Cursor × List ClassItem) : Prop :=
  x.1.rest.length ≤ n ∧ ∀ item ∈ x.2, item.Encodes

theorem sound_skip {α : Type} {n : Nat} {P : α → Prop} {e : α → Encoding} {d : Decoder α} (hd : Reads n P e d)
    (x : Cursor × List ClassItem) (hx : Sound n x) : Sound n (Effect.after (skip d) x) := by
  obtain ⟨c, items⟩ := x
  unfold Effect.after
  cases hr : d c with
  | error err => simpa only [skip, hr] using hx
  | ok r =>
    obtain ⟨a, c'⟩ := r
    obtain ⟨-, hbetween⟩ := (hd c a c' hx.1).mp hr
    simp only [skip, hr]
    exact ⟨Nat.le_trans hbetween.length_le hx.1, hx.2⟩

theorem sound_elements {n : Nat} {P : Member → Prop} {d : Decoder Member} (hd : Reads n P Member.encode d)
    {f : Member → ClassItem} (hf : ∀ m, m.encode.fault? = none → (f m).Encodes) (k : Nat)
    (x : Cursor × List ClassItem) (hx : Sound n x) : Sound n (Effect.after (elements (f <$> d) k) x) := by
  induction k generalizing x with
  | zero => exact hx
  | succ k ih =>
    obtain ⟨c, items⟩ := x
    cases hr : (f <$> d : Decoder ClassItem) c with
    | error err =>
      unfold Effect.after
      simpa only [elements, hr] using hx
    | ok r =>
      obtain ⟨item, c'⟩ := r
      obtain ⟨m, rfl, hm⟩ := Decoder.map_eq_ok.mp hr
      obtain ⟨-, hbetween⟩ := (hd c m c' hx.1).mp hm
      have hnext : Sound n (c', f m :: items) := by
        refine ⟨Nat.le_trans hbetween.length_le hx.1, fun item hitem => ?_⟩
        rcases List.mem_cons.mp hitem with rfl | hitem
        · exact hf m hbetween.fault?_eq_none
        · exact hx.2 item hitem
      have hstep : Effect.after (elements (f <$> d) (k + 1)) (c, items)
          = Effect.after (elements (f <$> d) k) (c', f m :: items) := by
        unfold Effect.after
        rw [elements, hr]
      rw [hstep]
      exact ih _ hnext

theorem sound_all (p : Pool) (n : Nat) (x : Cursor × List ClassItem) (hx : Sound n x) :
    Sound n (Effect.after (all p false n) x) := by
  have hmember := Member.reads_decode p n
  -- One step of the reader after the other; what follows a step never matters to it.
  refine Effect.keeps_bind (sound_skip (reads_u16 n)) (fun k => ?_) x hx
  refine Effect.keeps_bind (sound_elements hmember (f := .field) (fun _ h => h) k.toNat) fun _ => ?_
  refine Effect.keeps_bind (sound_skip (reads_u16 n)) fun k => ?_
  refine Effect.keeps_bind (sound_elements hmember (f := .method) (fun _ h => h) k.toNat) fun _ => ?_
  refine Effect.keeps_bind (sound_skip (Attribute.reads_decodeList p n)) fun attributes => ?_
  refine Effect.keeps_bind (fun x hx => ?_) fun _ => ?_
  · refine ⟨hx.1, fun item hitem => ?_⟩
    rcases List.mem_append.mp hitem with hitem | hitem
    · obtain ⟨a, -, rfl⟩ := List.mem_map.mp (List.mem_reverse.mp hitem)
      trivial
    · exact hx.2 item hitem
  · refine Effect.keeps_bind (fun x hx => hx) fun left x hx => ?_
    split
    · exact hx
    · exact hx

end ClassFile.BodyReader

/-! ## Files -/

theorem ReaderFlags.skipsDebug_none : ReaderFlags.none.skipsDebug = false := by decide

namespace ClassFile

theorem items_encode (f : ClassFile) : ∀ item ∈ (f.events .none).items, item.Encodes := by
  have hsound := BodyReader.sound_all f.pool f.body.rest.length (f.body, []) ⟨Nat.le_refl _, by simp⟩
  intro item hitem
  rw [events, ReaderFlags.skipsDebug_none] at hitem
  split at hitem
  · next c items hall =>
    rw [Effect.after_of_ok hall] at hsound
    exact hsound.2 item (List.mem_reverse.mp hitem)
  · next e c items hall =>
    rw [Effect.after_of_error hall] at hsound
    exact hsound.2 item (List.mem_reverse.mp hitem)

theorem exists_decodeBody {f : ClassFile} {flags : ReaderFlags} (hstop : (f.events flags).stop? = none) :
    ∃ m c, ClassModel.decodeBody f.pool flags.skipsDebug f.body.rest.length f.body = .ok (m, c) ∧ c.rest = [] := by
  unfold events at hstop
  split at hstop
  · next c items hall =>
    obtain ⟨m, hm, hnil, -⟩ := BodyReader.all_iff.mp hall
    exact ⟨m, c, hm, hnil⟩
  · cases hstop

/-- What a file tells is the model that can be read at once. -/
theorem events_of_decodeBody {f : ClassFile} {flags : ReaderFlags} {m : ClassModel} {c : Cursor}
    (hm : ClassModel.decodeBody f.pool flags.skipsDebug f.body.rest.length f.body = .ok (m, c))
    (hnil : c.rest = []) : f.events flags = { m with header := f.header }.events := by
  have hall := BodyReader.all_iff (x := (c, m.events.items.reverse)).mpr ⟨m, hm, hnil, by simp⟩
  rw [events, hall]
  simp [ClassModel.events, ClassModel.pool_of_decodeBody hm]

/-- A body that can be read to its end is the body of a model, whose events are those of the file. -/
theorem exists_model {f : ClassFile} (hstop : (f.events .none).stop? = none) :
    ∃ m : ClassModel, f.events .none = m.events ∧ m.WellKinded ∧
      ∃ c, c.rest = [] ∧ m.encodeBody.Between f.body c := by
  obtain ⟨m, c, hm, hnil⟩ := exists_decodeBody hstop
  obtain ⟨⟨-, -, hkind⟩, hbetween⟩ := (ClassModel.reads_decodeBody f.pool _ _ _ _ (Nat.le_refl _)).mp hm
  exact ⟨{ m with header := f.header }, events_of_decodeBody hm hnil,
    ⟨hkind.fields, hkind.methods, hkind.attributes⟩, c, hnil, hbetween⟩

/-- A body that is the body of a model is read to its end. -/
theorem events_eq {f : ClassFile} {m : ClassModel} (hpool : m.pool = f.pool) (hheader : m.header = f.header)
    (hkind : m.WellKinded) {c : Cursor} (hnil : c.rest = []) (hbody : m.encodeBody.Between f.body c) :
    f.events .none = m.events := by
  have hm := (ClassModel.reads_decodeBody f.pool f.body.rest.length f.body { m with header := .blank } c
    (Nat.le_refl _)).mpr ⟨⟨hpool, rfl, ⟨hkind.fields, hkind.methods, hkind.attributes⟩⟩, hbody⟩
  have hevents : f.events .none = { { m with header := .blank } with header := f.header }.events :=
    events_of_decodeBody hm hnil
  rw [hevents, ← hheader]

end ClassFile

theorem ClassModel.parse_of_events {bytes : Bytes} {f : ClassFile} (hf : ClassFile.ofBytes bytes = .ok f)
    {m : ClassModel} (hm : f.events .none = m.events) : parse bytes = .ok m := by
  unfold parse
  rw [hf]
  simp only [bind, Except.bind, read, hm, Effect.outcome, deliver_events]

namespace ClassModel

/-- A model is determined by what its events tell. -/
theorem events_injective : Function.Injective events := by
  intro m m' h
  have hm := m.deliver_events ()
  rw [h, deliver_events m' ()] at hm
  exact (EStateM.Result.ok.inj hm).1.symm

/-- The model of a class file is what its events tell. -/
theorem events_of_parse {bytes : Bytes} {m : ClassModel} (h : parse bytes = .ok m) :
    ∃ f, ClassFile.ofBytes bytes = .ok f ∧ f.events .none = m.events := by
  unfold parse at h
  cases hf : ClassFile.ofBytes bytes with
  | error e => simp [hf, bind, Except.bind] at h
  | ok f =>
    refine ⟨f, rfl, ?_⟩
    have hread : (read f [] .none : Effect Unit ClassModel) () = .ok m () := by
      refine Effect.eq_ok_of_outcome ?_
      rw [hf] at h
      rw [show (read f [] .none : Effect Unit ClassModel).outcome () = .ok m from h]
      rfl
    obtain ⟨hstop, -⟩ := deliver_nil.mp hread
    obtain ⟨m', hm', -⟩ := ClassFile.exists_model hstop
    rw [read, hm', deliver_events] at hread
    rw [hm', (EStateM.Result.ok.inj hread).1]

/-- A model that can be written is a class file again, with the same slots, the same header and its own body. -/
theorem ofBytes_of_toBytes {m : ClassModel} {name : String} {bytes : Bytes} (hpool : m.pool.WellFormed)
    (hname : m.className = .ok name) (hbytes : m.toBytes = .ok bytes) :
    ∃ f, ClassFile.ofBytes bytes = .ok f ∧ f.pool.slots = m.pool.slots ∧ f.header = m.header ∧
      f.className = .ok name ∧ ∃ c, c.rest = [] ∧ m.encodeBody.Between f.body c := by
  -- The body starts where the head ends.
  have hall : (m.header.encode m.pool ++ m.encodeBody).Between (.start bytes) ⟨[], bytes.length⟩ := by
    rw [toBytes_eq_ok.mp hbytes, between_ofBytes]
    simp [Cursor.start]
  obtain ⟨body, hhead, hbody⟩ := between_append.mp hall
  obtain ⟨q, hq, hslots⟩ := ClassFile.decodeHead_of_head hpool hhead
  have hqname : m.header.className q = .ok name := by
    rw [← hname, className, Header.className, Header.className, Pool.className_congr hslots]
  refine ⟨⟨bytes, q, m.header, body⟩, ?_, hslots, rfl, hqname, _, rfl, hbody⟩
  unfold ClassFile.ofBytes
  simp only [hq, hqname]

end ClassModel

end Relabel
