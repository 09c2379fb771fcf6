import Mathlib.Data.Set.Insert
import Relabel.Hierarchy.Supertypes
import Relabel.Proofs.Effect
import Relabel.Proofs.Text.ModifiedUtf8

/-!
# How a pool changes while a class is renamed

Renaming does two things to a pool. It interns names, which are texts and names with descriptors, and it
redirects some slots to the names it interned. `Changes D p q` says that this is all that happened on the
way from `p` to `q`: slots outside `D` are what they were, names are what they were everywhere, and what
was added are names. Everything read through names alone therefore reads the same before and after.

Interning answers from the index of the pool, so it finds the right slot only if the index is right:
`Indexed` is that invariant, and reading a pool from bytes establishes it.
-/

set_option autoImplicit false

namespace Relabel

/-- The constants that renaming adds: texts, and names with descriptors. -/
def Constant.isName : Constant → Bool
  | .utf8 _ | .nameAndType _ _ => true
  | _ => false

theorem Constant.isWide_of_isName {c : Constant} (hc : c.isName = true) : c.isWide = false := by
  cases c <;> first | rfl | cases hc

namespace Pool

/-! ## Reading a slot

A reading follows a chain of slots, and these equations name every slot on it. From here on a reading is only
spoken of through them: that it survives a change of the pool is then a matter of each slot on the chain, and no
later proof opens a reader again. -/

theorem get_eq_ok {p : Pool} {i : UInt16} {c : Constant} :
    p.get i = .ok c ↔ p.slots[i.toNat]? = some c ∧ c ≠ .unusable := by
  unfold get
  cases hs : p.slots[i.toNat]? with
  | none => simp
  | some old => cases old <;> simp <;> rintro rfl <;> simp

theorem utf8_eq_ok {p : Pool} {i : UInt16} {s : String} :
    p.utf8 i = .ok s ↔
      ∃ bytes, p.slots[i.toNat]? = some (.utf8 bytes) ∧ ModifiedUtf8.decode bytes = .ok s := by
  unfold utf8
  constructor
  · intro h
    split at h
    · exact absurd h (by simp)
    · next bytes hg => exact ⟨bytes, (get_eq_ok.mp hg).1, h⟩
    · exact absurd h (by simp)
  · rintro ⟨bytes, hs, hd⟩
    rw [get_eq_ok.mpr ⟨hs, by simp⟩]
    exact hd

theorem className_eq_ok {p : Pool} {i : UInt16} {s : String} :
    p.className i = .ok s ↔ ∃ n, p.slots[i.toNat]? = some (.classRef n) ∧ p.utf8 n = .ok s := by
  unfold className
  constructor
  · intro h
    split at h
    · exact absurd h (by simp)
    · next n hg => exact ⟨n, (get_eq_ok.mp hg).1, h⟩
    · exact absurd h (by simp)
  · rintro ⟨n, hs, hn⟩
    rw [get_eq_ok.mpr ⟨hs, by simp⟩]
    exact hn

/-- Only the slots of a pool are looked at when a text is read. -/
theorem utf8_congr {p q : Pool} (h : q.slots = p.slots) : q.utf8 = p.utf8 := by
  funext i
  simp only [utf8, get, h]

theorem className_congr {p q : Pool} (h : q.slots = p.slots) : q.className = p.className := by
  funext i
  simp only [className, get, h, utf8_congr h]

theorem nameAndType_eq_ok {p : Pool} {i : UInt16} {x : String × String} :
    p.nameAndType i = .ok x ↔
      ∃ n d, p.slots[i.toNat]? = some (.nameAndType n d) ∧ p.utf8 n = .ok x.1 ∧ p.utf8 d = .ok x.2 := by
  unfold nameAndType
  constructor
  · intro h
    split at h
    · exact absurd h (by simp)
    · next n d hg =>
      obtain ⟨name, hn, h⟩ := Effect.except_bind_eq_ok.mp h
      obtain ⟨descriptor, hd, h⟩ := Effect.except_bind_eq_ok.mp h
      obtain rfl := Except.ok.inj h
      exact ⟨n, d, (get_eq_ok.mp hg).1, hn, hd⟩
    · exact absurd h (by simp)
  · rintro ⟨n, d, hs, hn, hd⟩
    rw [get_eq_ok.mpr ⟨hs, by simp⟩]
    simp [hn, hd, bind, Except.bind, pure, Except.pure]

theorem memberRef_eq_ok {p : Pool} {i : UInt16} {m : MemberRef} :
    p.memberRef i = .ok m ↔ ∃ kind owner nt, p.slots[i.toNat]? = some (.member kind owner nt) ∧
      p.className owner = .ok m.owner ∧ p.nameAndType nt = .ok (m.name, m.descriptor) := by
  unfold memberRef
  constructor
  · intro h
    split at h
    · exact absurd h (by simp)
    · next kind owner nt hg =>
      obtain ⟨o, ho, h⟩ := Effect.except_bind_eq_ok.mp h
      obtain ⟨x, hn, h⟩ := Effect.except_bind_eq_ok.mp h
      obtain rfl := Except.ok.inj h
      exact ⟨kind, owner, nt, (get_eq_ok.mp hg).1, ho, hn⟩
    · exact absurd h (by simp)
  · rintro ⟨kind, owner, nt, hs, ho, hn⟩
    rw [get_eq_ok.mpr ⟨hs, by simp⟩]
    simp [ho, hn, bind, Except.bind, pure, Except.pure]

/-! ## Changes

`names` is more than `kept` gives. A slot in `D` may be redirected, but it neither held a name before nor holds one
afterwards, so names can be followed through `D` without asking where they are. It is an equivalence because both
ways are needed: what was read at the start is read at the end, and a text that is read at the end was not put over
something else (`utf8_of_lt`). -/

/-- From `p` to `q`, names were added and only slots in `D` were redirected. -/
structure Changes (D : Set Nat) (p q : Pool) : Prop where
  size_le : p.slots.size ≤ q.slots.size
  kept : ∀ j < p.slots.size, j ∉ D → q.slots[j]? = p.slots[j]?
  names : ∀ j < p.slots.size, ∀ c : Constant, c.isName = true →
    (q.slots[j]? = some c ↔ p.slots[j]? = some c)
  added : ∀ j c, p.slots.size ≤ j → q.slots[j]? = some c → c.isName = true

namespace Changes

variable {D E : Set Nat} {p q r : Pool}

theorem refl (D : Set Nat) (p : Pool) : Changes D p p where
  size_le := Nat.le_refl _
  kept _ _ _ := rfl
  names _ _ _ _ := Iff.rfl
  added j c hj hc := by
    rw [Array.getElem?_eq_none hj] at hc
    cases hc

theorem mono (h : Changes D p q) (hDE : D ⊆ E) : Changes E p q where
  size_le := h.size_le
  kept j hj hE := h.kept j hj fun hD => hE (hDE hD)
  names := h.names
  added := h.added

/-- Two changes one after the other. The slots in between have to be told apart: those that `p` had, and those that
were added on the way to `q`, of which the second change only knows that they are there. -/
theorem trans (h₁ : Changes D p q) (h₂ : Changes E q r) : Changes (D ∪ E) p r where
  size_le := Nat.le_trans h₁.size_le h₂.size_le
  kept j hj hDE := by
    rw [h₂.kept j (Nat.lt_of_lt_of_le hj h₁.size_le) fun hE => hDE (Or.inr hE),
      h₁.kept j hj fun hD => hDE (Or.inl hD)]
  names j hj c hc := by
    rw [h₂.names j (Nat.lt_of_lt_of_le hj h₁.size_le) c hc, h₁.names j hj c hc]
  added j c hj hc := by
    by_cases hq : j < q.slots.size
    · -- The slot was added on the way to `q`, and a name stays what it is.
      have hold : q.slots[j]? = some q.slots[j] := Array.getElem?_eq_getElem hq
      have hname := h₁.added j _ hj hold
      rw [(h₂.names j hq _ hname).mpr hold] at hc
      exact Option.some.inj hc ▸ hname
    · exact h₂.added j c (Nat.le_of_not_lt hq) hc

theorem trans_same (h₁ : Changes D p q) (h₂ : Changes D q r) : Changes D p r := by
  simpa using h₁.trans h₂

theorem slot_of_name (h : Changes D p q) {j : Nat} {c : Constant} (hc : c.isName = true)
    (hp : p.slots[j]? = some c) : q.slots[j]? = some c := by
  have hj : j < p.slots.size := (Array.getElem?_eq_some_iff.mp hp).1
  exact (h.names j hj c hc).mpr hp

theorem slot_of_notMem (h : Changes D p q) {j : Nat} {c : Constant} (hj : j ∉ D)
    (hp : p.slots[j]? = some c) : q.slots[j]? = some c := by
  have hlt : j < p.slots.size := (Array.getElem?_eq_some_iff.mp hp).1
  rw [h.kept j hlt hj, hp]

theorem utf8 (h : Changes D p q) {i : UInt16} {s : String} (hp : p.utf8 i = .ok s) :
    q.utf8 i = .ok s := by
  obtain ⟨bytes, hs, hd⟩ := utf8_eq_ok.mp hp
  exact utf8_eq_ok.mpr ⟨bytes, h.slot_of_name rfl hs, hd⟩

/-- A text that can be read at the end was there at the start, if its slot was. -/
theorem utf8_of_lt (h : Changes D p q) {i : UInt16} {s : String} (hi : i.toNat < p.slots.size)
    (hq : q.utf8 i = .ok s) : p.utf8 i = .ok s := by
  obtain ⟨bytes, hs, hd⟩ := utf8_eq_ok.mp hq
  exact utf8_eq_ok.mpr ⟨bytes, (h.names _ hi _ rfl).mp hs, hd⟩

theorem nameAndType (h : Changes D p q) {i : UInt16} {x : String × String}
    (hp : p.nameAndType i = .ok x) : q.nameAndType i = .ok x := by
  obtain ⟨n, d, hs, hn, hd⟩ := nameAndType_eq_ok.mp hp
  exact nameAndType_eq_ok.mpr ⟨n, d, h.slot_of_name rfl hs, h.utf8 hn, h.utf8 hd⟩

theorem className (h : Changes D p q) {i : UInt16} {s : String} (hi : i.toNat ∉ D)
    (hp : p.className i = .ok s) : q.className i = .ok s := by
  obtain ⟨n, hs, hn⟩ := className_eq_ok.mp hp
  exact className_eq_ok.mpr ⟨n, h.slot_of_notMem hi hs, h.utf8 hn⟩

end Changes

/-! ## The index

Nothing is asked of constants that the index does not have. A constant may stand in several slots while the index
has one of them, and redirecting a slot makes the index forget the constant that was there although another slot
still holds it. So interning may add what is there already, but it never answers with a wrong slot. -/

/-- The index is right: where it has a slot for a constant, the slot holds that constant. -/
def Indexed (p : Pool) : Prop :=
  ∀ (c : Constant) (i : UInt16), p.index[c]? = some i → p.slots[i.toNat]? = some c

theorem indexed_empty : empty.Indexed := by
  intro c i h
  simp [empty] at h

/-- Slots that are put at the end leave those before them alone. -/
theorem getElem?_appendSlots_of_lt {slots : Array Constant} {j : Nat} (c : Constant)
    (hj : j < slots.size) : (appendSlots slots c)[j]? = slots[j]? := by
  unfold appendSlots
  split
  · rw [Array.getElem?_push_lt (by simp; omega), Array.getElem_push_lt hj, Array.getElem?_eq_getElem hj]
  · rw [Array.getElem?_push_lt hj, Array.getElem?_eq_getElem hj]

/-- A constant that takes two slots stands in the first of them, so it is where the end was in either case. -/
theorem getElem?_appendSlots_size (slots : Array Constant) (c : Constant) :
    (appendSlots slots c)[slots.size]? = some c := by
  unfold appendSlots
  split
  · rw [Array.getElem?_push_lt (by simp)]
    simp
  · simp

theorem Indexed.append {p : Pool} (hp : p.Indexed) (c : Constant) (hsize : p.slots.size < 65536) :
    (p.append c).Indexed := by
  intro d i h
  have hback (h : p.index[d]? = some i) : (appendSlots p.slots c)[i.toNat]? = some d := by
    have hold := hp d i h
    rw [getElem?_appendSlots_of_lt c (Array.getElem?_eq_some_iff.mp hold).1]
    exact hold
  -- The first slot of a constant stays its slot: only a constant that the index does not have gets the new one.
  simp only [Pool.append, Std.ExtTreeMap.getElem?_insertIfNew] at h ⊢
  split at h
  · next hd =>
    have hdc : c = d := by simpa using hd.1
    obtain rfl := Option.some.inj h
    rw [show (UInt16.ofNat p.slots.size).toNat = p.slots.size from UInt16.toNat_ofNat_of_lt hsize, ← hdc]
    exact getElem?_appendSlots_size p.slots c
  · exact hback h

/-- The invariant of the reader, by induction on its steps. While slots are wanted there are fewer than `count` of
them, so the next one has a number of sixteen bits. -/
theorem indexed_decodeSlots {count : Nat} (hcount : count < 65536) (fuel : Nat) :
    ∀ (p q : Pool) (c c' : Cursor), p.Indexed → decodeSlots count fuel p c = .ok (q, c') →
      q.Indexed := by
  induction fuel with
  | zero =>
    intro p q c c' hp h
    simp only [decodeSlots, Except.ok.injEq, Prod.mk.injEq] at h
    exact h.1 ▸ hp
  | succ fuel ih =>
    intro p q c c' hp h
    rw [decodeSlots] at h
    by_cases hs : p.slots.size < count
    · rw [if_pos hs] at h
      cases hx : Constant.decode c with
      | error e => simp [hx] at h
      | ok r =>
        obtain ⟨constant, c₁⟩ := r
        simp only [hx] at h
        exact ih _ q c₁ c' (hp.append constant (by omega)) h
    · rw [if_neg hs] at h
      simp only [Except.ok.injEq, Prod.mk.injEq] at h
      exact h.1 ▸ hp

/-- A pool that was read has a right index and fits into sixteen bits. -/
theorem indexed_decode {p : Pool} {c c' : Cursor} (h : decode c = .ok (p, c')) :
    p.Indexed ∧ p.slots.size < 65536 := by
  obtain ⟨count, c₁, -, h⟩ := Decoder.bind_eq_ok.mp h
  split at h
  · exact absurd h (by simp [Decoder.fail, bind, StateT.bind, Except.bind])
  obtain ⟨q, c₂, hq, h⟩ := Decoder.bind_eq_ok.mp h
  split at h
  · exact absurd h (by simp [Decoder.fail, bind, StateT.bind, Except.bind])
  · next hsize =>
    -- A pool with more slots than it announces, as after a wide constant at the very end, was refused.
    obtain ⟨rfl, -⟩ := Decoder.pure_eq_ok.mp h
    have hcount : count.toNat < 65536 := count.toNat_lt
    exact ⟨indexed_decodeSlots hcount _ _ _ _ _ indexed_empty hq, by omega⟩

/-! ## Interning and redirecting

A run of the renamer may break off anywhere, and what it interned until then stays. Therefore the lemmas about a
pool that changes speak of `Effect.after`, the pool that is left, and only the lemmas about the slot that comes out
ask for success. -/

/-- A name at the end of the slots changes nothing else. -/
theorem changes_push (p : Pool) {c : Constant} (hc : c.isName = true)
    (index : Std.ExtTreeMap Constant UInt16) : Changes ∅ p ⟨p.slots.push c, index⟩ where
  size_le := by simp
  kept j hj _ := by rw [Array.getElem?_push_lt hj, Array.getElem?_eq_getElem hj]
  names j hj d _ := by rw [Array.getElem?_push_lt hj, Array.getElem?_eq_getElem hj]
  added j d hj hd := by
    rw [Array.getElem?_push] at hd
    split at hd
    · exact Option.some.inj hd ▸ hc
    · rw [Array.getElem?_eq_none hj] at hd
      cases hd

/-- Interning a name either finds it, or has no room for it, or puts it at the end. -/
theorem intern_cases (p : Pool) {c : Constant} (hc : c.isName = true) :
    (∃ i, p.index[c]? = some i ∧ intern c p = .ok i p) ∨
    (∃ e, intern c p = .error e p) ∨
    (p.slots.size < 65535 ∧ intern c p = .ok (UInt16.ofNat p.slots.size)
      ⟨p.slots.push c, p.index.insert c (UInt16.ofNat p.slots.size)⟩) := by
  unfold intern
  cases hi : p.index[c]? with
  | some i => exact Or.inl ⟨i, rfl, rfl⟩
  | none =>
    right
    unfold push
    -- A name takes one slot, so what is checked is that the number of the new slot is below the limit.
    by_cases hsize : p.slots.size + c.width > 65535
    · exact Or.inl ⟨.unsupported .poolOverflow, by simp only [if_pos hsize]⟩
    · have hwide := Constant.isWide_of_isName hc
      have hwidth : c.width = 1 := by simp [Constant.width, hwide]
      refine Or.inr ⟨by omega, ?_⟩
      simp only [if_neg hsize, appendSlots, hwide]
      rfl

/-- Whether or not there was room for it, interning a name only adds names. -/
theorem changes_intern (p : Pool) {c : Constant} (hc : c.isName = true) :
    Changes ∅ p ((intern c).after p) := by
  obtain ⟨i, -, h⟩ | ⟨e, h⟩ | ⟨-, h⟩ := intern_cases p hc
  · rw [Effect.after_of_ok h]
    exact Changes.refl ∅ p
  · rw [Effect.after_of_error h]
    exact Changes.refl ∅ p
  · rw [Effect.after_of_ok h]
    exact changes_push p hc _

theorem Indexed.push {p : Pool} (hp : p.Indexed) (c : Constant) (hsize : p.slots.size < 65536) :
    Indexed ⟨p.slots.push c, p.index.insert c (UInt16.ofNat p.slots.size)⟩ := by
  intro d i h
  simp only [Std.ExtTreeMap.getElem?_insert] at h ⊢
  split at h
  · next hd =>
    have hcd : c = d := by simpa using hd
    obtain rfl := Option.some.inj h
    rw [show (UInt16.ofNat p.slots.size).toNat = p.slots.size from UInt16.toNat_ofNat_of_lt hsize, ← hcd]
    simp
  · have hold := hp d i h
    have hlt := (Array.getElem?_eq_some_iff.mp hold).1
    rw [Array.getElem?_push_lt hlt, ← hold, Array.getElem?_eq_getElem hlt]

theorem Indexed.intern {p : Pool} (hp : p.Indexed) {c : Constant} (hc : c.isName = true) :
    ((intern c).after p).Indexed := by
  obtain ⟨i, -, h⟩ | ⟨e, h⟩ | ⟨hsize, h⟩ := intern_cases p hc
  · rw [Effect.after_of_ok h]
    exact hp
  · rw [Effect.after_of_error h]
    exact hp
  · rw [Effect.after_of_ok h]
    exact hp.push c (by omega)

theorem Indexed.slot_of_intern {p q : Pool} (hp : p.Indexed) {c : Constant} (hc : c.isName = true)
    {i : UInt16} (h : Pool.intern c p = .ok i q) : q.slots[i.toNat]? = some c := by
  obtain ⟨j, hj, h'⟩ | ⟨e, h'⟩ | ⟨hsize, h'⟩ := intern_cases p hc
  · rw [h] at h'
    obtain ⟨rfl, rfl⟩ := EStateM.Result.ok.inj h'
    exact hp c i hj
  · rw [h] at h'
    cases h'
  · rw [h] at h'
    obtain ⟨rfl, rfl⟩ := EStateM.Result.ok.inj h'
    have hlt : p.slots.size < UInt16.size := by
      simp only [UInt16.size]
      omega
    rw [show (UInt16.ofNat p.slots.size).toNat = p.slots.size from UInt16.toNat_ofNat_of_lt hlt]
    simp

theorem changes_internUtf8 (p : Pool) (s : String) : Changes ∅ p ((internUtf8 s).after p) :=
  changes_intern p rfl

theorem Indexed.internUtf8 {p : Pool} (hp : p.Indexed) (s : String) :
    ((internUtf8 s).after p).Indexed :=
  hp.intern rfl

theorem Indexed.utf8_of_internUtf8 {p q : Pool} (hp : p.Indexed) {s : String} {i : UInt16}
    (h : Pool.internUtf8 s p = .ok i q) : q.utf8 i = .ok s :=
  utf8_eq_ok.mpr ⟨_, hp.slot_of_intern rfl h, ModifiedUtf8.decode_encode s⟩

/-- A name with its descriptor is three internings, of which each may be the one that fails. What the ones before it
added are names, so it does not matter which one it was. -/
theorem changes_internNameAndType (p : Pool) (n d : String) :
    Changes ∅ p ((internNameAndType n d).after p) := by
  unfold internNameAndType
  have h₁ := changes_internUtf8 p n
  cases hn : internUtf8 n p with
  | error e p₁ =>
    rw [Effect.after_bind_of_error hn]
    rwa [Effect.after_of_error hn] at h₁
  | ok i p₁ =>
    rw [Effect.after_bind_of_ok hn]
    rw [Effect.after_of_ok hn] at h₁
    have h₂ := changes_internUtf8 p₁ d
    cases hd : internUtf8 d p₁ with
    | error e p₂ =>
      rw [Effect.after_bind_of_error hd]
      rw [Effect.after_of_error hd] at h₂
      exact h₁.trans_same h₂
    | ok j p₂ =>
      rw [Effect.after_bind_of_ok hd]
      rw [Effect.after_of_ok hd] at h₂
      exact (h₁.trans_same h₂).trans_same (changes_intern p₂ rfl)

theorem Indexed.internNameAndType {p : Pool} (hp : p.Indexed) (n d : String) :
    ((internNameAndType n d).after p).Indexed := by
  unfold Pool.internNameAndType
  have h₁ := hp.internUtf8 n
  cases hn : Pool.internUtf8 n p with
  | error e p₁ =>
    rw [Effect.after_bind_of_error hn]
    rwa [Effect.after_of_error hn] at h₁
  | ok i p₁ =>
    rw [Effect.after_bind_of_ok hn]
    rw [Effect.after_of_ok hn] at h₁
    have h₂ := h₁.internUtf8 d
    cases hd : Pool.internUtf8 d p₁ with
    | error e p₂ =>
      rw [Effect.after_bind_of_error hd]
      rwa [Effect.after_of_error hd] at h₂
    | ok j p₂ =>
      rw [Effect.after_bind_of_ok hd]
      rw [Effect.after_of_ok hd] at h₂
      exact h₂.intern rfl

theorem Indexed.nameAndType_of_intern {p q : Pool} (hp : p.Indexed) {n d : String} {i : UInt16}
    (h : Pool.internNameAndType n d p = .ok i q) : q.nameAndType i = .ok (n, d) := by
  obtain ⟨ni, p₁, hn, h⟩ := Effect.bind_eq_ok.mp h
  obtain ⟨di, p₂, hd, h⟩ := Effect.bind_eq_ok.mp h
  have hp₁ : p₁.Indexed := Effect.after_of_ok hn ▸ hp.internUtf8 n
  have hp₂ : p₂.Indexed := Effect.after_of_ok hd ▸ hp₁.internUtf8 d
  have hc₂ : Changes ∅ p₁ p₂ := Effect.after_of_ok hd ▸ changes_internUtf8 p₁ d
  have hc₃ : Changes ∅ p₂ q := Effect.after_of_ok h ▸ changes_intern p₂ rfl
  -- Both texts were interned in earlier pools, and what came later added names only.
  refine nameAndType_eq_ok.mpr ⟨ni, di, hp₂.slot_of_intern rfl h, ?_, ?_⟩
  · exact hc₃.utf8 (hc₂.utf8 (hp.utf8_of_internUtf8 hn))
  · exact hc₃.utf8 (hp₁.utf8_of_internUtf8 hd)

/-- Redirecting a slot that holds no name, by a constant that is no name. -/
theorem changes_set {p q : Pool} {i : UInt16} {old c : Constant} (hold : p.slots[i.toNat]? = some old)
    (holdName : old.isName = false) (hc : c.isName = false) (h : set i c p = .ok () q) :
    Changes {i.toNat} p q ∧ q.slots[i.toNat]? = some c := by
  have hlt : i.toNat < p.slots.size := (Array.getElem?_eq_some_iff.mp hold).1
  have hslots : q.slots = p.slots.setIfInBounds i.toNat c := by
    unfold set at h
    split at h
    · cases h
    · split at h
      · cases h
      · obtain ⟨-, rfl⟩ := EStateM.Result.ok.inj h
        rfl
  refine ⟨⟨?_, ?_, ?_, ?_⟩, ?_⟩
  · rw [hslots, Array.size_setIfInBounds]
  · intro j hj hji
    rw [hslots, Array.getElem?_setIfInBounds_ne (fun h => hji h.symm)]
  · intro j hj d hd
    rw [hslots]
    -- In the slot itself no name was and none is, and both sides of the equivalence are false.
    by_cases hji : i.toNat = j
    · subst hji
      rw [Array.getElem?_setIfInBounds_self_of_lt hlt, hold]
      constructor
      · intro h
        obtain rfl := Option.some.inj h
        rw [hc] at hd
        cases hd
      · intro h
        obtain rfl := Option.some.inj h
        rw [holdName] at hd
        cases hd
    · rw [Array.getElem?_setIfInBounds_ne hji]
  · intro j d hj hd
    rw [hslots, Array.getElem?_eq_none (by rw [Array.size_setIfInBounds]; exact hj)] at hd
    cases hd
  · rw [hslots, Array.getElem?_setIfInBounds_self_of_lt hlt]

theorem eq_of_set_error {p q : Pool} {i : UInt16} {c : Constant} {e : Error} (h : set i c p = .error e q) :
    q = p := by
  unfold set at h
  split at h
  · exact (EStateM.Result.error.inj h).2.symm
  · split at h
    · exact (EStateM.Result.error.inj h).2.symm
    · cases h

/-- Redirecting keeps the index right: what the index said about the old constant of this very slot is
forgotten, and nothing else it says is about this slot. -/
theorem Indexed.set {p : Pool} (hp : p.Indexed) (i : UInt16) (c : Constant) :
    ((set i c).after p).Indexed := by
  unfold Effect.after Pool.set
  cases hg : p.get i with
  | error e => exact hp
  | ok old =>
    by_cases hw : (old.isWide != c.isWide) = true
    · simp only [if_pos hw]
      exact hp
    have hold := (get_eq_ok.mp hg).1
    have hlt : i.toNat < p.slots.size := (Array.getElem?_eq_some_iff.mp hold).1
    -- An entry that survives is about another slot.
    have hother (d : Constant) (j : UInt16) (hd : p.index[d]? = some j)
        (hne : d = old → j ≠ i) : (p.slots.setIfInBounds i.toNat c)[j.toNat]? = some d := by
      have hslot := hp d j hd
      have hji : i.toNat ≠ j.toNat := by
        intro h
        have hij := UInt16.toNat.inj h
        subst hij
        rw [hold] at hslot
        exact hne (Option.some.inj hslot).symm rfl
      rw [Array.getElem?_setIfInBounds_ne hji]
      exact hslot
    -- Forgetting the old constant leaves such entries only. It is forgotten if the index had it in this slot, and
    -- if the index had it elsewhere, then that entry is about another slot already.
    have hindex (d : Constant) (j : UInt16)
        (h : (if p.index[old]? = some i then p.index.erase old else p.index)[d]? = some j) :
        (p.slots.setIfInBounds i.toNat c)[j.toNat]? = some d := by
      split at h
      · rw [Std.ExtTreeMap.getElem?_erase] at h
        split at h
        · cases h
        · next hne => exact hother d j h fun hd => absurd (by simp [hd]) hne
      · next hi =>
        refine hother d j h ?_
        rintro rfl rfl
        exact hi h
    simp only [if_neg hw]
    generalize (if p.index[old]? = some i then p.index.erase old else p.index) = index at hindex
    -- The new constant is entered last, and only if the index has no slot for it.
    intro d j h
    rw [Std.ExtTreeMap.getElem?_insertIfNew] at h
    split at h
    · next hd =>
      have hcd : c = d := by simpa using hd.1
      obtain rfl := Option.some.inj h
      rw [Array.getElem?_setIfInBounds_self_of_lt hlt, hcd]
    · exact hindex d j h

end Pool

end Relabel
