import Relabel.Proofs.Constant.Reachable

/-!
# Interning answers truly

The index beside the slots is derived, and three operations maintain it in three ways: reading keeps the
first of equal constants, appending prefers the newest, and setting a slot forgets what was said of it. None
of this can be told apart from outside, because of the one thing they agree on: whatever the index says of a
constant, the slot it names holds that constant. Together with the layout of the slots this is all there is
to know of a pool that calls have led to, and every answer to interning follows from it.

A call that fails halfway has still interned what came before, so each operation is judged by the pool it
leaves, whether or not it succeeded.
-/

set_option autoImplicit false

namespace Relabel

namespace Constant

/-! ## The layout, slot by slot -/

theorem LaidOut.unusable_after_wide {slots : List Constant} (h : LaidOut slots) {i : Nat} {k : Constant}
    (hi : slots[i]? = some k) (hk : k.isWide = true) : slots[i + 1]? = some .unusable := by
  induction h generalizing i with
  | nil => simp at hi
  | narrow hne hw hrest ih =>
    cases i with
    | zero =>
      obtain rfl := Option.some.inj hi
      rw [hw] at hk
      cases hk
    | succ i => exact ih hi
  | wide hw hrest ih =>
    match i with
    | 0 => rfl
    | 1 =>
      obtain rfl := Option.some.inj hi
      cases hk
    | i + 2 => exact ih hi

theorem LaidOut.wide_before_unusable {slots : List Constant} (h : LaidOut slots) {i : Nat}
    (hi : slots[i]? = some .unusable) : ∃ j k, i = j + 1 ∧ slots[j]? = some k ∧ k.isWide = true := by
  induction h generalizing i with
  | nil => simp at hi
  | narrow hne hw hrest ih =>
    cases i with
    | zero => exact absurd (Option.some.inj hi) hne
    | succ i =>
      obtain ⟨j, k, rfl, hj, hk⟩ := ih hi
      exact ⟨j + 1, k, rfl, hj, hk⟩
  | @wide first _ hw hrest ih =>
    match i with
    | 0 => exact absurd (Option.some.inj hi) (ne_unusable_of_isWide hw)
    | 1 => exact ⟨0, first, rfl, rfl, hw⟩
    | i + 2 =>
      obtain ⟨j, k, rfl, hj, hk⟩ := ih hi
      exact ⟨j + 2, k, rfl, hj, hk⟩

end Constant

namespace Pool

/-! ## What appending can do -/

/-- A constant is either put at the end, for which there must be room, or nothing changes. -/
theorem push_cases (k : Constant) (p : Pool) :
    (∃ e, push k p = .error e p) ∨
    (p.slots.size + k.width ≤ 65535 ∧ push k p = .ok (UInt16.ofNat p.slots.size)
      ⟨appendSlots p.slots k, p.index.insert k (UInt16.ofNat p.slots.size)⟩) := by
  unfold push
  by_cases hsize : p.slots.size + k.width > 65535
  · exact Or.inl ⟨.unsupported .poolOverflow, by simp only [if_pos hsize]⟩
  · exact Or.inr ⟨by omega, by simp only [if_neg hsize]⟩

/-- Interning either finds a constant or appends it. -/
theorem intern_eq (k : Constant) (p : Pool) :
    (∃ i, p.index[k]? = some i ∧ intern k p = .ok i p) ∨ intern k p = push k p := by
  unfold intern
  cases hi : p.index[k]? with
  | some i => exact Or.inl ⟨i, rfl, rfl⟩
  | none => exact Or.inr rfl

theorem toNat_nextIndex {p : Pool} {k : Constant} (hsize : p.slots.size + k.width ≤ 65535) :
    (UInt16.ofNat p.slots.size).toNat = p.slots.size :=
  UInt16.toNat_ofNat_of_lt' (by simp only [UInt16.size]; omega)

/-! ## Slots are only added -/

/-- The slots of `p` are the first slots of `q`. -/
structure Appends (p q : Pool) : Prop where
  size_le : p.slots.size ≤ q.slots.size
  kept : ∀ j < p.slots.size, q.slots[j]? = p.slots[j]?

namespace Appends

variable {p q r : Pool}

theorem refl (p : Pool) : Appends p p := ⟨Nat.le_refl _, fun _ _ => rfl⟩

theorem trans (h₁ : Appends p q) (h₂ : Appends q r) : Appends p r where
  size_le := Nat.le_trans h₁.size_le h₂.size_le
  kept j hj := (h₂.kept j (Nat.lt_of_lt_of_le hj h₁.size_le)).trans (h₁.kept j hj)

theorem slot (h : Appends p q) {j : Nat} {k : Constant} (hj : p.slots[j]? = some k) :
    q.slots[j]? = some k := by
  rw [h.kept j (Array.getElem?_eq_some_iff.mp hj).1, hj]

theorem utf8 (h : Appends p q) {i : UInt16} {s : String} (hi : p.utf8 i = .ok s) : q.utf8 i = .ok s := by
  obtain ⟨bytes, hs, hd⟩ := utf8_eq_ok.mp hi
  exact utf8_eq_ok.mpr ⟨bytes, h.slot hs, hd⟩

theorem className (h : Appends p q) {i : UInt16} {s : String} (hi : p.className i = .ok s) :
    q.className i = .ok s := by
  obtain ⟨n, hs, hn⟩ := className_eq_ok.mp hi
  exact className_eq_ok.mpr ⟨n, h.slot hs, h.utf8 hn⟩

theorem nameAndType (h : Appends p q) {i : UInt16} {x : String × String} (hi : p.nameAndType i = .ok x) :
    q.nameAndType i = .ok x := by
  obtain ⟨n, d, hs, hn, hd⟩ := nameAndType_eq_ok.mp hi
  exact nameAndType_eq_ok.mpr ⟨n, d, h.slot hs, h.utf8 hn, h.utf8 hd⟩

end Appends

/-- An effect on a pool that leaves the slots alone and the index right. -/
structure Extending {α : Type} (e : Effect Pool α) : Prop where
  appends : ∀ p, Appends p (e.after p)
  indexed : ∀ p, p.Indexed → (e.after p).Indexed

namespace Extending

theorem bind {α β : Type} {x : Effect Pool α} {f : α → Effect Pool β} (hx : Extending x)
    (hf : ∀ a, Extending (f a)) : Extending (x >>= f) where
  appends p := Effect.keeps_bind (I := Appends p) (fun q hq => hq.trans (hx.appends q))
    (fun a q hq => hq.trans ((hf a).appends q)) p (Appends.refl p)
  indexed := Effect.keeps_bind hx.indexed fun a => (hf a).indexed

theorem appends_ok {α : Type} {e : Effect Pool α} (he : Extending e) {p q : Pool} {a : α}
    (h : e p = .ok a q) : Appends p q := by
  have happends := he.appends p
  rwa [Effect.after_of_ok h] at happends

theorem indexed_ok {α : Type} {e : Effect Pool α} (he : Extending e) {p q : Pool} {a : α}
    (h : e p = .ok a q) (hp : p.Indexed) : q.Indexed := by
  have hindexed := he.indexed p hp
  rwa [Effect.after_of_ok h] at hindexed

end Extending

theorem extending_push (k : Constant) : Extending (push k) where
  appends p := by
    obtain ⟨e, h⟩ | ⟨-, h⟩ := push_cases k p
    · rw [Effect.after_of_error h]
      exact Appends.refl p
    · rw [Effect.after_of_ok h]
      refine ⟨?_, fun j hj => getElem?_appendSlots_of_lt k hj⟩
      show p.slots.size ≤ (appendSlots p.slots k).size
      rw [← Array.length_toList, ← Array.length_toList, toList_appendSlots, List.length_append]
      exact Nat.le_add_right _ _
  indexed p hp := by
    obtain ⟨e, h⟩ | ⟨hsize, h⟩ := push_cases k p
    · rw [Effect.after_of_error h]
      exact hp
    · rw [Effect.after_of_ok h]
      intro c i hi
      rw [Std.ExtTreeMap.getElem?_insert] at hi
      split at hi
      · next hkc =>
        have hkc : k = c := by simpa using hkc
        obtain rfl := Option.some.inj hi
        rw [toNat_nextIndex hsize, ← hkc]
        exact getElem?_appendSlots_size p.slots k
      · have hold := hp c i hi
        rw [getElem?_appendSlots_of_lt k (Array.getElem?_eq_some_iff.mp hold).1]
        exact hold

theorem extending_intern (k : Constant) : Extending (intern k) where
  appends p := by
    obtain ⟨i, -, h⟩ | h := intern_eq k p
    · rw [Effect.after_of_ok h]
      exact Appends.refl p
    · have hpush := (extending_push k).appends p
      simpa only [Effect.after, h] using hpush
  indexed p hp := by
    obtain ⟨i, -, h⟩ | h := intern_eq k p
    · rw [Effect.after_of_ok h]
      exact hp
    · have hpush := (extending_push k).indexed p hp
      simpa only [Effect.after, h] using hpush

theorem extending_internUtf8 (s : String) : Extending (internUtf8 s) :=
  extending_intern _

theorem extending_internClass (name : String) : Extending (internClass name) :=
  (extending_internUtf8 name).bind fun _ => extending_intern _

theorem extending_internNameAndType (name descriptor : String) :
    Extending (internNameAndType name descriptor) :=
  (extending_internUtf8 name).bind fun _ => (extending_internUtf8 descriptor).bind fun _ =>
    extending_intern _

theorem extending_internMember (kind : MemberKind) (owner name descriptor : String) :
    Extending (internMember kind owner name descriptor) :=
  (extending_internClass owner).bind fun _ => (extending_internNameAndType name descriptor).bind fun _ =>
    extending_intern _

/-! ## Answers -/

theorem slot_of_push {p q : Pool} {k : Constant} {i : UInt16} (h : push k p = .ok i q) :
    q.slots[i.toNat]? = some k := by
  obtain ⟨e, h'⟩ | ⟨hsize, h'⟩ := push_cases k p
  · rw [h] at h'
    cases h'
  · rw [h] at h'
    obtain ⟨rfl, rfl⟩ := EStateM.Result.ok.inj h'
    rw [toNat_nextIndex hsize]
    exact getElem?_appendSlots_size p.slots k

/-- Interning gives the slot of the constant, found or new. -/
theorem Indexed.slot_of_internAny {p q : Pool} (hp : p.Indexed) {k : Constant} {i : UInt16}
    (h : Pool.intern k p = .ok i q) : q.slots[i.toNat]? = some k := by
  obtain ⟨j, hj, h'⟩ | h' := intern_eq k p
  · rw [h] at h'
    obtain ⟨rfl, rfl⟩ := EStateM.Result.ok.inj h'
    exact hp k i hj
  · exact slot_of_push (h'.symm.trans h)

theorem Indexed.className_of_internClass {p q : Pool} (hp : p.Indexed) {name : String} {i : UInt16}
    (h : Pool.internClass name p = .ok i q) : q.className i = .ok name := by
  obtain ⟨n, p₁, hn, h⟩ := Effect.bind_eq_ok.mp h
  have hp₁ := (extending_internUtf8 name).indexed_ok hn hp
  refine className_eq_ok.mpr ⟨n, hp₁.slot_of_internAny h, ?_⟩
  exact ((extending_intern _).appends_ok h).utf8 (hp.utf8_of_internUtf8 hn)

theorem Indexed.memberRef_of_internMember {p q : Pool} (hp : p.Indexed) {kind : MemberKind}
    {owner name descriptor : String} {i : UInt16}
    (h : Pool.internMember kind owner name descriptor p = .ok i q) :
    q.memberRef i = .ok ⟨owner, name, descriptor⟩ := by
  obtain ⟨c, p₁, hc, h⟩ := Effect.bind_eq_ok.mp h
  obtain ⟨nt, p₂, hnt, h⟩ := Effect.bind_eq_ok.mp h
  have hp₁ := (extending_internClass owner).indexed_ok hc hp
  have hp₂ := (extending_internNameAndType name descriptor).indexed_ok hnt hp₁
  have happends₂ := (extending_internNameAndType name descriptor).appends_ok hnt
  have happends := (extending_intern _).appends_ok h
  refine memberRef_eq_ok.mpr ⟨kind, c, nt, hp₂.slot_of_internAny h, ?_, ?_⟩
  · exact (happends₂.trans happends).className (hp.className_of_internClass hc)
  · exact happends.nameAndType (hp₁.nameAndType_of_intern hnt)

/-! ## Reachable pools -/

theorem Indexed.run {p : Pool} (hp : p.Indexed) (call : PoolCall) : (call.run p).Indexed := by
  cases call with
  | push k => exact (extending_push k).indexed p hp
  | intern k => exact (extending_intern k).indexed p hp
  | internUtf8 s => exact (extending_internUtf8 s).indexed p hp
  | internClass name => exact (extending_internClass name).indexed p hp
  | internNameAndType name descriptor => exact (extending_internNameAndType name descriptor).indexed p hp
  | internMember kind owner name descriptor =>
    exact (extending_internMember kind owner name descriptor).indexed p hp
  | set i k => exact hp.set i k

theorem Reachable.indexed {p : Pool} (h : p.Reachable) : p.Indexed := by
  induction h with
  | empty => exact indexed_empty
  | read hread => exact (indexed_decode hread).1
  | call call _ _ ih => exact ih.run call

theorem Reachable.runs {calls : List PoolCall} (hcalls : ∀ call ∈ calls, call.Usable) :
    ∀ {p : Pool}, p.Reachable → (calls.foldl PoolCall.run p).Reachable := by
  induction calls with
  | nil => exact fun hp => hp
  | cons call calls ih =>
    intro p hp
    exact ih (fun c hc => hcalls c (List.mem_cons_of_mem call hc))
      (hp.call call (hcalls call List.mem_cons_self))

/-- A slot that is set is the only one that changes, and there are as many slots as before. -/
theorem getElem?_set_of_ne {p : Pool} {i : UInt16} {k : Constant} {j : Nat} (hj : i.toNat ≠ j) :
    ((set i k).after p).slots[j]? = p.slots[j]? := by
  unfold Effect.after set
  cases p.get i with
  | error e => rfl
  | ok old =>
    by_cases hwide : (old.isWide != k.isWide) = true
    · simp only [if_pos hwide]
    · simp only [if_neg hwide]
      exact Array.getElem?_setIfInBounds_ne hj

theorem getElem?_run {p : Pool} {call : PoolCall} {j : Nat} (hj : j < p.slots.size)
    (hset : ∀ i k, call = .set i k → i.toNat ≠ j) : (call.run p).slots[j]? = p.slots[j]? := by
  cases call with
  | push k => exact ((extending_push k).appends p).kept j hj
  | intern k => exact ((extending_intern k).appends p).kept j hj
  | internUtf8 s => exact ((extending_internUtf8 s).appends p).kept j hj
  | internClass name => exact ((extending_internClass name).appends p).kept j hj
  | internNameAndType name descriptor =>
    exact ((extending_internNameAndType name descriptor).appends p).kept j hj
  | internMember kind owner name descriptor =>
    exact ((extending_internMember kind owner name descriptor).appends p).kept j hj
  | set i k => exact getElem?_set_of_ne (hset i k rfl)

/-- How a pool represents its constants. -/
structure Lawful (p : Pool) : Prop where
  size_le : p.slots.size ≤ 65535
  /-- The slots can be counted in sixteen bits. -/
  count : p.count.toNat = p.slots.size
  first : p.slots[0]? = some .unusable
  wide : ∀ (j : Nat) (k : Constant), p.slots[j]? = some k → k.isWide = true →
    p.slots[j + 1]? = some .unusable
  /-- No other slot is unusable. -/
  unusable : ∀ j : Nat, p.slots[j]? = some .unusable →
    j = 0 ∨ ∃ i k, j = i + 1 ∧ p.slots[i]? = some k ∧ k.isWide = true
  index : ∀ (k : Constant) (i : UInt16), p.index[k]? = some i → p.slots[i.toNat]? = some k

/-- What is interned in a pool can be read back under the index that interning gives, and no call touches a
slot that is there, except for one that sets it. -/
structure Answers (p : Pool) : Prop where
  push : ∀ (k : Constant) (i : UInt16) (q : Pool), k ≠ .unusable → Pool.push k p = .ok i q →
    q.get i = .ok k
  intern : ∀ (k : Constant) (i : UInt16) (q : Pool), k ≠ .unusable → Pool.intern k p = .ok i q →
    q.get i = .ok k
  utf8 : ∀ (s : String) (i : UInt16) (q : Pool), Pool.internUtf8 s p = .ok i q → q.utf8 i = .ok s
  className : ∀ (name : String) (i : UInt16) (q : Pool), Pool.internClass name p = .ok i q →
    q.className i = .ok name
  nameAndType : ∀ (name descriptor : String) (i : UInt16) (q : Pool),
    Pool.internNameAndType name descriptor p = .ok i q → q.nameAndType i = .ok (name, descriptor)
  memberRef : ∀ (kind : MemberKind) (owner name descriptor : String) (i : UInt16) (q : Pool),
    Pool.internMember kind owner name descriptor p = .ok i q → q.memberRef i = .ok ⟨owner, name, descriptor⟩
  kept : ∀ (call : PoolCall) (j : Nat), j < p.slots.size → (∀ i k, call = .set i k → i.toNat ≠ j) →
    (call.run p).slots[j]? = p.slots[j]?

theorem WellFormed.lawful {p : Pool} (hp : p.WellFormed) (hindexed : p.Indexed) : p.Lawful := by
  obtain ⟨⟨slots, hslots, hlaid⟩, hsize⟩ := hp
  have hslot (j : Nat) : p.slots[j]? = (Constant.unusable :: slots)[j]? := by
    rw [← Array.getElem?_toList, hslots]
  refine ⟨hsize, ?_, by rw [hslot]; rfl, fun j k hj hk => ?_, fun j hj => ?_, hindexed⟩
  · exact UInt16.toNat_ofNat_of_lt' (by simp only [UInt16.size]; omega)
  · rw [hslot] at hj ⊢
    cases j with
    | zero =>
      obtain rfl := Option.some.inj hj
      cases hk
    | succ j => exact hlaid.unusable_after_wide hj hk
  · cases j with
    | zero => exact Or.inl rfl
    | succ j =>
      rw [hslot, List.getElem?_cons_succ] at hj
      obtain ⟨i, k, rfl, hi, hk⟩ := hlaid.wide_before_unusable hj
      exact Or.inr ⟨i + 1, k, rfl, by rw [hslot]; exact hi, hk⟩

theorem Indexed.answers {p : Pool} (hp : p.Indexed) : p.Answers where
  push _ _ _ hk h := get_eq_ok.mpr ⟨slot_of_push h, hk⟩
  intern _ _ _ hk h := get_eq_ok.mpr ⟨hp.slot_of_internAny h, hk⟩
  utf8 _ _ _ h := hp.utf8_of_internUtf8 h
  className _ _ _ h := hp.className_of_internClass h
  nameAndType _ _ _ _ h := hp.nameAndType_of_intern h
  memberRef _ _ _ _ _ _ h := hp.memberRef_of_internMember h
  kept _ _ hj hset := getElem?_run hj hset

/-- **Every pool that usable calls can lead to represents its constants, and interning in it answers
truly.** -/
theorem lawful_of_reachable {p : Pool} (h : p.Reachable) : p.Lawful ∧ p.Answers :=
  ⟨h.wellFormed.lawful h.indexed, h.indexed.answers⟩

/-- A pool with a wide constant and a class, whose slot was then replaced. -/
def sampleCalls : List PoolCall :=
  [.push (.long 7), .internClass "A", .set 4 (.string 3), .set 0 (.classRef 3), .internClass "A"]

/-- The pool of `sampleCalls`, of which one fails, is lawful. -/
theorem lawful_sampleCalls : (∀ call ∈ sampleCalls, call.Usable) ∧
    (sampleCalls.foldl PoolCall.run .empty).Lawful ∧ (sampleCalls.foldl PoolCall.run .empty).Answers := by
  have husable : ∀ call ∈ sampleCalls, call.Usable := by
    simp [sampleCalls, PoolCall.Usable]
  exact ⟨husable, lawful_of_reachable (Reachable.empty.runs husable)⟩

end Pool

end Relabel
