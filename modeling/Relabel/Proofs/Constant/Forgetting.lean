import Relabel.Proofs.Constant.Interning

/-!
# When interning appends what is there

Interning asks the index alone. A constant that no slot holds is never in the index, so it is appended; but a
constant that some slot holds may be missing there too. The index has one slot for a constant, and when this
very slot is set to another constant, the entry goes, although another slot may hold the constant as well. From
then on interning does not find the constant, until a call puts it in once more.

Nothing else makes the index forget. So whether interning finds a constant that is held is decided by the calls
that led to the pool, and by those alone that set a slot.
-/

set_option autoImplicit false

namespace Relabel

namespace Pool

/-- Some slot holds the constant. -/
def Holds (p : Pool) (k : Constant) : Prop :=
  ∃ j : Nat, p.slots[j]? = some k

/-- The index has a slot for the constant. -/
def Finds (p : Pool) (k : Constant) : Prop :=
  k ∈ p.index

end Pool

namespace PoolCall

variable {p : Pool} {k : Constant}

/-- A call puts a constant in: it appends it, or sets a slot to it. -/
def Puts (call : PoolCall) (p : Pool) (k : Constant) : Prop :=
  (∃ i q, call = .set i k ∧ Pool.set i k p = .ok () q) ∨
  ∃ j : Nat, p.slots.size ≤ j ∧ (call.run p).slots[j]? = some k

/-- A call replaces the slot that interning would find for a constant by another constant. -/
def Replaces (call : PoolCall) (p : Pool) (k : Constant) : Prop :=
  ∃ i new q, call = .set i new ∧ Pool.set i new p = .ok () q ∧ new ≠ k ∧ Pool.intern k p = .ok i p

/-- The slot was not the only one that held the constant. -/
def Drops (call : PoolCall) (p : Pool) (k : Constant) : Prop :=
  call.Replaces p k ∧ (call.run p).Holds k

end PoolCall

namespace Pool

/-- A constant is forgotten when a call replaces the slot that interning would find, while another slot holds
it, and stays so until a call puts it in. -/
inductive Forgotten (k : Constant) (start : Pool) : List PoolCall → Prop where
  | drop {calls : List PoolCall} {call : PoolCall} : call.Drops (calls.foldl PoolCall.run start) k →
      Forgotten k start (calls ++ [call])
  | keep {calls : List PoolCall} {call : PoolCall} : Forgotten k start calls →
      ¬call.Puts (calls.foldl PoolCall.run start) k → Forgotten k start (calls ++ [call])

variable {p q r : Pool} {k : Constant}

theorem Finds.exists (h : p.Finds k) : ∃ i, p.index[k]? = some i :=
  ⟨p.index[k], Std.ExtTreeMap.getElem?_eq_some_getElem h⟩

theorem Indexed.holds_of_finds (hp : p.Indexed) (h : p.Finds k) : p.Holds k := by
  obtain ⟨i, hi⟩ := h.exists
  exact ⟨i.toNat, hp k i hi⟩

/-! ## A pool that was read finds all it holds -/

theorem finds_append {c : Constant} : (p.append c).Finds k ↔ k = c ∨ p.Finds k := by
  rw [Finds, append, Std.ExtTreeMap.mem_insertIfNew, Std.LawfulEqOrd.compare_eq_iff_eq, eq_comm]
  rfl

theorem eq_of_getElem?_appendSlots {slots : Array Constant} {c : Constant} {j : Nat} (hj : slots.size ≤ j)
    (h : (appendSlots slots c)[j]? = some k) : k = c ∨ k = .unusable := by
  rw [← Array.getElem?_toList, toList_appendSlots, List.getElem?_append_right (by simpa using hj)] at h
  have hmem := List.mem_of_getElem? h
  split at hmem
  · simpa using hmem
  · exact Or.inl (by simpa using hmem)

/-- Appending adds the constant, and nothing else that is usable. -/
theorem appended_iff (hk : k ≠ .unusable) {slots : Array Constant} {c : Constant} :
    (∃ j, slots.size ≤ j ∧ (appendSlots slots c)[j]? = some k) ↔ k = c := by
  constructor
  · intro h
    obtain ⟨j, hj, h⟩ := h
    exact (eq_of_getElem?_appendSlots hj h).resolve_right hk
  · intro h
    exact ⟨slots.size, Nat.le_refl _, h ▸ getElem?_appendSlots_size slots c⟩

theorem finds_decodeSlots {count : Nat} (hk : k ≠ .unusable) (fuel : Nat) : ∀ {p q : Pool} {c c' : Cursor},
    (p.Holds k → p.Finds k) → decodeSlots count fuel p c = .ok (q, c') → q.Holds k → q.Finds k := by
  induction fuel with
  | zero =>
    intro p q c c' hp h
    simp only [decodeSlots, Except.ok.injEq, Prod.mk.injEq] at h
    exact h.1 ▸ hp
  | succ fuel ih =>
    intro p q c c' hp h
    rw [decodeSlots] at h
    by_cases hs : p.slots.size < count
    · rw [if_pos hs] at h
      cases hx : Constant.decode c with
      | error e => simp [hx] at h
      | ok r =>
        obtain ⟨new, c₁⟩ := r
        simp only [hx] at h
        refine ih ?_ h
        intro hholds
        obtain ⟨j, hj⟩ := hholds
        rw [finds_append]
        by_cases hlt : j < p.slots.size
        · refine Or.inr (hp ⟨j, ?_⟩)
          rw [← getElem?_appendSlots_of_lt new hlt]
          exact hj
        · exact Or.inl ((appended_iff hk).mp ⟨j, Nat.le_of_not_lt hlt, hj⟩)
    · rw [if_neg hs] at h
      simp only [Except.ok.injEq, Prod.mk.injEq] at h
      exact h.1 ▸ hp

theorem finds_empty (hk : k ≠ .unusable) (h : empty.Holds k) : empty.Finds k := by
  obtain ⟨j, hj⟩ := h
  have hmem : k ∈ [Constant.unusable] := List.mem_of_getElem? (by rw [← hj, ← Array.getElem?_toList]; rfl)
  exact absurd (List.mem_singleton.mp hmem) hk

theorem finds_decode {c c' : Cursor} (hk : k ≠ .unusable) (h : decode c = .ok (p, c')) (hp : p.Holds k) :
    p.Finds k := by
  obtain ⟨count, c₁, -, h⟩ := Decoder.bind_eq_ok.mp h
  split at h
  · exact absurd h (by simp [Decoder.fail, bind, StateT.bind, Except.bind])
  obtain ⟨q, c₂, hq, h⟩ := Decoder.bind_eq_ok.mp h
  split at h
  · exact absurd h (by simp [Decoder.fail, bind, StateT.bind, Except.bind])
  · obtain ⟨rfl, -⟩ := Decoder.pure_eq_ok.mp h
    exact finds_decodeSlots hk _ (finds_empty hk) hq hp

/-! ## What one call teaches the index -/

/-- From `p` to `q`, constants were appended, and the index learned of just those. -/
structure Teaches (p q : Pool) : Prop extends Appends p q where
  finds : ∀ k : Constant, k ≠ .unusable →
    (q.Finds k ↔ p.Finds k ∨ ∃ j : Nat, p.slots.size ≤ j ∧ q.slots[j]? = some k)

namespace Teaches

theorem refl (p : Pool) : Teaches p p where
  toAppends := Appends.refl p
  finds k _ := by
    have hnone : ¬∃ j : Nat, p.slots.size ≤ j ∧ p.slots[j]? = some k := by
      intro h
      obtain ⟨j, hj, h⟩ := h
      rw [Array.getElem?_eq_none hj] at h
      cases h
    simp [hnone]

theorem trans (h₁ : Teaches p q) (h₂ : Teaches q r) : Teaches p r where
  toAppends := h₁.toAppends.trans h₂.toAppends
  finds k hk := by
    rw [h₂.finds k hk, h₁.finds k hk]
    constructor
    · intro h
      obtain (h | ⟨j, hj, h⟩) | ⟨j, hj, h⟩ := h
      · exact Or.inl h
      · exact Or.inr ⟨j, hj, h₂.slot h⟩
      · exact Or.inr ⟨j, Nat.le_trans h₁.size_le hj, h⟩
    · intro h
      obtain h | ⟨j, hj, h⟩ := h
      · exact Or.inl (Or.inl h)
      · by_cases hlt : j < q.slots.size
        · rw [h₂.kept j hlt] at h
          exact Or.inl (Or.inr ⟨j, hj, h⟩)
        · exact Or.inr ⟨j, Nat.le_of_not_lt hlt, h⟩

theorem push (c : Constant) (p : Pool) : Teaches p ((push c).after p) := by
  obtain ⟨e, h⟩ | ⟨-, h⟩ := push_cases c p
  · rw [Effect.after_of_error h]
    exact refl p
  · refine ⟨(extending_push c).appends p, ?_⟩
    intro k hk
    rw [Effect.after_of_ok h, appended_iff hk]
    rw [Finds, Std.ExtTreeMap.mem_insert, Std.LawfulEqOrd.compare_eq_iff_eq, eq_comm, or_comm]
    rfl

theorem intern (c : Constant) (p : Pool) : Teaches p ((intern c).after p) := by
  obtain ⟨i, -, h⟩ | h := intern_eq c p
  · rw [Effect.after_of_ok h]
    exact refl p
  · have hpush := push c p
    simpa only [Effect.after, h] using hpush

/-- What links of a chain teach, the chain teaches. -/
theorem bind {α β : Type} {x : Effect Pool α} {f : α → Effect Pool β} (hx : ∀ p, Teaches p (x.after p))
    (hf : ∀ a p, Teaches p ((f a).after p)) (p : Pool) : Teaches p ((x >>= f).after p) :=
  Effect.keeps_bind (I := Teaches p) (fun q hq => hq.trans (hx q)) (fun a q hq => hq.trans (hf a q)) p (refl p)

theorem internClass (name : String) (p : Pool) : Teaches p ((internClass name).after p) :=
  bind (intern _) (fun _ => intern _) p

theorem internNameAndType (name descriptor : String) (p : Pool) :
    Teaches p ((internNameAndType name descriptor).after p) :=
  bind (intern _) (fun _ => bind (intern _) fun _ => intern _) p

theorem internMember (kind : MemberKind) (owner name descriptor : String) (p : Pool) :
    Teaches p ((internMember kind owner name descriptor).after p) :=
  bind (internClass owner) (fun _ => bind (internNameAndType name descriptor) fun _ => intern _) p

/-- Every call that does not set a slot. -/
theorem run {call : PoolCall} (hset : ∀ i c, call ≠ .set i c) (p : Pool) : Teaches p (call.run p) := by
  cases call with
  | push c => exact push c p
  | intern c => exact intern c p
  | internUtf8 s => exact intern _ p
  | internClass name => exact internClass name p
  | internNameAndType name descriptor => exact internNameAndType name descriptor p
  | internMember kind owner name descriptor => exact internMember kind owner name descriptor p
  | set i c => exact absurd rfl (hset i c)

end Teaches

/-- Setting a slot either fails, or the index learns of the new constant and may forget the old one. -/
theorem set_cases (i : UInt16) (c : Constant) (p : Pool) :
    (∃ e, set i c p = .error e p) ∨
    ∃ old index, p.slots[i.toNat]? = some old ∧ set i c p = .ok () ⟨p.slots.setIfInBounds i.toNat c, index⟩ ∧
      ∀ k, k ∈ index ↔ k = c ∨ (p.Finds k ∧ ¬(old = k ∧ p.index[k]? = some i)) := by
  unfold set
  cases hget : p.get i with
  | error e => exact Or.inl ⟨e, rfl⟩
  | ok old =>
    by_cases hwide : (old.isWide != c.isWide) = true
    · exact Or.inl ⟨.unsupported (.widthChange i), by simp only [if_pos hwide]⟩
    · refine Or.inr ⟨old, _, (get_eq_ok.mp hget).1, if_neg hwide, ?_⟩
      intro k
      rw [Std.ExtTreeMap.mem_insertIfNew, Std.LawfulEqOrd.compare_eq_iff_eq, eq_comm]
      refine or_congr_right ?_
      by_cases hold : p.index[old]? = some i
      · rw [if_pos hold, Std.ExtTreeMap.mem_erase]
        by_cases hk : old = k
        · subst hk
          simp [hold]
        · simp [hk, Finds]
      · have hkeeps : ¬(old = k ∧ p.index[k]? = some i) := by
          intro h
          exact hold (h.1 ▸ h.2)
        simp [hold, hkeeps, Finds]

theorem size_set (i : UInt16) (c : Constant) (p : Pool) : ((set i c).after p).slots.size = p.slots.size := by
  obtain ⟨e, h⟩ | ⟨old, index, -, h, -⟩ := set_cases i c p
  · rw [Effect.after_of_error h]
  · rw [Effect.after_of_ok h]
    exact Array.size_setIfInBounds

/-- Interning leaves a pool alone just if the index has a slot, which is the one it gives. -/
theorem intern_eq_ok_self {i : UInt16} : intern k p = .ok i p ↔ p.index[k]? = some i := by
  constructor
  · intro h
    obtain ⟨j, hj, h'⟩ | h' := intern_eq k p
    · rw [h] at h'
      rw [hj, (EStateM.Result.ok.inj h').1]
    · obtain ⟨e, hpush⟩ | ⟨-, hpush⟩ := push_cases k p
      · rw [h', hpush] at h
        cases h
      · rw [h', hpush] at h
        have hslots : appendSlots p.slots k = p.slots := congrArg Pool.slots (EStateM.Result.ok.inj h).2
        have hlast := getElem?_appendSlots_size p.slots k
        rw [hslots, Array.getElem?_eq_none (Nat.le_refl _)] at hlast
        cases hlast
  · intro h
    simp only [intern, h]

theorem puts_set {i : UInt16} {c : Constant} :
    (PoolCall.set i c).Puts p k ↔ k = c ∧ ∃ q, set i c p = .ok () q := by
  constructor
  · intro hputs
    obtain ⟨i', q, hcall, hset⟩ | ⟨j, hj, hslot⟩ := hputs
    · obtain ⟨rfl, rfl⟩ := PoolCall.set.inj hcall
      exact ⟨rfl, q, hset⟩
    · rw [PoolCall.run, Array.getElem?_eq_none (by rw [size_set]; exact hj)] at hslot
      cases hslot
  · intro h
    obtain ⟨rfl, q, hset⟩ := h
    exact Or.inl ⟨i, q, rfl, hset⟩

theorem replaces_set {i : UInt16} {c : Constant} :
    (PoolCall.set i c).Replaces p k ↔ (c ≠ k ∧ p.index[k]? = some i) ∧ ∃ q, set i c p = .ok () q := by
  constructor
  · intro hreplaces
    obtain ⟨i', c', q, hcall, hset, hne, hfound⟩ := hreplaces
    obtain ⟨rfl, rfl⟩ := PoolCall.set.inj hcall
    exact ⟨⟨hne, intern_eq_ok_self.mp hfound⟩, q, hset⟩
  · intro h
    obtain ⟨⟨hne, hi⟩, q, hset⟩ := h
    exact ⟨i, c, q, rfl, hset, hne, intern_eq_ok_self.mpr hi⟩

theorem finds_run_set (hp : p.Indexed) (i : UInt16) (c : Constant) : ((PoolCall.set i c).run p).Finds k ↔
    (PoolCall.set i c).Puts p k ∨ (p.Finds k ∧ ¬(PoolCall.set i c).Replaces p k) := by
  rw [puts_set, replaces_set, PoolCall.run]
  obtain ⟨e, h⟩ | ⟨old, index, hold, h, hindex⟩ := set_cases i c p
  · rw [Effect.after_of_error h]
    simp [h]
  · -- The slot that the index has for a constant is the one that is replaced just if it holds the constant.
    have hslot : (old = k ∧ p.index[k]? = some i) ↔ p.index[k]? = some i :=
      and_iff_right_of_imp fun hi => Option.some.inj (hold.symm.trans (hp k i hi))
    rw [Effect.after_of_ok h, Finds, hindex, hslot]
    have hok : ∃ q, set i c p = .ok () q := ⟨_, h⟩
    simp only [hok, and_true]
    by_cases hkc : k = c
    · simp [hkc]
    · simp [hkc, Ne.symm hkc]

/-- **After a call the index has what the call put in, and of what it had all but what the call replaced.** -/
theorem finds_run (hp : p.Indexed) (hk : k ≠ .unusable) (call : PoolCall) :
    (call.run p).Finds k ↔ call.Puts p k ∨ (p.Finds k ∧ ¬call.Replaces p k) := by
  by_cases hset : ∃ i c, call = .set i c
  · obtain ⟨i, c, rfl⟩ := hset
    exact finds_run_set hp i c
  · have hset (i : UInt16) (c : Constant) : call ≠ .set i c := fun h => hset ⟨i, c, h⟩
    have hreplaces : ¬call.Replaces p k := by
      intro h
      obtain ⟨i, c, -, hcall, -⟩ := h
      exact hset i c hcall
    have hputs : call.Puts p k ↔ ∃ j : Nat, p.slots.size ≤ j ∧ (call.run p).slots[j]? = some k := by
      refine or_iff_right ?_
      intro h
      obtain ⟨i, q, hcall, -⟩ := h
      exact hset i k hcall
    rw [(Teaches.run hset p).finds k hk, hputs, or_comm]
    simp only [hreplaces, not_false_eq_true, and_true]

/-- A call that replaces a constant does not put it in. -/
theorem not_puts_of_replaces {call : PoolCall} (h : call.Replaces p k) : ¬call.Puts p k := by
  obtain ⟨i, c, q, rfl, -, hne, -⟩ := h
  intro hputs
  exact hne (puts_set.mp hputs).1.symm

/-- What a call did not put in was held before. -/
theorem holds_of_holds_run {call : PoolCall} (h : (call.run p).Holds k) (hputs : ¬call.Puts p k) : p.Holds k := by
  obtain ⟨j, hj⟩ := h
  have hlt : j < p.slots.size := by
    by_contra hge
    exact hputs (Or.inr ⟨j, Nat.le_of_not_lt hge, hj⟩)
  by_cases hset : ∀ i c, call = .set i c → i.toNat ≠ j
  · exact ⟨j, (getElem?_run hlt hset).symm.trans hj⟩
  · simp only [not_forall, not_not] at hset
    obtain ⟨i, c, rfl, rfl⟩ := hset
    obtain ⟨e, h⟩ | ⟨old, index, -, h, -⟩ := set_cases i c p
    · exact ⟨i.toNat, by rw [← hj, PoolCall.run, Effect.after_of_error h]⟩
    · -- The slot that was set holds what it was set to.
      rw [PoolCall.run, Effect.after_of_ok h, Array.getElem?_setIfInBounds_self_of_lt hlt] at hj
      obtain rfl := Option.some.inj hj
      exact absurd (Or.inl ⟨i, _, rfl, h⟩) hputs

/-! ## Whole histories -/

theorem Forgotten.of_concat {start : Pool} {calls : List PoolCall} {call : PoolCall}
    (h : Forgotten k start (calls ++ [call])) : call.Drops (calls.foldl PoolCall.run start) k ∨
      (Forgotten k start calls ∧ ¬call.Puts (calls.foldl PoolCall.run start) k) := by
  generalize hall : calls ++ [call] = all at h
  cases h with
  | drop h =>
    obtain ⟨rfl, hcall⟩ := List.append_inj' hall rfl
    obtain rfl := List.singleton_inj.mp hcall
    exact Or.inl h
  | keep h hputs =>
    obtain ⟨rfl, hcall⟩ := List.append_inj' hall rfl
    obtain rfl := List.singleton_inj.mp hcall
    exact Or.inr ⟨h, hputs⟩

theorem Indexed.runs (hp : p.Indexed) (calls : List PoolCall) : (calls.foldl PoolCall.run p).Indexed := by
  induction calls generalizing p with
  | nil => exact hp
  | cons call calls ih => exact ih (hp.run call)

/-- **The index has a constant just if some slot holds it and it is not forgotten.** -/
theorem finds_runs {start : Pool} (hstart : start.Indexed) (hk : k ≠ .unusable)
    (hfinds : start.Holds k → start.Finds k) (calls : List PoolCall) :
    (calls.foldl PoolCall.run start).Finds k ↔
      (calls.foldl PoolCall.run start).Holds k ∧ ¬Forgotten k start calls := by
  induction calls using List.reverseRecOn with
  | nil =>
    have hnever : ¬Forgotten k start [] := by
      intro h
      generalize hnil : ([] : List PoolCall) = all at h
      cases h with
      | drop => simp at hnil
      | keep => simp at hnil
    exact ⟨fun h => ⟨hstart.holds_of_finds h, hnever⟩, fun h => hfinds h.1⟩
  | append_singleton calls call ih =>
    have hindexed := hstart.runs calls
    rw [List.foldl_concat, finds_run hindexed hk]
    generalize hp : calls.foldl PoolCall.run start = p at ih hindexed
    constructor
    · intro h
      refine ⟨(hindexed.run call).holds_of_finds ((finds_run hindexed hk call).mpr h), ?_⟩
      intro hforgotten
      obtain hdrops | ⟨hforgotten, hputs⟩ := hforgotten.of_concat
      · rw [hp] at hdrops
        obtain hputs | ⟨-, hkeeps⟩ := h
        · exact not_puts_of_replaces hdrops.1 hputs
        · exact hkeeps hdrops.1
      · exact (ih.mp (h.resolve_left (hp ▸ hputs)).1).2 hforgotten
    · intro h
      obtain ⟨hholds, hforgotten⟩ := h
      by_cases hputs : call.Puts p k
      · exact Or.inl hputs
      · have hbefore : ¬Forgotten k start calls := by
          intro h
          exact hforgotten (.keep h (hp ▸ hputs))
        refine Or.inr ⟨ih.mpr ⟨holds_of_holds_run hholds hputs, hbefore⟩, ?_⟩
        intro hreplaces
        exact hforgotten (.drop (hp ▸ ⟨hreplaces, hholds⟩))

/-- Only a call that sets a slot makes the index forget. -/
theorem Forgotten.exists_set {start : Pool} {calls : List PoolCall} (h : Forgotten k start calls) :
    ∃ i c, PoolCall.set i c ∈ calls := by
  induction h with
  | drop h =>
    obtain ⟨⟨i, c, -, hcall, -⟩, -⟩ := h
    exact ⟨i, c, by simp [hcall]⟩
  | keep _ _ ih =>
    obtain ⟨i, c, hmem⟩ := ih
    exact ⟨i, c, List.mem_append_left _ hmem⟩

/-- Interning appends the constant, for which there must be room. -/
def InternAppends (p : Pool) (k : Constant) : Prop :=
  if p.slots.size + k.width ≤ 65535 then
    ∃ q, intern k p = .ok (UInt16.ofNat p.slots.size) q ∧ q.slots = appendSlots p.slots k
  else intern k p = .error (.unsupported .poolOverflow) p

theorem internAppends_of_not_finds (h : ¬p.Finds k) : p.InternAppends k := by
  have hpush : intern k p = push k p := by
    simp only [intern, Std.ExtTreeMap.getElem?_eq_none h]
  unfold InternAppends
  rw [hpush, push]
  by_cases hsize : p.slots.size + k.width ≤ 65535
  · rw [if_pos hsize, if_neg (Nat.not_lt.mpr hsize)]
    exact ⟨_, rfl, rfl⟩
  · rw [if_neg hsize, if_pos (Nat.lt_of_not_le hsize)]

/-- **Interning appends a constant that some slot holds just if it is forgotten.** In a pool that was new or read,
after any calls, whether or not they succeeded, a constant that is held and not forgotten is found, and the pool
stays as it is; any other constant is appended. Nothing is forgotten unless a call sets a slot. -/
theorem intern_after_calls {start : Pool} (hstart : start = .empty ∨ ∃ c c', decode c = .ok (start, c'))
    {calls : List PoolCall} {p : Pool} (hp : calls.foldl PoolCall.run start = p) {k : Constant}
    (hk : k ≠ .unusable) :
    (p.Holds k → ¬Forgotten k start calls → ∃ i, intern k p = .ok i p ∧ p.get i = .ok k) ∧
    (¬p.Holds k ∨ Forgotten k start calls → p.InternAppends k) ∧
    (Forgotten k start calls → ∃ i c, PoolCall.set i c ∈ calls) := by
  have hindexed : start.Indexed := by
    obtain rfl | ⟨c, c', hread⟩ := hstart
    · exact indexed_empty
    · exact (indexed_decode hread).1
  have hfinds (hholds : start.Holds k) : start.Finds k := by
    obtain rfl | ⟨c, c', hread⟩ := hstart
    · exact finds_empty hk hholds
    · exact finds_decode hk hread hholds
  have hruns := finds_runs hindexed hk hfinds calls
  rw [hp] at hruns
  refine ⟨?_, ?_, Forgotten.exists_set⟩
  · intro hholds hforgotten
    obtain ⟨i, hi⟩ := (hruns.mpr ⟨hholds, hforgotten⟩).exists
    exact ⟨i, intern_eq_ok_self.mpr hi, get_eq_ok.mpr ⟨(hp ▸ hindexed.runs calls) k i hi, hk⟩⟩
  · intro h
    refine internAppends_of_not_finds ?_
    intro hfound
    obtain ⟨hholds, hforgotten⟩ := hruns.mp hfound
    obtain h | h := h
    · exact h hholds
    · exact hforgotten h

/-- Calls that put two equal constants into a pool. -/
def twinCalls : List PoolCall :=
  [.push (.integer 1), .push (.integer 1)]

/-- The call that replaces the second of them. -/
def untwin : PoolCall := .set 2 (.integer 2)

theorem run_untwin : ∃ q, set 2 (.integer 2) (twinCalls.foldl PoolCall.run .empty) = .ok () q ∧
    q.slots = #[.unusable, .integer 1, .integer 2] := by
  obtain ⟨e, h⟩ | ⟨old, index, -, h, -⟩ := set_cases 2 (.integer 2) (twinCalls.foldl PoolCall.run .empty)
  · simp [set, get, twinCalls, PoolCall.run, Effect.after, push, empty, appendSlots, Constant.isWide,
      Constant.width] at h
  · exact ⟨_, h, rfl⟩

/-- When one of the twins is replaced, the other one is forgotten and appended once more; what came in its place is
found. -/
theorem intern_twins : ((twinCalls ++ [untwin]).foldl PoolCall.run .empty).Holds (.integer 1) ∧
    Forgotten (.integer 1) .empty (twinCalls ++ [untwin]) ∧
    ((twinCalls ++ [untwin]).foldl PoolCall.run .empty).InternAppends (.integer 1) ∧
    ∃ i, intern (.integer 2) ((twinCalls ++ [untwin]).foldl PoolCall.run .empty)
      = .ok i ((twinCalls ++ [untwin]).foldl PoolCall.run .empty) := by
  obtain ⟨q, hset, hslots⟩ := run_untwin
  have hrun : (twinCalls ++ [untwin]).foldl PoolCall.run .empty = q := Effect.after_of_ok hset
  have hfound : intern (.integer 1) (twinCalls.foldl PoolCall.run .empty)
      = .ok 2 (twinCalls.foldl PoolCall.run .empty) :=
    intern_eq_ok_self.mpr (by simp [twinCalls, PoolCall.run, Effect.after, push, empty, appendSlots,
      Constant.isWide, Constant.width])
  have hholds : ((twinCalls ++ [untwin]).foldl PoolCall.run .empty).Holds (.integer 1) :=
    ⟨1, by rw [hrun, hslots]; rfl⟩
  have hforgotten : Forgotten (.integer 1) .empty (twinCalls ++ [untwin]) :=
    .drop ⟨⟨2, .integer 2, q, rfl, hset, by decide, hfound⟩, hholds⟩
  have hkept : ¬Forgotten (.integer 2) .empty (twinCalls ++ [untwin]) := by
    intro h
    have hputs : untwin.Puts (twinCalls.foldl PoolCall.run .empty) (.integer 2) := puts_set.mpr ⟨rfl, q, hset⟩
    obtain hdrops | ⟨-, hnot⟩ := h.of_concat
    · exact not_puts_of_replaces hdrops.1 hputs
    · exact hnot hputs
  refine ⟨hholds, hforgotten, ?_, ?_⟩
  · exact (intern_after_calls (Or.inl rfl) rfl (by decide)).2.1 (Or.inr hforgotten)
  · have hslot : ((twinCalls ++ [untwin]).foldl PoolCall.run .empty).Holds (.integer 2) :=
      ⟨2, by rw [hrun, hslots]; rfl⟩
    obtain ⟨i, hi, -⟩ := (intern_after_calls (Or.inl rfl) rfl (by decide)).1 hslot hkept
    exact ⟨i, hi⟩

end Pool

end Relabel
