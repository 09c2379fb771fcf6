import Relabel.Class.File

/-!
# How many supertypes a class can name

A decoder takes bytes off the front of its input and never puts any back. Every interface a header lists
takes two bytes of its own, so a class file names no more supertypes than it has bytes. That is all a
provider has to know to bound the search for supertypes, and it is known without reading a single file.
-/

set_option autoImplicit false

namespace Relabel

namespace Decoder

variable {α β : Type}

/-- A decoder leaves at least `n` bytes fewer than it was given. -/
def Takes (n : Nat) (d : Decoder α) : Prop :=
  ∀ c a c', d c = .ok (a, c') → c'.rest.length + n ≤ c.rest.length

/-- What a sequence of two decoders did when it succeeded. -/
theorem bind_eq_ok {d : Decoder α} {f : α → Decoder β} {c c' : Cursor} {b : β} :
    (d >>= f) c = .ok (b, c') ↔ ∃ a c₁, d c = .ok (a, c₁) ∧ f a c₁ = .ok (b, c') := by
  cases hd : d c with
  | error e => simp [bind, StateT.bind, Except.bind, hd]
  | ok r =>
    obtain ⟨a, c₁⟩ := r
    constructor
    · intro h
      exact ⟨a, c₁, rfl, by simpa [bind, StateT.bind, Except.bind, hd] using h⟩
    · rintro ⟨a', c₁', h₁, h₂⟩
      simp only [Except.ok.injEq, Prod.mk.injEq] at h₁
      simpa [bind, StateT.bind, Except.bind, hd, h₁.1, h₁.2] using h₂

theorem pure_eq_ok {a b : α} {c c' : Cursor} :
    (pure a : Decoder α) c = .ok (b, c') ↔ a = b ∧ c = c' := by
  change Except.ok (a, c) = _ ↔ _
  simp

theorem Takes.mono {m n : Nat} {d : Decoder α} (hd : Takes n d) (hmn : m ≤ n) : Takes m d := by
  intro c a c' hc
  have := hd c a c' hc
  omega

theorem Takes.bind {m n : Nat} {d : Decoder α} {f : α → Decoder β} (hd : Takes m d)
    (hf : ∀ a, Takes n (f a)) : Takes (m + n) (d >>= f) := by
  intro c b c' hc
  obtain ⟨a, c₁, h₁, h₂⟩ := bind_eq_ok.mp hc
  have h₁ := hd _ _ _ h₁
  have h₂ := hf a _ _ _ h₂
  omega

theorem takes_pure (a : α) : Takes 0 (pure a : Decoder α) := by
  intro c b c' hc
  rw [(pure_eq_ok.mp hc).2]
  exact Nat.le_refl _

theorem takes_fail (n : Nat) (fault : ClassFault) : Takes n (fail fault : Decoder α) := by
  intro c a c' hc
  simp [fail] at hc

/-- A decoder behind a check that may refuse what was read. -/
theorem takes_check {n : Nat} {P : Prop} [Decidable P] {fault : ClassFault} {d : Decoder α}
    (hd : Takes n d) : Takes n (if P then fail fault >>= fun _ : Unit => d else d) := by
  split
  · exact ((takes_fail n fault).bind fun _ => hd).mono (Nat.le_add_left n n)
  · exact hd

theorem takes_position : Takes 0 position := by
  intro c a c' hc
  simp only [position, Except.ok.injEq, Prod.mk.injEq] at hc
  rw [hc.2]
  exact Nat.le_refl _

theorem takes_take (n : Nat) : Takes n (take n) := by
  intro c bytes c' hc
  rw [take, Bytes.splitOff_eq] at hc
  by_cases hn : n ≤ c.rest.length
  · simp only [if_pos hn, Except.ok.injEq, Prod.mk.injEq] at hc
    rw [← hc.2, List.length_drop]
    omega
  · simp [if_neg hn] at hc

theorem takes_u8 : Takes 1 u8 := (takes_take 1).bind fun _ => takes_pure _

theorem takes_u16 : Takes 2 u16 := (takes_take 2).bind fun _ => takes_pure _

theorem takes_u32 : Takes 4 u32 := (takes_take 4).bind fun _ => takes_pure _

theorem takes_u64 : Takes 8 u64 := (takes_take 8).bind fun _ => takes_pure _

/-- A list of items that take bytes each is no longer than the bytes that were there. -/
theorem length_timesFrom_le {d : Decoder α} (hd : Takes 1 d) (n : Nat) :
    ∀ (acc xs : List α) (c c' : Cursor), timesFrom d acc n c = .ok (xs, c') →
      xs.length ≤ acc.length + c.rest.length := by
  induction n with
  | zero =>
    intro acc xs c c' hc
    simp only [timesFrom, Except.ok.injEq, Prod.mk.injEq] at hc
    rw [← hc.1, List.length_reverse]
    omega
  | succ n ih =>
    intro acc xs c c' hc
    cases hx : d c with
    | error e => simp [timesFrom, hx] at hc
    | ok r =>
      obtain ⟨a, c₁⟩ := r
      simp only [timesFrom, hx] at hc
      have hstep := hd _ _ _ hx
      have hrest := ih (a :: acc) xs c₁ c' hc
      rw [List.length_cons] at hrest
      omega

theorem length_counted_le {d : Decoder α} (hd : Takes 1 d) {c c' : Cursor} {xs : List α}
    (hc : counted d c = .ok (xs, c')) : xs.length ≤ c.rest.length := by
  obtain ⟨n, c₁, hn, hxs⟩ := bind_eq_ok.mp hc
  have hcount := takes_u16 _ _ _ hn
  have hlist := length_timesFrom_le hd n.toNat [] xs c₁ c' hxs
  rw [List.length_nil] at hlist
  omega

end Decoder

open Decoder

/-! ## The pool before the header -/

theorem Constant.takes_decodePair {α : Type} (f : UInt16 → UInt16 → α) :
    Takes 0 (decodePair f) :=
  (takes_u16.bind fun _ => takes_u16.bind fun _ => takes_pure _).mono (Nat.zero_le _)

theorem Constant.takes_decodePayload (tag : UInt8) : Takes 0 (decodePayload tag) := by
  have index (f : UInt16 → Constant) : Takes 0 (do return f (← u16) : Decoder Constant) :=
    (takes_u16.bind fun _ => takes_pure _).mono (Nat.zero_le _)
  have word (f : UInt32 → Constant) : Takes 0 (do return f (← u32) : Decoder Constant) :=
    (takes_u32.bind fun _ => takes_pure _).mono (Nat.zero_le _)
  have wide (f : UInt64 → Constant) : Takes 0 (do return f (← u64) : Decoder Constant) :=
    (takes_u64.bind fun _ => takes_pure _).mono (Nat.zero_le _)
  unfold decodePayload
  split
  case h_1 =>
    exact (takes_u16.bind fun n => (takes_take n.toNat).mono (Nat.zero_le _) |>.bind
      fun _ => takes_pure _).mono (Nat.zero_le _)
  case h_12 =>
    exact (takes_u8.bind fun _ => takes_u16.bind fun _ => takes_pure _).mono (Nat.zero_le _)
  case h_18 => exact takes_position.bind fun _ => takes_fail 0 _
  all_goals first | exact index _ | exact word _ | exact wide _ | exact takes_decodePair _

theorem Constant.takes_decode : Takes 0 decode :=
  (takes_u8.bind fun tag => takes_decodePayload tag).mono (Nat.zero_le _)

theorem Pool.takes_decodeSlots (count fuel : Nat) : ∀ p : Pool, Takes 0 (decodeSlots count fuel p) := by
  induction fuel with
  | zero => exact fun p => takes_pure p
  | succ fuel ih =>
    intro p c q c' hc
    rw [decodeSlots] at hc
    by_cases hp : p.slots.size < count
    · rw [if_pos hp] at hc
      cases hx : Constant.decode c with
      | error e => simp [hx] at hc
      | ok r =>
        obtain ⟨constant, c₁⟩ := r
        simp only [hx] at hc
        have hstep := Constant.takes_decode _ _ _ hx
        have hrest := ih _ _ _ _ hc
        omega
    · rw [if_neg hp] at hc
      exact takes_pure p c q c' hc

theorem Pool.takes_decode : Takes 0 decode := by
  refine (takes_u16.bind (n := 0) fun count => ?_).mono (Nat.zero_le _)
  refine takes_check ?_
  exact (takes_decodeSlots _ _ _).bind (n := 0) fun p => takes_check (takes_pure p)

/-! ## The header -/

namespace ClassFile

/-- What reading a class found: its head, and a header that names the class. -/
theorem ofBytes_eq_ok {bytes : Bytes} {f : ClassFile} (hf : ofBytes bytes = .ok f) :
    decodeHead (Cursor.start bytes) = .ok ((f.pool, f.header), f.body) ∧ ∃ name, f.className = .ok name := by
  unfold ofBytes at hf
  cases hd : decodeHead (Cursor.start bytes) with
  | error e => simp [hd] at hf
  | ok r =>
    obtain ⟨⟨pool, header⟩, body⟩ := r
    simp only [hd] at hf
    cases hn : header.className pool with
    | error e => simp [hn] at hf
    | ok name =>
      simp only [hn, Except.ok.injEq] at hf
      subst hf
      exact ⟨rfl, name, hn⟩

/-- The interfaces of a header are fewer than the bytes of its file. -/
theorem length_interfaces_lt {bytes : Bytes} {f : ClassFile} (hf : ofBytes bytes = .ok f) :
    f.header.interfaces.length < bytes.length := by
  obtain ⟨hd, -⟩ := ofBytes_eq_ok hf
  -- Everything between the magic number and the interfaces only takes bytes away.
  obtain ⟨magic, c₁, h₁, hd⟩ := bind_eq_ok.mp hd
  split at hd
  · exact absurd hd (by simp [Decoder.fail, bind, StateT.bind, Except.bind])
  obtain ⟨minor, c₃, h₃, hd⟩ := bind_eq_ok.mp hd
  obtain ⟨major, c₄, h₄, hd⟩ := bind_eq_ok.mp hd
  obtain ⟨p, c₅, h₅, hd⟩ := bind_eq_ok.mp hd
  obtain ⟨flags, c₆, h₆, hd⟩ := bind_eq_ok.mp hd
  obtain ⟨this, c₇, h₇, hd⟩ := bind_eq_ok.mp hd
  obtain ⟨super, c₈, h₈, hd⟩ := bind_eq_ok.mp hd
  obtain ⟨interfaces, c₉, h₉, hd⟩ := bind_eq_ok.mp hd
  have h₁ := takes_u32 _ _ _ h₁
  have h₃ := takes_u16 _ _ _ h₃
  have h₄ := takes_u16 _ _ _ h₄
  have h₅ := Pool.takes_decode _ _ _ h₅
  have h₆ := takes_u16 _ _ _ h₆
  have h₇ := takes_u16 _ _ _ h₇
  have h₈ := takes_u16 _ _ _ h₈
  have h₉ := length_counted_le (takes_u16.mono (by omega)) h₉
  obtain ⟨hd, -⟩ := pure_eq_ok.mp hd
  rw [← (Prod.mk.inj hd).2]
  simp only [Cursor.start] at h₁ ⊢
  omega

theorem length_mapM_except {α β : Type} (f : α → Except Error β) :
    ∀ (xs : List α) (ys : List β), xs.mapM f = .ok ys → ys.length = xs.length
  | [], ys, h => by
    simp only [List.mapM_nil, pure, Except.pure, Except.ok.injEq] at h
    rw [← h]
    rfl
  | x :: xs, ys, h => by
    rw [List.mapM_cons] at h
    cases hx : f x with
    | error e => simp [hx, bind, Except.bind] at h
    | ok y =>
      cases hs : xs.mapM f with
      | error e => simp [hx, hs, bind, Except.bind] at h
      | ok rest =>
        simp only [hx, hs, bind, Except.bind, pure, Except.pure, Except.ok.injEq] at h
        rw [← h, List.length_cons, List.length_cons, length_mapM_except f xs rest hs]

/-- A class names no more supertypes than its file has bytes. -/
theorem length_parents_le {bytes : Bytes} {f : ClassFile} {parents : List String}
    (hf : ofBytes bytes = .ok f) (hp : f.parents = .ok parents) :
    parents.length ≤ bytes.length := by
  have hlt := length_interfaces_lt hf
  simp only [ClassFile.parents, Header.parents] at hp
  cases hs : f.header.superName? f.pool with
  | error e => simp [hs, bind, Except.bind] at hp
  | ok super =>
    cases hi : f.header.interfaceNames f.pool with
    | error e => simp [hs, hi, bind, Except.bind] at hp
    | ok interfaces =>
      simp only [hs, hi, bind, Except.bind, pure, Except.pure, Except.ok.injEq] at hp
      have hlen := length_mapM_except _ _ _ hi
      have hsuper : super.toList.length ≤ 1 := by cases super <;> simp
      rw [← hp, List.length_append]
      omega

/-- The supertypes that the class in a byte string names, if it is one. -/
def supertypesIn (bytes : Bytes) : List String :=
  match ofBytes bytes with
  | .error _ => []
  | .ok f => (f.parents.toOption).getD []

theorem supertypesIn_of_parents {bytes : Bytes} {f : ClassFile} {parents : List String}
    (hf : ofBytes bytes = .ok f) (hp : f.parents = .ok parents) : supertypesIn bytes = parents := by
  simp [supertypesIn, hf, hp, Except.toOption]

theorem length_supertypesIn_le (bytes : Bytes) : (supertypesIn bytes).length ≤ bytes.length := by
  cases hf : ofBytes bytes with
  | error e => simp [supertypesIn, hf]
  | ok f =>
    cases hp : f.parents with
    | error e => simp [supertypesIn, hf, hp, Except.toOption]
    | ok parents =>
      rw [supertypesIn_of_parents hf hp]
      exact length_parents_le hf hp

end ClassFile

end Relabel
