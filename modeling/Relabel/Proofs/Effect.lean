import Relabel.Effect

/-!
# What an effect did

An effect that succeeded is a chain of effects that succeeded; the equations here take such a chain apart
link by link. An effect that failed still changed its state, so what holds of a state after a call is said
of `Effect.after`, which forgets whether the call succeeded.
-/

set_option autoImplicit false

namespace Relabel.Effect

variable {ε σ τ α β : Type}

/-! ## Success -/

theorem bind_eq_ok {x : EStateM ε σ α} {f : α → EStateM ε σ β} {s s' : σ} {b : β} :
    (x >>= f) s = .ok b s' ↔ ∃ a s₁, x s = .ok a s₁ ∧ f a s₁ = .ok b s' := by
  change EStateM.bind x f s = _ ↔ _
  unfold EStateM.bind
  cases hx : x s with
  | ok a s₁ =>
    constructor
    · intro h
      exact ⟨a, s₁, rfl, h⟩
    · rintro ⟨a', s₁', h₁, h₂⟩
      obtain ⟨rfl, rfl⟩ := EStateM.Result.ok.inj h₁
      exact h₂
  | error e s₁ => simp

theorem bind_of_ok {x : EStateM ε σ α} {f : α → EStateM ε σ β} {s s₁ : σ} {a : α} (h : x s = .ok a s₁) :
    (x >>= f) s = f a s₁ := by
  change EStateM.bind x f s = _
  unfold EStateM.bind
  rw [h]

theorem bind_of_error {x : EStateM ε σ α} {f : α → EStateM ε σ β} {s s₁ : σ} {err : ε}
    (h : x s = .error err s₁) : (x >>= f) s = .error err s₁ := by
  change EStateM.bind x f s = _
  unfold EStateM.bind
  rw [h]

theorem except_bind_eq_ok {x : Except ε α} {f : α → Except ε β} {b : β} :
    x >>= f = .ok b ↔ ∃ a, x = .ok a ∧ f a = .ok b := by
  cases x <;> simp [bind, Except.bind]

theorem except_map_eq_ok {x : Except ε α} {f : α → β} {b : β} : x.map f = .ok b ↔ ∃ a, x = .ok a ∧ f a = b := by
  cases x <;> simp [Except.map]

theorem pure_eq_ok {a b : α} {s s' : σ} :
    (pure a : Effect σ α) s = .ok b s' ↔ a = b ∧ s = s' := by
  change EStateM.Result.ok a s = _ ↔ _
  simp

theorem map_eq_ok {f : α → β} {x : Effect σ α} {b : β} {s s' : σ} :
    (f <$> x) s = .ok b s' ↔ ∃ a, x s = .ok a s' ∧ f a = b := by
  change EStateM.map f x s = _ ↔ _
  unfold EStateM.map
  cases x s with
  | ok a s₁ =>
    simp only [EStateM.Result.ok.injEq]
    constructor
    · rintro ⟨rfl, rfl⟩
      exact ⟨a, ⟨rfl, rfl⟩, rfl⟩
    · rintro ⟨a', ⟨rfl, rfl⟩, rfl⟩
      exact ⟨rfl, rfl⟩
  | error e s₁ => simp

theorem lift_eq_ok {x : Except Error α} {s s' : σ} {a : α} :
    (liftM x : Effect σ α) s = .ok a s' ↔ x = .ok a ∧ s = s' := by
  change ofExcept x s = _ ↔ _
  cases x <;> simp [ofExcept]

theorem lift_error {e : Error} (s : σ) : (liftM (.error e : Except Error α) : Effect σ α) s = .error e s := rfl

theorem onSecond_eq_ok {e : Effect τ α} {s s' : σ × τ} {a : α} :
    (onSecond e : Effect (σ × τ) α) s = .ok a s' ↔ e s.2 = .ok a s'.2 ∧ s'.1 = s.1 := by
  obtain ⟨s, t⟩ := s
  obtain ⟨s', t'⟩ := s'
  rw [onSecond]
  cases he : e t with
  | ok b t₁ =>
    simp only [EStateM.Result.ok.injEq, Prod.mk.injEq]
    constructor
    · rintro ⟨rfl, rfl, rfl⟩
      exact ⟨⟨rfl, rfl⟩, rfl⟩
    · rintro ⟨⟨rfl, rfl⟩, rfl⟩
      exact ⟨rfl, rfl, rfl⟩
  | error e t₁ => simp

/-! ## The state afterwards, whatever happened -/

/-- The state an effect leaves, whether or not it succeeded. -/
def after (e : Effect σ α) (s : σ) : σ :=
  match e s with
  | .ok _ s' => s'
  | .error _ s' => s'

theorem after_of_ok {e : Effect σ α} {s s' : σ} {a : α} (h : e s = .ok a s') : e.after s = s' := by
  simp [after, h]

theorem after_of_error {e : Effect σ α} {s s' : σ} {err : Error} (h : e s = .error err s') :
    e.after s = s' := by
  simp [after, h]

/-- An effect whose outcome is known, without naming the state it left. -/
theorem eq_ok_of_outcome {e : Effect σ α} {s : σ} {a : α} (h : (e.outcome s).toOption = some a) :
    e s = .ok a (e.after s) := by
  unfold outcome at h
  unfold after
  cases he : e s with
  | ok b s₁ =>
    simp only [he, Except.toOption, Option.some.injEq] at h
    rw [h]
  | error err s₁ => simp [he, Except.toOption] at h

theorem exists_ok_of_isSome {e : Effect σ α} {s : σ} (h : (e.outcome s).toOption.isSome = true) :
    ∃ a, e s = .ok a (e.after s) :=
  have ⟨a, ha⟩ := Option.isSome_iff_exists.mp h
  ⟨a, eq_ok_of_outcome ha⟩

/-- An effect that is known to give something with a property, without naming the state it left. -/
theorem exists_of_outcome {e : Effect σ α} {s : σ} {P : α → Prop} [DecidablePred P]
    (h : (e.outcome s).toOption.any (fun a => P a) = true) : ∃ a, e s = .ok a (e.after s) ∧ P a := by
  cases he : (e.outcome s).toOption with
  | none => simp [he] at h
  | some a =>
    rw [he] at h
    exact ⟨a, eq_ok_of_outcome he, by simpa using h⟩

/-- What a successful computation gives. -/
theorem eq_ok_get {x : Except Error α} (h : x.toOption.isSome = true) : x = .ok (x.toOption.get h) := by
  cases x with
  | ok a => rfl
  | error e => cases h

theorem after_lift (x : Except Error α) (s : σ) : (liftM x : Effect σ α).after s = s := by
  change (match ofExcept x s with | .ok _ s' => s' | .error _ s' => s') = s
  cases x <;> rfl

theorem after_onSecond (e : Effect τ α) (s : σ × τ) :
    (onSecond e : Effect (σ × τ) α).after s = (s.1, e.after s.2) := by
  obtain ⟨s, t⟩ := s
  dsimp only [after, onSecond]
  cases e t <;> rfl

theorem after_bind_of_ok {x : Effect σ α} {s s₁ : σ} {a : α} (h : x s = .ok a s₁)
    (f : α → Effect σ β) : (x >>= f).after s = (f a).after s₁ := by
  change (match EStateM.bind x f s with | .ok _ s' => s' | .error _ s' => s') = _
  unfold EStateM.bind
  rw [h]
  rfl

theorem after_bind_of_error {x : Effect σ α} {s s₁ : σ} {err : Error} (h : x s = .error err s₁)
    (f : α → Effect σ β) : (x >>= f).after s = s₁ := by
  change (match EStateM.bind x f s with | .ok _ s' => s' | .error _ s' => s') = _
  unfold EStateM.bind
  rw [h]

/-- What follows an effect does not matter to the state if it leaves the state alone. -/
theorem after_bind_of_still {x : Effect σ α} {f : α → Effect σ β} (hf : ∀ a s, (f a).after s = s) (s : σ) :
    (x >>= f).after s = x.after s := by
  cases h : x s with
  | ok a s₁ => rw [after_bind_of_ok h, after_of_ok h, hf]
  | error e s₁ => rw [after_bind_of_error h, after_of_error h]

/-- An invariant that both links of a chain keep is kept by the chain, wherever it breaks off. -/
theorem keeps_bind {I : σ → Prop} {x : Effect σ α} {f : α → Effect σ β} (hx : ∀ s, I s → I (x.after s))
    (hf : ∀ a s, I s → I ((f a).after s)) (s : σ) (hs : I s) : I ((x >>= f).after s) := by
  have hfirst := hx s hs
  cases h : x s with
  | ok a s₁ =>
    rw [after_of_ok h] at hfirst
    rw [after_bind_of_ok h]
    exact hf a s₁ hfirst
  | error e s₁ =>
    rw [after_of_error h] at hfirst
    rwa [after_bind_of_error h]

end Relabel.Effect
