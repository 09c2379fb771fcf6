import Relabel.Error

/-!
# Failing without forgetting

An `Effect σ α` is a computation on a state of type `σ` that gives an `α` or fails. A failure keeps the
changes made before it: a pool keeps the texts it interned for a reference that did not fit, and a cache
keeps what it learned before a lookup broke off.
-/

set_option autoImplicit false

namespace Relabel

/-- A computation on a state that keeps the changes made before a failure. -/
abbrev Effect (σ : Type) := EStateM Error σ

namespace Effect

variable {σ τ α : Type}

/-- A failure or a value, as an effect without changes. -/
def ofExcept : Except Error α → Effect σ α
  | .ok a, s => .ok a s
  | .error e, s => .error e s

instance : MonadLift (Except Error) (Effect σ) := ⟨ofExcept⟩

/-- The outcome of an effect, without the state it left. -/
def outcome (e : Effect σ α) (s : σ) : Except Error α :=
  match e s with
  | .ok a _ => .ok a
  | .error err _ => .error err

/-- An effect on the first half of a pair. -/
def onFirst (e : Effect σ α) : Effect (σ × τ) α := fun (s, t) =>
  match e s with
  | .ok a s => .ok a (s, t)
  | .error err s => .error err (s, t)

/-- An effect on the second half of a pair. -/
def onSecond (e : Effect τ α) : Effect (σ × τ) α := fun (s, t) =>
  match e t with
  | .ok a t => .ok a (s, t)
  | .error err t => .error err (s, t)

end Effect

/-- A part of a state that can be replaced by itself. -/
structure Lens (τ σ : Type) where
  get : τ → σ
  set : σ → τ → τ

end Relabel
