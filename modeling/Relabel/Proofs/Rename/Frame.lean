import Mathlib.Data.List.Forall2
import Relabel.Proofs.Constant.Reachable
import Relabel.Proofs.Hierarchy.Resolver
import Relabel.Stage.Rename

/-!
# What renaming leaves alone

While a class is renamed, its name and the pool as it was read stay, the resolver learns, and the pool
gains names and has slots redirected. `Evolves h D` says this from one state to a later one, with `D` the
slots that may have been redirected between them.

What an effect found out is only worth something if it still holds at the end, when the pool is written.
So `Leaves h E e P` promises `P` not of the state right after `e` but of every later state, as long as no
slot outside `E` is redirected in between. Promises of consecutive effects then simply hold together, of
the last state, and none has to be carried past the effects that follow it.
-/

set_option autoImplicit false

namespace Relabel.Renamer

open Pool (Changes)

/-- From `s` to `t`, a class was renamed further, with slots in `D` redirected. -/
structure Evolves (h : Hierarchy) (D : Set Nat) (s t : Renamer × Pool) : Prop where
  className : t.1.className = s.1.className
  asRead : t.1.asRead = s.1.asRead
  resolver : h.Asked s.1.resolver t.1.resolver
  pool : Changes D s.2 t.2
  indexed : s.2.Indexed → t.2.Indexed
  wellFormed : s.2.WellFormed → t.2.WellFormed

namespace Evolves

variable {h : Hierarchy} {D E : Set Nat} {s t u : Renamer × Pool}

theorem refl (D : Set Nat) (s : Renamer × Pool) : Evolves h D s s :=
  ⟨rfl, rfl, .refl, Changes.refl D _, id, id⟩

theorem mono (he : Evolves h D s t) (hDE : D ⊆ E) : Evolves h E s t :=
  ⟨he.className, he.asRead, he.resolver, he.pool.mono hDE, he.indexed, he.wellFormed⟩

theorem trans (h₁ : Evolves h D s t) (h₂ : Evolves h E t u) : Evolves h (D ∪ E) s u where
  className := h₂.className.trans h₁.className
  asRead := h₂.asRead.trans h₁.asRead
  resolver := h₁.resolver.trans h₂.resolver
  pool := h₁.pool.trans h₂.pool
  indexed hs := h₂.indexed (h₁.indexed hs)
  wellFormed hs := h₂.wellFormed (h₁.wellFormed hs)

theorem trans_same (h₁ : Evolves h D s t) (h₂ : Evolves h D t u) : Evolves h D s u := by
  simpa using h₁.trans h₂

end Evolves

/-- A state in which a class is being renamed: the pool has a right index and comes from the pool as it
was read. -/
structure Ready (s : Renamer × Pool) : Prop where
  indexed : s.2.Indexed
  changes : Changes Set.univ s.1.asRead s.2

theorem Ready.evolves {h : Hierarchy} {D : Set Nat} {s t : Renamer × Pool} (hs : Ready s) (he : Evolves h D s t) :
    Ready t where
  indexed := he.indexed hs.indexed
  changes := by
    rw [he.asRead]
    exact hs.changes.trans_same (he.pool.mono (Set.subset_univ D))

/-- `e` redirects nothing, also when it fails, and if it succeeds, then `P` holds of its value until slots
outside `E` are redirected. -/
def Leaves {α : Type} (h : Hierarchy) (E : Set Nat) (e : Renames α) (P : α → Renamer × Pool → Prop) : Prop :=
  ∀ s, Ready s → Evolves h ∅ s (e.after s) ∧
    ∀ a s', e s = .ok a s' → ∀ t, Evolves h E s' t → P a t

namespace Leaves

variable {α β : Type} {h : Hierarchy} {E : Set Nat} {P : α → Renamer × Pool → Prop}

theorem mono {e : Renames α} {Q : α → Renamer × Pool → Prop} (hl : Leaves h E e P)
    (hPQ : ∀ a t, Ready t → P a t → Q a t) : Leaves h E e Q := by
  intro s hs
  obtain ⟨hevolves, hP⟩ := hl s hs
  refine ⟨hevolves, fun a s' he t ht => ?_⟩
  rw [Effect.after_of_ok he] at hevolves
  exact hPQ a t ((hs.evolves hevolves).evolves ht) (hP a s' he t ht)

/-- The promises of effects in a row hold together, and the second effect may count on the first. -/
theorem bindOf {x : Renames α} {f : α → Renames β} {Q : α → β → Renamer × Pool → Prop}
    (hx : Leaves h E x P) (hf : ∀ a t, P a t → Leaves h E (f a) (Q a)) :
    Leaves h E (x >>= f) fun b t => ∃ a, P a t ∧ Q a b t := by
  intro s hs
  obtain ⟨hxe, hxp⟩ := hx s hs
  cases h : x s with
  | error e s₁ =>
    rw [Effect.after_bind_of_error h]
    rw [Effect.after_of_error h] at hxe
    refine ⟨hxe, fun b s' hb => ?_⟩
    obtain ⟨a, s₂, ha, -⟩ := Effect.bind_eq_ok.mp hb
    rw [h] at ha
    cases ha
  | ok a s₁ =>
    rw [Effect.after_bind_of_ok h]
    rw [Effect.after_of_ok h] at hxe
    obtain ⟨hfe, hfp⟩ := hf a s₁ (hxp a s₁ h s₁ (Evolves.refl E s₁)) s₁ (hs.evolves hxe)
    refine ⟨hxe.trans_same hfe, fun b s' hb t ht => ?_⟩
    obtain ⟨a', s₂, ha, hb⟩ := Effect.bind_eq_ok.mp hb
    rw [h] at ha
    obtain ⟨rfl, rfl⟩ := EStateM.Result.ok.inj ha
    rw [Effect.after_of_ok hb] at hfe
    exact ⟨a, hxp a s₁ h t (by simpa using hfe.trans ht), hfp b s' hb t ht⟩

theorem bind {x : Renames α} {f : α → Renames β} {Q : α → β → Renamer × Pool → Prop}
    (hx : Leaves h E x P) (hf : ∀ a, Leaves h E (f a) (Q a)) :
    Leaves h E (x >>= f) fun b t => ∃ a, P a t ∧ Q a b t :=
  hx.bindOf fun a _ _ => hf a

/-- An effect after either of two others, written once for each. -/
theorem ofIte {c : Prop} [Decidable c] {x y : Renames α} {f : α → Renames β}
    {Q : β → Renamer × Pool → Prop} (hl : Leaves h E ((if c then x else y) >>= f) Q) :
    Leaves h E (if c then x >>= f else y >>= f) Q := by
  split <;> rename_i hc
  · rwa [if_pos hc] at hl
  · rwa [if_neg hc] at hl

theorem pure (a : α) : Leaves h E (Pure.pure a) fun b _ => b = a := by
  intro s _
  refine ⟨Evolves.refl ∅ s, fun b s' h t _ => ?_⟩
  exact (Effect.pure_eq_ok.mp h).1.symm

theorem lift (x : Except Error α) : Leaves h E (liftM x) fun a _ => x = .ok a := by
  intro s _
  rw [Effect.after_lift]
  exact ⟨Evolves.refl ∅ s, fun a s' h t _ => (Effect.lift_eq_ok.mp h).1⟩

theorem throw (e : Error) : Leaves h E (MonadExcept.throw e : Renames α) fun _ _ => False :=
  fun s _ => ⟨Evolves.refl ∅ s, fun _ _ hs' => by cases hs'⟩

theorem mapM {f : α → Renames β} {R : α → β → Renamer × Pool → Prop} (hf : ∀ a, Leaves h E (f a) (R a))
    (xs : List α) : Leaves h E (xs.mapM f) fun ys t => List.Forall₂ (fun a b => R a b t) xs ys := by
  induction xs with
  | nil =>
    refine (pure []).mono fun ys t _ h => ?_
    rw [h]
    exact List.Forall₂.nil
  | cons a xs ih =>
    rw [List.mapM_cons]
    refine ((hf a).bind fun b => ih.bind fun ys => pure (b :: ys)).mono ?_
    rintro _ t - ⟨b, hb, ys, hys, rfl⟩
    exact List.Forall₂.cons hb hys

end Leaves

/-! ## The parts of renaming -/

variable {h : Hierarchy} {E : Set Nat}

theorem leaves_pool : Leaves h E Pass.pool fun p t => Changes E p t.2 := by
  intro s _
  refine ⟨Evolves.refl ∅ s, fun p s' h t ht => ?_⟩
  have h : EStateM.Result.ok s.2 s = .ok p s' := h
  obtain ⟨rfl, rfl⟩ := EStateM.Result.ok.inj h
  exact ht.pool

theorem leaves_poolAsRead : Leaves h E poolAsRead fun p t => p = t.1.asRead := by
  intro s _
  refine ⟨Evolves.refl ∅ s, fun p s' h t ht => ?_⟩
  have h : EStateM.Result.ok s.1.asRead s = .ok p s' := h
  obtain ⟨rfl, rfl⟩ := EStateM.Result.ok.inj h
  exact ht.asRead.symm

theorem leaves_nameAsRead : Leaves h E nameAsRead fun name t => name = t.1.className := by
  intro s _
  refine ⟨Evolves.refl ∅ s, fun name s' h t ht => ?_⟩
  have h : EStateM.Result.ok s.1.className s = .ok name s' := h
  obtain ⟨rfl, rfl⟩ := EStateM.Result.ok.inj h
  exact ht.className.symm

theorem leaves_count (f : RenameStats → RenameStats) : Leaves h E (count f) fun _ _ => True := by
  intro s _
  exact ⟨⟨rfl, rfl, .refl, Changes.refl ∅ _, id, id⟩, fun _ _ _ _ _ => trivial⟩

theorem leaves_onPool {α : Type} {e : Effect Pool α} {P : α → Pool → Prop}
    (hchanges : ∀ p, Changes ∅ p (e.after p)) (hindexed : ∀ p, p.Indexed → (e.after p).Indexed)
    (hwell : ∀ p, p.WellFormed → (e.after p).WellFormed)
    (hP : ∀ p q r a, p.Indexed → e p = .ok a q → Changes E q r → P a r) :
    Leaves h E (Pass.onPool e) fun a t => P a t.2 := by
  intro s hs
  have hafter : (Pass.onPool e : Renames α).after s = (s.1, e.after s.2) := Effect.after_onSecond e s
  refine ⟨?_, fun a s' h t ht => ?_⟩
  · rw [hafter]
    exact ⟨rfl, rfl, .refl, hchanges s.2, hindexed s.2, hwell s.2⟩
  · exact hP s.2 s'.2 t.2 a hs.indexed (Effect.onSecond_eq_ok.mp h).1 ht.pool

theorem leaves_internUtf8 (text : String) :
    Leaves h E (Pass.onPool (Pool.internUtf8 text)) fun i t => t.2.utf8 i = .ok text :=
  leaves_onPool (fun p => Pool.changes_internUtf8 p text) (fun _ hp => hp.internUtf8 text)
    (Pool.WellFormed.internUtf8 text) fun _ _ _ _ hp h hr => hr.utf8 (hp.utf8_of_internUtf8 h)

theorem leaves_internNameAndType (name descriptor : String) :
    Leaves h E (Pass.onPool (Pool.internNameAndType name descriptor)) fun i t =>
      t.2.nameAndType i = .ok (name, descriptor) :=
  leaves_onPool (fun p => Pool.changes_internNameAndType p name descriptor)
    (fun _ hp => hp.internNameAndType name descriptor) (Pool.WellFormed.internNameAndType name descriptor)
    fun _ _ _ _ hp h hr => hr.nameAndType (hp.nameAndType_of_intern h)

theorem resolve_eq_ok {α : Type} {e : Effect Resolver α} {s s' : Renamer × Pool} {a : α} :
    resolve e s = .ok a s' ↔
      ∃ r, e s.1.resolver = .ok a r ∧ s' = ({ s.1 with resolver := r }, s.2) := by
  obtain ⟨s, p⟩ := s
  simp only [resolve, Effect.onFirst]
  cases e s.resolver with
  | ok b r =>
    simp only [EStateM.Result.ok.injEq]
    constructor
    · rintro ⟨rfl, rfl⟩
      exact ⟨r, ⟨rfl, rfl⟩, rfl⟩
    · rintro ⟨r', ⟨rfl, rfl⟩, rfl⟩
      exact ⟨rfl, rfl⟩
  | error err r => simp

theorem after_resolve {α : Type} (e : Effect Resolver α) (s : Renamer × Pool) :
    (resolve e).after s = ({ s.1 with resolver := e.after s.1.resolver }, s.2) := by
  obtain ⟨s, p⟩ := s
  simp only [Effect.after, resolve, Effect.onFirst]
  cases e s.resolver <;> rfl

/-- The resolver keeps to the names it gave. -/
theorem leaves_memberName (h : Hierarchy) (kind : MemberKind) (owner name descriptor : String) :
    Leaves h E (resolve (h.memberName kind owner name descriptor)) fun newName t =>
      h.Gives t.1.resolver kind owner name descriptor newName := by
  intro s _
  refine ⟨?_, fun newName s' hs' t ht => ?_⟩
  · rw [after_resolve]
    exact ⟨rfl, rfl, Hierarchy.Asked.refl.ask kind owner name descriptor, Changes.refl ∅ _, id, id⟩
  · obtain ⟨r, hr, rfl⟩ := resolve_eq_ok.mp hs'
    exact (Hierarchy.gives_of_memberName hr).grows ht.resolver.grows (Set.notMem_empty owner)

/-! ## Texts and references -/

/-- The index `j` is there for `renamed` in place of `i`, which stood for `text`. An index is only
replaced to change its text. -/
def Replaces (t : Renamer × Pool) (i : UInt16) (text : String) (j : UInt16) (renamed : String) : Prop :=
  t.2.utf8 j = .ok renamed ∧ (renamed = text → j = i)

/-- An index that stays, or else stands for an interned text. -/
theorem leaves_replace {i : UInt16} {text : String} {p : Pool} (hp : p.utf8 i = .ok text)
    (renamed : String) :
    Leaves h E (if renamed = text then Pure.pure i else Pass.onPool (Pool.internUtf8 renamed)) fun j t =>
      Changes E p t.2 → Replaces t i text j renamed := by
  split
  · next hr =>
    refine (Leaves.pure i).mono fun j t _ hj hpt => ?_
    rw [hj, hr]
    exact ⟨hpt.utf8 hp, fun _ => rfl⟩
  · next hr => exact (leaves_internUtf8 renamed).mono fun j t _ hj _ => ⟨hj, fun h => absurd h hr⟩

/-- How `i` became `j`: it stands for the image of what `i` stands for in `read`. Renaming looks indices up in
the pool as it has grown so far, so what can be promised of every index is said of the pool at the end. -/
def TextImage (f : String → Except Error String) (read : Pool) (t : Renamer × Pool) (i j : UInt16) : Prop :=
  ∃ text renamed, read.utf8 i = .ok text ∧ f text = .ok renamed ∧ Replaces t i text j renamed

theorem leaves_renameUtf8 (f : String → Except Error String) (i : UInt16) :
    Leaves h E (renameUtf8 f i) fun j t => TextImage f t.2 t i j := by
  unfold renameUtf8
  refine (leaves_pool.bind fun p => (Leaves.lift (p.utf8 i)).bindOf fun text _ htext =>
    (Leaves.lift (f text)).bind fun renamed => leaves_replace htext renamed).mono ?_
  rintro j t - ⟨p, hpt, text, htext, renamed, hrenamed, hj⟩
  exact ⟨text, renamed, hpt.utf8 htext, hrenamed, hj hpt⟩

end Relabel.Renamer
