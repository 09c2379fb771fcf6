import Relabel.Proofs.Hierarchy.Inheritance

/-!
# Loading ends

Loading is written with a bound on the generations it goes through. Here it is described once more without
any bound, as relations between a state and what comes of it: a finite derivation of `LoadsTo` is a run that
ends, with nothing cut off. Every load has one, whatever the classes say of each other. A class may be its own
supertype, and the classes that were registered may contradict those of the provider: each generation puts
one more supertype on the way, and there are only so many of them.
-/

set_option autoImplicit false

namespace Relabel

namespace Hierarchy

open Resolver

/-! ## Runs without a bound -/

mutual

/-- What comes of loading an owner. -/
inductive LoadsTo (h : Hierarchy) : String → Resolver → EStateM.Result Error Resolver Unit → Prop
  | settled {o : String} {r : Resolver} : r.settled o = true → LoadsTo h o r (.ok () r)
  | failed {o : String} {r : Resolver} {e : Error} : r.settled o = false →
      h.provider.parents? o = .error e → LoadsTo h o r (.error e (r.countRequest o))
  | missing {o : String} {r : Resolver} : r.settled o = false → h.provider.parents? o = .ok none →
      LoadsTo h o r (.ok () ((r.countRequest o).mapCache (·.markUnresolved o)))
  | found {o : String} {r : Resolver} {parents : List String} {out : EStateM.Result Error Resolver Unit} :
      r.settled o = false → h.provider.parents? o = .ok (some parents) →
      BuildsTo h o parents (r.countRequest o) out → LoadsTo h o r out

/-- What comes of building the tables of an owner. -/
inductive BuildsTo (h : Hierarchy) :
    String → List String → Resolver → EStateM.Result Error Resolver Unit → Prop
  | built {o : String} {parents : List String} {r r' : Resolver} {methods fields : MemberRow} :
      RowsTo h ∅ ∅ parents { r with loading := o :: r.loading } (.ok (methods, fields) r') →
      BuildsTo h o parents r (.ok () (({ r' with loading := r'.loading.erase o } : Resolver).mapCache
        fun c => c.record o (overrideWith methods (h.renames.methodRow? o))
          (overrideWith fields (h.renames.fieldRow? o))))
  | broken {o : String} {parents : List String} {r r' : Resolver} {e : Error} :
      RowsTo h ∅ ∅ parents { r with loading := o :: r.loading } (.error e r') →
      BuildsTo h o parents r (.error e { r' with loading := r'.loading.erase o })

/-- What comes of putting together the rows of parents. -/
inductive RowsTo (h : Hierarchy) : MemberRow → MemberRow → List String → Resolver →
    EStateM.Result Error Resolver (MemberRow × MemberRow) → Prop
  | done {methods fields : MemberRow} {r : Resolver} :
      RowsTo h methods fields [] r (.ok (methods, fields) r)
  | next {methods fields : MemberRow} {p : String} {parents : List String} {r r' : Resolver}
      {out : EStateM.Result Error Resolver (MemberRow × MemberRow)} : LoadsTo h p r (.ok () r') →
      RowsTo h (overrideWith methods r'.cache.methods[p]?) (overrideWith fields r'.cache.fields[p]?)
        parents r' out →
      RowsTo h methods fields (p :: parents) r out
  | broken {methods fields : MemberRow} {p : String} {parents : List String} {r r' : Resolver} {e : Error} :
      LoadsTo h p r (.error e r') → RowsTo h methods fields (p :: parents) r (.error e r')

end

/-! ## Every load has one -/

variable {h : Hierarchy} {load : String → Effect Resolver Unit} {loading : List String}

theorem rowsTo_parentRows (hgrows : ∀ p r, Grows ∅ r ((load p).after r)) {parents : List String}
    (hload : ∀ p ∈ parents, ∀ r, r.loading = loading → LoadsTo h p r (load p r)) :
    ∀ (methods fields : MemberRow) (r : Resolver), r.loading = loading →
      RowsTo h methods fields parents r (parentRows load methods fields parents r) := by
  induction parents with
  | nil => exact fun methods fields r _ => RowsTo.done
  | cons p parents ih =>
    intro methods fields r hr
    have hp := hload p List.mem_cons_self r hr
    have hloading := (hgrows p r).loading
    rw [parentRows]
    cases hx : load p r with
    | error e r' =>
      rw [hx] at hp
      exact RowsTo.broken hp
    | ok u r' =>
      rw [hx] at hp
      rw [Effect.after_of_ok hx, hr] at hloading
      exact RowsTo.next hp (ih (fun q hq => hload q (List.mem_cons_of_mem p hq)) _ _ r' hloading)

theorem buildsTo_buildTables (hgrows : ∀ p r, Grows ∅ r ((load p).after r)) {o : String}
    {parents : List String} {r : Resolver}
    (hload : ∀ p ∈ parents, ∀ r', r'.loading = o :: r.loading → LoadsTo h p r' (load p r')) :
    BuildsTo h o parents r (h.buildTables load o parents r) := by
  have hrows := rowsTo_parentRows hgrows hload ∅ ∅ { r with loading := o :: r.loading } rfl
  obtain ⟨e, r₁, hp, hb⟩ | ⟨methods, fields, r₁, hp, hb⟩ := h.buildTables_cases load o parents r
  · rw [hp] at hrows
    rw [hb]
    exact BuildsTo.broken hrows
  · rw [hp] at hrows
    rw [hb]
    exact BuildsTo.built hrows

/-- With enough generations, the bound is not met. -/
theorem loadsTo_load {supers : List String}
    (hsupers : ∀ name parents, h.provider.parents? name = .ok (some parents) → ∀ q ∈ parents, q ∈ supers)
    (n : Nat) : ∀ (o : String) (r : Resolver), Enough supers n o r.loading →
      LoadsTo h o r (h.load n o r) := by
  induction n with
  | zero => exact fun o r henough => absurd henough.pos (Nat.lt_irrefl 0)
  | succ n ih =>
    intro o r henough
    cases hs : r.settled o with
    | true =>
      rw [load_of_settled h n hs]
      exact LoadsTo.settled hs
    | false =>
      have hnot : o ∉ r.loading := by
        simp only [Resolver.settled, Bool.or_eq_false_iff] at hs
        simpa using hs.2
      rw [load_of_not_settled h n hs]
      cases hp : h.provider.parents? o with
      | error e => exact LoadsTo.failed hs hp
      | ok parents? =>
        cases parents? with
        | none => exact LoadsTo.missing hs hp
        | some parents =>
          refine LoadsTo.found hs hp (buildsTo_buildTables (h.grows_load n) fun p hmem r' hr' => ?_)
          refine ih p r' ?_
          rw [hr']
          exact henough.parent hnot (hsupers o parents hp p hmem)

/-- **Loading ends**, whatever the state. -/
theorem loadsTo_ensureLoaded (h : Hierarchy) (o : String) (r : Resolver) :
    LoadsTo h o r (h.ensureLoaded o r) := by
  obtain ⟨supers, hlen, hsupers⟩ := h.provider.exists_supertypes
  refine loadsTo_load hsupers h.generations o r (Enough.of_length ?_)
  simp only [generations]
  omega

/-- **Registering ends**, whatever the supertypes are. -/
theorem buildsTo_register (h : Hierarchy) (name : String) (parents : List String) (r : Resolver) :
    BuildsTo h name parents (r.mapCache (·.unmarkUnresolved name)) (h.register name parents r) :=
  buildsTo_buildTables (h.grows_load h.generations) fun p _ r' _ => loadsTo_ensureLoaded h p r'

end Hierarchy

end Relabel
