import Relabel.Proofs.Hierarchy.Ancestry
import Relabel.Proofs.Hierarchy.Resolver

/-!
# A resolver answers as the hierarchy says

Tables are built in whatever order owners turn up, and some builds break off. The invariant `Sound` says
of every owner that is known that its tables hold what the hierarchy lets it inherit. It needs no more
than a provider that follows the hierarchy on the owners in question, which may be some of all owners as
long as their supertypes are among them.

Loading is bounded by a number of generations, and the bound must never cut a search short: `Enough` says
how many are enough, counted by the supertypes that are not on the way yet.
-/

set_option autoImplicit false

namespace Relabel

/-! ## Enough generations -/

/-- Enough generations for an owner while others are on the way: each further one is spent on a supertype
that was not on the way before. -/
def Enough (supers : List String) (n : Nat) (o : String) (loading : List String) : Prop :=
  (supers.filter fun x => !loading.contains x).length + (if o ∈ supers then 1 else 2) ≤ n

namespace Enough

variable {supers loading : List String} {n : Nat} {o p : String}

theorem pos (h : Enough supers n o loading) : 0 < n := by
  unfold Enough at h
  split at h <;> omega

/-- One generation less is enough for the supertypes of an owner. -/
theorem parent (h : Enough supers (n + 1) o loading) (ho : o ∉ loading) (hp : p ∈ supers) :
    Enough supers n p (o :: loading) := by
  unfold Enough at h ⊢
  rw [if_pos hp]
  have hsub : (supers.filter fun x => !(o :: loading).contains x)
      = (supers.filter fun x => !loading.contains x).filter fun x => x != o := by
    rw [List.filter_filter]
    refine List.filter_congr fun x _ => ?_
    simp only [List.contains_cons, Bool.not_or]
    rfl
  rw [hsub]
  by_cases hmem : o ∈ supers
  · rw [if_pos hmem] at h
    have hlt : ((supers.filter fun x => !loading.contains x).filter fun x => x != o).length
        < (supers.filter fun x => !loading.contains x).length := by
      refine List.length_filter_lt_length_iff_exists.mpr ⟨o, ?_, by simp⟩
      simp [hmem, ho]
    omega
  · rw [if_neg hmem] at h
    have hle := List.length_filter_le (fun x => x != o) (supers.filter fun x => !loading.contains x)
    omega

theorem of_length (h : supers.length + 2 ≤ n) : Enough supers n o loading := by
  unfold Enough
  have hle := List.length_filter_le (fun x => !loading.contains x) supers
  split <;> omega

end Enough

/-- All supertypes that a provider names. -/
theorem ClassProvider.exists_supertypes (p : ClassProvider) : ∃ supers : List String,
    supers.length ≤ p.depth ∧ ∀ name parents, p.parents? name = .ok (some parents) →
      ∀ q ∈ parents, q ∈ supers := by
  obtain ⟨supers, hlen, hsupers⟩ := p.bounded
  refine ⟨supers, hlen, fun name parents hp => ?_⟩
  unfold parents? at hp
  cases hf : p.find name with
  | error e => simp [hf] at hp
  | ok c? =>
    cases c? with
    | none => simp [hf] at hp
    | some c =>
      simp only [hf] at hp
      cases hc : c.parents with
      | error e => simp [hc, Except.map] at hp
      | ok ps =>
        simp only [hc, Except.map, Except.ok.injEq, Option.some.injEq] at hp
        exact hp ▸ hsupers name c ps hf hc

/-! ## The invariant -/

/-- A provider follows a hierarchy on the owners in `S`, except that it fails on those in `F`. -/
structure ClassProvider.Follows (p : ClassProvider) (A : Ancestry) (F S : Set String) : Prop where
  closed : ∀ o ∈ S, ∀ q ∈ A.parentsOf o, q ∈ S
  fails : ∀ o ∈ S, o ∈ F → ∃ e, p.parents? o = .error e
  answers : ∀ o ∈ S, o ∉ F → p.parents? o = .ok A.parents[o]?

theorem ClassProvider.Follows.mem_of_reaches {p : ClassProvider} {A : Ancestry} {F S : Set String}
    (hp : p.Follows A F S) {o x : String} (ho : o ∈ S) (hx : A.Reaches o x) : x ∈ S := by
  induction hx with
  | refl => exact ho
  | tail _ hstep ih => exact hp.closed _ ih _ hstep

/-- An answer of the provider is what the hierarchy says. -/
theorem ClassProvider.Follows.eq_of_answer {p : ClassProvider} {A : Ancestry} {F S : Set String}
    (hp : p.Follows A F S) {o : String} (ho : o ∈ S) {parents? : Option (List String)}
    (hanswer : p.parents? o = .ok parents?) : o ∉ F ∧ A.parents[o]? = parents? := by
  by_cases hF : o ∈ F
  · obtain ⟨e, he⟩ := hp.fails o ho hF
    rw [he] at hanswer
    cases hanswer
  · rw [hp.answers o ho hF] at hanswer
    exact ⟨hF, Except.ok.inj hanswer⟩

/-- No owner in `F` is reached. -/
def Ancestry.Avoids (A : Ancestry) (F : Set String) (o : String) : Prop :=
  ∀ x ∈ F, ¬A.Reaches o x

theorem Ancestry.avoids_iff {A : Ancestry} {F : Set String} {o : String} :
    A.Avoids F o ↔ o ∉ F ∧ ∀ p ∈ A.parentsOf o, A.Avoids F p := by
  constructor
  · intro h
    refine ⟨fun ho => h o ho (Ancestry.Reaches.refl A o), fun p hp x hx hr => ?_⟩
    exact h x hx (Ancestry.reaches_iff.mpr (Or.inr ⟨p, hp, hr⟩))
  · rintro ⟨ho, hp⟩ x hx hr
    rcases Ancestry.reaches_iff.mp hr with rfl | ⟨p, hmem, hr⟩
    · exact ho hx
    · exact hp p hmem x hx hr

theorem Ancestry.avoids_of_unknown {A : Ancestry} {F : Set String} {o : String} (hF : o ∉ F)
    (ho : A.parents[o]? = none) : A.Avoids F o := by
  refine Ancestry.avoids_iff.mpr ⟨hF, ?_⟩
  rw [Ancestry.parentsOf, ho]
  exact fun p hp => absurd hp List.not_mem_nil

def Renaming.rows (n : Renaming) (kind : MemberKind) : Dict MemberRow :=
  match kind with
  | .field => n.fields
  | .method | .interfaceMethod => n.methods

namespace Hierarchy

open Resolver

variable (h : Hierarchy) (A : Ancestry) (F S : Set String)

/-- What an owner has for a key, by the hierarchy. -/
noncomputable def entry (kind : MemberKind) (key o : String) : Option String :=
  A.inherited (A.rowsOf (h.renames.rows kind)) key o

/-- Known owners in `S` have the tables that the hierarchy gives them, and nothing failed above them. -/
def Sound (r : Resolver) : Prop :=
  ∀ o ∈ S, r.cache.knows o = true → A.Avoids F o ∧
    ∀ kind key, ((r.tables kind)[o]?).bind (·[key]?) = h.entry A kind key o

/-- What loading an owner does while others are on the way. -/
def Loads (load : String → Effect Resolver Unit) (loading : List String) (o : String) : Prop :=
  ∀ r, r.loading = loading → h.Sound A F S r →
    h.Sound A F S ((load o).after r) ∧
    (o ∈ S → (∀ r', load o r = .ok () r' → A.Avoids F o ∧ r'.cache.knows o = true) ∧
      ∀ e r', load o r = .error e r' → ¬A.Avoids F o)

variable {h A F S}

/-- Forgetting owners and leaving all tables as they are keeps the invariant. -/
theorem Sound.of_tables {r r' : Resolver} (hr : h.Sound A F S r)
    (htables : ∀ kind, r'.tables kind = r.tables kind)
    (hknows : ∀ o, r'.cache.knows o = true → r.cache.knows o = true) : h.Sound A F S r' := by
  intro o ho hk
  obtain ⟨havoids, hentries⟩ := hr o ho (hknows o hk)
  refine ⟨havoids, fun kind key => ?_⟩
  rw [htables kind]
  exact hentries kind key

theorem Sound.of_cache {r r' : Resolver} (hr : h.Sound A F S r) (hc : r'.cache = r.cache) :
    h.Sound A F S r' := by
  refine hr.of_tables (fun kind => ?_) fun o hk => hc ▸ hk
  cases kind <;> simp only [Resolver.tables, hc]

/-! ## The rows of the parents -/

theorem getElem?_overrideWith (row : MemberRow) (top? : Option MemberRow) (key : String) :
    (overrideWith row top?)[key]? = (top?.bind (·[key]?)).or row[key]? := by
  cases top? with
  | none => rfl
  | some top => exact Dict.getElem?_override row top key

def rowFor (kind : MemberKind) (methods fields : MemberRow) : MemberRow :=
  match kind with
  | .field => fields
  | .method | .interfaceMethod => methods

theorem rowFor_overrideWith (kind : MemberKind) (methods fields : MemberRow) (r : Resolver) (o key : String) :
    (rowFor kind (overrideWith methods r.cache.methods[o]?) (overrideWith fields r.cache.fields[o]?))[key]?
      = (((r.tables kind)[o]?).bind (·[key]?)).or (rowFor kind methods fields)[key]? := by
  cases kind <;> exact getElem?_overrideWith _ _ _

variable {load : String → Effect Resolver Unit} {loading : List String}

/-- Loading the parents keeps the invariant, whether or not all of them could be loaded. -/
theorem sound_parentRows (hgrows : ∀ p r, Grows ∅ r ((load p).after r)) {parents : List String}
    (hloads : ∀ p ∈ parents, h.Loads A F S load loading p) :
    ∀ (methods fields : MemberRow) (r : Resolver), r.loading = loading → h.Sound A F S r →
      h.Sound A F S ((parentRows load methods fields parents).after r) := by
  induction parents with
  | nil => exact fun _ _ _ _ hr => hr
  | cons p parents ih =>
    intro methods fields r hl hr
    have hp := (hloads p List.mem_cons_self r hl hr).1
    cases hx : load p r with
    | error e r₁ =>
      have hrows : parentRows load methods fields (p :: parents) r = .error e r₁ := by
        rw [parentRows, hx]
      rw [Effect.after_of_error hrows]
      rwa [Effect.after_of_error hx] at hp
    | ok u r₁ =>
      have hrows : (parentRows load methods fields (p :: parents)).after r
          = (parentRows load (overrideWith methods r₁.cache.methods[p]?)
            (overrideWith fields r₁.cache.fields[p]?) parents).after r₁ := by
        simp only [Effect.after, parentRows, hx]
      rw [hrows]
      rw [Effect.after_of_ok hx] at hp
      have hl₁ := (hgrows p r).loading
      rw [Effect.after_of_ok hx, hl] at hl₁
      exact ih (fun q hq => hloads q (List.mem_cons_of_mem p hq)) _ _ r₁ hl₁ hp

/-- If all parents could be loaded, then the last of them that has an entry for a key decides. -/
theorem parentRows_ok (hgrows : ∀ p r, Grows ∅ r ((load p).after r)) {parents : List String}
    (hS : ∀ p ∈ parents, p ∈ S) (hloads : ∀ p ∈ parents, h.Loads A F S load loading p) :
    ∀ {methods fields methods' fields' : MemberRow} {r r' : Resolver}, r.loading = loading →
      h.Sound A F S r → parentRows load methods fields parents r = .ok (methods', fields') r' →
      (∀ p ∈ parents, A.Avoids F p) ∧ ∀ kind key, (rowFor kind methods' fields')[key]?
        = (parents.reverse.findSome? (h.entry A kind key)).or (rowFor kind methods fields)[key]? := by
  induction parents with
  | nil =>
    intro methods fields methods' fields' r r' _ _ hrows
    obtain ⟨hrows, -⟩ := EStateM.Result.ok.inj hrows
    obtain ⟨rfl, rfl⟩ := Prod.mk.inj hrows
    exact ⟨fun p hp => absurd hp List.not_mem_nil, fun kind key => rfl⟩
  | cons p parents ih =>
    intro methods fields methods' fields' r r' hl hr hrows
    obtain ⟨hsound, hresult⟩ := hloads p List.mem_cons_self r hl hr
    cases hx : load p r with
    | error e r₁ =>
      rw [parentRows, hx] at hrows
      cases hrows
    | ok u r₁ =>
      rw [parentRows, hx] at hrows
      rw [Effect.after_of_ok hx] at hsound
      have hl₁ := (hgrows p r).loading
      rw [Effect.after_of_ok hx, hl] at hl₁
      have hpS := hS p List.mem_cons_self
      obtain ⟨havoids, hknows⟩ := (hresult hpS).1 r₁ hx
      obtain ⟨hrest, hentries⟩ := ih (fun q hq => hS q (List.mem_cons_of_mem p hq))
        (fun q hq => hloads q (List.mem_cons_of_mem p hq)) hl₁ hsound hrows
      refine ⟨fun q hq => ?_, fun kind key => ?_⟩
      · rcases List.mem_cons.mp hq with rfl | hq
        · exact havoids
        · exact hrest q hq
      · rw [hentries kind key, rowFor_overrideWith, (hsound p hpS hknows).2 kind key, List.reverse_cons,
          List.findSome?_append, List.findSome?_singleton, Option.or_assoc]

/-- If a parent could not be loaded, then something failed above it. -/
theorem parentRows_error (hgrows : ∀ p r, Grows ∅ r ((load p).after r)) {parents : List String}
    (hS : ∀ p ∈ parents, p ∈ S) (hloads : ∀ p ∈ parents, h.Loads A F S load loading p) :
    ∀ {methods fields : MemberRow} {r r' : Resolver} {e : Error}, r.loading = loading →
      h.Sound A F S r → parentRows load methods fields parents r = .error e r' →
      ∃ p ∈ parents, ¬A.Avoids F p := by
  induction parents with
  | nil =>
    intro methods fields r r' e _ _ hrows
    cases hrows
  | cons p parents ih =>
    intro methods fields r r' e hl hr hrows
    obtain ⟨hsound, hresult⟩ := hloads p List.mem_cons_self r hl hr
    cases hx : load p r with
    | error e' r₁ => exact ⟨p, List.mem_cons_self, (hresult (hS p List.mem_cons_self)).2 e' r₁ hx⟩
    | ok u r₁ =>
      rw [parentRows, hx] at hrows
      rw [Effect.after_of_ok hx] at hsound
      have hl₁ := (hgrows p r).loading
      rw [Effect.after_of_ok hx, hl] at hl₁
      obtain ⟨q, hq, hfail⟩ := ih (fun q hq => hS q (List.mem_cons_of_mem p hq))
        (fun q hq => hloads q (List.mem_cons_of_mem p hq)) hl₁ hsound hrows
      exact ⟨q, List.mem_cons_of_mem p hq, hfail⟩

/-! ## Building tables -/

/-- An owner in the hierarchy has the entry of its own row, or else that of the last parent with one. -/
theorem entry_eq {o : String} {parents : List String} (ho : A.parents[o]? = some parents)
    (kind : MemberKind) (key : String) : h.entry A kind key o =
      (((h.renames.rows kind)[o]?).bind (·[key]?)).or (parents.reverse.findSome? (h.entry A kind key)) := by
  have hrow : A.rowsOf (h.renames.rows kind) o = (h.renames.rows kind)[o]? :=
    if_pos (Std.ExtTreeMap.mem_iff_isSome_getElem?.mpr (by rw [ho]; rfl))
  rw [entry, Ancestry.inherited_eq, hrow, Ancestry.parentsOf_eq ho]
  rfl

/-- An owner outside of the hierarchy has no entries, whatever its row says. -/
theorem entry_of_unknown {o : String} (ho : A.parents[o]? = none) (kind : MemberKind) (key : String) :
    h.entry A kind key o = none := by
  have hrow : A.rowsOf (h.renames.rows kind) o = none :=
    if_neg fun hmem => by simp [Std.ExtTreeMap.mem_iff_isSome_getElem?, ho] at hmem
  rw [entry, A.inherited_of_unknown ho, hrow]
  rfl

theorem Sound.record {r : Resolver} (hr : h.Sound A F S r) {o : String} {methods fields : MemberRow}
    (hown : o ∈ S → A.Avoids F o ∧
      ∀ kind key, (rowFor kind methods fields)[key]? = h.entry A kind key o) :
    h.Sound A F S (r.mapCache (·.record o methods fields)) := by
  intro x hx hk
  by_cases hxo : o = x
  · subst hxo
    obtain ⟨havoids, hentries⟩ := hown hx
    refine ⟨havoids, fun kind key => ?_⟩
    rw [← hentries kind key]
    cases kind <;> simp [Resolver.tables, mapCache, HierarchyCache.record, rowFor]
  · simp only [mapCache, knows_record, hxo, decide_false, Bool.or_false] at hk
    obtain ⟨havoids, htables⟩ := hr x hx hk
    refine ⟨havoids, fun kind key => ?_⟩
    rw [← htables kind key]
    cases kind <;>
      simp only [Resolver.tables, mapCache, HierarchyCache.record, Dict.getElem?_insert, if_neg hxo]

/-- Building the tables of an owner keeps the invariant. If the owner is in `S`, then it becomes known
unless something failed above it. -/
theorem loads_buildTables (hgrows : ∀ p r, Grows ∅ r ((load p).after r)) {o : String}
    {parents : List String} {r : Resolver} (hr : h.Sound A F S r)
    (hS : o ∈ S → o ∉ F ∧ A.parents[o]? = some parents ∧ ∀ p ∈ parents, p ∈ S)
    (hloads : ∀ p ∈ parents, h.Loads A F S load (o :: r.loading) p) :
    h.Sound A F S ((h.buildTables load o parents).after r) ∧
    (o ∈ S → (∀ r', h.buildTables load o parents r = .ok () r' →
        A.Avoids F o ∧ r'.cache.knows o = true) ∧
      ∀ e r', h.buildTables load o parents r = .error e r' → ¬A.Avoids F o) := by
  have hparentsOf (ho : o ∈ S) : A.parentsOf o = parents := Ancestry.parentsOf_eq (hS ho).2.1
  have hstart : h.Sound A F S { r with loading := o :: r.loading } := hr.of_cache rfl
  have hsound := sound_parentRows hgrows hloads ∅ ∅ _ rfl hstart
  obtain ⟨e, r₁, hp, hb⟩ | ⟨methods, fields, r₁, hp, hb⟩ := h.buildTables_cases load o parents r
  · rw [Effect.after_of_error hp] at hsound
    rw [Effect.after_of_error hb, hb]
    refine ⟨hsound.of_cache rfl, fun ho => ⟨fun r' hr' => (by cases hr'), fun e' r' _ => ?_⟩⟩
    obtain ⟨p, hmem, hfail⟩ := parentRows_error hgrows (hS ho).2.2 hloads rfl hstart hp
    exact fun havoids => hfail ((Ancestry.avoids_iff.mp havoids).2 p (hparentsOf ho ▸ hmem))
  · rw [Effect.after_of_ok hp] at hsound
    rw [Effect.after_of_ok hb, hb]
    -- The own row goes over the rows of the parents, as in the equation of `entry`.
    have hown (ho : o ∈ S) : A.Avoids F o ∧ ∀ kind key,
        (rowFor kind (overrideWith methods (h.renames.methodRow? o))
          (overrideWith fields (h.renames.fieldRow? o)))[key]? = h.entry A kind key o := by
      obtain ⟨hF, hknown, hparents⟩ := hS ho
      obtain ⟨havoids, hentries⟩ := parentRows_ok hgrows hparents hloads rfl hstart hp
      refine ⟨Ancestry.avoids_iff.mpr ⟨hF, hparentsOf ho ▸ havoids⟩, fun kind key => ?_⟩
      have hrows : (rowFor kind methods fields)[key]? = parents.reverse.findSome? (h.entry A kind key) := by
        rw [hentries kind key]
        cases kind <;> simp [rowFor]
      rw [entry_eq hknown, ← hrows]
      cases kind <;> exact getElem?_overrideWith _ _ _
    have hend : h.Sound A F S { r₁ with loading := r₁.loading.erase o } := hsound.of_cache rfl
    refine ⟨hend.record hown, fun ho => ⟨fun r' hr' => ?_, fun e r' hr' => (by cases hr')⟩⟩
    obtain ⟨-, rfl⟩ := EStateM.Result.ok.inj hr'
    exact ⟨(hown ho).1, by simp [mapCache, knows_record]⟩

/-! ## Loading and registering -/

/-- The owners on the way do not get in the way of an owner. -/
def Clear (A : Ancestry) (S : Set String) (o : String) (loading : List String) : Prop :=
  (o ∈ S → ∀ x ∈ loading, ¬A.Reaches o x) ∧ (o ∉ S → ∀ x ∈ loading, x ∉ S)

theorem Clear.parent (hf : h.provider.Follows A F S) {o p : String} (hc : Clear A S o loading)
    (hp : o ∈ S → p ∈ A.parentsOf o) : Clear A S p (o :: loading) := by
  by_cases ho : o ∈ S
  · have hp := hp ho
    refine ⟨fun _ x hx hr => ?_, fun hpS => absurd (hf.closed o ho p hp) hpS⟩
    rcases List.mem_cons.mp hx with rfl | hx
    · exact A.not_reaches_of_mem hp hr
    · exact hc.1 ho x hx (Ancestry.reaches_iff.mpr (Or.inr ⟨p, hp, hr⟩))
  · have hout (x : String) (hx : x ∈ o :: loading) : x ∉ S := by
      rcases List.mem_cons.mp hx with rfl | hx
      · exact ho
      · exact hc.2 ho x hx
    exact ⟨fun hpS x hx hr => hout x hx (hf.mem_of_reaches hpS hr), fun _ x hx => hout x hx⟩

theorem Sound.markUnresolved {r : Resolver} (hr : h.Sound A F S r) {o : String}
    (hk : r.cache.knows o = false) (hown : o ∈ S → A.Avoids F o ∧ A.parents[o]? = none) :
    h.Sound A F S (r.mapCache (·.markUnresolved o)) := by
  intro x hx hkx
  by_cases hxo : o = x
  · subst hxo
    obtain ⟨havoids, hnone⟩ := hown hx
    refine ⟨havoids, fun kind key => ?_⟩
    rw [entry_of_unknown hnone]
    simp only [HierarchyCache.knows, Bool.or_eq_false_iff, Dict.contains_eq_isSome,
      Option.isSome_eq_false_iff, Option.isNone_iff_eq_none] at hk
    cases kind <;> simp [Resolver.tables, mapCache, HierarchyCache.markUnresolved, hk]
  · simp only [mapCache, knows_markUnresolved, hxo, decide_false, Bool.or_false] at hkx
    obtain ⟨havoids, htables⟩ := hr x hx hkx
    refine ⟨havoids, fun kind key => ?_⟩
    rw [← htables kind key]
    cases kind <;> rfl

/-- An owner that is settled needs no loading. -/
theorem loads_of_settled {n : Nat} {o : String} {r : Resolver} (hclear : Clear A S o r.loading)
    (hr : h.Sound A F S r) (hs : r.settled o = true) :
    h.Sound A F S ((h.load (n + 1) o).after r) ∧
    (o ∈ S → (∀ r', h.load (n + 1) o r = .ok () r' → A.Avoids F o ∧ r'.cache.knows o = true) ∧
      ∀ e r', h.load (n + 1) o r = .error e r' → ¬A.Avoids F o) := by
  rw [Effect.after_of_ok (load_of_settled h n hs), load_of_settled h n hs]
  refine ⟨hr, fun ho => ⟨fun r' hr' => ?_, fun e r' hr' => (by cases hr')⟩⟩
  obtain ⟨-, rfl⟩ := EStateM.Result.ok.inj hr'
  simp only [Resolver.settled, Bool.or_eq_true, List.contains_iff_mem] at hs
  -- An owner in `S` is not on the way to itself, so it is settled because it is known.
  have hk := hs.resolve_right fun hmem => hclear.1 ho o hmem (Ancestry.Reaches.refl A o)
  exact ⟨(hr o ho hk).1, hk⟩

/-- **Loading.** With enough generations, loading an owner keeps the invariant, and an owner in `S` becomes
known unless something failed above it. -/
theorem loads_load (hf : h.provider.Follows A F S) {supers : List String}
    (hsupers : ∀ name parents, h.provider.parents? name = .ok (some parents) → ∀ q ∈ parents, q ∈ supers)
    (n : Nat) : ∀ (o : String) (loading : List String), Enough supers n o loading → Clear A S o loading →
      h.Loads A F S (h.load n) loading o := by
  induction n with
  | zero => exact fun o loading henough => absurd henough.pos (Nat.lt_irrefl 0)
  | succ n ih =>
    intro o loading henough hclear r hl hr
    subst hl
    by_cases hs : r.settled o = true
    · exact loads_of_settled hclear hr hs
    have hs : r.settled o = false := Bool.eq_false_iff.mpr hs
    have hload := load_of_not_settled h n hs
    simp only [Resolver.settled, Bool.or_eq_false_iff] at hs
    obtain ⟨hk, hnot⟩ := hs
    have hnot : o ∉ r.loading := by simpa using hnot
    cases hp : h.provider.parents? o with
    | error e =>
      simp only [hp] at hload
      rw [Effect.after_of_error hload, hload]
      refine ⟨hr.of_cache rfl, fun ho => ⟨fun r' hr' => (by cases hr'), fun e' r' _ havoids => ?_⟩⟩
      rw [hf.answers o ho (Ancestry.avoids_iff.mp havoids).1] at hp
      cases hp
    | ok parents? =>
      cases parents? with
      | none =>
        simp only [hp] at hload
        rw [Effect.after_of_ok hload, hload]
        have hown (ho : o ∈ S) : A.Avoids F o ∧ A.parents[o]? = none := by
          obtain ⟨hF, hnone⟩ := hf.eq_of_answer ho hp
          exact ⟨Ancestry.avoids_of_unknown hF hnone, hnone⟩
        have hcount : h.Sound A F S (r.countRequest o) := hr.of_cache rfl
        refine ⟨hcount.markUnresolved hk hown, fun ho => ⟨fun r' hr' => ?_, fun e r' hr' => (by cases hr')⟩⟩
        obtain ⟨-, rfl⟩ := EStateM.Result.ok.inj hr'
        exact ⟨(hown ho).1, by simp [mapCache, knows_markUnresolved]⟩
      | some parents =>
        simp only [hp] at hload
        have hafter : (h.load (n + 1) o).after r
            = (h.buildTables (h.load n) o parents).after (r.countRequest o) := by
          simp only [Effect.after, hload]
        rw [hafter, hload]
        refine loads_buildTables (h.grows_load n) (hr.of_cache rfl) (fun ho => ?_) fun p hmem => ?_
        · obtain ⟨hF, hknown⟩ := hf.eq_of_answer ho hp
          exact ⟨hF, hknown, fun p hmem => hf.closed o ho p (Ancestry.parentsOf_eq hknown ▸ hmem)⟩
        · -- The owner itself is on the way now, so one generation fewer is enough above it.
          exact ih p _ (henough.parent hnot (hsupers o parents hp p hmem))
            (hclear.parent hf fun ho => Ancestry.parentsOf_eq (hf.eq_of_answer ho hp).2 ▸ hmem)

theorem loads_ensureLoaded (hf : h.provider.Follows A F S) (o : String) :
    h.Loads A F S h.ensureLoaded [] o := by
  obtain ⟨supers, hlen, hsupers⟩ := h.provider.exists_supertypes
  refine loads_load hf hsupers h.generations o [] (Enough.of_length ?_) ⟨?_, ?_⟩
  · simp only [generations]
    omega
  · exact fun _ x hx => absurd hx List.not_mem_nil
  · exact fun _ x hx => absurd hx List.not_mem_nil

/-- Registering a class that is at hand, in `S` only with the supertypes that the hierarchy gives it. -/
theorem loads_register (hf : h.provider.Follows A F S) {name : String} {parents : List String}
    (hS : name ∈ S → name ∉ F ∧ A.parents[name]? = some parents) :
    h.Loads A F S (fun name => h.register name parents) [] name := by
  intro r hl hr
  obtain ⟨supers, hlen, hsupers⟩ := h.provider.exists_supertypes
  have hunmark : h.Sound A F S (r.mapCache (·.unmarkUnresolved name)) := by
    refine hr.of_tables (fun kind => ?_) fun o hk => ?_
    · cases kind <;> rfl
    · simp only [mapCache, HierarchyCache.knows, HierarchyCache.unmarkUnresolved, NameSet.contains_erase,
        Bool.or_eq_true, Bool.and_eq_true] at hk ⊢
      exact hk.imp (Or.imp id And.right) And.right
  have hclear : Clear A S name r.loading := by
    rw [hl]
    exact ⟨fun _ x hx => absurd hx List.not_mem_nil, fun _ x hx => absurd hx List.not_mem_nil⟩
  have hparentsOf (ho : name ∈ S) : A.parentsOf name = parents := Ancestry.parentsOf_eq (hS ho).2
  refine loads_buildTables (h.grows_load h.generations) hunmark (fun ho => ?_) fun p hmem => ?_
  · exact ⟨(hS ho).1, (hS ho).2, fun p hmem => hf.closed name ho p (hparentsOf ho ▸ hmem)⟩
  · refine loads_load hf hsupers h.generations p _ (Enough.of_length ?_)
      (hclear.parent hf fun ho => hparentsOf ho ▸ hmem)
    simp only [generations]
    omega

end Hierarchy

/-! ## Any sequence of calls -/

inductive ResolverCall where
  | lookup (kind : MemberKind) (owner name descriptor : String)
  | rename (kind : MemberKind) (owner name descriptor : String)
  | register (name : String) (parents : List String)

namespace ResolverCall

/-- The resolver after a call, whether or not it succeeded. -/
def run (h : Hierarchy) (r : Resolver) : ResolverCall → Resolver
  | .lookup kind owner name descriptor => (h.lookupMember kind owner name descriptor).after r
  | .rename kind owner name descriptor => (h.memberName kind owner name descriptor).after r
  | .register name parents => (h.register name parents).after r

/-- A class is only registered with the supertypes that the hierarchy gives it, and not if the provider
fails on it. -/
def Follows (A : Ancestry) (F : Set String) : ResolverCall → Prop
  | .register name parents => name ∉ F ∧ A.parents[name]? = some parents
  | _ => True

end ResolverCall

namespace Hierarchy

open Resolver

variable {h : Hierarchy} {A : Ancestry} {F S : Set String}

/-- Between calls, the invariant holds and nothing is on the way. -/
structure Settled (h : Hierarchy) (A : Ancestry) (F S : Set String) (r : Resolver) : Prop where
  sound : h.Sound A F S r
  loading : r.loading = []

theorem settled_empty : h.Settled A F S .empty := by
  refine ⟨fun o _ hk => ?_, rfl⟩
  simp [Resolver.empty, Resolver.ofCache, HierarchyCache.empty, HierarchyCache.knows] at hk

theorem Settled.lookupMember (hf : h.provider.Follows A F S) {r : Resolver} (hr : h.Settled A F S r)
    (kind : MemberKind) (o n d : String) : h.Settled A F S ((h.lookupMember kind o n d).after r) := by
  rw [after_lookupMember]
  split
  · exact hr
  · have hl : ((h.ensureLoaded o).after r).loading = r.loading := (h.grows_load h.generations o r).loading
    exact ⟨(loads_ensureLoaded hf o r hr.loading hr.sound).1, hl.trans hr.loading⟩

theorem Settled.register (hf : h.provider.Follows A F S) {r : Resolver} (hr : h.Settled A F S r)
    {name : String} {parents : List String}
    (hS : name ∈ S → name ∉ F ∧ A.parents[name]? = some parents) :
    h.Settled A F S ((h.register name parents).after r) :=
  ⟨(loads_register hf hS r hr.loading hr.sound).1,
    (h.grows_register name parents r).loading.trans hr.loading⟩

theorem Settled.asked (hf : h.provider.Follows A F S) {r r' : Resolver} (hr : h.Settled A F S r)
    (ha : h.Asked r r') : h.Settled A F S r' := by
  induction ha with
  | refl => exact hr
  | ask kind owner name descriptor _ ih =>
    rw [after_memberName]
    exact ih.lookupMember hf kind owner name descriptor

theorem Settled.run (hf : h.provider.Follows A F S) {r : Resolver} (hr : h.Settled A F S r)
    {call : ResolverCall} (hcall : call.Follows A F) : h.Settled A F S (call.run h r) := by
  cases call with
  | lookup kind o n d => exact hr.lookupMember hf kind o n d
  | rename kind o n d => exact hr.asked hf (Asked.refl.ask kind o n d)
  | register name parents => exact hr.register hf fun _ => hcall

theorem Settled.runs (hf : h.provider.Follows A F S) {calls : List ResolverCall}
    (hcalls : ∀ c ∈ calls, c.Follows A F) :
    ∀ {r : Resolver}, h.Settled A F S r → h.Settled A F S (calls.foldl (ResolverCall.run h) r) := by
  induction calls with
  | nil => exact fun hr => hr
  | cons call calls ih =>
    intro r hr
    exact ih (fun c hc => hcalls c (List.mem_cons_of_mem call hc))
      (hr.run hf (hcalls call List.mem_cons_self))

variable (h A) in
/-- What a member is called, by the hierarchy. -/
noncomputable def nameIn (kind : MemberKind) (o n d : String) : String :=
  if isArray o then n else (h.entry A kind (kind.key n d) o).getD n

/-- The names that a resolver gives between calls are those of the hierarchy. -/
theorem Settled.name_of_gives {r : Resolver} (hr : h.Settled A F S r) {kind : MemberKind}
    {o n d n' : String} (ho : o ∈ S) (hg : h.Gives r kind o n d n') : n' = h.nameIn A kind o n d := by
  unfold nameIn
  rcases gives_iff.mp hg with ⟨ha, hn⟩ | ⟨ha, hs, hn⟩
  · rw [if_pos ha, hn]
  · have hk : r.cache.knows o = true := by simpa [Resolver.settled, hr.loading] using hs
    rw [if_neg (by rw [ha]; exact Bool.false_ne_true), ← (hr.sound o ho hk).2 kind (kind.key n d), hn]
    rfl

/-- What a lookup must give by the hierarchy: nothing for arrays, a failure exactly if an owner that fails
is reached, and the inherited entry otherwise, which is none for an owner outside of the hierarchy. -/
def Answered (A : Ancestry) (F : Set String) (rows : String → Option MemberRow) (owner key : String)
    (outcome : Except Error (Option String)) : Prop :=
  (isArray owner = true → outcome = .ok none) ∧
  (isArray owner = false →
    ((∃ e, outcome = .error e) ↔ ∃ x ∈ F, A.Reaches owner x) ∧
    (owner ∉ F → A.parents[owner]? = none → outcome = .ok none) ∧
    ((∀ x ∈ F, ¬A.Reaches owner x) → outcome = .ok (A.inherited rows key owner)))

theorem answered_lookupMember (hf : h.provider.Follows A F Set.univ) {r : Resolver}
    (hr : h.Settled A F Set.univ r) (kind : MemberKind) (o n d : String) :
    Answered A F (A.rowsOf (h.renames.rows kind)) o (kind.key n d)
      ((h.lookupMember kind o n d).outcome r) := by
  unfold Effect.outcome
  rw [lookupMember_eq]
  refine ⟨fun ha => by rw [if_pos ha], fun ha => ?_⟩
  rw [if_neg (by rw [ha]; exact Bool.false_ne_true)]
  obtain ⟨hsound, hresult⟩ := loads_ensureLoaded hf o r hr.loading hr.sound
  obtain ⟨hok, herror⟩ := hresult (Set.mem_univ o)
  cases he : h.ensureLoaded o r with
  | ok u r' =>
    obtain ⟨havoids, hk⟩ := hok r' he
    rw [Effect.after_of_ok he] at hsound
    have hentry := (hsound o (Set.mem_univ o) hk).2 kind (kind.key n d)
    refine ⟨⟨fun ⟨e, hne⟩ => (by cases hne), fun ⟨x, hx, hreach⟩ => absurd hreach (havoids x hx)⟩, ?_, ?_⟩
    · intro _ hnone
      rw [entry_of_unknown hnone] at hentry
      exact congrArg Except.ok hentry
    · intro _
      exact congrArg Except.ok hentry
  | error e r' =>
    have hfail := herror e r' he
    have hreached : ∃ x ∈ F, A.Reaches o x := by
      by_contra hno
      exact hfail fun x hx hreach => hno ⟨x, hx, hreach⟩
    refine ⟨⟨fun _ => hreached, fun _ => ⟨e, rfl⟩⟩, ?_, fun havoids => absurd havoids hfail⟩
    intro hF hnone
    exact absurd (Ancestry.avoids_of_unknown hF hnone) hfail

/-- **A resolver answers as the hierarchy says**, whatever was asked before, also if some of it failed.
Only classes that the provider has, contribute: their rows are the rows that are inherited. -/
theorem answered_after_calls (hf : h.provider.Follows A F Set.univ) {calls : List ResolverCall}
    (hcalls : ∀ c ∈ calls, c.Follows A F) (owner name descriptor : String) :
    Answered A F (A.rowsOf h.renames.methods) owner (name ++ descriptor)
      ((h.lookupMethod owner name descriptor).outcome (calls.foldl (ResolverCall.run h) .empty)) ∧
    Answered A F (A.rowsOf h.renames.fields) owner (name ++ ":" ++ descriptor)
      ((h.lookupField owner name descriptor).outcome (calls.foldl (ResolverCall.run h) .empty)) := by
  have hr : h.Settled A F Set.univ (calls.foldl (ResolverCall.run h) .empty) :=
    Settled.runs hf hcalls settled_empty
  exact ⟨answered_lookupMember hf hr .method owner name descriptor,
    answered_lookupMember hf hr .field owner name descriptor⟩

/-- A class `C` with the superclass `P`. -/
def orphanBytes : Bytes :=
  [0xCA, 0xFE, 0xBA, 0xBE, 0, 0, 0, 52, 0, 5, 7, 0, 2, 1, 0, 1, 67, 7, 0, 4, 1, 0, 1, 80, 0, 33, 0, 1, 0, 3,
    0, 0, 0, 0, 0, 0, 0, 0]

/-- A provider that has `C` but not its superclass, for which there is a row all the same. -/
def orphan : Hierarchy where
  renames :=
    { classes := .empty
      methods := (∅ : Dict MemberRow).insert "P" ((∅ : Dict String).insert "m()V" "x")
      fields := ∅
      access := ∅ }
  provider := .ofFiles ((∅ : Dict Bytes).insert "C" orphanBytes)

theorem extends_orphan {c p : String}
    (hcp : Extends ((∅ : Dict (List String)).insert "C" ["P"]) c p) : c = "C" ∧ p = "P" := by
  unfold Extends at hcp
  rw [Dict.getElem?_insert] at hcp
  split at hcp
  · next hc => exact ⟨hc.symm, by simpa using hcp⟩
  · simp at hcp

def orphanAncestry : Ancestry where
  parents := (∅ : Dict (List String)).insert "C" ["P"]
  acyclic name hcycle := by
    obtain ⟨p, hfirst, -⟩ := Relation.TransGen.head'_iff.mp hcycle
    obtain ⟨c, -, hlast⟩ := Relation.TransGen.tail'_iff.mp hcycle
    have hC := (extends_orphan hfirst).1
    rw [(extends_orphan hlast).2] at hC
    exact absurd hC (by decide)

theorem follows_orphan : orphan.provider.Follows orphanAncestry ∅ Set.univ where
  closed _ _ q _ := Set.mem_univ q
  fails _ _ ho := absurd ho (Set.notMem_empty _)
  answers o _ _ := by
    have hfiles : ((∅ : Dict Bytes).insert "C" orphanBytes)[o]?
        = if "C" = o then some orphanBytes else none := by
      rw [Dict.getElem?_insert]
      simp
    have hparents : orphanAncestry.parents[o]? = if "C" = o then some ["P"] else none := by
      rw [orphanAncestry, Dict.getElem?_insert]
      simp
    have hfind : orphan.provider.find o
        = ClassProvider.classOf (if "C" = o then some orphanBytes else none) := by
      rw [← hfiles]
      rfl
    rw [hparents, ClassProvider.parents?, hfind]
    by_cases ho : "C" = o
    · simp only [if_pos ho]
      rfl
    · simp only [if_neg ho]
      rfl

/-- After some calls, the resolver of `orphan` answers by the hierarchy. -/
theorem answered_orphan : Answered orphanAncestry ∅ (orphanAncestry.rowsOf orphan.renames.methods) "C"
    ("m" ++ "()V") ((orphan.lookupMethod "C" "m" "()V").outcome
      ([.rename .method "C" "m" "()V", .register "C" ["P"]].foldl (ResolverCall.run orphan) .empty)) := by
  refine (answered_after_calls follows_orphan (fun c hc => ?_) "C" "m" "()V").1
  rcases List.mem_cons.mp hc with rfl | hc
  · trivial
  · rw [List.mem_singleton.mp hc]
    exact ⟨Set.notMem_empty _, rfl⟩

/-- The row of a class that the provider does not have is not inherited. -/
theorem not_answered_orphan : orphan.provider.Follows orphanAncestry ∅ Set.univ ∧
    ¬Answered orphanAncestry ∅ (fun o => orphan.renames.methods[o]?) "C" ("m" ++ "()V")
      ((orphan.lookupMethod "C" "m" "()V").outcome .empty) := by
  refine ⟨follows_orphan, fun hanswered => ?_⟩
  have houtcome : (orphan.lookupMethod "C" "m" "()V").outcome .empty = .ok none := rfl
  have hclaimed := (hanswered.2 rfl).2.2 fun x hx => absurd hx (Set.notMem_empty x)
  have hP : orphanAncestry.inherited (fun o => orphan.renames.methods[o]?) "m()V" "P" = some "x" := by
    rw [Ancestry.inherited_of_unknown _ rfl]
    rfl
  have hC : orphanAncestry.inherited (fun o => orphan.renames.methods[o]?) "m()V" "C" = some "x" := by
    rw [Ancestry.inherited_eq, show orphanAncestry.parentsOf "C" = ["P"] from rfl, List.reverse_singleton,
      List.findSome?_singleton, hP]
    rfl
  rw [houtcome, show "m" ++ "()V" = "m()V" from rfl, hC] at hclaimed
  exact absurd hclaimed (by simp)

end Hierarchy

end Relabel
