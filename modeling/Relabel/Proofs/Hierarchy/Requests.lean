import Relabel.Proofs.Hierarchy.Termination

/-!
# What a resolver remembers and whom it asks

Between calls a resolver knows an owner by its two tables or as missing, never both, and nothing is on the
way. Classes may contradict each other as they like, and calls may fail: a failure takes the owners on the way
off again and leaves no half of anything behind.

An owner that is settled is never asked for. As long as no call fails, every owner that was asked for gets
settled, so no owner is asked for twice, and none after it was registered. A failure is different: the owners
that were on the way when it struck were asked for and are forgotten, so the next call asks for them again.
-/

set_option autoImplicit false

namespace Relabel

/-! ## Invariants of loading -/

namespace Resolver

/-- Tables come in pairs, and so do misses; an owner with tables is not missing, nor is one on the way. -/
structure Coherent (r : Resolver) : Prop where
  tables : ∀ o, r.cache.methods.contains o = r.cache.fields.contains o
  misses : r.cache.unresolvedMethods = r.cache.unresolvedFields
  apart : ∀ o, r.cache.unresolvedMethods.contains o = true →
    r.cache.methods.contains o = false ∧ o ∉ r.loading

theorem coherent_empty : Coherent .empty := ⟨fun _ => rfl, rfl, fun o ho => by simp [empty, ofCache,
  HierarchyCache.empty] at ho⟩

theorem requestsFor_countRequest (r : Resolver) (o x : String) :
    (r.countRequest o).requestsFor x = if o = x then r.requestsFor o + 1 else r.requestsFor x := by
  simp only [requestsFor, countRequest, Dict.getElem?_insert]
  split <;> rfl

theorem settled_markUnresolved (r : Resolver) (o x : String) :
    Resolver.settled (r.mapCache (·.markUnresolved o)) x = (decide (o = x) || r.settled x) := by
  simp only [Resolver.settled, mapCache, knows_markUnresolved, Bool.or_comm (r.cache.knows x), Bool.or_assoc]

end Resolver

namespace Hierarchy

open Resolver

variable {h : Hierarchy} {load : String → Effect Resolver Unit}

/-- What loading a parent keeps is kept by loading all of them, wherever that breaks off. -/
theorem keeps_parentRows {I : Resolver → Prop} (hload : ∀ p r, I r → I ((load p).after r))
    (parents : List String) : ∀ (methods fields : MemberRow) (r : Resolver), I r →
      I ((parentRows load methods fields parents).after r) := by
  induction parents with
  | nil => exact fun _ _ _ hr => hr
  | cons p parents ih =>
    intro methods fields r hr
    have hp := hload p r hr
    cases hx : load p r with
    | error e r₁ =>
      have hrows : parentRows load methods fields (p :: parents) r = .error e r₁ := by
        rw [parentRows, hx]
      rw [Effect.after_of_error hrows]
      rwa [Effect.after_of_error hx] at hp
    | ok u r₁ =>
      have hrows : (parentRows load methods fields (p :: parents)).after r
          = (parentRows load (overrideWith methods r₁.cache.methods[p]?)
            (overrideWith fields r₁.cache.fields[p]?) parents).after r₁ := by
        simp only [Effect.after, parentRows, hx]
      rw [hrows]
      rw [Effect.after_of_ok hx] at hp
      exact ih _ _ r₁ hp

/-- What a parent that could be loaded keeps is kept if all of them could be loaded. -/
theorem keeps_parentRows_ok {I : Resolver → Prop}
    (hload : ∀ p r r', I r → load p r = .ok () r' → I r') (parents : List String) :
    ∀ {methods fields : MemberRow} {r r' : Resolver} {rows : MemberRow × MemberRow}, I r →
      parentRows load methods fields parents r = .ok rows r' → I r' := by
  induction parents with
  | nil =>
    intro methods fields r r' rows hr hrows
    obtain ⟨-, rfl⟩ := EStateM.Result.ok.inj hrows
    exact hr
  | cons p parents ih =>
    intro methods fields r r' rows hr hrows
    cases hx : load p r with
    | error e r₁ =>
      rw [parentRows, hx] at hrows
      cases hrows
    | ok u r₁ =>
      rw [parentRows, hx] at hrows
      exact ih (hload p r r₁ hr hx) hrows

/-! ## Coherence -/

theorem coherent_buildTables (hgrows : ∀ p r, Grows ∅ r ((load p).after r))
    (hload : ∀ p r, Coherent r → Coherent ((load p).after r)) {o : String} {parents : List String}
    {r : Resolver} (hr : r.Coherent) (ho : r.cache.unresolvedMethods.contains o = false) :
    ((h.buildTables load o parents).after r).Coherent := by
  have hstart : Coherent { r with loading := o :: r.loading } := by
    refine ⟨hr.tables, hr.misses, fun x hx => ⟨(hr.apart x hx).1, fun hmem => ?_⟩⟩
    rcases List.mem_cons.mp hmem with rfl | hmem
    · have hx : r.cache.unresolvedMethods.contains x = true := hx
      rw [ho] at hx
      cases hx
    · exact (hr.apart x hx).2 hmem
  have hloading := (grows_parentRows hgrows parents ∅ ∅ { r with loading := o :: r.loading }).loading
  have hrows := keeps_parentRows hload parents ∅ ∅ _ hstart
  obtain ⟨e, r₁, hp, hb⟩ | ⟨methods, fields, r₁, hp, hb⟩ := h.buildTables_cases load o parents r
  · rw [Effect.after_of_error hp] at hrows
    rw [Effect.after_of_error hb]
    exact ⟨hrows.tables, hrows.misses, fun x hx =>
      ⟨(hrows.apart x hx).1, fun hmem => (hrows.apart x hx).2 (List.mem_of_mem_erase hmem)⟩⟩
  · rw [Effect.after_of_ok hp] at hrows hloading
    rw [Effect.after_of_ok hb]
    -- The owner was on the way, so nothing called it missing in the meantime.
    refine ⟨fun x => ?_, hrows.misses, fun x hx => ⟨?_, fun hmem => ?_⟩⟩
    · simp only [mapCache, HierarchyCache.record, Dict.contains_insert]
      rw [hrows.tables x]
    · have hapart := hrows.apart x hx
      have hne : o ≠ x := fun heq => hapart.2 (heq ▸ hloading ▸ List.mem_cons_self)
      simp only [mapCache, HierarchyCache.record, Dict.contains_insert, hne, decide_false, Bool.false_or]
      exact hapart.1
    · exact (hrows.apart x hx).2 (List.mem_of_mem_erase hmem)

/-- **Loading keeps the cache coherent**, whether or not it succeeds. -/
theorem coherent_load (h : Hierarchy) (n : Nat) : ∀ (o : String) (r : Resolver), r.Coherent →
    ((h.load n o).after r).Coherent := by
  induction n with
  | zero => exact fun o r hr => hr
  | succ n ih =>
    intro o r hr
    cases hs : r.settled o with
    | true =>
      rw [Effect.after_of_ok (load_of_settled h n hs)]
      exact hr
    | false =>
      have hload := load_of_not_settled h n hs
      simp only [Resolver.settled, HierarchyCache.knows, Bool.or_eq_false_iff] at hs
      obtain ⟨⟨⟨⟨hmethods, -⟩, hmiss⟩, -⟩, hloading⟩ := hs
      have hnot : o ∉ r.loading := by simpa using hloading
      have hcount : (r.countRequest o).Coherent := ⟨hr.tables, hr.misses, hr.apart⟩
      cases hp : h.provider.parents? o with
      | error e =>
        rw [hp] at hload
        rw [Effect.after_of_error hload]
        exact hcount
      | ok parents? =>
        cases parents? with
        | none =>
          rw [hp] at hload
          rw [Effect.after_of_ok hload]
          refine ⟨hr.tables, ?_, fun x hx => ?_⟩
          · simp only [mapCache, HierarchyCache.markUnresolved]
            exact congrArg (·.insert o) hr.misses
          · simp only [mapCache, HierarchyCache.markUnresolved, NameSet.contains_insert, Bool.or_eq_true,
              decide_eq_true_eq] at hx
            rcases hx with rfl | hx
            · exact ⟨hmethods, hnot⟩
            · exact hr.apart x hx
        | some parents =>
          rw [hp] at hload
          have hafter : (h.load (n + 1) o).after r
              = (h.buildTables (h.load n) o parents).after (r.countRequest o) := by
            simp only [Effect.after, hload]
          rw [hafter]
          exact coherent_buildTables (h.grows_load n) ih hcount hmiss

theorem coherent_register (h : Hierarchy) (name : String) (parents : List String) {r : Resolver}
    (hr : r.Coherent) : ((h.register name parents).after r).Coherent := by
  have hunmark : (r.mapCache (·.unmarkUnresolved name)).Coherent := by
    refine ⟨hr.tables, congrArg (·.erase name) hr.misses, fun x hx => ?_⟩
    simp only [mapCache, HierarchyCache.unmarkUnresolved, NameSet.contains_erase, Bool.and_eq_true] at hx
    exact hr.apart x hx.2
  refine coherent_buildTables (h.grows_load h.generations) (h.coherent_load h.generations) hunmark ?_
  simp [mapCache, HierarchyCache.unmarkUnresolved]

/-! ## What loading leaves alone -/

/-- What can be seen of the owner `x`, whoever is on the way: loading another owner does not touch it. -/
structure Concerns {α : Type} (see : Resolver → α) (x : String) : Prop where
  onTheWay : ∀ (r : Resolver) (names : List String), see { r with loading := names } = see r
  request : ∀ (r : Resolver) (o : String), o ≠ x → see (r.countRequest o) = see r
  missing : ∀ (r : Resolver) (o : String), o ≠ x → see (r.mapCache (·.markUnresolved o)) = see r
  tables : ∀ (r : Resolver) (o : String) (methods fields : MemberRow), o ≠ x →
    see (r.mapCache (·.record o methods fields)) = see r

section

variable {α : Type} {see : Resolver → α} {x : String}

/-- Building tables leaves alone what is settled, and the owner up to the moment at which they are put down. -/
theorem Concerns.see_buildTables (hsee : Concerns see x) (hgrows : ∀ p r, Grows ∅ r ((load p).after r))
    (hload : ∀ p r, r.settled x = true → see ((load p).after r) = see r) {o : String} (parents : List String)
    {r : Resolver} (hx : o = x ∨ r.settled x = true)
    (hkept : (∀ r' methods fields, see (Resolver.mapCache r' (·.record o methods fields)) = see r') ∨
      ∃ e r', h.buildTables load o parents r = .error e r') :
    see ((h.buildTables load o parents).after r) = see r := by
  -- While the supertypes are loaded, the owner is on the way and so as settled as all others.
  let I (r' : Resolver) : Prop := r'.settled x = true ∧ see r' = see r
  have hI (p : String) (r' : Resolver) (hr' : I r') : I ((load p).after r') :=
    ⟨(hgrows p r').settled x (Set.notMem_empty x) hr'.1, (hload p r' hr'.1).trans hr'.2⟩
  have hstart : I { r with loading := o :: r.loading } := by
    refine ⟨?_, hsee.onTheWay r _⟩
    simp only [Resolver.settled, Bool.or_eq_true, List.contains_iff_mem] at hx ⊢
    rcases hx with rfl | hx | hx
    · exact Or.inr List.mem_cons_self
    · exact Or.inl hx
    · exact Or.inr (List.mem_cons_of_mem o hx)
  have hrows := (keeps_parentRows hI parents ∅ ∅ _ hstart).2
  obtain ⟨e, r₁, hp, hb⟩ | ⟨methods, fields, r₁, hp, hb⟩ := h.buildTables_cases load o parents r
  · rw [Effect.after_of_error hp] at hrows
    rw [Effect.after_of_error hb, hsee.onTheWay]
    exact hrows
  · rw [Effect.after_of_ok hp] at hrows
    have hkept := hkept.resolve_right (by simp [hb])
    rw [Effect.after_of_ok hb, hkept, hsee.onTheWay]
    exact hrows

/-- **Loading leaves alone what is settled**, whether or not it succeeds. -/
theorem Concerns.see_load (hsee : Concerns see x) (h : Hierarchy) (n : Nat) : ∀ (o : String) (r : Resolver),
    r.settled x = true → see ((h.load n o).after r) = see r := by
  induction n with
  | zero => exact fun o r _ => rfl
  | succ n ih =>
    intro o r hx
    cases hs : r.settled o with
    | true => rw [Effect.after_of_ok (load_of_settled h n hs)]
    | false =>
      have hload := load_of_not_settled h n hs
      have hne : o ≠ x := by
        rintro rfl
        rw [hs] at hx
        cases hx
      cases hp : h.provider.parents? o with
      | error e =>
        rw [hp] at hload
        rw [Effect.after_of_error hload, hsee.request r o hne]
      | ok parents? =>
        cases parents? with
        | none =>
          rw [hp] at hload
          rw [Effect.after_of_ok hload, hsee.missing _ o hne, hsee.request r o hne]
        | some parents =>
          rw [hp] at hload
          have hafter : (h.load (n + 1) o).after r
              = (h.buildTables (h.load n) o parents).after (r.countRequest o) := by
            simp only [Effect.after, hload]
          have hsettled : (r.countRequest o).settled x = true := hx
          rw [hafter, hsee.see_buildTables (h.grows_load n) ih parents (Or.inr hsettled)
            (Or.inl fun r' methods fields => hsee.tables r' o methods fields hne), hsee.request r o hne]

end

/-! ## Requests -/

theorem concerns_requestsFor (x : String) : Concerns (·.requestsFor x) x where
  onTheWay _ _ := rfl
  request r o hne := by rw [requestsFor_countRequest, if_neg hne]
  missing _ _ _ := rfl
  tables _ _ _ _ _ := rfl

/-- Building tables asks for no owner that is settled, nor for the one whose tables they are. -/
theorem requestsFor_buildTables (hgrows : ∀ p r, Grows ∅ r ((load p).after r)) {x : String}
    (hload : ∀ p r, r.settled x = true → ((load p).after r).requestsFor x = r.requestsFor x)
    {o : String} (parents : List String) {r : Resolver} (hx : o = x ∨ r.settled x = true) :
    ((h.buildTables load o parents).after r).requestsFor x = r.requestsFor x :=
  (concerns_requestsFor x).see_buildTables hgrows hload parents hx (Or.inl fun _ _ _ => rfl)

/-- **An owner that is settled is never asked for**, even by a load that fails. -/
theorem requestsFor_load (h : Hierarchy) {x : String} (n : Nat) (o : String) (r : Resolver)
    (hx : r.settled x = true) : ((h.load n o).after r).requestsFor x = r.requestsFor x :=
  (concerns_requestsFor x).see_load h n o r hx

theorem requestsFor_register (h : Hierarchy) {name x : String} (parents : List String) {r : Resolver}
    (hx : name = x ∨ r.settled x = true) :
    ((h.register name parents).after r).requestsFor x = r.requestsFor x := by
  have hunmark : name = x ∨ Resolver.settled (r.mapCache (·.unmarkUnresolved name)) x = true := by
    by_cases hne : name = x
    · exact Or.inl hne
    · have hs := hx.resolve_left hne
      refine Or.inr ?_
      simp only [Resolver.settled, mapCache, HierarchyCache.knows, HierarchyCache.unmarkUnresolved,
        NameSet.contains_erase, hne] at hs ⊢
      simpa using hs
  exact requestsFor_buildTables (h.grows_load h.generations) (fun p r => h.requestsFor_load h.generations p r)
    parents hunmark

/-- An owner was asked for at most once, and if it was, it is settled. -/
def AskedOnce (r : Resolver) (x : String) : Prop :=
  r.requestsFor x ≤ 1 ∧ (r.requestsFor x ≠ 0 → r.settled x = true)

/-- Tables that could be built settle their owner, whatever was asked for it before. -/
theorem askedOnce_buildTables (hgrows : ∀ p r, Grows ∅ r ((load p).after r))
    (hload : ∀ p r r', (∀ x, AskedOnce r x) → load p r = .ok () r' → ∀ x, AskedOnce r' x) {o : String}
    {parents : List String} {r r' : Resolver} (ho : r.requestsFor o ≤ 1)
    (hothers : ∀ x, o ≠ x → AskedOnce r x) (hb : h.buildTables load o parents r = .ok () r') :
    ∀ x, AskedOnce r' x := by
  have hstart : ∀ x, AskedOnce { r with loading := o :: r.loading } x := by
    intro x
    by_cases hne : o = x
    · subst hne
      exact ⟨ho, fun _ => by simp [Resolver.settled]⟩
    · obtain ⟨hle, hsettled⟩ := hothers x hne
      refine ⟨hle, fun hasked => ?_⟩
      have hs := hsettled hasked
      simp only [Resolver.settled, Bool.or_eq_true, List.contains_iff_mem] at hs ⊢
      exact hs.imp id (List.mem_cons_of_mem o)
  have hloading := (grows_parentRows hgrows parents ∅ ∅ { r with loading := o :: r.loading }).loading
  obtain ⟨e, r₁, hp, hb'⟩ | ⟨methods, fields, r₁, hp, hb'⟩ := h.buildTables_cases load o parents r
  · rw [hb'] at hb
    cases hb
  · rw [Effect.after_of_ok hp] at hloading
    have hrows := keeps_parentRows_ok hload parents hstart hp
    rw [hb'] at hb
    obtain ⟨-, rfl⟩ := EStateM.Result.ok.inj hb
    intro x
    obtain ⟨hle, hsettled⟩ := hrows x
    refine ⟨hle, fun hasked => ?_⟩
    have hs := hsettled hasked
    have hloading : r₁.loading = o :: r.loading := hloading
    simp only [Resolver.settled, mapCache, knows_record, hloading, List.erase_cons_head, Bool.or_eq_true,
      List.contains_iff_mem, decide_eq_true_eq] at hs ⊢
    rcases hs with hs | hs
    · exact Or.inl (Or.inl hs)
    · exact (List.mem_cons.mp hs).imp (fun heq => Or.inr heq.symm) id

/-- A load that succeeds settles every owner it asks for. -/
theorem askedOnce_load (h : Hierarchy) (n : Nat) : ∀ (o : String) (r r' : Resolver),
    (∀ x, AskedOnce r x) → h.load n o r = .ok () r' → ∀ x, AskedOnce r' x := by
  induction n with
  | zero =>
    intro o r r' hr hl
    obtain ⟨-, rfl⟩ := EStateM.Result.ok.inj hl
    exact hr
  | succ n ih =>
    intro o r r' hr hl
    cases hs : r.settled o with
    | true =>
      rw [load_of_settled h n hs] at hl
      obtain ⟨-, rfl⟩ := EStateM.Result.ok.inj hl
      exact hr
    | false =>
      -- An owner that is not settled was not asked for before, so this request is its first.
      have hfirst : r.requestsFor o = 0 := by
        by_contra hasked
        have hsettled := (hr o).2 hasked
        rw [hs] at hsettled
        cases hsettled
      have hothers (x : String) (hne : o ≠ x) : AskedOnce (r.countRequest o) x := by
        unfold AskedOnce
        rw [requestsFor_countRequest, if_neg hne]
        exact hr x
      have hone : (r.countRequest o).requestsFor o ≤ 1 := by
        rw [requestsFor_countRequest, if_pos rfl, hfirst]
      rw [load_of_not_settled h n hs] at hl
      cases hp : h.provider.parents? o with
      | error e =>
        rw [hp] at hl
        cases hl
      | ok parents? =>
        cases parents? with
        | none =>
          rw [hp] at hl
          obtain ⟨-, rfl⟩ := EStateM.Result.ok.inj hl
          intro x
          by_cases hne : o = x
          · subst hne
            exact ⟨hone, fun _ => by rw [settled_markUnresolved]; simp⟩
          · refine ⟨(hothers x hne).1, fun hasked => ?_⟩
            rw [settled_markUnresolved, (hothers x hne).2 hasked, Bool.or_true]
        | some parents =>
          rw [hp] at hl
          exact askedOnce_buildTables (h.grows_load n) ih hone hothers hl

theorem askedOnce_register {h : Hierarchy} {name : String} {parents : List String} {r r' : Resolver}
    (hr : ∀ x, AskedOnce r x) (hreg : h.register name parents r = .ok () r') : ∀ x, AskedOnce r' x := by
  have hname : (r.mapCache (·.unmarkUnresolved name)).requestsFor name ≤ 1 := (hr name).1
  refine askedOnce_buildTables (h.grows_load h.generations) (h.askedOnce_load h.generations) hname
    (fun x hne => ⟨(hr x).1, fun hasked => ?_⟩) hreg
  have hs := (hr x).2 hasked
  simp only [Resolver.settled, mapCache, HierarchyCache.knows, HierarchyCache.unmarkUnresolved,
    NameSet.contains_erase, hne] at hs ⊢
  simpa using hs

theorem settled_of_register {h : Hierarchy} {name : String} {parents : List String} {r r' : Resolver}
    (hreg : h.register name parents r = .ok () r') : r'.settled name = true := by
  obtain ⟨e, r₁, -, hb⟩ | ⟨methods, fields, r₁, -, hb⟩ := h.buildTables_cases (h.load h.generations) name
    parents (r.mapCache (·.unmarkUnresolved name))
  · rw [register, hb] at hreg
    cases hreg
  · rw [register, hb] at hreg
    obtain ⟨-, rfl⟩ := EStateM.Result.ok.inj hreg
    simp [Resolver.settled, mapCache, knows_record]

end Hierarchy

/-! ## Any sequence of calls -/

namespace ResolverCall

/-- A call fails. -/
def Fails (h : Hierarchy) (r : Resolver) : ResolverCall → Prop
  | .lookup kind owner name descriptor => ∃ e r', h.lookupMember kind owner name descriptor r = .error e r'
  | .rename kind owner name descriptor => ∃ e r', h.memberName kind owner name descriptor r = .error e r'
  | .register name parents => ∃ e r', h.register name parents r = .error e r'

/-- A call comes to its end without a bound. A question about an array needs no loading. -/
def Ends (h : Hierarchy) (r : Resolver) : ResolverCall → Prop
  | .lookup _ owner _ _ | .rename _ owner _ _ =>
    Hierarchy.isArray owner = true ∨ h.LoadsTo owner r (h.ensureLoaded owner r)
  | .register name parents =>
    h.BuildsTo name parents (r.mapCache (·.unmarkUnresolved name)) (h.register name parents r)

/-- A call only asks for a name. -/
def IsQuestion : ResolverCall → Prop
  | .lookup _ _ _ _ | .rename _ _ _ _ => True
  | .register _ _ => False

end ResolverCall

namespace Hierarchy

open Resolver

/-- No call of a sequence fails. -/
def Unfailing (h : Hierarchy) : Resolver → List ResolverCall → Prop
  | _, [] => True
  | r, call :: calls => ¬call.Fails h r ∧ Unfailing h (call.run h r) calls

/-- What is recorded for an owner in `r` is recorded for it in `r'`. -/
structure Remembers (r r' : Resolver) : Prop where
  knows : ∀ o, r.cache.knows o = true → r'.cache.knows o = true
  methods : ∀ o, r.cache.knows o = true → r'.cache.methods[o]? = r.cache.methods[o]?
  fields : ∀ o, r.cache.knows o = true → r'.cache.fields[o]? = r.cache.fields[o]?
  misses : ∀ o, r.cache.knows o = true →
    r'.cache.unresolvedMethods.contains o = r.cache.unresolvedMethods.contains o

variable {h : Hierarchy}

/-- In a coherent cache, a known owner is missing exactly if it has no table. -/
theorem Coherent.missing_eq {r : Resolver} (hr : r.Coherent) {o : String} (ho : r.cache.knows o = true) :
    r.cache.unresolvedMethods.contains o = !r.cache.methods[o]?.isSome := by
  rw [← Dict.contains_eq_isSome]
  simp only [HierarchyCache.knows, ← hr.tables o, ← hr.misses, Bool.or_self] at ho
  cases hmiss : r.cache.unresolvedMethods.contains o with
  | true => simp [(hr.apart o hmiss).1]
  | false =>
    rw [hmiss, Bool.or_false, Bool.or_false] at ho
    simp [ho]

theorem remembers_of_grows {r r' : Resolver} (hg : Grows ∅ r r') (hl : r.loading = []) (hr : r.Coherent)
    (hr' : r'.Coherent) : Remembers r r' := by
  have hsettled (o : String) (ho : r.cache.knows o = true) : r.settled o = true := by
    simp [Resolver.settled, ho]
  have hknows (o : String) (ho : r.cache.knows o = true) : r'.cache.knows o = true := by
    have hs := hg.settled o (Set.notMem_empty o) (hsettled o ho)
    simpa [Resolver.settled, hg.loading, hl] using hs
  refine ⟨hknows, fun o ho => hg.methods o (Set.notMem_empty o) (hsettled o ho),
    fun o ho => hg.fields o (Set.notMem_empty o) (hsettled o ho), fun o ho => ?_⟩
  rw [Coherent.missing_eq hr' (hknows o ho), Coherent.missing_eq hr ho,
    hg.methods o (Set.notMem_empty o) (hsettled o ho)]

/-! ### One call -/

theorem loading_run (call : ResolverCall) (r : Resolver) : (call.run h r).loading = r.loading := by
  cases call with
  | lookup kind o n d =>
    have hg := h.grows_memberName kind o n d r
    rw [after_memberName] at hg
    exact hg.loading
  | rename kind o n d => exact (h.grows_memberName kind o n d r).loading
  | register name parents => exact (h.grows_register name parents r).loading

theorem coherent_run (call : ResolverCall) {r : Resolver} (hr : r.Coherent) : (call.run h r).Coherent := by
  have hquestion (kind : MemberKind) (o n d : String) : ((h.lookupMember kind o n d).after r).Coherent := by
    rw [after_lookupMember]
    split
    · exact hr
    · exact h.coherent_load h.generations o r hr
  cases call with
  | lookup kind o n d => exact hquestion kind o n d
  | rename kind o n d =>
    rw [ResolverCall.run, after_memberName]
    exact hquestion kind o n d
  | register name parents => exact h.coherent_register name parents hr

theorem ends_call (h : Hierarchy) (r : Resolver) (call : ResolverCall) : call.Ends h r := by
  cases call with
  | lookup kind o n d | rename kind o n d => exact Or.inr (h.loadsTo_ensureLoaded o r)
  | register name parents => exact h.buildsTo_register name parents r

theorem grows_run_question {call : ResolverCall} (hcall : call.IsQuestion) (r : Resolver) :
    Grows ∅ r (call.run h r) := by
  cases call with
  | lookup kind o n d =>
    rw [ResolverCall.run, ← after_memberName]
    exact h.grows_memberName kind o n d r
  | rename kind o n d => exact h.grows_memberName kind o n d r
  | register name parents => exact hcall.elim

/-- A question that does not fail is about an array or loads its owner. -/
theorem ensureLoaded_of_not_fails {kind : MemberKind} {o n d : String} {r : Resolver}
    (hok : ∀ e r', h.lookupMember kind o n d r ≠ .error e r') :
    isArray o = true ∨ ∃ r', h.ensureLoaded o r = .ok () r' ∧ (h.lookupMember kind o n d).after r = r' := by
  cases ha : isArray o with
  | true => exact Or.inl rfl
  | false =>
    have hafter := h.after_lookupMember kind o n d r
    rw [lookupMember_eq] at hok
    simp only [ha, Bool.false_eq_true, if_false] at hok hafter
    cases he : h.ensureLoaded o r with
    | error e r' =>
      rw [he] at hok
      exact absurd rfl (hok e r')
    | ok u r' => exact Or.inr ⟨r', rfl, hafter.trans (Effect.after_of_ok he)⟩

theorem lookupMember_of_not_fails {kind : MemberKind} {o n d : String} {r : Resolver}
    (hok : ¬∃ e r', h.memberName kind o n d r = .error e r') :
    ∀ e r', h.lookupMember kind o n d r ≠ .error e r' := by
  intro e r' he
  refine hok ⟨e, r', ?_⟩
  rw [memberName_eq_map, he]

theorem askedOnce_run {call : ResolverCall} {r : Resolver} (hr : ∀ x, AskedOnce r x)
    (hok : ¬call.Fails h r) : ∀ x, AskedOnce (call.run h r) x := by
  have hquestion (kind : MemberKind) (o n d : String)
      (hok : ∀ e r', h.lookupMember kind o n d r ≠ .error e r') :
      ∀ x, AskedOnce ((h.lookupMember kind o n d).after r) x := by
    rcases ensureLoaded_of_not_fails hok with ha | ⟨r', he, hafter⟩
    · rw [after_lookupMember, if_pos ha]
      exact hr
    · rw [hafter]
      exact h.askedOnce_load h.generations o r r' hr he
  cases call with
  | lookup kind o n d => exact hquestion kind o n d fun e r' he => hok ⟨e, r', he⟩
  | rename kind o n d =>
    rw [ResolverCall.run, after_memberName]
    exact hquestion kind o n d (lookupMember_of_not_fails hok)
  | register name parents =>
    cases hreg : h.register name parents r with
    | error e r' => exact absurd ⟨e, r', hreg⟩ hok
    | ok u r' =>
      rw [ResolverCall.run, Effect.after_of_ok hreg]
      exact askedOnce_register hr hreg

/-- An owner stays settled unless a call that registers it fails. -/
theorem settled_run {call : ResolverCall} {r : Resolver} {x : String} (hx : r.settled x = true)
    (hok : ¬call.Fails h r) : (call.run h r).settled x = true := by
  cases call with
  | lookup kind o n d | rename kind o n d =>
    exact (grows_run_question (by trivial) r).settled x (Set.notMem_empty x) hx
  | register name parents =>
    by_cases hne : x = name
    · subst hne
      cases hreg : h.register x parents r with
      | error e r' => exact absurd ⟨e, r', hreg⟩ hok
      | ok u r' =>
        rw [ResolverCall.run, Effect.after_of_ok hreg]
        exact settled_of_register hreg
    · exact (h.grows_register name parents r).settled x hne hx

theorem requestsFor_run {call : ResolverCall} {r : Resolver} {x : String} (hx : r.settled x = true) :
    (call.run h r).requestsFor x = r.requestsFor x := by
  have hquestion (kind : MemberKind) (o n d : String) :
      ((h.lookupMember kind o n d).after r).requestsFor x = r.requestsFor x := by
    rw [after_lookupMember]
    split
    · rfl
    · exact h.requestsFor_load h.generations o r hx
  cases call with
  | lookup kind o n d => exact hquestion kind o n d
  | rename kind o n d =>
    rw [ResolverCall.run, after_memberName]
    exact hquestion kind o n d
  | register name parents => exact h.requestsFor_register parents (Or.inr hx)

/-! ### A run of calls -/

theorem coherent_runs (calls : List ResolverCall) : ∀ {r : Resolver}, r.loading = [] → r.Coherent →
    (calls.foldl (ResolverCall.run h) r).loading = [] ∧ (calls.foldl (ResolverCall.run h) r).Coherent := by
  induction calls with
  | nil => exact fun hl hr => ⟨hl, hr⟩
  | cons call calls ih => exact fun hl hr => ih ((loading_run call _).trans hl) (coherent_run call hr)

theorem unfailing_append {before rest : List ResolverCall} : ∀ {r : Resolver},
    h.Unfailing r (before ++ rest) ↔
      h.Unfailing r before ∧ h.Unfailing (before.foldl (ResolverCall.run h) r) rest := by
  induction before with
  | nil => exact fun {r} => by simp [Unfailing]
  | cons call before ih =>
    intro r
    rw [List.cons_append, Unfailing, Unfailing, ih, List.foldl_cons, and_assoc]

theorem askedOnce_runs {calls : List ResolverCall} : ∀ {r : Resolver}, (∀ x, AskedOnce r x) →
    h.Unfailing r calls → ∀ x, AskedOnce (calls.foldl (ResolverCall.run h) r) x := by
  induction calls with
  | nil => exact fun hr _ => hr
  | cons call calls ih => exact fun hr hok => ih (askedOnce_run hr hok.1) hok.2

theorem requestsFor_runs {x : String} {calls : List ResolverCall} : ∀ {r : Resolver},
    r.settled x = true → h.Unfailing r calls →
      (calls.foldl (ResolverCall.run h) r).requestsFor x = r.requestsFor x := by
  induction calls with
  | nil => exact fun _ _ => rfl
  | cons call calls ih =>
    intro r hx hok
    rw [List.foldl_cons, ih (settled_run hx hok.1) hok.2, requestsFor_run hx]

/-- No owner is asked for from its registration on. -/
theorem requestsFor_registered {before after : List ResolverCall} {name : String} {parents : List String}
    {r : Resolver} (hok : h.Unfailing r (before ++ .register name parents :: after)) :
    ((before ++ .register name parents :: after).foldl (ResolverCall.run h) r).requestsFor name
      = (before.foldl (ResolverCall.run h) r).requestsFor name := by
  obtain ⟨-, hregister, hafter⟩ := unfailing_append.mp hok
  rw [List.foldl_append, List.foldl_cons]
  generalize before.foldl (ResolverCall.run h) r = r₁ at hregister hafter ⊢
  have hsettled : (ResolverCall.run h r₁ (.register name parents)).settled name = true := by
    cases hreg : h.register name parents r₁ with
    | error e r' => exact absurd ⟨e, r', hreg⟩ hregister
    | ok u r' =>
      rw [ResolverCall.run, Effect.after_of_ok hreg]
      exact settled_of_register hreg
  rw [requestsFor_runs hsettled hafter]
  exact h.requestsFor_register parents (Or.inl rfl)

/-- **The state of a resolver after any calls**, some of which may have failed, over classes that may
contradict each other. Nothing is on the way, the cache is coherent, any further call comes to an end, and
a question changes nothing that is recorded. If no call failed, then no owner was asked for twice, and none
after it was registered. -/
theorem coherent_after_calls (h : Hierarchy) (calls : List ResolverCall) :
    (calls.foldl (ResolverCall.run h) .empty).loading = [] ∧
    (calls.foldl (ResolverCall.run h) .empty).Coherent ∧
    (∀ call : ResolverCall, call.Ends h (calls.foldl (ResolverCall.run h) .empty)) ∧
    (∀ call : ResolverCall, call.IsQuestion → Remembers (calls.foldl (ResolverCall.run h) .empty)
      (call.run h (calls.foldl (ResolverCall.run h) .empty))) ∧
    (h.Unfailing .empty calls →
      (∀ o, (calls.foldl (ResolverCall.run h) .empty).requestsFor o ≤ 1) ∧
      ∀ before name parents after, calls = before ++ .register name parents :: after →
        (calls.foldl (ResolverCall.run h) .empty).requestsFor name
          = (before.foldl (ResolverCall.run h) .empty).requestsFor name) := by
  obtain ⟨hloading, hcoherent⟩ := coherent_runs (h := h) calls (r := .empty) rfl coherent_empty
  refine ⟨hloading, hcoherent, h.ends_call _, fun call hcall => ?_, fun hok => ⟨fun o => ?_, ?_⟩⟩
  · exact remembers_of_grows (grows_run_question hcall _) hloading hcoherent (coherent_run call hcoherent)
  · have hnone (x : String) : AskedOnce .empty x := by
      simp [AskedOnce, requestsFor, Resolver.empty, ofCache]
    exact (askedOnce_runs hnone hok o).1
  · rintro before name parents after rfl
    exact requestsFor_registered hok

/-- A class `C` that is its own superclass. -/
def selfishBytes : Bytes :=
  [0xCA, 0xFE, 0xBA, 0xBE, 0, 0, 0, 52, 0, 3, 7, 0, 2, 1, 0, 1, 67, 0, 33, 0, 1, 0, 1, 0, 0, 0, 0, 0, 0, 0, 0]

/-- A provider with a cycle, which will be told otherwise. -/
def selfish : Hierarchy where
  renames := { classes := .empty, methods := ∅, fields := ∅, access := ∅ }
  provider := .ofFiles ((∅ : Dict Bytes).insert "C" selfishBytes)

/-- Calls on the cycle, with a registration that contradicts it. -/
def selfishCalls : List ResolverCall :=
  [.lookup .method "C" "m" "()V", .register "C" ["D", "C"], .rename .field "C" "f" "I"]

/-- Along the cycle, `C` is asked for once, before it is registered, and no more after that. -/
theorem requests_selfish : selfish.Unfailing .empty selfishCalls ∧
    (selfishCalls.foldl (ResolverCall.run selfish) .empty).requestsFor "C" = 1 ∧
    (∀ o, (selfishCalls.foldl (ResolverCall.run selfish) .empty).requestsFor o ≤ 1) := by
  have hok : selfish.Unfailing .empty selfishCalls := by
    refine ⟨?_, ?_, ?_, trivial⟩ <;> rintro ⟨e, r', he⟩ <;> cases he
  obtain ⟨-, -, -, -, hrequests⟩ := coherent_after_calls selfish selfishCalls
  exact ⟨hok, rfl, (hrequests hok).1⟩

end Hierarchy

end Relabel
