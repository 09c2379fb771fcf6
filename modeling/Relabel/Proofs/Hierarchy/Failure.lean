import Relabel.Proofs.Hierarchy.Requests

/-!
# What a failed call leaves

A call can break off at any depth, after supertypes have been added to the cache. Whatever was known of an owner
before stays known: loading never touches what is settled, and tables are only put down once all supertypes are
there. There is one thing that a failed call forgets. To register a class is to say that it exists, so its mark as
missing is taken away first; if its tables then cannot be built, nothing is left that says anything about the
class, and the provider is asked for it again.
-/

set_option autoImplicit false

namespace Relabel

/-- All that a cache knows about an owner: its two tables, and whether it was not found. -/
def HierarchyCache.about (c : HierarchyCache) (o : String) :
    Option MemberRow × Option MemberRow × Bool × Bool :=
  (c.methods[o]?, c.fields[o]?, c.unresolvedMethods.contains o, c.unresolvedFields.contains o)

/-- An owner is known if there is anything about it. -/
theorem HierarchyCache.knows_of_about {c c' : HierarchyCache} {o : String} (h : c'.about o = c.about o) :
    c'.knows o = c.knows o := by
  simp only [about, Prod.mk.injEq] at h
  obtain ⟨hmethods, hfields, hmissMethods, hmissFields⟩ := h
  simp only [knows, Dict.contains_eq_isSome, hmethods, hfields, hmissMethods, hmissFields]

theorem HierarchyCache.knows_of_methods {c : HierarchyCache} {o : String} {row : MemberRow}
    (h : c.methods[o]? = some row) : c.knows o = true := by
  rw [knows, Dict.contains_eq_isSome, h]
  rfl

theorem HierarchyCache.knows_of_fields {c : HierarchyCache} {o : String} {row : MemberRow}
    (h : c.fields[o]? = some row) : c.knows o = true := by
  rw [knows, Dict.contains_eq_isSome c.fields, h, Option.isSome_some, Bool.or_true]
  rfl

/-- The class that a call registers. -/
def ResolverCall.registers? : ResolverCall → Option String
  | .lookup _ _ _ _ | .rename _ _ _ _ => none
  | .register name _ => some name

namespace Hierarchy

open Resolver

variable {h : Hierarchy}

/-! ## Loading -/

theorem concerns_about (x : String) : Concerns (·.cache.about x) x where
  onTheWay _ _ := rfl
  request _ _ _ := rfl
  missing r o hne := by
    simp only [HierarchyCache.about, mapCache, HierarchyCache.markUnresolved, NameSet.contains_insert, hne,
      decide_false, Bool.false_or]
  tables r o methods fields hne := by
    simp only [HierarchyCache.about, mapCache, HierarchyCache.record, Dict.getElem?_insert, if_neg hne]

/-- **Loading never changes what is known of a settled owner**, whether or not it succeeds. -/
theorem about_load (h : Hierarchy) {x : String} (n : Nat) (o : String) (r : Resolver) (hx : r.settled x = true) :
    ((h.load n o).after r).cache.about x = r.cache.about x :=
  (concerns_about x).see_load h n o r hx

/-- Building tables changes what is known of their owner at most, and not even that if it fails. -/
theorem about_buildTables {o x : String} (parents : List String) {r : Resolver} (hx : o = x ∨ r.settled x = true)
    (hkept : o ≠ x ∨ ∃ e r', h.buildTables (h.load h.generations) o parents r = .error e r') :
    ((h.buildTables (h.load h.generations) o parents).after r).cache.about x = r.cache.about x := by
  refine (concerns_about x).see_buildTables (h.grows_load _) (h.about_load _) parents hx (hkept.imp_left ?_)
  intro hne r' methods fields
  exact (concerns_about x).tables r' o methods fields hne

/-! ## One call -/

theorem about_run_question {call : ResolverCall} (hcall : call.IsQuestion) {r : Resolver} {x : String}
    (hx : r.settled x = true) : (call.run h r).cache.about x = r.cache.about x := by
  have hquestion (kind : MemberKind) (o n d : String) :
      ((h.lookupMember kind o n d).after r).cache.about x = r.cache.about x := by
    rw [after_lookupMember]
    split
    · rfl
    · exact h.about_load h.generations o r hx
  cases call with
  | lookup kind o n d => exact hquestion kind o n d
  | rename kind o n d =>
    rw [ResolverCall.run, after_memberName]
    exact hquestion kind o n d
  | register name parents => exact hcall.elim

/-- A class that could not be registered keeps its tables and loses its mark as missing. -/
theorem about_register_self {name : String} {parents : List String} {r r' : Resolver} {e : Error}
    (hfails : h.register name parents r = .error e r') :
    r'.cache.about name = (r.cache.methods[name]?, r.cache.fields[name]?, false, false) := by
  have habout := about_buildTables (x := name) parents (Or.inl rfl) (Or.inr ⟨e, r', hfails⟩)
  rw [show (h.buildTables (h.load h.generations) name parents).after
    (r.mapCache (·.unmarkUnresolved name)) = r' from Effect.after_of_error hfails] at habout
  rw [habout]
  simp only [HierarchyCache.about, mapCache, HierarchyCache.unmarkUnresolved, NameSet.contains_erase,
    decide_true, Bool.not_true, Bool.false_and]

/-- Registering a class changes nothing that is known of another one. -/
theorem about_register_of_ne {name x : String} (hne : name ≠ x) (parents : List String) {r : Resolver}
    (hx : r.settled x = true) : ((h.register name parents).after r).cache.about x = r.cache.about x := by
  have hunmark : (r.mapCache (·.unmarkUnresolved name)).cache.about x = r.cache.about x := by
    simp only [HierarchyCache.about, mapCache, HierarchyCache.unmarkUnresolved, NameSet.contains_erase,
      hne, decide_false, Bool.not_false, Bool.true_and]
  have hsettled : (r.mapCache (·.unmarkUnresolved name)).settled x = true := by
    simp only [Resolver.settled, HierarchyCache.knows_of_about hunmark]
    exact hx
  have habout := about_buildTables (h := h) parents (Or.inr hsettled) (Or.inl hne)
  exact habout.trans hunmark

/-- A call that does not register an owner leaves it settled. -/
theorem settled_run_of_not_registers {call : ResolverCall} {r : Resolver} {x : String}
    (hx : r.settled x = true) (hcall : call.registers? ≠ some x) : (call.run h r).settled x = true := by
  cases call with
  | lookup kind o n d | rename kind o n d =>
    exact (grows_run_question (by trivial) r).settled x (Set.notMem_empty x) hx
  | register name parents =>
    refine (h.grows_register name parents r).settled x ?_ hx
    intro hmem
    exact hcall (congrArg some (Set.mem_singleton_iff.mp hmem).symm)

/-- No owner that is settled is asked for until a call registers it. -/
theorem requestsFor_runs_of_not_registers {x : String} {calls : List ResolverCall} : ∀ {r : Resolver},
    r.settled x = true → (∀ call ∈ calls, call.registers? ≠ some x) →
      (calls.foldl (ResolverCall.run h) r).requestsFor x = r.requestsFor x := by
  induction calls with
  | nil =>
    intro r hx hcalls
    rfl
  | cons call calls ih =>
    intro r hx hcalls
    have hfirst := hcalls call List.mem_cons_self
    have hrest : ∀ call ∈ calls, call.registers? ≠ some x := by
      intro c hc
      exact hcalls c (List.mem_cons_of_mem call hc)
    rw [List.foldl_cons, ih (settled_run_of_not_registers hx hfirst) hrest, requestsFor_run hx]

/-- An owner of which nothing is known is asked for by the next question about its members. -/
theorem requestsFor_lookup_of_not_settled {kind : MemberKind} {o n d : String} {r : Resolver}
    (harray : isArray o = false) (hs : r.settled o = false) :
    ((h.lookupMember kind o n d).after r).requestsFor o = r.requestsFor o + 1 := by
  have hcount : (r.countRequest o).requestsFor o = r.requestsFor o + 1 := by
    rw [requestsFor_countRequest, if_pos rfl]
  have hload := load_of_not_settled h (h.provider.depth + 1) hs
  rw [after_lookupMember, harray, if_neg Bool.false_ne_true, ensureLoaded, generations, ← hcount]
  cases hp : h.provider.parents? o with
  | error e =>
    rw [hp] at hload
    rw [Effect.after_of_error hload]
  | ok parents? =>
    cases parents? with
    | none =>
      rw [hp] at hload
      rw [Effect.after_of_ok hload]
      rfl
    | some parents =>
      rw [hp] at hload
      have hafter : (h.load (h.provider.depth + 2) o).after r
          = (h.buildTables (h.load (h.provider.depth + 1)) o parents).after (r.countRequest o) := by
        simp only [Effect.after, hload]
      rw [hafter]
      exact requestsFor_buildTables (h.grows_load _) (fun p r => h.requestsFor_load _ p r) parents (Or.inl rfl)

theorem loading_runs (calls : List ResolverCall) (r : Resolver) :
    (calls.foldl (ResolverCall.run h) r).loading = r.loading := by
  induction calls generalizing r with
  | nil => rfl
  | cons call calls ih => rw [List.foldl_cons, ih, loading_run]

/-! ## What is left -/

/-- All tables are kept, and so are all marks of missing owners but that of one class. -/
structure Retains (forgotten? : Option String) (r r' : Resolver) : Prop where
  methods : ∀ (o : String) (row : MemberRow), r.cache.methods[o]? = some row → r'.cache.methods[o]? = some row
  fields : ∀ (o : String) (row : MemberRow), r.cache.fields[o]? = some row → r'.cache.fields[o]? = some row
  missingMethods : ∀ o, r.cache.unresolvedMethods.contains o = true →
    (r'.cache.unresolvedMethods.contains o = true ↔ forgotten? ≠ some o)
  missingFields : ∀ o, r.cache.unresolvedFields.contains o = true →
    (r'.cache.unresolvedFields.contains o = true ↔ forgotten? ≠ some o)

/-- What is known of an owner after a failed call: its tables, and its mark if the call was not to register it. -/
theorem about_run_of_fails {call : ResolverCall} {r : Resolver} (hfails : call.Fails h r) {o : String}
    (ho : r.cache.knows o = true) : (call.run h r).cache.about o = (r.cache.methods[o]?, r.cache.fields[o]?,
      r.cache.unresolvedMethods.contains o && decide (call.registers? ≠ some o),
      r.cache.unresolvedFields.contains o && decide (call.registers? ≠ some o)) := by
  have hs : r.settled o = true := by
    simp [Resolver.settled, ho]
  cases call with
  | lookup kind x n d | rename kind x n d =>
    rw [about_run_question (by trivial) hs]
    simp only [HierarchyCache.about, ResolverCall.registers?, ne_eq, reduceCtorEq, not_false_eq_true, decide_true,
      Bool.and_true]
  | register name parents =>
    obtain ⟨e, r', hfails⟩ := hfails
    by_cases hname : name = o
    · subst hname
      rw [ResolverCall.run, Effect.after_of_error hfails, about_register_self hfails]
      simp only [ResolverCall.registers?, ne_eq, not_true_eq_false, decide_false, Bool.and_false]
    · rw [ResolverCall.run, about_register_of_ne hname parents hs]
      simp only [HierarchyCache.about, ResolverCall.registers?, ne_eq, Option.some.injEq, hname, not_false_eq_true,
        decide_true, Bool.and_true]

theorem retains_of_fails {call : ResolverCall} {r : Resolver} (hfails : call.Fails h r) :
    Retains call.registers? r (call.run h r) := by
  refine ⟨?_, ?_, ?_, ?_⟩
  · intro o row hrow
    rw [← hrow]
    exact congrArg Prod.fst (about_run_of_fails hfails (HierarchyCache.knows_of_methods hrow))
  · intro o row hrow
    rw [← hrow]
    exact congrArg (fun about => about.2.1) (about_run_of_fails hfails (HierarchyCache.knows_of_fields hrow))
  · intro o hmissing
    have hknows : r.cache.knows o = true := by
      simp only [HierarchyCache.knows, hmissing, Bool.or_true, Bool.true_or]
    have hmark := congrArg (fun about => about.2.2.1) (about_run_of_fails hfails hknows)
    simp only [HierarchyCache.about, hmissing, Bool.true_and] at hmark
    rw [hmark, decide_eq_true_eq]
  · intro o hmissing
    have hknows : r.cache.knows o = true := by
      simp only [HierarchyCache.knows, hmissing, Bool.or_true]
    have hmark := congrArg (fun about => about.2.2.2) (about_run_of_fails hfails hknows)
    simp only [HierarchyCache.about, hmissing, Bool.true_and] at hmark
    rw [hmark, decide_eq_true_eq]

/-- A class that could not be registered and has no tables is not settled any more. -/
theorem not_settled_of_register_fails {name : String} {parents : List String} {r r' : Resolver} {e : Error}
    (hfails : h.register name parents r = .error e r') (hloading : name ∉ r.loading)
    (hmethods : r.cache.methods[name]? = none) (hfields : r.cache.fields[name]? = none) :
    r'.settled name = false := by
  have habout := about_register_self hfails
  simp only [HierarchyCache.about, hmethods, hfields, Prod.mk.injEq] at habout
  have hleft : r'.loading = r.loading := by
    rw [← (h.grows_register name parents r).loading, Effect.after_of_error hfails]
  simp [Resolver.settled, HierarchyCache.knows, Dict.contains_eq_isSome, habout, hleft, hloading]

/-- **A failed call forgets nothing but the mark of the class that it was to register.** Every owner keeps its
tables, and every other owner that was not found is still known to be missing and is not asked for again, by this
call or by any later one, until a call registers it. A class that had no tables when it could not be registered is
asked for by the next question about it, even if it was known to be missing. -/
theorem retains_after_failure {cache : HierarchyCache} {calls : List ResolverCall} {r : Resolver}
    (hr : calls.foldl (ResolverCall.run h) (.ofCache cache) = r) {call : ResolverCall} (hfails : call.Fails h r) :
    Retains call.registers? r (call.run h r) ∧
    (∀ (later : List ResolverCall) (o : String), r.cache.unresolvedMethods.contains o = true →
      (∀ c ∈ call :: later, c.registers? ≠ some o) →
        ((call :: later).foldl (ResolverCall.run h) r).requestsFor o = r.requestsFor o) ∧
    ∀ name, call.registers? = some name → r.cache.methods[name]? = none → r.cache.fields[name]? = none →
      isArray name = false → ∀ kind n d, ((h.lookupMember kind name n d).after (call.run h r)).requestsFor name
        = (call.run h r).requestsFor name + 1 := by
  refine ⟨retains_of_fails hfails, ?_, ?_⟩
  · intro later o hmiss hcalls
    have hsettled : r.settled o = true := by
      simp [Resolver.settled, HierarchyCache.knows, hmiss]
    exact requestsFor_runs_of_not_registers hsettled hcalls
  · intro name hname hmethods hfields harray kind n d
    refine requestsFor_lookup_of_not_settled harray ?_
    cases call with
    | lookup kind o n d | rename kind o n d => cases hname
    | register o parents =>
      obtain rfl : o = name := Option.some.inj hname
      obtain ⟨e, r', hfails⟩ := hfails
      have hloading : r.loading = [] := by
        rw [← hr, loading_runs]
        rfl
      rw [ResolverCall.run, Effect.after_of_error hfails]
      exact not_settled_of_register_fails hfails (by simp [hloading]) hmethods hfields

/-- A provider that fails on `B` and has no other class. -/
def broken : Hierarchy where
  renames := { classes := .empty, methods := ∅, fields := ∅, access := ∅ }
  provider := .ofFiles ((∅ : Dict Bytes).insert "B" [0])

/-- Questions about two classes that the provider does not have. -/
def brokenCalls : List ResolverCall := [.lookup .method "A" "m" "()V", .rename .field "C" "f" "I"]

/-- To register `A` below `B` fails. Then `C` is still known to be missing, and `A` is asked for once more. -/
theorem retains_broken :
    (ResolverCall.register "A" ["B"]).Fails broken (brokenCalls.foldl (ResolverCall.run broken) .empty) ∧
    (brokenCalls.foldl (ResolverCall.run broken) .empty).cache.unresolvedMethods.contains "A" = true ∧
    Retains (some "A") (brokenCalls.foldl (ResolverCall.run broken) .empty)
      ((ResolverCall.register "A" ["B"]).run broken (brokenCalls.foldl (ResolverCall.run broken) .empty)) ∧
    ([ResolverCall.register "A" ["B"], .lookup .method "C" "m" "()V"].foldl (ResolverCall.run broken)
      (brokenCalls.foldl (ResolverCall.run broken) .empty)).requestsFor "C" = 1 ∧
    ([ResolverCall.register "A" ["B"], .lookup .method "A" "m" "()V"].foldl (ResolverCall.run broken)
      (brokenCalls.foldl (ResolverCall.run broken) .empty)).requestsFor "A" = 2 := by
  have hfails : (ResolverCall.register "A" ["B"]).Fails broken
      (brokenCalls.foldl (ResolverCall.run broken) .empty) := ⟨_, _, rfl⟩
  have hcalls : brokenCalls.foldl (ResolverCall.run broken) (.ofCache .empty)
      = brokenCalls.foldl (ResolverCall.run broken) .empty := rfl
  obtain ⟨hretains, hkept, hasked⟩ := retains_after_failure hcalls hfails
  refine ⟨hfails, rfl, hretains, ?_, ?_⟩
  · exact hkept [.lookup .method "C" "m" "()V"] "C" rfl (by simp [ResolverCall.registers?])
  · exact hasked "A" rfl rfl rfl (by decide) .method "m" "()V"

end Hierarchy

end Relabel
