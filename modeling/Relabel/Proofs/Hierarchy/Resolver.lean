import Mathlib.Data.Set.Insert
import Relabel.Hierarchy.Resolver
import Relabel.Proofs.Dict
import Relabel.Proofs.Effect

/-!
# What a resolver remembers stays

An owner is *settled* once it has a table, was not found, or is on the way. Loading leaves settled owners
alone, so a table that was used once is the table that is used ever after; only `register` builds a
table again, and only that of the class it registers. `Grows X` is this frame condition with the owners in
`X` excepted, and it holds whether or not the call succeeds.

From it follows that the name a resolver gives for a member is a property of its state: `Gives` says that
asking gives this name and changes nothing, an answered question leaves a state in which it is so, and
growing keeps it so.
-/

set_option autoImplicit false

namespace Relabel

/-- What a provider says about the supertypes of a class. -/
def ClassProvider.parents? (p : ClassProvider) (name : String) : Except Error (Option (List String)) :=
  match p.find name with
  | .error e => .error e
  | .ok none => .ok none
  | .ok (some c) => c.parents.map some

theorem NameSet.contains_insert (s : NameSet) (k k' : String) :
    (s.insert k).contains k' = (decide (k = k') || s.contains k') := by
  rw [Std.ExtTreeSet.contains_insert]
  by_cases h : k = k'
  · subst h; simp
  · simp [h, beq_eq_false_iff_ne.mpr (fun hc => h (Std.compare_eq_iff_eq.mp hc))]

theorem NameSet.contains_erase (s : NameSet) (k k' : String) :
    (s.erase k).contains k' = (!decide (k = k') && s.contains k') := by
  rw [Std.ExtTreeSet.contains_erase]
  by_cases h : k = k'
  · subst h; simp
  · simp [h, beq_eq_false_iff_ne.mpr (fun hc => h (Std.compare_eq_iff_eq.mp hc)), bne]

namespace Resolver

/-- An owner that loading leaves alone. -/
def settled (r : Resolver) (owner : String) : Bool :=
  r.cache.knows owner || r.loading.contains owner

/-- The tables of settled owners outside `X` stay. -/
structure Grows (X : Set String) (r r' : Resolver) : Prop where
  loading : r'.loading = r.loading
  settled : ∀ o ∉ X, r.settled o = true → r'.settled o = true
  methods : ∀ o ∉ X, r.settled o = true → r'.cache.methods[o]? = r.cache.methods[o]?
  fields : ∀ o ∉ X, r.settled o = true → r'.cache.fields[o]? = r.cache.fields[o]?

namespace Grows

variable {X Y : Set String} {r r' r'' : Resolver}

theorem refl (X : Set String) (r : Resolver) : Grows X r r :=
  ⟨rfl, fun _ _ h => h, fun _ _ _ => rfl, fun _ _ _ => rfl⟩

theorem mono (h : Grows X r r') (hXY : X ⊆ Y) : Grows Y r r' where
  loading := h.loading
  settled o ho := h.settled o fun hX => ho (hXY hX)
  methods o ho := h.methods o fun hX => ho (hXY hX)
  fields o ho := h.fields o fun hX => ho (hXY hX)

theorem trans (h₁ : Grows X r r') (h₂ : Grows Y r' r'') : Grows (X ∪ Y) r r'' where
  loading := h₂.loading.trans h₁.loading
  settled o ho hs :=
    h₂.settled o (fun hY => ho (Or.inr hY)) (h₁.settled o (fun hX => ho (Or.inl hX)) hs)
  methods o ho hs := by
    rw [h₂.methods o (fun hY => ho (Or.inr hY)) (h₁.settled o (fun hX => ho (Or.inl hX)) hs),
      h₁.methods o (fun hX => ho (Or.inl hX)) hs]
  fields o ho hs := by
    rw [h₂.fields o (fun hY => ho (Or.inr hY)) (h₁.settled o (fun hX => ho (Or.inl hX)) hs),
      h₁.fields o (fun hX => ho (Or.inl hX)) hs]

theorem trans_same (h₁ : Grows X r r') (h₂ : Grows X r' r'') : Grows X r r'' := by
  simpa using h₁.trans h₂

end Grows

theorem knows_markUnresolved (c : HierarchyCache) (owner o : String) :
    (c.markUnresolved owner).knows o = (c.knows o || decide (owner = o)) := by
  unfold HierarchyCache.knows HierarchyCache.markUnresolved
  rw [NameSet.contains_insert, NameSet.contains_insert]
  by_cases h : owner = o
  · subst h; simp
  · simp [h]

theorem knows_record (c : HierarchyCache) (owner o : String) (methods fields : MemberRow) :
    (c.record owner methods fields).knows o = (c.knows o || decide (owner = o)) := by
  unfold HierarchyCache.knows HierarchyCache.record
  rw [Dict.contains_insert, Dict.contains_insert]
  by_cases h : owner = o
  · subst h; simp
  · simp [h]

end Resolver

namespace Hierarchy

open Resolver

/-! ## What loading can do -/

theorem load_of_settled (h : Hierarchy) (n : Nat) {o : String} {r : Resolver} (hs : r.settled o = true) :
    h.load (n + 1) o r = .ok () r := by
  unfold load
  exact if_pos hs

/-- Any other owner is asked for, and the answer of the provider decides. -/
theorem load_of_not_settled (h : Hierarchy) (n : Nat) {o : String} {r : Resolver}
    (hs : r.settled o = false) : h.load (n + 1) o r =
      match h.provider.parents? o with
      | .error e => .error e (r.countRequest o)
      | .ok none => .ok () ((r.countRequest o).mapCache (·.markUnresolved o))
      | .ok (some parents) => h.buildTables (h.load n) o parents (r.countRequest o) := by
  have hs' : ¬(r.cache.knows o || r.loading.contains o) = true := Bool.eq_false_iff.mp hs
  rw [load, if_neg hs', ClassProvider.parents?]
  cases h.provider.find o with
  | error e => rfl
  | ok c? =>
    cases c? with
    | none => rfl
    | some c =>
      dsimp only
      cases c.parents <;> rfl

/-- A table is built from the rows of the parents, during which the owner is on the way. -/
theorem buildTables_cases (h : Hierarchy) (load : String → Effect Resolver Unit) (o : String)
    (parents : List String) (r : Resolver) :
    (∃ e r₁, parentRows load ∅ ∅ parents { r with loading := o :: r.loading } = .error e r₁ ∧
      h.buildTables load o parents r = .error e { r₁ with loading := r₁.loading.erase o }) ∨
    (∃ methods fields r₁,
      parentRows load ∅ ∅ parents { r with loading := o :: r.loading } = .ok (methods, fields) r₁ ∧
      h.buildTables load o parents r =
        .ok () (({ r₁ with loading := r₁.loading.erase o } : Resolver).mapCache fun c =>
          c.record o (overrideWith methods (h.renames.methodRow? o))
            (overrideWith fields (h.renames.fieldRow? o)))) := by
  cases hp : parentRows load ∅ ∅ parents { r with loading := o :: r.loading } with
  | error e r₁ => exact Or.inl ⟨e, r₁, rfl, by simp only [buildTables, hp]⟩
  | ok rows r₁ =>
    obtain ⟨methods, fields⟩ := rows
    exact Or.inr ⟨methods, fields, r₁, rfl, by simp only [buildTables, hp]⟩

/-! ## The frame -/

theorem grows_parentRows {load : String → Effect Resolver Unit}
    (hload : ∀ p r, Grows ∅ r ((load p).after r)) (parents : List String) :
    ∀ (methods fields : MemberRow) (r : Resolver),
      Grows ∅ r ((parentRows load methods fields parents).after r) := by
  induction parents with
  | nil => exact fun _ _ r => Grows.refl ∅ r
  | cons p parents ih =>
    intro methods fields r
    have hp := hload p r
    cases hl : load p r with
    | error e r₁ =>
      rw [Effect.after_of_error hl] at hp
      have hrows : parentRows load methods fields (p :: parents) r = .error e r₁ := by
        rw [parentRows, hl]
      rw [Effect.after_of_error hrows]
      exact hp
    | ok u r₁ =>
      rw [Effect.after_of_ok hl] at hp
      have hrows : (parentRows load methods fields (p :: parents)).after r
          = (parentRows load (overrideWith methods r₁.cache.methods[p]?)
            (overrideWith fields r₁.cache.fields[p]?) parents).after r₁ := by
        simp only [Effect.after, parentRows, hl]
      rw [hrows]
      exact hp.trans_same (ih _ _ r₁)

/-- Building the tables of an owner keeps those of all others. -/
theorem grows_buildTables (h : Hierarchy) {load : String → Effect Resolver Unit}
    (hload : ∀ p r, Grows ∅ r ((load p).after r)) (o : String) (parents : List String) (r : Resolver) :
    Grows {o} r ((h.buildTables load o parents).after r) := by
  have hrows := grows_parentRows hload parents ∅ ∅ { r with loading := o :: r.loading }
  have hbegin (x : String) (hx : r.settled x = true) :
      Resolver.settled { r with loading := o :: r.loading } x = true := by
    simp only [Resolver.settled, Bool.or_eq_true, List.contains_iff_mem] at hx ⊢
    exact hx.imp id (List.mem_cons_of_mem o)
  -- Whatever happened to the parents, `o` alone is taken off the way again.
  have hend {r₁ : Resolver} (hg : Grows ∅ { r with loading := o :: r.loading } r₁) :
      Grows {o} r { r₁ with loading := r₁.loading.erase o } := by
    have hloading : r₁.loading = o :: r.loading := hg.loading
    refine ⟨by simp [hloading], fun x hx hs => ?_, fun x _ hs => ?_, fun x _ hs => ?_⟩
    · have hs := hg.settled x (by simp) (hbegin x hs)
      simp only [Resolver.settled, hloading, Bool.or_eq_true, List.contains_iff_mem,
        List.erase_cons_head] at hs ⊢
      exact hs.imp id fun hmem => (List.mem_cons.mp hmem).resolve_left hx
    · exact hg.methods x (by simp) (hbegin x hs)
    · exact hg.fields x (by simp) (hbegin x hs)
  obtain ⟨e, r₁, hp, hb⟩ | ⟨methods, fields, r₁, hp, hb⟩ := h.buildTables_cases load o parents r
  · rw [Effect.after_of_error hp] at hrows
    rw [Effect.after_of_error hb]
    exact hend hrows
  · rw [Effect.after_of_ok hp] at hrows
    rw [Effect.after_of_ok hb]
    have hg := hend hrows
    refine ⟨hg.loading, fun x hx hs => ?_, fun x hx hs => ?_, fun x hx hs => ?_⟩
    · have hs := hg.settled x hx hs
      simp only [Resolver.settled, mapCache, knows_record, Bool.or_eq_true] at hs ⊢
      exact hs.imp Or.inl id
    · rw [← hg.methods x hx hs]
      simp only [mapCache, HierarchyCache.record]
      rw [Dict.getElem?_insert, if_neg fun h => hx h.symm]
    · rw [← hg.fields x hx hs]
      simp only [mapCache, HierarchyCache.record]
      rw [Dict.getElem?_insert, if_neg fun h => hx h.symm]

/-- **Loading leaves settled owners alone**, whether or not it succeeds. -/
theorem grows_load (h : Hierarchy) (n : Nat) : ∀ (o : String) (r : Resolver),
    Grows ∅ r ((h.load n o).after r) := by
  induction n with
  | zero => exact fun o r => Grows.refl ∅ r
  | succ n ih =>
    intro o r
    cases hs : r.settled o with
    | true =>
      rw [Effect.after_of_ok (load_of_settled h n hs)]
      exact Grows.refl ∅ r
    | false =>
      have hload := load_of_not_settled h n hs
      -- The owner was not settled, so its own tables do not matter.
      have hne (x : String) (hx : r.settled x = true) : x ≠ o := by
        rintro rfl
        rw [hs] at hx
        cases hx
      cases hp : h.provider.parents? o with
      | error e =>
        rw [hp] at hload
        rw [Effect.after_of_error hload]
        exact ⟨rfl, fun _ _ hx => hx, fun _ _ _ => rfl, fun _ _ _ => rfl⟩
      | ok parents? =>
        cases parents? with
        | none =>
          rw [hp] at hload
          rw [Effect.after_of_ok hload]
          refine ⟨rfl, fun x _ hx => ?_, fun _ _ _ => rfl, fun _ _ _ => rfl⟩
          simp only [Resolver.settled, mapCache, countRequest, knows_markUnresolved,
            Bool.or_eq_true] at hx ⊢
          exact hx.imp Or.inl id
        | some parents =>
          rw [hp] at hload
          have hb := h.grows_buildTables ih o parents (r.countRequest o)
          have hafter : (h.load (n + 1) o).after r
              = (h.buildTables (h.load n) o parents).after (r.countRequest o) := by
            simp only [Effect.after, hload]
          rw [hafter]
          exact ⟨hb.loading, fun x _ hx => hb.settled x (hne x hx) hx,
            fun x _ hx => hb.methods x (hne x hx) hx, fun x _ hx => hb.fields x (hne x hx) hx⟩

/-- Registering a class builds its own tables again and leaves all others alone. -/
theorem grows_register (h : Hierarchy) (name : String) (parents : List String) (r : Resolver) :
    Grows {name} r ((h.register name parents).after r) := by
  have hunmark : Grows {name} r (r.mapCache (·.unmarkUnresolved name)) := by
    refine ⟨rfl, fun x hx hs => ?_, fun _ _ _ => rfl, fun _ _ _ => rfl⟩
    have hne : ¬name = x := fun hn => hx hn.symm
    simp only [Resolver.settled, mapCache, HierarchyCache.knows, HierarchyCache.unmarkUnresolved,
      NameSet.contains_erase, hne] at hs ⊢
    simpa using hs
  exact hunmark.trans_same (h.grows_buildTables (h.grows_load h.generations) name parents _)

theorem settled_of_load {h : Hierarchy} {n : Nat} {o : String} {r r' : Resolver}
    (hl : h.load (n + 1) o r = .ok () r') : r'.settled o = true := by
  cases hs : r.settled o with
  | true =>
    rw [load_of_settled h n hs] at hl
    obtain ⟨-, rfl⟩ := EStateM.Result.ok.inj hl
    exact hs
  | false =>
    rw [load_of_not_settled h n hs] at hl
    split at hl
    · cases hl
    · obtain ⟨-, rfl⟩ := EStateM.Result.ok.inj hl
      simp [Resolver.settled, mapCache, knows_markUnresolved]
    · obtain ⟨e, r₁, -, hb⟩ | ⟨methods, fields, r₁, -, hb⟩ :=
        h.buildTables_cases (h.load n) o _ (r.countRequest o)
      · rw [hb] at hl
        cases hl
      · rw [hb] at hl
        obtain ⟨-, rfl⟩ := EStateM.Result.ok.inj hl
        simp [Resolver.settled, mapCache, knows_record]

/-! ## Names -/

/-- What renaming does to the name of a member, asked for by the kind of reference. -/
def lookupMember (h : Hierarchy) (kind : MemberKind) (owner name descriptor : String) :
    Effect Resolver (Option String) :=
  match kind with
  | .field => h.lookupField owner name descriptor
  | .method | .interfaceMethod => h.lookupMethod owner name descriptor

/-- The name of a member after renaming, asked for by the kind of reference. -/
def memberName (h : Hierarchy) (kind : MemberKind) (owner name descriptor : String) :
    Effect Resolver String :=
  match kind with
  | .field => h.fieldName owner name descriptor
  | .method | .interfaceMethod => h.methodName owner name descriptor

end Hierarchy

def MemberKind.key (kind : MemberKind) (name descriptor : String) : String :=
  match kind with
  | .field => ClassRecord.fieldKey name descriptor
  | .method | .interfaceMethod => ClassRecord.methodKey name descriptor

namespace Resolver

def tables (r : Resolver) (kind : MemberKind) : Dict MemberRow :=
  match kind with
  | .field => r.cache.fields
  | .method | .interfaceMethod => r.cache.methods

def renamed? (r : Resolver) (kind : MemberKind) (owner name descriptor : String) : Option String :=
  ((r.tables kind)[owner]?).bind fun row => row[kind.key name descriptor]?

theorem Grows.tables {X : Set String} {r r' : Resolver} (hg : Grows X r r') {o : String} (ho : o ∉ X)
    (hs : r.settled o = true) (kind : MemberKind) : (r'.tables kind)[o]? = (r.tables kind)[o]? := by
  cases kind with
  | field => exact hg.fields o ho hs
  | method | interfaceMethod => exact hg.methods o ho hs

end Resolver

namespace Hierarchy

open Resolver

/-- A name is looked up in the tables once the owner is loaded; arrays have no members to rename. -/
theorem lookupMember_eq (h : Hierarchy) (kind : MemberKind) (o n d : String) (r : Resolver) :
    h.lookupMember kind o n d r =
      if isArray o then .ok none r
      else match h.ensureLoaded o r with
        | .ok () r' => .ok (r'.renamed? kind o n d) r'
        | .error e r' => .error e r' := by
  have hbind (f : Resolver → Option String) : (do h.ensureLoaded o; return f (← get)) r
      = match h.ensureLoaded o r with
        | .ok () r' => .ok (f r') r'
        | .error e r' => .error e r' := by
    change EStateM.bind _ _ r = _
    unfold EStateM.bind
    cases h.ensureLoaded o r <;> rfl
  cases kind
  all_goals
    dsimp only [lookupMember, lookupField, lookupMethod]
    split
    · rfl
    · exact hbind _

theorem memberName_eq_map (h : Hierarchy) (kind : MemberKind) (o n d : String) (r : Resolver) :
    h.memberName kind o n d r = match h.lookupMember kind o n d r with
      | .ok new? r' => .ok (new?.getD n) r'
      | .error e r' => .error e r' := by
  cases kind
  all_goals
    dsimp only [memberName, lookupMember, fieldName, methodName]
    change EStateM.bind _ _ r = _
    unfold EStateM.bind
    first
    | cases h.lookupField o n d r <;> rfl
    | cases h.lookupMethod o n d r <;> rfl

/-- Looking up a member does to a resolver what loading its owner does. -/
theorem after_lookupMember (h : Hierarchy) (kind : MemberKind) (o n d : String) (r : Resolver) :
    (h.lookupMember kind o n d).after r = if isArray o then r else (h.ensureLoaded o).after r := by
  unfold Effect.after
  rw [lookupMember_eq]
  by_cases ha : isArray o = true
  · simp only [if_pos ha]
  · simp only [if_neg ha]
    cases h.ensureLoaded o r <;> rfl

theorem after_memberName (h : Hierarchy) (kind : MemberKind) (o n d : String) (r : Resolver) :
    (h.memberName kind o n d).after r = (h.lookupMember kind o n d).after r := by
  unfold Effect.after
  rw [memberName_eq_map]
  cases h.lookupMember kind o n d r <;> rfl

/-- Asking for the name of a member changes nothing but what is loaded. -/
theorem grows_memberName (h : Hierarchy) (kind : MemberKind) (o n d : String) (r : Resolver) :
    Grows ∅ r ((h.memberName kind o n d).after r) := by
  rw [after_memberName, after_lookupMember]
  split
  · exact Grows.refl ∅ r
  · exact h.grows_load h.generations o r

/-- From `r` to `r'`, a resolver was only asked for names. Some of the questions may have failed. -/
inductive Asked (h : Hierarchy) (r : Resolver) : Resolver → Prop where
  | refl : Asked h r r
  | ask {r' : Resolver} (kind : MemberKind) (owner name descriptor : String) : Asked h r r' →
      Asked h r ((h.memberName kind owner name descriptor).after r')

theorem Asked.trans {h : Hierarchy} {r r' r'' : Resolver} (h₁ : h.Asked r r') (h₂ : h.Asked r' r'') :
    h.Asked r r'' := by
  induction h₂ with
  | refl => exact h₁
  | ask kind owner name descriptor _ ih => exact ih.ask kind owner name descriptor

theorem Asked.grows {h : Hierarchy} {r r' : Resolver} (ha : h.Asked r r') : Grows ∅ r r' := by
  induction ha with
  | refl => exact Grows.refl ∅ r
  | ask kind owner name descriptor _ ih =>
    exact ih.trans_same (h.grows_memberName kind owner name descriptor _)

/-- A resolver gives a name for a member: asking gives it, and nothing has to be loaded any more. -/
def Gives (h : Hierarchy) (r : Resolver) (kind : MemberKind) (owner name descriptor newName : String) :
    Prop :=
  h.memberName kind owner name descriptor r = .ok newName r

/-- A resolver gives a name exactly if the owner is an array or settled, and it is in the tables. -/
theorem gives_iff {h : Hierarchy} {r : Resolver} {kind : MemberKind} {o n d n' : String} :
    h.Gives r kind o n d n' ↔
      (isArray o = true ∧ n' = n) ∨
        (isArray o = false ∧ r.settled o = true ∧ n' = (r.renamed? kind o n d).getD n) := by
  unfold Gives
  rw [memberName_eq_map, lookupMember_eq]
  cases ha : isArray o with
  | true =>
    simp only [if_true, Option.getD_none, EStateM.Result.ok.injEq, and_true, true_and, Bool.true_eq_false,
      false_and, or_false]
    exact eq_comm
  | false =>
    simp only [Bool.false_eq_true, if_false, false_and, true_and, false_or]
    constructor
    · intro hg
      cases he : h.ensureLoaded o r with
      | error e r' => simp [he] at hg
      | ok u r' =>
        simp only [he, EStateM.Result.ok.injEq] at hg
        obtain ⟨rfl, rfl⟩ := hg
        exact ⟨settled_of_load he, rfl⟩
    · rintro ⟨hs, rfl⟩
      have he : h.ensureLoaded o r = .ok () r := load_of_settled h _ hs
      rw [he]

/-- **An answer stands.** Whoever asked is answered the same way afterwards. -/
theorem gives_of_memberName {h : Hierarchy} {kind : MemberKind} {o n d n' : String} {r r' : Resolver}
    (hm : h.memberName kind o n d r = .ok n' r') : h.Gives r' kind o n d n' := by
  rw [gives_iff]
  rw [memberName_eq_map, lookupMember_eq] at hm
  cases ha : isArray o with
  | true =>
    simp only [ha, if_true, EStateM.Result.ok.injEq] at hm
    exact Or.inl ⟨rfl, hm.1.symm⟩
  | false =>
    simp only [ha, Bool.false_eq_true, if_false] at hm
    cases he : h.ensureLoaded o r with
    | error e r₁ => simp [he] at hm
    | ok u r₁ =>
      simp only [he, EStateM.Result.ok.injEq] at hm
      obtain ⟨rfl, rfl⟩ := hm
      exact Or.inr ⟨rfl, settled_of_load he, rfl⟩

theorem Gives.grows {h : Hierarchy} {X : Set String} {r r' : Resolver} {kind : MemberKind}
    {o n d n' : String} (hg : h.Gives r kind o n d n') (hr : Grows X r r') (ho : o ∉ X) :
    h.Gives r' kind o n d n' := by
  rw [gives_iff] at hg ⊢
  refine hg.imp id ?_
  rintro ⟨ha, hs, rfl⟩
  refine ⟨ha, hr.settled o ho hs, ?_⟩
  rw [renamed?, renamed?, hr.tables ho hs kind]

theorem Gives.unique {h : Hierarchy} {r : Resolver} {kind : MemberKind} {o n d n₁ n₂ : String}
    (h₁ : h.Gives r kind o n d n₁) (h₂ : h.Gives r kind o n d n₂) : n₁ = n₂ := by
  unfold Gives at h₁ h₂
  rw [h₁] at h₂
  exact (EStateM.Result.ok.inj h₂).1

end Hierarchy

end Relabel
