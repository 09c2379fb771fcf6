import Relabel.Proofs.Hierarchy.Inheritance

/-!
# Hierarchies under other names

A hierarchy whose classes get other names, no two of them the same one, is a hierarchy again: what is above
a class there is what was above it here. What a class inherits comes from a class above it, and a class
above it that has an entry for a key leaves none of those below it without one; between them, these two facts
carry what is known about single classes from one hierarchy to the other.
-/

set_option autoImplicit false

namespace Relabel

theorem extends_iff {parents : Dict (List String)} {c p : String} :
    Extends parents c p ↔ ∃ ps, parents[c]? = some ps ∧ p ∈ ps := by
  unfold Extends
  cases parents[c]? with
  | none => simp
  | some ps => simp

namespace Ancestry

variable {A : Ancestry} {N : Set String} {f : String → String}

/-- All classes of the hierarchy, and all that they name, are in `N`. -/
def Over (A : Ancestry) (N : Set String) : Prop :=
  ∀ c parents, A.parents[c]? = some parents → c ∈ N ∧ ∀ p ∈ parents, p ∈ N

theorem Over.of_extends (hA : A.Over N) {c p : String} (hcp : Extends A.parents c p) : c ∈ N ∧ p ∈ N := by
  obtain ⟨parents, hc, hp⟩ := extends_iff.mp hcp
  exact ⟨(hA c parents hc).1, (hA c parents hc).2 p hp⟩

theorem Over.of_reaches (hA : A.Over N) {o a : String} (ho : o ∈ N) (hr : A.Reaches o a) : a ∈ N := by
  induction hr with
  | refl => exact ho
  | tail _ hstep _ => exact (hA.of_extends hstep).2

/-! ## The image -/

/-- The supertypes of each class, all under other names. -/
def imageParents (A : Ancestry) (f : String → String) : Dict (List String) :=
  Dict.ofEntries (A.parents.toList.map fun e => (f e.1, e.2.map f))

theorem imageParents_eq_some (hA : A.Over N) (hf : Set.InjOn f N) {x : String} {ps : List String} :
    (A.imageParents f)[x]? = some ps
      ↔ ∃ c parents, A.parents[c]? = some parents ∧ f c = x ∧ parents.map f = ps := by
  rw [imageParents, Dict.getElem?_ofEntries_map]
  · constructor
    · intro h
      obtain ⟨⟨c, parents⟩, he, hpair⟩ := h
      obtain ⟨hx, hps⟩ := Prod.mk.inj hpair
      exact ⟨c, parents, Std.ExtTreeMap.mem_toList_iff_getElem?_eq_some.mp he, hx, hps⟩
    · intro h
      obtain ⟨c, parents, hc, rfl, rfl⟩ := h
      exact ⟨(c, parents), Std.ExtTreeMap.mem_toList_iff_getElem?_eq_some.mpr hc, rfl⟩
  · intro e he e' he' hname
    have hc : A.parents[e.1]? = some e.2 := Std.ExtTreeMap.mem_toList_iff_getElem?_eq_some.mp he
    have hc' : A.parents[e'.1]? = some e'.2 := Std.ExtTreeMap.mem_toList_iff_getElem?_eq_some.mp he'
    have hsame : e.1 = e'.1 := hf (hA _ _ hc).1 (hA _ _ hc').1 hname
    rw [hsame, hc'] at hc
    exact congrArg (List.map f) (Option.some.inj hc).symm

/-- A step up in the image is a step up under the old names. -/
theorem extends_imageParents (hA : A.Over N) (hf : Set.InjOn f N) {x y : String} :
    Extends (A.imageParents f) x y ↔ ∃ c p, Extends A.parents c p ∧ f c = x ∧ f p = y := by
  constructor
  · intro h
    obtain ⟨ps, hx, hy⟩ := extends_iff.mp h
    obtain ⟨c, parents, hc, hcx, rfl⟩ := (imageParents_eq_some hA hf).mp hx
    obtain ⟨p, hp, hpy⟩ := List.mem_map.mp hy
    exact ⟨c, p, extends_iff.mpr ⟨parents, hc, hp⟩, hcx, hpy⟩
  · intro h
    obtain ⟨c, p, hcp, rfl, rfl⟩ := h
    obtain ⟨parents, hc, hp⟩ := extends_iff.mp hcp
    have hx := (imageParents_eq_some hA hf).mpr ⟨c, parents, hc, rfl, rfl⟩
    exact extends_iff.mpr ⟨parents.map f, hx, List.mem_map_of_mem hp⟩

theorem transGen_imageParents (hA : A.Over N) (hf : Set.InjOn f N) {x y : String}
    (h : Relation.TransGen (Extends (A.imageParents f)) x y) :
    ∃ c ∈ N, ∃ p ∈ N, Relation.TransGen (Extends A.parents) c p ∧ f c = x ∧ f p = y := by
  induction h with
  | single hstep =>
    obtain ⟨c, p, hcp, hx, hy⟩ := (extends_imageParents hA hf).mp hstep
    exact ⟨c, (hA.of_extends hcp).1, p, (hA.of_extends hcp).2, .single hcp, hx, hy⟩
  | tail _ hstep ih =>
    obtain ⟨c, hc, p, hp, hpath, hx, hy⟩ := ih
    obtain ⟨p', q, hpq, hy', hz⟩ := (extends_imageParents hA hf).mp hstep
    -- The two steps meet in one class, since no other class has its new name.
    obtain rfl : p' = p := hf (hA.of_extends hpq).1 hp (hy'.trans hy.symm)
    exact ⟨c, hc, q, (hA.of_extends hpq).2, hpath.tail hpq, hx, hz⟩

/-- The hierarchy with all classes under other names. -/
def image (A : Ancestry) (hA : A.Over N) (hf : Set.InjOn f N) : Ancestry where
  parents := A.imageParents f
  acyclic x hcycle := by
    obtain ⟨c, hc, p, hp, hpath, hx, hy⟩ := transGen_imageParents hA hf hcycle
    obtain rfl : c = p := hf hc hp (hx.trans hy.symm)
    exact A.acyclic c hpath

theorem over_image (hA : A.Over N) (hf : Set.InjOn f N) : (A.image hA hf).Over (f '' N) := by
  intro x ps hx
  obtain ⟨c, parents, hc, rfl, rfl⟩ := (imageParents_eq_some hA hf).mp hx
  obtain ⟨hcN, hparents⟩ := hA c parents hc
  refine ⟨Set.mem_image_of_mem f hcN, fun y hy => ?_⟩
  obtain ⟨p, hp, rfl⟩ := List.mem_map.mp hy
  exact Set.mem_image_of_mem f (hparents p hp)

theorem mem_image_parents (hA : A.Over N) (hf : Set.InjOn f N) {c : String} (hc : c ∈ N) :
    f c ∈ (A.image hA hf).parents ↔ c ∈ A.parents := by
  rw [Std.ExtTreeMap.mem_iff_isSome_getElem?, Std.ExtTreeMap.mem_iff_isSome_getElem?,
    Option.isSome_iff_exists, Option.isSome_iff_exists]
  constructor
  · intro h
    obtain ⟨ps, hps⟩ := h
    obtain ⟨c', parents, hc', hname, -⟩ := (imageParents_eq_some hA hf).mp hps
    obtain rfl := hf (hA c' parents hc').1 hc hname
    exact ⟨parents, hc'⟩
  · intro h
    obtain ⟨parents, hparents⟩ := h
    exact ⟨parents.map f, (imageParents_eq_some hA hf).mpr ⟨c, parents, hparents, rfl, rfl⟩⟩

theorem reaches_image (hA : A.Over N) (hf : Set.InjOn f N) {o x : String} (ho : o ∈ N) :
    (A.image hA hf).Reaches (f o) x ↔ ∃ a, A.Reaches o a ∧ f a = x := by
  constructor
  · intro h
    induction h with
    | refl => exact ⟨o, Reaches.refl A o, rfl⟩
    | tail _ hstep ih =>
      obtain ⟨a, hreach, hname⟩ := ih
      obtain ⟨c, p, hcp, hc, hp⟩ := (extends_imageParents hA hf).mp hstep
      obtain rfl : c = a := hf (hA.of_extends hcp).1 (hA.of_reaches ho hreach) (hc.trans hname.symm)
      exact ⟨p, Relation.ReflTransGen.tail hreach hcp, hp⟩
  · intro h
    obtain ⟨a, hreach, rfl⟩ := h
    refine Relation.ReflTransGen.lift f (fun c p hcp => ?_) o a hreach
    exact (extends_imageParents hA hf).mpr ⟨c, p, hcp, rfl, rfl⟩

/-- A provider that answers from a hierarchy. -/
theorem Over.follows (hA : A.Over N) {provider : ClassProvider}
    (hanswers : ∀ o ∈ N, provider.parents? o = .ok A.parents[o]?) : provider.Follows A ∅ N where
  closed _ _ _ hq := (hA.of_extends hq).2
  fails _ _ ho := absurd ho (Set.notMem_empty _)
  answers o ho _ := hanswers o ho

/-! ## Where an entry comes from -/

theorem exists_of_inherited {rows : String → Option MemberRow} {key : String} (o : String) {v : String}
    (h : A.inherited rows key o = some v) : ∃ a, A.Reaches o a ∧ (rows a).bind (·[key]?) = some v := by
  induction o using A.wellFounded.induction with
  | _ o ih =>
    rw [inherited_eq] at h
    rcases Option.or_eq_some_iff.mp h with hown | ⟨-, hparent⟩
    · exact ⟨o, Reaches.refl A o, hown⟩
    · obtain ⟨p, hp, hentry⟩ := List.exists_of_findSome?_eq_some hparent
      have hp : p ∈ A.parentsOf o := List.mem_reverse.mp hp
      obtain ⟨a, hreach, ha⟩ := ih p hp hentry
      exact ⟨a, reaches_iff.mpr (Or.inr ⟨p, hp, hreach⟩), ha⟩

theorem inherited_ne_none {rows : String → Option MemberRow} {key o a : String} (hreach : A.Reaches o a)
    (ha : (rows a).bind (·[key]?) ≠ none) : A.inherited rows key o ≠ none := by
  induction hreach using Relation.ReflTransGen.head_induction_on with
  | refl =>
    rw [inherited_eq]
    exact fun h => ha (Option.or_eq_none_iff.mp h).1
  | head hstep _ ih =>
    rw [inherited_eq]
    intro h
    have hparents := List.findSome?_eq_none_iff.mp (Option.or_eq_none_iff.mp h).2
    exact ih (hparents _ (List.mem_reverse.mpr hstep))

end Ancestry

namespace Hierarchy

variable {h : Hierarchy} {A : Ancestry}

/-- The entry of an owner is in the row of a class of the hierarchy above it. -/
theorem exists_of_entry {kind : MemberKind} {key o v : String} (he : h.entry A kind key o = some v) :
    ∃ a ∈ A.parents, A.Reaches o a ∧ ((h.renames.rows kind)[a]?).bind (·[key]?) = some v := by
  obtain ⟨a, hreach, ha⟩ := Ancestry.exists_of_inherited o he
  unfold Ancestry.rowsOf at ha
  split at ha
  · next hmem => exact ⟨a, hmem, hreach, ha⟩
  · cases ha

theorem entry_ne_none {kind : MemberKind} {key o a : String} (ha : a ∈ A.parents) (hreach : A.Reaches o a)
    (hrow : ((h.renames.rows kind)[a]?).bind (·[key]?) ≠ none) : h.entry A kind key o ≠ none := by
  refine Ancestry.inherited_ne_none hreach ?_
  rwa [Ancestry.rowsOf, if_pos ha]

/-! ## What is asked by name -/

/-- Where nothing fails, every look-up on an owner that is not an array is answered by the hierarchy. -/
theorem Settled.outcome_lookupMember {S : Set String} (hf : h.provider.Follows A ∅ S) {r : Resolver}
    (hr : h.Settled A ∅ S r) {o : String} (ho : o ∈ S) (harray : isArray o = false) (kind : MemberKind)
    (n d : String) : (h.lookupMember kind o n d).outcome r = .ok (h.entry A kind (kind.key n d) o) := by
  obtain ⟨hsound, hresult⟩ := loads_ensureLoaded hf o r hr.loading hr.sound
  unfold Effect.outcome
  rw [lookupMember_eq, if_neg (by rw [harray]; exact Bool.false_ne_true)]
  cases he : h.ensureLoaded o r with
  | ok u r' =>
    rw [Effect.after_of_ok he] at hsound
    have hknows := ((hresult ho).1 r' he).2
    exact congrArg Except.ok ((hsound o ho hknows).2 kind (kind.key n d))
  | error e r' => exact absurd (fun x hx => absurd hx (Set.notMem_empty x)) ((hresult ho).2 e r' he)

theorem outcome_memberName {r : Resolver} {kind : MemberKind} {o n d : String} {new? : Option String}
    (hl : (h.lookupMember kind o n d).outcome r = .ok new?) :
    (h.memberName kind o n d).outcome r = .ok (new?.getD n) := by
  unfold Effect.outcome at hl ⊢
  rw [memberName_eq_map]
  cases he : h.lookupMember kind o n d r with
  | ok answer r' =>
    rw [he] at hl
    exact congrArg (fun a => Except.ok (Option.getD a n)) (Except.ok.inj hl)
  | error e r' =>
    rw [he] at hl
    cases hl

end Hierarchy

end Relabel
