import Mathlib.Data.Finite.Defs
import Mathlib.Data.Set.Finite.List
import Mathlib.Logic.Relation
import Mathlib.Order.RelClasses
import Mathlib.Order.WellFounded
import Relabel.Naming.Renaming
import Relabel.Proofs.Dict

/-!
# Hierarchies and what is inherited along them

What a resolver should answer, said without a resolver: a finite hierarchy without cycles, and the entry
that an owner has in its own row or else inherits from the last of its parents that has one.
-/

set_option autoImplicit false

namespace Relabel

/-- A class and a supertype of it, in a table of supertypes. -/
def Extends (parents : Dict (List String)) (c p : String) : Prop :=
  p ∈ (parents[c]?).getD []

/-- A finite hierarchy of classes without cycles: the supertypes of each class, in the order in which they
are searched. -/
structure Ancestry where
  parents : Dict (List String)
  acyclic : ∀ name, ¬Relation.TransGen (Extends parents) name name

namespace Ancestry

variable (A : Ancestry)

/-- The supertypes of a class; none for a class that is not in the hierarchy. -/
def parentsOf (name : String) : List String :=
  (A.parents[name]?).getD []

variable {A} in
theorem parentsOf_eq {name : String} {parents : List String} (hp : A.parents[name]? = some parents) :
    A.parentsOf name = parents := by
  rw [parentsOf, hp]
  rfl

/-- A class and a class above it, or the class itself. -/
def Reaches : String → String → Prop :=
  Relation.ReflTransGen (Extends A.parents)

theorem Reaches.refl (name : String) : A.Reaches name name := Relation.ReflTransGen.refl

variable {A} in
/-- Going up goes through a supertype. -/
theorem reaches_iff {o x : String} :
    A.Reaches o x ↔ x = o ∨ ∃ p ∈ A.parentsOf o, A.Reaches p x := by
  rw [Reaches, Relation.ReflTransGen.cases_head_iff]
  exact or_congr eq_comm Iff.rfl

theorem not_reaches_of_mem {c p : String} (hp : p ∈ A.parentsOf c) : ¬A.Reaches p c :=
  fun hr => A.acyclic c (Relation.TransGen.head' hp hr)

/-- Going up comes to an end, since the hierarchy is finite. -/
theorem wellFounded : WellFounded fun p c => p ∈ A.parentsOf c := by
  let above : { name // name ∈ A.parents } → { name // name ∈ A.parents } → Prop :=
    fun p c => Relation.TransGen (Extends A.parents) c.1 p.1
  have hfinite : Finite { name // name ∈ A.parents } := by
    refine Set.Finite.to_subtype (A.parents.keys.finite_toSet.subset fun name hname => ?_)
    exact Std.ExtTreeMap.mem_keys.mpr hname
  have htrans : IsTrans _ above := ⟨fun _ _ _ h₁ h₂ => h₂.trans h₁⟩
  have hirrefl : Std.Irrefl above := ⟨fun c => A.acyclic c.1⟩
  have hknown : WellFounded above := Finite.wellFounded_of_trans_of_irrefl above
  -- A class outside the hierarchy has nothing above it.
  have hacc (name : String) (hn : name ∉ A.parents) : Acc (fun p c => p ∈ A.parentsOf c) name := by
    refine ⟨name, fun p hp => ?_⟩
    rw [parentsOf, Std.ExtTreeMap.getElem?_eq_none hn] at hp
    cases hp
  have hmem (c : { name // name ∈ A.parents }) : Acc (fun p c => p ∈ A.parentsOf c) c.1 := by
    induction c using hknown.induction with
    | _ c ih =>
      refine ⟨c.1, fun p hp => ?_⟩
      by_cases hk : p ∈ A.parents
      · exact ih ⟨p, hk⟩ (Relation.TransGen.single hp)
      · exact hacc p hk
  refine ⟨fun name => ?_⟩
  by_cases hk : name ∈ A.parents
  · exact hmem ⟨name, hk⟩
  · exact hacc name hk

/-! ## Inheritance -/

/-- The entry of a class for a key: the one in its own row, or else that of the last of its supertypes
that has one. -/
noncomputable def inherited (rows : String → Option MemberRow) (key : String) : String → Option String :=
  A.wellFounded.fix fun o entry =>
    ((rows o).bind (·[key]?)).or
      ((A.parentsOf o).attach.reverse.findSome? fun p => entry p.1 p.2)

theorem inherited_eq (rows : String → Option MemberRow) (key o : String) :
    A.inherited rows key o = ((rows o).bind (·[key]?)).or
      ((A.parentsOf o).reverse.findSome? (A.inherited rows key)) := by
  have hmap : (A.parentsOf o).attach.reverse.map Subtype.val = (A.parentsOf o).reverse := by
    rw [List.map_reverse, List.attach_map_subtype_val]
  rw [inherited, WellFounded.fix_eq, ← inherited, ← hmap, List.findSome?_map]
  rfl

/-- A class that is not in the hierarchy has what is in its own row. -/
theorem inherited_of_unknown {rows : String → Option MemberRow} {o : String} (ho : A.parents[o]? = none)
    (key : String) : A.inherited rows key o = (rows o).bind (·[key]?) := by
  rw [inherited_eq, parentsOf, ho]
  simp

/-- The rows of the classes in the hierarchy. -/
def rowsOf (rows : Dict MemberRow) (o : String) : Option MemberRow :=
  if o ∈ A.parents then rows[o]? else none

end Ancestry

end Relabel
