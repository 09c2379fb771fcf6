import Mathlib.Data.List.Forall2
import Relabel.Attribute.Basic

/-!
# Everything inside an attribute

Code and records contain attributes, and the values of annotations contain values and annotations again. What
is said of such a tree at every depth is said of the list of its parts: `Attribute.within` has an attribute and
all attributes in it, `ElementValue.within` a value and all values in it. Whatever is collected from a class
is collected from these lists, and a relation that holds of two trees is pushed to their lists once.

Both families go through lists, so the induction that comes with them has no hypothesis for the members.
`Attribute.induction` and `ElementValue.induction` have one for everything directly inside.
-/

set_option autoImplicit false

namespace Relabel

theorem forall₂_imp_of_mem {α β : Type} {R S : α → β → Prop} {xs : List α} {ys : List β}
    (hRS : ∀ x ∈ xs, ∀ y, R x y → S x y) (h : List.Forall₂ R xs ys) : List.Forall₂ S xs ys :=
  ((List.forall₂_and_left xs ys).mpr ⟨hRS, h⟩).imp fun _ _ hxy => hxy.1 _ hxy.2

theorem forall₂_flatMap_of_mem {α β γ δ : Type} {R : α → β → Prop} {S : γ → δ → Prop} {f : α → List γ}
    {g : β → List δ} {xs : List α} {ys : List β} (hfg : ∀ x ∈ xs, ∀ y, R x y → List.Forall₂ S (f x) (g y))
    (h : List.Forall₂ R xs ys) : List.Forall₂ S (xs.flatMap f) (ys.flatMap g) :=
  List.rel_flatMap (forall₂_imp_of_mem hfg h) fun _ _ hxy => hxy

theorem forall_mem_of_forall₂ {α β : Type} {R : α → β → Prop} {P : α → Prop} {xs : List α} {ys : List β}
    (hRP : ∀ x y, R x y → P x) (h : List.Forall₂ R xs ys) : ∀ x ∈ xs, P x :=
  ((List.forall₂_and_left xs ys).mp (h.imp fun x y hxy => ⟨hRP x y hxy, hxy⟩)).1

/-! ## Values of annotations -/

namespace ElementValue

/-- The values directly in a value. -/
def parts : ElementValue → List ElementValue
  | .nested value => value.elements.map Prod.snd
  | .array values => values
  | .const _ _ | .enum _ _ | .classLiteral _ => []

theorem sizeOf_lt_of_mem_parts {v w : ElementValue} (hw : w ∈ v.parts) : sizeOf w < sizeOf v := by
  cases v with
  | nested value =>
    obtain ⟨type, elements⟩ := value
    obtain ⟨⟨name, value⟩, hmem, rfl⟩ := List.mem_map.mp hw
    have hlt := List.sizeOf_lt_of_mem hmem
    simp only [nested.sizeOf_spec, AnnotationInfo.mk.sizeOf_spec, Prod.mk.sizeOf_spec] at hlt ⊢
    omega
  | array values =>
    have hlt := List.sizeOf_lt_of_mem (show w ∈ values from hw)
    simp only [array.sizeOf_spec]
    omega
  | const _ _ | enum _ _ | classLiteral _ => cases hw

/-- What holds of a value if it holds of the values directly in it holds of every value. -/
theorem induction {motive : ElementValue → Prop} (step : ∀ v, (∀ w ∈ v.parts, motive w) → motive v)
    (v : ElementValue) : motive v :=
  step v fun w hw =>
    have _ := sizeOf_lt_of_mem_parts hw
    induction step w
termination_by sizeOf v

end ElementValue

mutual

/-- The values in an annotation, at every depth. -/
def AnnotationInfo.values : AnnotationInfo → List ElementValue
  | ⟨_, elements⟩ => ElementValue.withinNamed elements

/-- A value and the values in it, at every depth. -/
def ElementValue.within : ElementValue → List ElementValue
  | .const tag index => [.const tag index]
  | .enum type name => [.enum type name]
  | .classLiteral descriptor => [.classLiteral descriptor]
  | .nested value => .nested value :: value.values
  | .array values => .array values :: ElementValue.withinList values

/-- Named values and the values in them. -/
def ElementValue.withinNamed : List (UInt16 × ElementValue) → List ElementValue
  | [] => []
  | (_, value) :: rest => value.within ++ ElementValue.withinNamed rest

/-- Values and the values in them. -/
def ElementValue.withinList : List ElementValue → List ElementValue
  | [] => []
  | value :: rest => value.within ++ ElementValue.withinList rest

end

namespace ElementValue

theorem withinList_eq (vs : List ElementValue) : withinList vs = vs.flatMap within := by
  induction vs with
  | nil => rfl
  | cons v vs ih => rw [withinList, ih, List.flatMap_cons]

theorem withinNamed_eq (vs : List (UInt16 × ElementValue)) : withinNamed vs = vs.flatMap fun v => v.2.within := by
  induction vs with
  | nil => rfl
  | cons v vs ih => rw [withinNamed, ih, List.flatMap_cons]

theorem within_eq (v : ElementValue) : v.within = v :: v.parts.flatMap within := by
  cases v with
  | nested value =>
    obtain ⟨type, elements⟩ := value
    rw [within, AnnotationInfo.values, withinNamed_eq, parts, List.flatMap_map]
  | array values => rw [within, withinList_eq, parts]
  | const _ _ | enum _ _ | classLiteral _ => rfl

end ElementValue

theorem AnnotationInfo.values_eq (a : AnnotationInfo) : a.values = a.elements.flatMap fun e => e.2.within := by
  obtain ⟨type, elements⟩ := a
  exact ElementValue.withinNamed_eq elements

/-! ## Attributes -/

/-- The attributes directly in the data of an attribute. -/
def AttributeInfo.parts : AttributeInfo → List Attribute
  | .code _ _ _ _ attributes => attributes
  | .record components => components.flatMap (·.attributes)
  | _ => []

/-- The values of the annotations in the data of an attribute, at every depth. -/
def AttributeInfo.values : AttributeInfo → List ElementValue
  | .annotations infos => infos.flatMap AnnotationInfo.values
  | .parameterAnnotations parameters => parameters.flatMap (List.flatMap AnnotationInfo.values)
  | .typeAnnotations infos => infos.flatMap fun a => a.info.values
  | .annotationDefault value => value.within
  | _ => []

namespace Attribute

theorem sizeOf_lt_of_mem_parts {a b : Attribute} (hb : b ∈ a.info.parts) : sizeOf b < sizeOf a := by
  obtain ⟨name, info⟩ := a
  cases info with
  | code maxStack maxLocals instructions handlers attributes =>
    have hlt := List.sizeOf_lt_of_mem (show b ∈ attributes from hb)
    simp only [mk.sizeOf_spec, AttributeInfo.code.sizeOf_spec]
    omega
  | record components =>
    obtain ⟨c, hc, hmem⟩ := List.mem_flatMap.mp (show b ∈ components.flatMap (·.attributes) from hb)
    have hcomponent := List.sizeOf_lt_of_mem hc
    have hlt := List.sizeOf_lt_of_mem hmem
    obtain ⟨cname, descriptor, attributes⟩ := c
    simp only [mk.sizeOf_spec, AttributeInfo.record.sizeOf_spec, RecordComponent.mk.sizeOf_spec] at hcomponent hlt ⊢
    omega
  | _ => cases hb

/-- What holds of an attribute if it holds of the attributes directly in it holds of every attribute. -/
theorem induction {motive : Attribute → Prop} (step : ∀ a, (∀ b ∈ a.info.parts, motive b) → motive a)
    (a : Attribute) : motive a :=
  step a fun b hb =>
    have _ := sizeOf_lt_of_mem_parts hb
    induction step b
termination_by sizeOf a

end Attribute

mutual

/-- An attribute and the attributes in it, at every depth. -/
def Attribute.within : Attribute → List Attribute
  | ⟨name, info⟩ => ⟨name, info⟩ :: info.within

/-- The attributes in the data of an attribute, at every depth. -/
def AttributeInfo.within : AttributeInfo → List Attribute
  | .code _ _ _ _ attributes => Attribute.withinList attributes
  | .record components => RecordComponent.withinList components
  | _ => []

/-- The attributes of a component of a record, at every depth. -/
def RecordComponent.within : RecordComponent → List Attribute
  | ⟨_, _, attributes⟩ => Attribute.withinList attributes

/-- Attributes and the attributes in them. -/
def Attribute.withinList : List Attribute → List Attribute
  | [] => []
  | a :: rest => a.within ++ Attribute.withinList rest

/-- The attributes of components of a record, at every depth. -/
def RecordComponent.withinList : List RecordComponent → List Attribute
  | [] => []
  | c :: rest => c.within ++ RecordComponent.withinList rest

end

namespace Attribute

theorem withinList_eq (as : List Attribute) : withinList as = as.flatMap within := by
  induction as with
  | nil => rfl
  | cons a as ih => rw [withinList, ih, List.flatMap_cons]

theorem withinList_components (cs : List RecordComponent) :
    RecordComponent.withinList cs = (cs.flatMap (·.attributes)).flatMap within := by
  induction cs with
  | nil => rfl
  | cons c cs ih =>
    have hcomponent : c.within = c.attributes.flatMap within := by
      obtain ⟨name, descriptor, attributes⟩ := c
      exact withinList_eq attributes
    rw [RecordComponent.withinList, ih, hcomponent, List.flatMap_cons, List.flatMap_append]

theorem within_eq (a : Attribute) : a.within = a :: a.info.parts.flatMap within := by
  obtain ⟨name, info⟩ := a
  rw [within]
  congr 1
  cases info with
  | code _ _ _ _ attributes => exact withinList_eq attributes
  | record components => exact withinList_components components
  | _ => rfl

end Attribute

end Relabel
