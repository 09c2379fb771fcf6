import Relabel.Proofs.Attribute.Parts
import Relabel.Proofs.Rename.Attributes

/-!
# The indices that renaming replaces

Renaming replaces the indices of names, descriptors and signatures, which are the symbols of an element. It looks
a symbol up in the pool as it has grown so far. A symbol that the class as read has a text for has the same text
in every later pool. But nothing keeps a symbol from pointing past the end of the pool that was read, and if the
pool has grown that far by then, the symbol stands for whatever name was added there.

So an element is the image of what the class as read says exactly if its symbols all resolve there.
-/

set_option autoImplicit false

namespace Relabel

/-- An index that renaming replaces: that of a text, or that of a name with a descriptor. -/
inductive Symbol where
  | text (i : UInt16)
  | nameAndType (i : UInt16)
  deriving DecidableEq, Repr

namespace Symbol

/-- What the symbol stands for in `p` it also stands for in `q`. -/
def Carries (p q : Pool) : Symbol → Prop
  | text i => ∀ s, p.utf8 i = .ok s → q.utf8 i = .ok s
  | nameAndType i => ∀ x, p.nameAndType i = .ok x → q.nameAndType i = .ok x

/-- The symbol stands for something in a pool. -/
def Resolves (p : Pool) : Symbol → Prop
  | text i => ∃ s, p.utf8 i = .ok s
  | nameAndType i => ∃ x, p.nameAndType i = .ok x

theorem resolves_iff {p : Pool} {x : Symbol} : x.Resolves p ↔ (match x with
    | text i => (p.utf8 i).toOption.isSome
    | nameAndType i => (p.nameAndType i).toOption.isSome) = true := by
  have hsome {α : Type} (e : Except Error α) : (∃ a, e = .ok a) ↔ e.toOption.isSome = true := by
    cases e <;> simp [Except.toOption]
  cases x <;> exact hsome _

instance (p : Pool) (x : Symbol) : Decidable (x.Resolves p) :=
  decidable_of_iff' _ resolves_iff

/-- The symbol needs a slot that a pool does not have. -/
def PointsPast (p : Pool) : Symbol → Prop
  | text i => p.slots.size ≤ i.toNat
  | nameAndType i => p.slots.size ≤ i.toNat ∨ ∃ n d : UInt16, p.slots[i.toNat]? = some (.nameAndType n d) ∧
      (p.slots.size ≤ n.toNat ∨ p.slots.size ≤ d.toNat)

/-- A symbol that has a name later has it now, unless it needs a slot that is not there yet. -/
theorem resolves_or_pointsPast {D : Set Nat} {p q : Pool} (hpq : Pool.Changes D p q) {x : Symbol}
    (hq : x.Resolves q) : x.Resolves p ∨ x.PointsPast p := by
  have htext {i : UInt16} {s : String} (hi : q.utf8 i = .ok s) :
      p.utf8 i = .ok s ∨ p.slots.size ≤ i.toNat :=
    (Nat.lt_or_ge i.toNat p.slots.size).imp_left fun hlt => hpq.utf8_of_lt hlt hi
  cases x with
  | text i =>
    obtain ⟨s, hs⟩ := hq
    exact (htext hs).imp_left fun h => ⟨s, h⟩
  | nameAndType i =>
    obtain ⟨x, hx⟩ := hq
    obtain ⟨n, d, hslot, hname, hdescriptor⟩ := Pool.nameAndType_eq_ok.mp hx
    rcases Nat.lt_or_ge i.toNat p.slots.size with hlt | hge
    · have hold := (hpq.names _ hlt _ rfl).mp hslot
      rcases htext hname with hn | hn
      · rcases htext hdescriptor with hd | hd
        · exact .inl ⟨x, Pool.nameAndType_eq_ok.mpr ⟨n, d, hold, hn, hd⟩⟩
        · exact .inr (.inr ⟨n, d, hold, .inr hd⟩)
      · exact .inr (.inr ⟨n, d, hold, .inl hn⟩)
    · exact .inr (.inl hge)

theorem not_resolves_of_pointsPast {p : Pool} {x : Symbol} (hpast : x.PointsPast p) : ¬x.Resolves p := by
  have htext {i : UInt16} {s : String} (hi : p.utf8 i = .ok s) : i.toNat < p.slots.size := by
    obtain ⟨bytes, hslot, -⟩ := Pool.utf8_eq_ok.mp hi
    exact (Array.getElem?_eq_some_iff.mp hslot).1
  cases x with
  | text i =>
    rintro ⟨s, hs⟩
    exact absurd (htext hs) (Nat.not_lt.mpr hpast)
  | nameAndType i =>
    rintro ⟨x, hx⟩
    obtain ⟨n, d, hslot, hname, hdescriptor⟩ := Pool.nameAndType_eq_ok.mp hx
    obtain hi | ⟨n', d', hslot', hpast⟩ := hpast
    · exact absurd (Array.getElem?_eq_some_iff.mp hslot).1 (Nat.not_lt.mpr hi)
    · obtain ⟨rfl, rfl⟩ := Constant.nameAndType.inj (Option.some.inj (hslot.symm.trans hslot'))
      exact hpast.elim (fun h => absurd (htext hname) (Nat.not_lt.mpr h))
        fun h => absurd (htext hdescriptor) (Nat.not_lt.mpr h)

/-- What a symbol has now stays, so a later pool cannot have something else for it. -/
theorem carries_back {D : Set Nat} {p q : Pool} (hpq : Pool.Changes D p q) {x : Symbol} (hp : x.Resolves p) :
    x.Carries q p := by
  cases x with
  | text i =>
    obtain ⟨s, hs⟩ := hp
    intro s' hs'
    rw [← Except.ok.inj ((hpq.utf8 hs).symm.trans hs')]
    exact hs
  | nameAndType i =>
    obtain ⟨x, hx⟩ := hp
    intro x' hx'
    rw [← Except.ok.inj ((hpq.nameAndType hx).symm.trans hx')]
    exact hx

end Symbol

/-! ## The symbols of an element -/

/-- The symbols of a value that are not those of a value in it. -/
def ElementValue.ownSymbols : ElementValue → List Symbol
  | .enum type _ => [.text type]
  | .classLiteral descriptor => [.text descriptor]
  | .nested value => [.text value.type]
  | .const _ _ | .array _ => []

/-- The symbols of a value, at every depth. -/
def ElementValue.symbols (v : ElementValue) : List Symbol :=
  v.within.flatMap ElementValue.ownSymbols

/-- The symbols of an annotation, at every depth. -/
def AnnotationInfo.symbols (a : AnnotationInfo) : List Symbol :=
  .text a.type :: a.values.flatMap ElementValue.ownSymbols

/-- The symbols of an entry for a nested class. An anonymous class has none. -/
def InnerClass.symbols (c : InnerClass) : List Symbol :=
  if c.innerName = 0 then [] else [.text c.innerName]

/-- The symbols of a component of a record that are not those of an attribute of it. -/
def RecordComponent.ownSymbols (c : RecordComponent) : List Symbol :=
  [.text c.name, .text c.descriptor]

/-- The symbols of an attribute that are not those of an attribute in it. The name of a table of local variables
is one of them, because it tells signatures from descriptors. -/
def Attribute.ownSymbols (a : Attribute) : List Symbol :=
  match a.info with
  | .signature index => [.text index]
  | .innerClasses classes => classes.flatMap InnerClass.symbols
  | .enclosingMethod _ method => if method = 0 then [] else [.nameAndType method]
  | .localVariables slots => .text a.name :: slots.map fun v => .text v.descriptor
  | .annotations infos => infos.flatMap AnnotationInfo.symbols
  | .parameterAnnotations parameters => parameters.flatMap (List.flatMap AnnotationInfo.symbols)
  | .typeAnnotations infos => infos.flatMap fun a => a.info.symbols
  | .annotationDefault value => value.symbols
  | .record components => components.flatMap RecordComponent.ownSymbols
  | .code _ _ _ _ _ | .raw _ => []

/-- The symbols of an attribute, at every depth. -/
def Attribute.symbols (a : Attribute) : List Symbol :=
  a.within.flatMap Attribute.ownSymbols

/-- The symbols of a member. -/
def Member.symbols (m : Member) : List Symbol :=
  .text m.name :: .text m.descriptor :: m.attributes.flatMap Attribute.symbols

/-- The symbols of an element of the body. -/
def ClassItem.symbols : ClassItem → List Symbol
  | .field m | .method m => m.symbols
  | .attr a => a.symbols

theorem ElementValue.symbols_eq (v : ElementValue) : v.symbols = v.ownSymbols ++ v.parts.flatMap symbols := by
  rw [symbols, within_eq, List.flatMap_cons, List.flatMap_assoc]
  rfl

theorem AnnotationInfo.symbols_eq (a : AnnotationInfo) :
    a.symbols = .text a.type :: a.elements.flatMap fun e => e.2.symbols := by
  rw [symbols, values_eq, List.flatMap_assoc]
  rfl

theorem Attribute.symbols_eq (a : Attribute) : a.symbols = a.ownSymbols ++ a.info.parts.flatMap symbols := by
  rw [symbols, within_eq, List.flatMap_cons, List.flatMap_assoc]
  rfl

namespace Renamer

/-! ## Images at every depth -/

section

variable {names : ClassNames} {read : Pool} {t : Renamer × Pool}

theorem ValueImage.parts {v v' : ElementValue} (himage : ValueImage names read t v v') :
    List.Forall₂ (ValueImage names read t) v.parts v'.parts := by
  cases himage with
  | nested hvalue =>
    obtain ⟨-, helements⟩ := hvalue
    refine List.forall₂_map_left_iff.mpr (List.forall₂_map_right_iff.mpr (helements.imp ?_))
    rintro _ _ ⟨name, hvalue⟩
    exact hvalue
  | array hvalues => exact hvalues
  | const _ _ | enum _ _ | classLiteral _ => exact .nil

/-- The values in the image of a value are the images of the values in it. -/
theorem ValueImage.within (v v' : ElementValue) (himage : ValueImage names read t v v') :
    List.Forall₂ (ValueImage names read t) v.within v'.within := by
  induction v using ElementValue.induction generalizing v' with
  | step v ih =>
    rw [v.within_eq, v'.within_eq]
    exact .cons himage (forall₂_flatMap_of_mem ih himage.parts)

theorem AnnotationImage.values {a a' : AnnotationInfo} (himage : AnnotationImage names read t a a') :
    List.Forall₂ (ValueImage names read t) a.values a'.values := by
  obtain ⟨-, helements⟩ := himage
  rw [AnnotationInfo.values_eq, AnnotationInfo.values_eq]
  refine List.rel_flatMap helements ?_
  rintro _ _ ⟨name, hvalue⟩
  exact hvalue.within

end

section

variable {h : Hierarchy} {read : Pool} {t : Renamer × Pool}

theorem AttributeImage.parts {a a' : Attribute} (himage : AttributeImage h read t a a') :
    List.Forall₂ (AttributeImage h read t) a.info.parts a'.info.parts := by
  obtain ⟨name, hinfo⟩ := himage
  cases hinfo with
  | code _ _ _ _ _ hattributes => exact hattributes
  | record _ hcomponents =>
    refine List.rel_flatMap hcomponents ?_
    rintro _ _ ⟨-, -, hattributes⟩
    exact hattributes
  | _ => exact .nil

/-- The attributes in the image of an attribute are the images of the attributes in it. -/
theorem AttributeImage.within (a a' : Attribute) (himage : AttributeImage h read t a a') :
    List.Forall₂ (AttributeImage h read t) a.within a'.within := by
  induction a using Attribute.induction generalizing a' with
  | step a ih =>
    rw [a.within_eq, a'.within_eq]
    exact .cons himage (forall₂_flatMap_of_mem ih himage.parts)

/-- The values in the data of the image of an attribute are the images of the values there. -/
theorem AttributeImage.values {a a' : Attribute} (himage : AttributeImage h read t a a') :
    List.Forall₂ (ValueImage h.renames.classes read t) a.info.values a'.info.values := by
  obtain ⟨name, hinfo⟩ := himage
  cases hinfo with
  | annotations _ hinfos => exact List.rel_flatMap hinfos fun _ _ ha => ha.values
  | parameterAnnotations _ hparameters =>
    exact List.rel_flatMap hparameters fun _ _ hinfos => List.rel_flatMap hinfos fun _ _ ha => ha.values
  | typeAnnotations _ hinfos => exact List.rel_flatMap hinfos fun _ _ ha => ha.2.values
  | annotationDefault _ hvalue => exact hvalue.within
  | _ => exact .nil

end

/-! ## The pool in which symbols are looked up -/

section

variable {names : ClassNames} {h : Hierarchy} {p q : Pool} {t : Renamer × Pool}

theorem TextImage.carry {f : String → Except Error String} {i j : UInt16} (hi : (Symbol.text i).Carries p q)
    (himage : TextImage f p t i j) : TextImage f q t i j := by
  obtain ⟨text, renamed, hread, hrest⟩ := himage
  exact ⟨text, renamed, hi text hread, hrest⟩

theorem ValueImage.carry {v v' : ElementValue} (hv : ∀ x ∈ v.symbols, x.Carries p q)
    (himage : ValueImage names p t v v') : ValueImage names q t v v' := by
  induction v using ElementValue.induction generalizing v' with
  | step v ih =>
    rw [v.symbols_eq, List.forall_mem_append, List.forall_mem_flatMap] at hv
    obtain ⟨hown, hparts⟩ := hv
    cases himage with
    | const tag index => exact .const tag index
    | «enum» name htype => exact .enum name (htype.carry (hown _ List.mem_cons_self))
    | classLiteral hdescriptor => exact .classLiteral (hdescriptor.carry (hown _ List.mem_cons_self))
    | array hvalues =>
      exact .array (forall₂_imp_of_mem (fun w hw _ hvalue => ih w hw (hparts w hw) hvalue) hvalues)
    | nested hvalue =>
      obtain ⟨htype, helements⟩ := hvalue
      refine .nested (.mk (htype.carry (hown _ List.mem_cons_self)) (forall₂_imp_of_mem ?_ helements))
      rintro _ hmem _ ⟨name, hvalue⟩
      have hw := List.mem_map_of_mem (f := Prod.snd) hmem
      exact .mk name (ih _ hw (hparts _ hw) hvalue)

theorem AnnotationImage.carry {a a' : AnnotationInfo} (ha : ∀ x ∈ a.symbols, x.Carries p q)
    (himage : AnnotationImage names p t a a') : AnnotationImage names q t a a' := by
  rw [a.symbols_eq, List.forall_mem_cons, List.forall_mem_flatMap] at ha
  obtain ⟨htype, helements⟩ := himage
  refine .mk (htype.carry ha.1) (forall₂_imp_of_mem ?_ helements)
  rintro _ hmem _ ⟨name, hvalue⟩
  exact .mk name (hvalue.carry (ha.2 _ hmem))

theorem annotationImages_carry {as as' : List AnnotationInfo}
    (has : ∀ x ∈ as.flatMap AnnotationInfo.symbols, x.Carries p q)
    (himages : List.Forall₂ (AnnotationImage names p t) as as') : List.Forall₂ (AnnotationImage names q t) as as' := by
  rw [List.forall_mem_flatMap] at has
  exact forall₂_imp_of_mem (fun a ha _ himage => himage.carry (has a ha)) himages

theorem InnerClassImage.carry {c c' : InnerClass} (hc : ∀ x ∈ c.symbols, x.Carries p q)
    (himage : InnerClassImage p t c c') : InnerClassImage q t c c' := by
  refine ⟨himage.innerClass, himage.outerClass, himage.flags, himage.anonymous, fun hne => ?_⟩
  obtain ⟨asRead, renamed, hread, hrenamed, htext⟩ := himage.innerName hne
  rw [InnerClass.symbols, if_neg hne, List.forall_mem_singleton] at hc
  exact ⟨asRead, renamed, hread, hrenamed, htext.carry hc⟩

theorem EnclosingMethodImage.carry {owner method method' : UInt16}
    (hm : ∀ x ∈ if method = 0 then [] else [Symbol.nameAndType method], x.Carries p q)
    (himage : EnclosingMethodImage h p t owner method method') : EnclosingMethodImage h q t owner method method' := by
  refine ⟨himage.absent, fun hne => ?_⟩
  obtain ⟨ownerName, name, descriptor, newName, newDescriptor, howner, hread, hrest⟩ := himage.present hne
  rw [if_neg hne, List.forall_mem_singleton] at hm
  exact ⟨ownerName, name, descriptor, newName, newDescriptor, howner, hm _ hread, hrest⟩

theorem VariablesImage.carry {attributeName : UInt16} {slots slots' : List LocalVariable}
    (hslots : ∀ x ∈ Symbol.text attributeName :: slots.map fun v => Symbol.text v.descriptor, x.Carries p q)
    (himage : VariablesImage names p t attributeName slots slots') :
    VariablesImage names q t attributeName slots slots' := by
  obtain ⟨table, htable, hvariables⟩ := himage
  rw [List.forall_mem_cons, List.forall_mem_map] at hslots
  refine ⟨table, hslots.1 table htable, forall₂_imp_of_mem (fun v hv v' himage => ?_) hvariables⟩
  exact ⟨himage.1, himage.2.carry (hslots.2 v hv)⟩

theorem ComponentNameImage.carry {name descriptor name' : UInt16} (hname : (Symbol.text name).Carries p q)
    (hdescriptor : (Symbol.text descriptor).Carries p q) (himage : ComponentNameImage h p t name descriptor name') :
    ComponentNameImage h q t name descriptor name' := by
  obtain ⟨text, type, newText, htext, htype, hrest⟩ := himage
  exact ⟨text, type, newText, hname text htext, hdescriptor type htype, hrest⟩

/-- **An image by one pool is an image by another one** in which its symbols stand for the same. -/
theorem AttributeImage.carry {a a' : Attribute} (ha : ∀ x ∈ a.symbols, x.Carries p q)
    (himage : AttributeImage h p t a a') : AttributeImage h q t a a' := by
  induction a using Attribute.induction generalizing a' with
  | step a ih =>
    rw [a.symbols_eq, List.forall_mem_append, List.forall_mem_flatMap] at ha
    obtain ⟨hown, hparts⟩ := ha
    obtain ⟨name, hinfo⟩ := himage
    refine .mk name ?_
    cases hinfo with
    | code _ maxStack maxLocals instructions handlers hattributes =>
      refine .code name maxStack maxLocals instructions handlers ?_
      exact forall₂_imp_of_mem (fun b hb _ himage => ih b hb (hparts b hb) himage) hattributes
    | signature _ hindex => exact .signature name (hindex.carry (hown _ List.mem_cons_self))
    | innerClasses _ hclasses =>
      have hown := List.forall_mem_flatMap.mp hown
      exact .innerClasses name (forall₂_imp_of_mem (fun c hc _ himage => himage.carry (hown c hc)) hclasses)
    | enclosingMethod _ owner hmethod => exact .enclosingMethod name owner (hmethod.carry hown)
    | localVariables _ hslots => exact .localVariables name (VariablesImage.carry hown hslots)
    | annotations _ hinfos => exact .annotations name (annotationImages_carry hown hinfos)
    | parameterAnnotations _ hparameters =>
      have hown := List.forall_mem_flatMap.mp hown
      exact .parameterAnnotations name
        (forall₂_imp_of_mem (fun as has _ hinfos => annotationImages_carry (hown as has) hinfos) hparameters)
    | typeAnnotations _ hinfos =>
      have hown := List.forall_mem_flatMap.mp hown
      exact .typeAnnotations name
        (forall₂_imp_of_mem (fun a ha _ himage => ⟨himage.1, himage.2.carry (hown a ha)⟩) hinfos)
    | annotationDefault _ hvalue => exact .annotationDefault name (hvalue.carry hown)
    | record _ hcomponents =>
      have hown := List.forall_mem_flatMap.mp hown
      refine .record name (forall₂_imp_of_mem ?_ hcomponents)
      rintro c hc _ ⟨hname, hdescriptor, hattributes⟩
      have hsymbols := List.forall_mem_cons.mp (hown _ hc)
      have hsecond := List.forall_mem_singleton.mp hsymbols.2
      refine .mk (ComponentNameImage.carry hsymbols.1 hsecond hname) (hdescriptor.carry hsecond)
        (forall₂_imp_of_mem (fun b hb _ himage => ?_) hattributes)
      have hpart := List.mem_flatMap.mpr (show ∃ c ∈ _, b ∈ RecordComponent.attributes c from ⟨_, hc, hb⟩)
      exact ih b hpart (hparts b hpart) himage
    | raw _ bytes => exact .raw name bytes

end

/-! ## The symbols of images resolve -/

section

variable {names : ClassNames} {h : Hierarchy} {p : Pool} {t : Renamer × Pool}

theorem TextImage.resolves {f : String → Except Error String} {i j : UInt16} (himage : TextImage f p t i j) :
    (Symbol.text i).Resolves p := by
  obtain ⟨text, -, hread, -⟩ := himage
  exact ⟨text, hread⟩

theorem ValueImage.ownResolves {v v' : ElementValue} (himage : ValueImage names p t v v') :
    ∀ x ∈ v.ownSymbols, x.Resolves p := by
  cases himage with
  | «enum» _ htype => exact List.forall_mem_singleton.mpr htype.resolves
  | classLiteral hdescriptor => exact List.forall_mem_singleton.mpr hdescriptor.resolves
  | nested hvalue =>
    obtain ⟨htype, -⟩ := hvalue
    exact List.forall_mem_singleton.mpr htype.resolves
  | const _ _ | array _ => exact List.forall_mem_nil _

theorem ValueImage.resolves {v v' : ElementValue} (himage : ValueImage names p t v v') :
    ∀ x ∈ v.symbols, x.Resolves p :=
  List.forall_mem_flatMap.mpr (forall_mem_of_forall₂ (fun _ _ => ValueImage.ownResolves) himage.within)

theorem AnnotationImage.resolves {a a' : AnnotationInfo} (himage : AnnotationImage names p t a a') :
    ∀ x ∈ a.symbols, x.Resolves p := by
  have hvalues : ∀ v ∈ a.values, ∀ x ∈ v.ownSymbols, x.Resolves p :=
    forall_mem_of_forall₂ (fun _ _ => ValueImage.ownResolves) himage.values
  obtain ⟨htype, -⟩ := himage
  exact List.forall_mem_cons.mpr ⟨htype.resolves, List.forall_mem_flatMap.mpr hvalues⟩

theorem annotationImages_resolve {as as' : List AnnotationInfo}
    (himages : List.Forall₂ (AnnotationImage names p t) as as') :
    ∀ x ∈ as.flatMap AnnotationInfo.symbols, x.Resolves p :=
  List.forall_mem_flatMap.mpr (forall_mem_of_forall₂ (fun _ _ => AnnotationImage.resolves) himages)

theorem InnerClassImage.resolves {c c' : InnerClass} (himage : InnerClassImage p t c c') :
    ∀ x ∈ c.symbols, x.Resolves p := by
  rw [InnerClass.symbols]
  split
  · exact List.forall_mem_nil _
  · next hne =>
    obtain ⟨_, _, -, -, htext⟩ := himage.innerName hne
    exact List.forall_mem_singleton.mpr htext.resolves

theorem EnclosingMethodImage.resolves {owner method method' : UInt16}
    (himage : EnclosingMethodImage h p t owner method method') :
    ∀ x ∈ if method = 0 then [] else [Symbol.nameAndType method], x.Resolves p := by
  split
  · exact List.forall_mem_nil _
  · next hne =>
    obtain ⟨_, name, descriptor, _, _, -, hread, -⟩ := himage.present hne
    exact List.forall_mem_singleton.mpr ⟨_, hread⟩

theorem VariablesImage.resolves {attributeName : UInt16} {slots slots' : List LocalVariable}
    (himage : VariablesImage names p t attributeName slots slots') :
    ∀ x ∈ Symbol.text attributeName :: slots.map fun v => Symbol.text v.descriptor, x.Resolves p := by
  obtain ⟨table, htable, hvariables⟩ := himage
  rw [List.forall_mem_cons, List.forall_mem_map]
  exact ⟨⟨table, htable⟩, forall_mem_of_forall₂ (fun _ _ himage => himage.2.resolves) hvariables⟩

theorem ComponentImage.ownResolves {c c' : RecordComponent} (himage : ComponentImage h p t c c') :
    ∀ x ∈ c.ownSymbols, x.Resolves p := by
  obtain ⟨⟨text, _, _, htext, _⟩, hdescriptor, -⟩ := himage
  exact List.forall_mem_cons.mpr ⟨⟨text, htext⟩, List.forall_mem_singleton.mpr hdescriptor.resolves⟩

theorem AttributeImage.ownResolves {a a' : Attribute} (himage : AttributeImage h p t a a') :
    ∀ x ∈ a.ownSymbols, x.Resolves p := by
  obtain ⟨name, hinfo⟩ := himage
  cases hinfo with
  | signature _ hindex => exact List.forall_mem_singleton.mpr hindex.resolves
  | innerClasses _ hclasses =>
    exact List.forall_mem_flatMap.mpr (forall_mem_of_forall₂ (fun _ _ => InnerClassImage.resolves) hclasses)
  | enclosingMethod _ owner hmethod => exact hmethod.resolves
  | localVariables _ hslots => exact VariablesImage.resolves hslots
  | annotations _ hinfos => exact annotationImages_resolve hinfos
  | parameterAnnotations _ hparameters =>
    exact List.forall_mem_flatMap.mpr (forall_mem_of_forall₂ (fun _ _ => annotationImages_resolve) hparameters)
  | typeAnnotations _ hinfos =>
    exact List.forall_mem_flatMap.mpr (forall_mem_of_forall₂ (fun _ _ himage => himage.2.resolves) hinfos)
  | annotationDefault _ hvalue => exact hvalue.resolves
  | record _ hcomponents =>
    exact List.forall_mem_flatMap.mpr (forall_mem_of_forall₂ (fun _ _ => ComponentImage.ownResolves) hcomponents)
  | code _ _ _ _ _ _ | raw _ _ => exact List.forall_mem_nil _

theorem AttributeImage.resolves {a a' : Attribute} (himage : AttributeImage h p t a a') :
    ∀ x ∈ a.symbols, x.Resolves p :=
  List.forall_mem_flatMap.mpr (forall_mem_of_forall₂ (fun _ _ => AttributeImage.ownResolves) himage.within)

end

end Renamer

end Relabel
