import Relabel.Proofs.Rename.Constants

/-!
# Renaming attributes changes names and nothing else

The relations here say which attribute is the image of which, at every depth: both are built the same way,
everything that is not the index of a name is the same, and an index of a name stands for the image of
what it stands for in a pool `read`. They are told of the state in which the pool is written. Of every attribute
that was renamed they hold with that same pool as `read`; whether they also hold with the pool of the class as it
was read is another question, because an index may point past its end.

The functions that rename attributes go through lists with an accumulator, so each list has a lemma about
what is put behind it.
-/

set_option autoImplicit false

namespace Relabel.Renamer

open Pool (Changes)

/-! ## Annotations -/

mutual

/-- An annotation and its image. -/
inductive AnnotationImage (names : ClassNames) (read : Pool) (t : Renamer × Pool) :
    AnnotationInfo → AnnotationInfo → Prop
  | mk {type type' : UInt16} {elements elements' : List (UInt16 × ElementValue)} :
      TextImage (names.translateField .toSource) read t type type' →
      List.Forall₂ (NamedValueImage names read t) elements elements' →
      AnnotationImage names read t ⟨type, elements⟩ ⟨type', elements'⟩

/-- A value and its image. Constants and the names of enum constants stay. -/
inductive ValueImage (names : ClassNames) (read : Pool) (t : Renamer × Pool) : ElementValue → ElementValue → Prop
  | const (tag : UInt8) (index : UInt16) : ValueImage names read t (.const tag index) (.const tag index)
  | enum {type type' : UInt16} (name : UInt16) :
      TextImage (names.translateField .toSource) read t type type' →
      ValueImage names read t (.enum type name) (.enum type' name)
  | classLiteral {descriptor descriptor' : UInt16} :
      TextImage (translateLiteral names) read t descriptor descriptor' →
      ValueImage names read t (.classLiteral descriptor) (.classLiteral descriptor')
  | nested {value value' : AnnotationInfo} : AnnotationImage names read t value value' →
      ValueImage names read t (.nested value) (.nested value')
  | array {values values' : List ElementValue} : List.Forall₂ (ValueImage names read t) values values' →
      ValueImage names read t (.array values) (.array values')

/-- A named value and its image. The name stays. -/
inductive NamedValueImage (names : ClassNames) (read : Pool) (t : Renamer × Pool) :
    UInt16 × ElementValue → UInt16 × ElementValue → Prop
  | mk (name : UInt16) {value value' : ElementValue} : ValueImage names read t value value' →
      NamedValueImage names read t (name, value) (name, value')

end

variable {h : Hierarchy} {E : Set Nat}

mutual

theorem leaves_renameAnnotationInfo (names : ClassNames) : ∀ a : AnnotationInfo,
    Leaves h E (renameAnnotationInfo names a) fun a' t => AnnotationImage names t.2 t a a'
  | ⟨type, elements⟩ => by
    rw [renameAnnotationInfo]
    refine ((leaves_renameUtf8 _ type).bind fun type' =>
      (leaves_renameNamedValues names [] elements).bind fun elements' => Leaves.pure _).mono ?_
    rintro _ t - ⟨type', htype, elements', ⟨values, rfl, hvalues⟩, rfl⟩
    exact AnnotationImage.mk htype hvalues

theorem leaves_renameValue (names : ClassNames) : ∀ v : ElementValue,
    Leaves h E (renameValue names v) fun v' t => ValueImage names t.2 t v v'
  | .const tag index => by
    rw [renameValue]
    refine (Leaves.pure _).mono ?_
    rintro _ t - rfl
    exact ValueImage.const tag index
  | .enum type name => by
    rw [renameValue]
    refine ((leaves_renameUtf8 _ type).bind fun type' => Leaves.pure _).mono ?_
    rintro _ t - ⟨type', htype, rfl⟩
    exact ValueImage.enum name htype
  | .classLiteral descriptor => by
    rw [renameValue]
    refine ((leaves_renameUtf8 _ descriptor).bind fun descriptor' => Leaves.pure _).mono ?_
    rintro _ t - ⟨descriptor', hdescriptor, rfl⟩
    exact ValueImage.classLiteral hdescriptor
  | .nested value => by
    rw [renameValue]
    refine ((leaves_renameAnnotationInfo names value).bind fun value' => Leaves.pure _).mono ?_
    rintro _ t - ⟨value', hvalue, rfl⟩
    exact ValueImage.nested hvalue
  | .array values => by
    rw [renameValue]
    refine ((leaves_renameValues names [] values).bind fun values' => Leaves.pure _).mono ?_
    rintro _ t - ⟨_, ⟨values', rfl, hvalues⟩, rfl⟩
    exact ValueImage.array hvalues

theorem leaves_renameNamedValues (names : ClassNames) (acc : List (UInt16 × ElementValue)) :
    ∀ vs : List (UInt16 × ElementValue), Leaves h E (renameNamedValues names acc vs) fun ws t =>
      ∃ vs', ws = acc.reverse ++ vs' ∧ List.Forall₂ (NamedValueImage names t.2 t) vs vs'
  | [] => by
    rw [renameNamedValues]
    refine (Leaves.pure _).mono ?_
    rintro _ t - rfl
    exact ⟨[], (List.append_nil _).symm, List.Forall₂.nil⟩
  | (name, value) :: rest => by
    rw [renameNamedValues]
    refine ((leaves_renameValue names value).bind fun value' =>
      leaves_renameNamedValues names ((name, value') :: acc) rest).mono ?_
    rintro _ t - ⟨value', hvalue, rest', rfl, hrest⟩
    exact ⟨(name, value') :: rest', by simp, List.Forall₂.cons (NamedValueImage.mk name hvalue) hrest⟩

theorem leaves_renameValues (names : ClassNames) (acc : List ElementValue) :
    ∀ vs : List ElementValue, Leaves h E (renameValues names acc vs) fun ws t =>
      ∃ vs', ws = acc.reverse ++ vs' ∧ List.Forall₂ (ValueImage names t.2 t) vs vs'
  | [] => by
    rw [renameValues]
    refine (Leaves.pure _).mono ?_
    rintro _ t - rfl
    exact ⟨[], (List.append_nil _).symm, List.Forall₂.nil⟩
  | value :: rest => by
    rw [renameValues]
    refine ((leaves_renameValue names value).bind fun value' =>
      leaves_renameValues names (value' :: acc) rest).mono ?_
    rintro _ t - ⟨value', hvalue, rest', rfl, hrest⟩
    exact ⟨value' :: rest', by simp, List.Forall₂.cons hvalue hrest⟩

end

/-! ## Single entries -/

/-- An entry for a nested class and its image: the simple name follows the new name of the class, and an
anonymous class stays without one. -/
structure InnerClassImage (read : Pool) (t : Renamer × Pool) (c c' : InnerClass) : Prop where
  innerClass : c'.innerClass = c.innerClass
  outerClass : c'.outerClass = c.outerClass
  flags : c'.flags = c.flags
  anonymous : c.innerName = 0 → c'.innerName = 0
  innerName : c.innerName ≠ 0 → ∃ asRead renamed, t.1.asRead.className c.innerClass = .ok asRead ∧
    t.2.className c.innerClass = .ok renamed ∧
    TextImage (fun inner => .ok (innerSimpleName asRead renamed inner)) read t c.innerName c'.innerName

theorem leaves_renameInnerClass (c : InnerClass) :
    Leaves h ∅ (renameInnerClass c) fun c' t => InnerClassImage t.2 t c c' := by
  unfold renameInnerClass
  split
  · next h0 =>
    refine (Leaves.pure c).mono ?_
    rintro _ t - rfl
    exact ⟨rfl, rfl, rfl, fun _ => h0, fun hne => absurd h0 hne⟩
  · next h0 =>
    refine (leaves_poolAsRead.bind fun p => (Leaves.lift (p.className c.innerClass)).bind fun asRead =>
      leaves_pool.bind fun q => (Leaves.lift (q.className c.innerClass)).bind fun renamed =>
        (leaves_renameUtf8 _ c.innerName).bind fun innerName => Leaves.pure _).mono ?_
    rintro _ t - ⟨p, rfl, asRead, hread, q, hqt, renamed, hrenamed, innerName, himage, rfl⟩
    refine ⟨rfl, rfl, rfl, fun h => absurd h h0, fun _ => ⟨asRead, renamed, hread, ?_, himage⟩⟩
    exact hqt.className (Set.notMem_empty _) hrenamed

/-- The method around a local class and its image. The method is looked up in the enclosing class as it
was called before; no method stays no method. -/
structure EnclosingMethodImage (h : Hierarchy) (read : Pool) (t : Renamer × Pool) (owner method method' : UInt16) :
    Prop where
  absent : method = 0 → method' = 0
  present : method ≠ 0 → ∃ ownerName name descriptor newName newDescriptor,
    t.1.asRead.className owner = .ok ownerName ∧
    read.nameAndType method = .ok (name, descriptor) ∧
    h.Gives t.1.resolver .method ownerName name descriptor newName ∧
    h.renames.classes.translateMethod .toSource descriptor = .ok newDescriptor ∧
    t.2.nameAndType method' = .ok (newName, newDescriptor) ∧
    (newName = name → newDescriptor = descriptor → method' = method)

theorem leaves_renameEnclosingMethod (h : Hierarchy) (owner method : UInt16) :
    Leaves h E (renameEnclosingMethod h owner method) fun method' t =>
      EnclosingMethodImage h t.2 t owner method method' := by
  unfold renameEnclosingMethod
  split
  · next h0 =>
    refine (Leaves.pure method).mono ?_
    rintro _ t - rfl
    exact ⟨id, fun hne => absurd h0 hne⟩
  · next h0 =>
    refine (leaves_poolAsRead.bind fun p => (Leaves.lift (p.className owner)).bind fun ownerName =>
      leaves_pool.bind fun q => (Leaves.lift (q.nameAndType method)).bind fun x =>
        (leaves_memberName h .method ownerName x.1 x.2).bind fun newName =>
          (Leaves.lift (h.renames.classes.translateMethod .toSource x.2)).bind fun newDescriptor =>
            (?_ : Leaves h E _ fun method' t => (newName = x.1 ∧ newDescriptor = x.2 ∧ method' = method) ∨
              (¬(newName = x.1 ∧ newDescriptor = x.2) ∧
                t.2.nameAndType method' = .ok (newName, newDescriptor)))).mono ?_
    · split
      · next heq => exact (Leaves.pure method).mono fun _ _ _ hm => Or.inl ⟨heq.1, heq.2, hm⟩
      · next hne =>
        exact (leaves_internNameAndType newName newDescriptor).mono fun _ _ _ hm => Or.inr ⟨hne, hm⟩
    · rintro method' t - ⟨p, rfl, ownerName, howner, q, hqt, ⟨name, descriptor⟩, hx, newName,
        hgives, newDescriptor, hdescriptor, hm⟩
      have hnow := hqt.nameAndType hx
      refine ⟨fun h => absurd h h0, fun _ => ⟨ownerName, name, descriptor, newName, newDescriptor, howner,
        hnow, hgives, hdescriptor, ?_, ?_⟩⟩
      · obtain ⟨rfl, rfl, rfl⟩ | ⟨-, hm⟩ := hm
        · exact hnow
        · exact hm
      · intro hn hd
        obtain ⟨-, -, hm⟩ | ⟨hne, -⟩ := hm
        · exact hm
        · exact absurd ⟨hn, hd⟩ hne

/-- A local variable and its image. -/
def VariableImage (f : String → Except Error String) (read : Pool) (t : Renamer × Pool) (v v' : LocalVariable) : Prop :=
  v' = { v with descriptor := v'.descriptor } ∧ TextImage f read t v.descriptor v'.descriptor

/-- Local variables and their images: the name of the table tells signatures from descriptors. -/
def VariablesImage (names : ClassNames) (read : Pool) (t : Renamer × Pool) (attributeName : UInt16)
    (slots slots' : List LocalVariable) : Prop :=
  ∃ table, read.utf8 attributeName = .ok table ∧
    List.Forall₂ (VariableImage (if table = localVariableTypeTableName
      then names.translateSignature .toSource else names.translateField .toSource) read t) slots slots'

theorem leaves_renameVariables (names : ClassNames) (attributeName : UInt16) (slots : List LocalVariable) :
    Leaves h E (renameVariables names attributeName slots) fun slots' t =>
      VariablesImage names t.2 t attributeName slots slots' := by
  unfold renameVariables
  refine (leaves_pool.bind fun p => (Leaves.lift (p.utf8 attributeName)).bind fun table =>
    Leaves.mapM (R := fun v v' t => VariableImage (if table = localVariableTypeTableName
      then names.translateSignature .toSource else names.translateField .toSource) t.2 t v v')
      (fun v => ?_) slots).mono ?_
  · refine ((leaves_renameUtf8 _ v.descriptor).bind fun descriptor => Leaves.pure _).mono ?_
    rintro _ t - ⟨descriptor, hdescriptor, rfl⟩
    refine ⟨rfl, ?_⟩
    simpa using hdescriptor
  · rintro slots' t - ⟨p, hpt, table, htable, hslots⟩
    exact ⟨table, hpt.utf8 htable, hslots⟩

/-- An annotation on the use of a type and its image: where it applies stays. -/
def TypeAnnotationImage (names : ClassNames) (read : Pool) (t : Renamer × Pool) (a a' : TypeAnnotationInfo) : Prop :=
  a' = { a with info := a'.info } ∧ AnnotationImage names read t a.info a'.info

theorem leaves_renameTypeAnnotationInfo (names : ClassNames) (a : TypeAnnotationInfo) :
    Leaves h E (renameTypeAnnotationInfo names a) fun a' t => TypeAnnotationImage names t.2 t a a' := by
  unfold renameTypeAnnotationInfo
  refine ((leaves_renameAnnotationInfo names a.info).bind fun info => Leaves.pure _).mono ?_
  rintro _ t - ⟨info, hinfo, rfl⟩
  exact ⟨rfl, hinfo⟩

/-- The name of a record component and its image: the component is called like the field it stands
for. -/
def ComponentNameImage (h : Hierarchy) (read : Pool) (t : Renamer × Pool) (name descriptor name' : UInt16) : Prop :=
  ∃ text type newText, read.utf8 name = .ok text ∧ read.utf8 descriptor = .ok type ∧
    h.Gives t.1.resolver .field t.1.className text type newText ∧ Replaces t name text name' newText

theorem leaves_renameComponentName (h : Hierarchy) (name descriptor : UInt16) :
    Leaves h E (renameComponentName h name descriptor) fun name' t =>
      ComponentNameImage h t.2 t name descriptor name' := by
  unfold renameComponentName
  refine (leaves_pool.bind fun p => (Leaves.lift (p.utf8 name)).bindOf fun text _ htext =>
    leaves_pool.bind fun q => (Leaves.lift (q.utf8 descriptor)).bind fun type =>
      leaves_nameAsRead.bind fun owner => (leaves_memberName h .field owner text type).bind fun newText =>
        leaves_replace htext newText).mono ?_
  rintro name' t - ⟨p, hpt, text, htext, q, hqt, type, htype, owner, rfl, newText, hgives, hname'⟩
  exact ⟨text, type, newText, hpt.utf8 htext, hqt.utf8 htype, hgives, hname' hpt⟩

/-! ## Attributes -/

mutual

/-- An attribute and its image. The name of an attribute stays. -/
inductive AttributeImage (h : Hierarchy) (read : Pool) (t : Renamer × Pool) : Attribute → Attribute → Prop
  | mk (name : UInt16) {info info' : AttributeInfo} : InfoImage h read t name info info' →
      AttributeImage h read t ⟨name, info⟩ ⟨name, info'⟩

/-- The data of an attribute with a given name and its image. -/
inductive InfoImage (h : Hierarchy) (read : Pool) (t : Renamer × Pool) : UInt16 → AttributeInfo → AttributeInfo → Prop
  | code (name maxStack maxLocals : UInt16) (instructions : Bytes) (handlers : List ExceptionHandler)
      {attributes attributes' : List Attribute} :
      List.Forall₂ (AttributeImage h read t) attributes attributes' →
      InfoImage h read t name (.code maxStack maxLocals instructions handlers attributes)
        (.code maxStack maxLocals instructions handlers attributes')
  | signature (name : UInt16) {index index' : UInt16} :
      TextImage (h.renames.classes.translateSignature .toSource) read t index index' →
      InfoImage h read t name (.signature index) (.signature index')
  | innerClasses (name : UInt16) {classes classes' : List InnerClass} :
      List.Forall₂ (InnerClassImage read t) classes classes' →
      InfoImage h read t name (.innerClasses classes) (.innerClasses classes')
  | enclosingMethod (name owner : UInt16) {method method' : UInt16} :
      EnclosingMethodImage h read t owner method method' →
      InfoImage h read t name (.enclosingMethod owner method) (.enclosingMethod owner method')
  | localVariables (name : UInt16) {slots slots' : List LocalVariable} :
      VariablesImage h.renames.classes read t name slots slots' →
      InfoImage h read t name (.localVariables slots) (.localVariables slots')
  | annotations (name : UInt16) {annotations annotations' : List AnnotationInfo} :
      List.Forall₂ (AnnotationImage h.renames.classes read t) annotations annotations' →
      InfoImage h read t name (.annotations annotations) (.annotations annotations')
  | parameterAnnotations (name : UInt16) {parameters parameters' : List (List AnnotationInfo)} :
      List.Forall₂ (List.Forall₂ (AnnotationImage h.renames.classes read t)) parameters parameters' →
      InfoImage h read t name (.parameterAnnotations parameters) (.parameterAnnotations parameters')
  | typeAnnotations (name : UInt16) {annotations annotations' : List TypeAnnotationInfo} :
      List.Forall₂ (TypeAnnotationImage h.renames.classes read t) annotations annotations' →
      InfoImage h read t name (.typeAnnotations annotations) (.typeAnnotations annotations')
  | annotationDefault (name : UInt16) {value value' : ElementValue} :
      ValueImage h.renames.classes read t value value' →
      InfoImage h read t name (.annotationDefault value) (.annotationDefault value')
  | record (name : UInt16) {components components' : List RecordComponent} :
      List.Forall₂ (ComponentImage h read t) components components' →
      InfoImage h read t name (.record components) (.record components')
  | raw (name : UInt16) (bytes : Bytes) : InfoImage h read t name (.raw bytes) (.raw bytes)

/-- A component of a record and its image. -/
inductive ComponentImage (h : Hierarchy) (read : Pool) (t : Renamer × Pool) : RecordComponent → RecordComponent → Prop
  | mk {name name' descriptor descriptor' : UInt16} {attributes attributes' : List Attribute} :
      ComponentNameImage h read t name descriptor name' →
      TextImage (h.renames.classes.translateField .toSource) read t descriptor descriptor' →
      List.Forall₂ (AttributeImage h read t) attributes attributes' →
      ComponentImage h read t ⟨name, descriptor, attributes⟩ ⟨name', descriptor', attributes'⟩

end

mutual

theorem leaves_renameAttribute (h : Hierarchy) : ∀ a : Attribute,
    Leaves h ∅ (renameAttribute h a) fun a' t => AttributeImage h t.2 t a a'
  | ⟨name, info⟩ => by
    rw [renameAttribute]
    refine ((leaves_renameInfo h name info).bind fun info' => Leaves.pure _).mono ?_
    rintro _ t - ⟨info', hinfo, rfl⟩
    exact AttributeImage.mk name hinfo

theorem leaves_renameInfo (h : Hierarchy) (name : UInt16) : ∀ info : AttributeInfo,
    Leaves h ∅ (renameInfo h name info) fun info' t => InfoImage h t.2 t name info info'
  | .code maxStack maxLocals instructions handlers attributes => by
    rw [renameInfo]
    refine ((leaves_renameAttributes h [] attributes).bind fun attributes' => Leaves.pure _).mono ?_
    rintro _ t - ⟨_, ⟨attributes', rfl, hattributes⟩, rfl⟩
    exact InfoImage.code name maxStack maxLocals instructions handlers hattributes
  | .signature index => by
    rw [renameInfo]
    refine ((leaves_renameUtf8 _ index).bind fun index' => Leaves.pure _).mono ?_
    rintro _ t - ⟨index', hindex, rfl⟩
    exact InfoImage.signature name hindex
  | .innerClasses classes => by
    rw [renameInfo]
    refine ((Leaves.mapM leaves_renameInnerClass classes).bind fun classes' => Leaves.pure _).mono ?_
    rintro _ t - ⟨classes', hclasses, rfl⟩
    exact InfoImage.innerClasses name hclasses
  | .enclosingMethod owner method => by
    rw [renameInfo]
    refine ((leaves_renameEnclosingMethod h owner method).bind fun method' => Leaves.pure _).mono ?_
    rintro _ t - ⟨method', hmethod, rfl⟩
    exact InfoImage.enclosingMethod name owner hmethod
  | .localVariables slots => by
    rw [renameInfo]
    refine ((leaves_renameVariables _ name slots).bind fun slots' => Leaves.pure _).mono ?_
    rintro _ t - ⟨slots', hslots, rfl⟩
    exact InfoImage.localVariables name hslots
  | .annotations annotations => by
    rw [renameInfo]
    refine ((Leaves.mapM (leaves_renameAnnotationInfo _) annotations).bind fun annotations' =>
      Leaves.pure _).mono ?_
    rintro _ t - ⟨annotations', hannotations, rfl⟩
    exact InfoImage.annotations name hannotations
  | .parameterAnnotations parameters => by
    rw [renameInfo]
    refine ((Leaves.mapM (fun annotations => Leaves.mapM (leaves_renameAnnotationInfo _) annotations)
      parameters).bind fun parameters' => Leaves.pure _).mono ?_
    rintro _ t - ⟨parameters', hparameters, rfl⟩
    exact InfoImage.parameterAnnotations name hparameters
  | .typeAnnotations annotations => by
    rw [renameInfo]
    refine ((Leaves.mapM (leaves_renameTypeAnnotationInfo _) annotations).bind fun annotations' =>
      Leaves.pure _).mono ?_
    rintro _ t - ⟨annotations', hannotations, rfl⟩
    exact InfoImage.typeAnnotations name hannotations
  | .annotationDefault value => by
    rw [renameInfo]
    refine ((leaves_renameValue _ value).bind fun value' => Leaves.pure _).mono ?_
    rintro _ t - ⟨value', hvalue, rfl⟩
    exact InfoImage.annotationDefault name hvalue
  | .record components => by
    rw [renameInfo]
    refine ((leaves_renameComponents h [] components).bind fun components' => Leaves.pure _).mono ?_
    rintro _ t - ⟨_, ⟨components', rfl, hcomponents⟩, rfl⟩
    exact InfoImage.record name hcomponents
  | .raw bytes => by
    rw [renameInfo]
    refine (Leaves.pure _).mono ?_
    rintro _ t - rfl
    exact InfoImage.raw name bytes

theorem leaves_renameComponent (h : Hierarchy) : ∀ c : RecordComponent,
    Leaves h ∅ (renameComponent h c) fun c' t => ComponentImage h t.2 t c c'
  | ⟨name, descriptor, attributes⟩ => by
    rw [renameComponent]
    refine ((leaves_renameComponentName h name descriptor).bind fun name' =>
      (leaves_renameUtf8 _ descriptor).bind fun descriptor' =>
        (leaves_renameAttributes h [] attributes).bind fun attributes' => Leaves.pure _).mono ?_
    rintro _ t - ⟨name', hname, descriptor', hdescriptor, _, ⟨attributes', rfl, hattributes⟩, rfl⟩
    exact ComponentImage.mk hname hdescriptor hattributes

theorem leaves_renameAttributes (h : Hierarchy) (acc : List Attribute) : ∀ as : List Attribute,
    Leaves h ∅ (renameAttributes h acc as) fun bs t =>
      ∃ as', bs = acc.reverse ++ as' ∧ List.Forall₂ (AttributeImage h t.2 t) as as'
  | [] => by
    rw [renameAttributes]
    refine (Leaves.pure _).mono ?_
    rintro _ t - rfl
    exact ⟨[], (List.append_nil _).symm, List.Forall₂.nil⟩
  | a :: rest => by
    rw [renameAttributes]
    refine ((leaves_renameAttribute h a).bind fun a' => leaves_renameAttributes h (a' :: acc) rest).mono ?_
    rintro _ t - ⟨a', ha, rest', rfl, hrest⟩
    exact ⟨a' :: rest', by simp, List.Forall₂.cons ha hrest⟩

theorem leaves_renameComponents (h : Hierarchy) (acc : List RecordComponent) :
    ∀ cs : List RecordComponent, Leaves h ∅ (renameComponents h acc cs) fun ds t =>
      ∃ cs', ds = acc.reverse ++ cs' ∧ List.Forall₂ (ComponentImage h t.2 t) cs cs'
  | [] => by
    rw [renameComponents]
    refine (Leaves.pure _).mono ?_
    rintro _ t - rfl
    exact ⟨[], (List.append_nil _).symm, List.Forall₂.nil⟩
  | c :: rest => by
    rw [renameComponents]
    refine ((leaves_renameComponent h c).bind fun c' => leaves_renameComponents h (c' :: acc) rest).mono ?_
    rintro _ t - ⟨c', hc, rest', rfl, hrest⟩
    exact ⟨c' :: rest', by simp, List.Forall₂.cons hc hrest⟩

end

end Relabel.Renamer
