import Relabel.Proofs.Hierarchy.Resolver
import Relabel.Proofs.Type.Signature
import Relabel.Stage.Rename

/-!
# What a class mentions

Renaming asks about the names of classes in class constants, descriptors and signatures, and about the names
of members with their owners. `mentions` lists both, for each part of a class, in the order in which they are
asked for. An index at which the pool has nothing to read mentions nothing: a class with such an index does
not come through anyway.

A mention is *kept* if the answer is what it was. A nested class in a signature counts with its full name,
so a signature can mention classes that are not spelled out in it.
-/

set_option autoImplicit false

namespace Relabel

/-- The ways in which a text spells names of classes. -/
inductive Spelling where
  /-- The name of a class, or the descriptor of an array. -/
  | type
  | field
  | method
  | signature
  /-- A result type. -/
  | literal
  deriving DecidableEq, Repr

namespace Spelling

/-- How a text is translated. -/
def translate (names : ClassNames) : Spelling → String → Except Error String
  | .type => names.translateType .toSource
  | .field => names.translateField .toSource
  | .method => names.translateMethod .toSource
  | .signature => names.translateSignature .toSource
  | .literal => Renamer.translateLiteral names

/-- The classes that a field descriptor names. -/
def fieldClasses (s : String) : List String :=
  match FieldType.ofString s with
  | .ok t => t.classes
  | .error _ => []

/-- The classes that a text names. -/
def classes : Spelling → String → List String
  | .type, s => if s.toList.head? = some '[' then fieldClasses s else [s]
  | .field, s => fieldClasses s
  | .method, s =>
    match MethodType.ofString s with
    | .ok t => t.classes
    | .error _ => []
  | .signature, s =>
    match Signature.ofString s with
    | .ok t => t.classes
    | .error _ => []
  | .literal, s => fieldClasses s

/-- The spelling of the types of a member. -/
def ofKind : MemberKind → Spelling
  | .field => .field
  | .method | .interfaceMethod => .method

variable {names : ClassNames} {s s' : String}

theorem translateField_of_fixed (h : names.translateField .toSource s = .ok s')
    (hfixed : ∀ c ∈ fieldClasses s, names.map c = c) : s' = s := by
  refine Descriptor.renameField_of_fixed h fun t ht c hc => hfixed c ?_
  rw [fieldClasses, ht]
  exact hc

/-- **A text stays as it is if the classes it names keep their names.** -/
theorem translate_of_fixed (spelling : Spelling) (h : spelling.translate names s = .ok s')
    (hfixed : ∀ c ∈ spelling.classes s, names.map c = c) : s' = s := by
  cases spelling with
  | type =>
    have h : Descriptor.renameType (names.translate .toSource) s = .ok s' := h
    unfold Descriptor.renameType at h
    split at h
    · next hs =>
      rw [classes, if_pos hs] at hfixed
      exact translateField_of_fixed h hfixed
    · next hs =>
      rw [classes, if_neg hs] at hfixed
      exact (Except.ok.inj h).symm.trans (hfixed s List.mem_cons_self)
  | field => exact translateField_of_fixed h hfixed
  | method =>
    refine Descriptor.renameMethod_of_fixed h fun t ht c hc => hfixed c ?_
    rw [classes, ht]
    exact hc
  | signature =>
    refine Signature.renameText_of_fixed h fun t ht c hc => hfixed c ?_
    rw [classes, ht]
    exact hc
  | literal =>
    have h : Renamer.translateLiteral names s = .ok s' := h
    unfold Renamer.translateLiteral at h
    split at h
    · exact (Except.ok.inj h).symm
    · exact translateField_of_fixed h hfixed

end Spelling

/-! ## Mentions -/

/-- Something that renaming asks about. -/
inductive Mention where
  /-- The classes that a text names. -/
  | text (spelling : Spelling) (text : String)
  /-- The name of a member, looked up on an owner. -/
  | member (kind : MemberKind) (owner name descriptor : String)
  deriving DecidableEq, Repr

namespace Mention

/-- The mention keeps its names: the classes are translated to themselves, and the name that the resolver
gives for the member is the name it has. -/
def Kept (h : Hierarchy) (r : Resolver) : Mention → Prop
  | .text spelling s => ∀ c ∈ spelling.classes s, h.renames.classes.map c = c
  | .member kind owner name descriptor =>
    ∀ newName, h.Gives r kind owner name descriptor newName → newName = name

/-- A list of mentions that are all kept. -/
def AllKept (h : Hierarchy) (r : Resolver) (ms : List Mention) : Prop := ∀ m ∈ ms, m.Kept h r

/-- The mention is seen to keep its names: no other name of the member is in the tables, wherever its owner is. -/
def isKept (h : Hierarchy) (r : Resolver) : Mention → Bool
  | .text spelling s => (spelling.classes s).all fun c => h.renames.classes.map c = c
  | .member kind owner name descriptor => r.renamed? kind owner name descriptor = none

/-- What something mentions that was read, nothing if it could not be read. -/
def ofRead {α : Type} (x : Except Error α) (f : α → List Mention) : List Mention :=
  match x with
  | .ok a => f a
  | .error _ => []

/-- A member that is looked up on an owner, and its types. -/
def reference (kind : MemberKind) (owner name descriptor : String) : List Mention :=
  [.member kind owner name descriptor, .text (Spelling.ofKind kind) descriptor]

variable {h : Hierarchy} {r : Resolver}

theorem kept_of_isKept {m : Mention} (hm : m.isKept h r = true) : m.Kept h r := by
  cases m with
  | text spelling s => exact fun c hc => of_decide_eq_true (List.all_eq_true.mp hm c hc)
  | member kind owner name descriptor =>
    intro newName hgives
    obtain ⟨-, hname⟩ | ⟨-, -, hname⟩ := Hierarchy.gives_iff.mp hgives
    · exact hname
    · rwa [of_decide_eq_true hm] at hname

theorem AllKept.left {ms ns : List Mention} (hk : AllKept h r (ms ++ ns)) : AllKept h r ms :=
  fun m hm => hk m (List.mem_append_left ns hm)

theorem AllKept.right {ms ns : List Mention} (hk : AllKept h r (ms ++ ns)) : AllKept h r ns :=
  fun m hm => hk m (List.mem_append_right ms hm)

theorem AllKept.member {kind : MemberKind} {owner name descriptor : String}
    (hk : AllKept h r (reference kind owner name descriptor)) :
    (Mention.member kind owner name descriptor).Kept h r :=
  hk _ List.mem_cons_self

theorem AllKept.type {kind : MemberKind} {owner name descriptor : String}
    (hk : AllKept h r (reference kind owner name descriptor)) :
    (Mention.text (Spelling.ofKind kind) descriptor).Kept h r :=
  hk _ (List.mem_cons_of_mem _ List.mem_cons_self)

theorem AllKept.of_flatMap {α : Type} {xs : List α} {f : α → List Mention} (hk : AllKept h r (xs.flatMap f))
    {a : α} (ha : a ∈ xs) : AllKept h r (f a) :=
  fun m hm => hk m (List.mem_flatMap.mpr ⟨a, ha, hm⟩)

theorem AllKept.of_read {α : Type} {x : Except Error α} {f : α → List Mention} (hk : AllKept h r (ofRead x f))
    {a : α} (hx : x = .ok a) : AllKept h r (f a) := by
  rw [hx] at hk
  exact hk

end Mention

open Mention (ofRead reference)

namespace Pool

/-- What the text at an index mentions. -/
def spelled (p : Pool) (spelling : Spelling) (i : UInt16) : List Mention :=
  ofRead (p.utf8 i) fun text => [.text spelling text]

/-- What the descriptor of a name and a descriptor mentions. -/
def spelledType (p : Pool) (spelling : Spelling) (nt : UInt16) : List Mention :=
  ofRead (p.nameAndType nt) fun x => [.text spelling x.2]

/-- What a constant in the slot `i` mentions. -/
def constantMentions (p : Pool) (i : UInt16) : Constant → List Mention
  | .classRef name => p.spelled .type name
  | .member kind _ _ => ofRead (p.memberRef i) fun m => reference kind m.owner m.name m.descriptor
  | .methodType descriptor => p.spelled .method descriptor
  | .dynamic _ nt => p.spelledType .field nt
  | .invokeDynamic _ nt => p.spelledType .method nt
  | _ => []

/-- What the constant of a slot mentions. -/
def mentionsAt (p : Pool) (i : UInt16) : List Mention := ofRead (p.get i) (p.constantMentions i)

/-- What the constants of a pool mention. -/
def mentions (p : Pool) : List Mention := p.indices.flatMap p.mentionsAt

end Pool

/-! ## Attributes -/

section

variable (p : Pool)

mutual

/-- What an annotation mentions. -/
def AnnotationInfo.mentions : AnnotationInfo → List Mention
  | ⟨type, elements⟩ => p.spelled .field type ++ ElementValue.mentionsNamed elements

/-- What a value in an annotation mentions. -/
def ElementValue.mentions : ElementValue → List Mention
  | .const _ _ => []
  | .enum type _ => p.spelled .field type
  | .classLiteral descriptor => p.spelled .literal descriptor
  | .nested value => value.mentions
  | .array values => ElementValue.mentionsList values

/-- What named values mention. -/
def ElementValue.mentionsNamed : List (UInt16 × ElementValue) → List Mention
  | [] => []
  | (_, value) :: rest => value.mentions ++ ElementValue.mentionsNamed rest

/-- What values mention. -/
def ElementValue.mentionsList : List ElementValue → List Mention
  | [] => []
  | value :: rest => value.mentions ++ ElementValue.mentionsList rest

end

/-- The name of their table tells how the types of local variables are spelled. -/
def LocalVariable.spelling (table : String) : Spelling :=
  if table = localVariableTypeTableName then .signature else .field

/-- What the method around a local class mentions; a class may have none. -/
def enclosingMentions (owner method : UInt16) : List Mention :=
  if method = 0 then []
  else ofRead (p.className owner) fun ownerName =>
    ofRead (p.nameAndType method) fun x => reference .method ownerName x.1 x.2

variable (className : String)

mutual

/-- What an attribute of the class `className` mentions, or one further inside. -/
def Attribute.mentions : Attribute → List Mention
  | ⟨name, info⟩ => AttributeInfo.mentions name info

/-- What the data of an attribute with a given name mentions. -/
def AttributeInfo.mentions (name : UInt16) : AttributeInfo → List Mention
  | .code _ _ _ _ attributes => Attribute.mentionsList attributes
  | .signature index => p.spelled .signature index
  | .innerClasses _ => []
  | .enclosingMethod owner method => enclosingMentions p owner method
  | .localVariables slots => ofRead (p.utf8 name) fun table =>
    slots.flatMap fun v => p.spelled (LocalVariable.spelling table) v.descriptor
  | .annotations annotations => annotations.flatMap (AnnotationInfo.mentions p)
  | .parameterAnnotations parameters => parameters.flatMap (List.flatMap (AnnotationInfo.mentions p))
  | .typeAnnotations annotations => annotations.flatMap fun a => a.info.mentions p
  | .annotationDefault value => value.mentions p
  | .record components => RecordComponent.mentionsList components
  | .raw _ => []

/-- What a component of a record mentions: it is looked up like a field. -/
def RecordComponent.mentions : RecordComponent → List Mention
  | ⟨name, descriptor, attributes⟩ =>
    (ofRead (p.utf8 name) fun n => ofRead (p.utf8 descriptor) fun d => [.member .field className n d])
      ++ (p.spelled .field descriptor ++ Attribute.mentionsList attributes)

/-- What attributes mention. -/
def Attribute.mentionsList : List Attribute → List Mention
  | [] => []
  | a :: rest => a.mentions ++ Attribute.mentionsList rest

/-- What components of a record mention. -/
def RecordComponent.mentionsList : List RecordComponent → List Mention
  | [] => []
  | c :: rest => c.mentions ++ RecordComponent.mentionsList rest

end

/-! ## Members and the class -/

/-- What a member that the class `className` declares mentions. -/
def Member.mentions (kind : MemberKind) (m : Member) : List Mention :=
  (ofRead (m.nameIn p) fun n => ofRead (m.descriptorIn p) fun d => reference kind className n d)
    ++ Attribute.mentionsList p className m.attributes

/-- What an element of the body mentions. -/
def ClassItem.mentions : ClassItem → List Mention
  | .field m => m.mentions p className .field
  | .method m => m.mentions p className .method
  | .attr a => a.mentions p className

end

/-- What a class mentions: its pool and its body. -/
def ClassFile.mentions (f : ClassFile) : List Mention :=
  f.pool.mentions ++ ofRead f.className fun className =>
    (f.events .none).items.flatMap (ClassItem.mentions f.pool className)

end Relabel
