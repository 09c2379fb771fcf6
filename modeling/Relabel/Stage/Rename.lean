import Relabel.Class.Stream
import Relabel.Hierarchy.Resolver

/-!
# The renaming stage

Renames classes, members and every descriptor or signature that mentions them. The pool is changed
first. References are redirected slot by slot: a slot that names something renamed is pointed at new
texts, which are added to the pool, and the texts it pointed at before stay, because other slots may
share them. What a slot meant is always read from the pool as it was found, so no slot is renamed twice.

Members and attributes follow as they arrive. Their indices are redirected in the same way; everything
that is not an index of a name, a descriptor or a signature is left alone.
-/

set_option autoImplicit false

namespace Relabel

/-- Counts of what was renamed. -/
structure RenameStats where
  classes : Nat
  fields : Nat
  methods : Nat
  /-- Member references whose name changed. -/
  references : Nat
  deriving DecidableEq, Repr

/-- The state of the renaming stage. -/
structure Renamer where
  resolver : Resolver
  stats : RenameStats
  /-- The name of the class at hand, before renaming. -/
  className : String
  /-- The pool of the class at hand, before renaming. -/
  asRead : Pool

namespace Renamer

/-- The stage before its first class. -/
def ofResolver (resolver : Resolver) : Renamer := ⟨resolver, ⟨0, 0, 0, 0⟩, "", .empty⟩

/-- An effect of the renaming stage. -/
abbrev Renames := Pass Renamer

/-- An effect on the resolver. -/
def resolve {α : Type} (e : Effect Resolver α) : Renames α :=
  Effect.onFirst fun s =>
    match e s.resolver with
    | .ok a resolver => .ok a { s with resolver }
    | .error err resolver => .error err { s with resolver }

/-- Changes the counts. -/
def count (f : RenameStats → RenameStats) : Renames Unit :=
  Effect.onFirst (modify fun s => { s with stats := f s.stats })

/-- The pool before renaming. -/
def poolAsRead : Renames Pool := do
  return (← get).1.asRead

/-- The name of the class before renaming. -/
def nameAsRead : Renames String := do
  return (← get).1.className

/-- The index of a text changed by `f`: a new one if the text changes. -/
def renameUtf8 (f : String → Except Error String) (i : UInt16) : Renames UInt16 := do
  let text ← (← Pass.pool).utf8 i
  let renamed ← f text
  if renamed = text then return i
  Pass.onPool (Pool.internUtf8 renamed)

/-! ## The pool -/

/-- The index of the new name and descriptor of a reference; absent if neither changed. -/
def renamedNameAndType (name descriptor newName newDescriptor : String) :
    Renames (Option UInt16) := do
  if newName = name ∧ newDescriptor = descriptor then return none
  if newName ≠ name then count fun s => { s with references := s.references + 1 }
  return some (← Pass.onPool (Pool.internNameAndType newName newDescriptor))

/-- The new name and descriptor of a member reference. -/
def renamedMember (h : Hierarchy) (kind : MemberKind) (m : Pool.MemberRef) :
    Renames (Option UInt16) := do
  let names := h.renames.classes
  match kind with
  | .field =>
    let newName ← resolve (h.fieldName m.owner m.name m.descriptor)
    let newDescriptor ← names.translateField .toSource m.descriptor
    renamedNameAndType m.name m.descriptor newName newDescriptor
  | .method | .interfaceMethod =>
    let newName ← resolve (h.methodName m.owner m.name m.descriptor)
    let newDescriptor ← names.translateMethod .toSource m.descriptor
    renamedNameAndType m.name m.descriptor newName newDescriptor

/-- Redirects one slot of the pool. -/
def renameConstant (h : Hierarchy) (i : UInt16) : Renames Unit := do
  let asRead ← poolAsRead
  let names := h.renames.classes
  match ← asRead.get i with
  | .classRef name =>
    let text ← asRead.utf8 name
    let renamed ← names.translateType .toSource text
    if renamed ≠ text then
      let n ← Pass.onPool (Pool.internUtf8 renamed)
      Pass.onPool (Pool.set i (.classRef n))
  | .member kind owner _ =>
    let m ← asRead.memberRef i
    if let some nt ← renamedMember h kind m then
      Pass.onPool (Pool.set i (.member kind owner nt))
  | .methodType descriptor =>
    let text ← asRead.utf8 descriptor
    let renamed ← names.translateMethod .toSource text
    if renamed ≠ text then
      let d ← Pass.onPool (Pool.internUtf8 renamed)
      Pass.onPool (Pool.set i (.methodType d))
  | .dynamic bootstrap nt =>
    let (name, descriptor) ← asRead.nameAndType nt
    let renamed ← names.translateField .toSource descriptor
    if renamed ≠ descriptor then
      let nt ← Pass.onPool (Pool.internNameAndType name renamed)
      Pass.onPool (Pool.set i (.dynamic bootstrap nt))
  | .invokeDynamic bootstrap nt =>
    let (name, descriptor) ← asRead.nameAndType nt
    let renamed ← names.translateMethod .toSource descriptor
    if renamed ≠ descriptor then
      let nt ← Pass.onPool (Pool.internNameAndType name renamed)
      Pass.onPool (Pool.set i (.invokeDynamic bootstrap nt))
  | _ => return ()

/-- Redirects slots in order. -/
def renameConstants (h : Hierarchy) : List UInt16 → Renames Unit
  | [], s => .ok () s
  | i :: indices, s =>
    match renameConstant h i s with
    | .error e s => .error e s
    | .ok () s => renameConstants h indices s

/-! ## Annotations -/

/-- A class literal is a result type, so it may be the void type. -/
def translateLiteral (names : ClassNames) (s : String) : Except Error String :=
  if s = "V" then .ok s else names.translateField .toSource s

mutual

/-- Renames the types of an annotation. -/
def renameAnnotationInfo (names : ClassNames) : AnnotationInfo → Renames AnnotationInfo
  | ⟨type, elements⟩ => do
    let type ← renameUtf8 (names.translateField .toSource) type
    return ⟨type, ← renameNamedValues names [] elements⟩

/-- Renames the types in a value. The names of enum constants stay. -/
def renameValue (names : ClassNames) : ElementValue → Renames ElementValue
  | .const tag index => pure (.const tag index)
  | .enum type name => do
    return .enum (← renameUtf8 (names.translateField .toSource) type) name
  | .classLiteral descriptor => do
    return .classLiteral (← renameUtf8 (translateLiteral names) descriptor)
  | .nested value => do
    return .nested (← renameAnnotationInfo names value)
  | .array values => do
    return .array (← renameValues names [] values)

/-- Renames the types in named values, behind `acc` backwards. -/
def renameNamedValues (names : ClassNames) (acc : List (UInt16 × ElementValue)) :
    List (UInt16 × ElementValue) → Renames (List (UInt16 × ElementValue))
  | [] => pure acc.reverse
  | (name, value) :: rest => do
    let value ← renameValue names value
    renameNamedValues names ((name, value) :: acc) rest

/-- Renames the types in values, behind `acc` backwards. -/
def renameValues (names : ClassNames) (acc : List ElementValue) :
    List ElementValue → Renames (List ElementValue)
  | [] => pure acc.reverse
  | value :: rest => do
    let value ← renameValue names value
    renameValues names (value :: acc) rest

end

/-! ## Attributes -/

/-- The simple name of a nested class after renaming. It stays if the class did not move or kept the
last part of its path; otherwise it is what follows the last `$` of the new name, without the digits in
front of the name of a local class. -/
def innerSimpleName (asRead renamed inner : String) : String :=
  if asRead = renamed then inner
  else
    match Text.splitAtLast? '/' asRead, Text.splitAtLast? '/' renamed with
    | some (_, a), some (_, b) => if a = b then inner else nestedName renamed inner
    | _, _ => nestedName renamed inner
where
  /-- What follows the last `$`, without leading digits. -/
  nestedName (renamed inner : String) : String :=
    match Text.splitAtLast? '$' renamed with
    | some (_, last) => String.ofList (last.toList.dropWhile Char.isDigit)
    | none => inner

/-- Renames the simple name of a nested class. -/
def renameInnerClass (c : InnerClass) : Renames InnerClass := do
  if c.innerName = 0 then return c
  let asRead ← (← poolAsRead).className c.innerClass
  let renamed ← (← Pass.pool).className c.innerClass
  let innerName ← renameUtf8 (fun inner => .ok (innerSimpleName asRead renamed inner)) c.innerName
  return { c with innerName }

/-- Renames the method around a local class. -/
def renameEnclosingMethod (h : Hierarchy) (owner method : UInt16) : Renames UInt16 := do
  if method = 0 then return method
  let ownerName ← (← poolAsRead).className owner
  let (name, descriptor) ← (← Pass.pool).nameAndType method
  let newName ← resolve (h.methodName ownerName name descriptor)
  let newDescriptor ← h.renames.classes.translateMethod .toSource descriptor
  if newName = name ∧ newDescriptor = descriptor then return method
  Pass.onPool (Pool.internNameAndType newName newDescriptor)

/-- Renames the types of local variables, which the attribute's name tells to be descriptors or
signatures. -/
def renameVariables (names : ClassNames) (attributeName : UInt16) (slots : List LocalVariable) :
    Renames (List LocalVariable) := do
  let generic := (← (← Pass.pool).utf8 attributeName) = localVariableTypeTableName
  let translate := if generic then names.translateSignature .toSource
    else names.translateField .toSource
  slots.mapM fun v => do
    return { v with descriptor := ← renameUtf8 translate v.descriptor }

/-- Renames the types of a type annotation. -/
def renameTypeAnnotationInfo (names : ClassNames) (a : TypeAnnotationInfo) : Renames TypeAnnotationInfo := do
  return { a with info := ← renameAnnotationInfo names a.info }

/-- The index of a record component's name after renaming: components are named like their fields. -/
def renameComponentName (h : Hierarchy) (name descriptor : UInt16) : Renames UInt16 := do
  let nameText ← (← Pass.pool).utf8 name
  let descriptorText ← (← Pass.pool).utf8 descriptor
  let newName ← resolve (h.fieldName (← nameAsRead) nameText descriptorText)
  if newName = nameText then return name
  Pass.onPool (Pool.internUtf8 newName)

mutual

/-- Renames what an attribute mentions. -/
def renameAttribute (h : Hierarchy) : Attribute → Renames Attribute
  | ⟨name, info⟩ => do
    return ⟨name, ← renameInfo h name info⟩

/-- Renames what the data of an attribute mentions. -/
def renameInfo (h : Hierarchy) (name : UInt16) : AttributeInfo → Renames AttributeInfo
  | .code maxStack maxLocals instructions handlers attributes => do
    return .code maxStack maxLocals instructions handlers (← renameAttributes h [] attributes)
  | .signature index => do
    return .signature (← renameUtf8 (h.renames.classes.translateSignature .toSource) index)
  | .innerClasses classes => do
    return .innerClasses (← classes.mapM renameInnerClass)
  | .enclosingMethod owner method => do
    return .enclosingMethod owner (← renameEnclosingMethod h owner method)
  | .localVariables slots => do
    return .localVariables (← renameVariables h.renames.classes name slots)
  | .annotations annotations => do
    return .annotations (← annotations.mapM (renameAnnotationInfo h.renames.classes))
  | .parameterAnnotations parameters => do
    return .parameterAnnotations
      (← parameters.mapM fun annotations => annotations.mapM (renameAnnotationInfo h.renames.classes))
  | .typeAnnotations annotations => do
    return .typeAnnotations (← annotations.mapM (renameTypeAnnotationInfo h.renames.classes))
  | .annotationDefault value => do
    return .annotationDefault (← renameValue h.renames.classes value)
  | .record components => do
    return .record (← renameComponents h [] components)
  | .raw bytes => pure (.raw bytes)

/-- Renames a component of a record. -/
def renameComponent (h : Hierarchy) : RecordComponent → Renames RecordComponent
  | ⟨name, descriptor, attributes⟩ => do
    let newName ← renameComponentName h name descriptor
    let newDescriptor ← renameUtf8 (h.renames.classes.translateField .toSource) descriptor
    return ⟨newName, newDescriptor, ← renameAttributes h [] attributes⟩

/-- Renames attributes in order, behind `acc` backwards. -/
def renameAttributes (h : Hierarchy) (acc : List Attribute) :
    List Attribute → Renames (List Attribute)
  | [] => pure acc.reverse
  | a :: rest => do
    let a ← renameAttribute h a
    renameAttributes h (a :: acc) rest

/-- Renames components in order, behind `acc` backwards. -/
def renameComponents (h : Hierarchy) (acc : List RecordComponent) :
    List RecordComponent → Renames (List RecordComponent)
  | [] => pure acc.reverse
  | c :: rest => do
    let c ← renameComponent h c
    renameComponents h (c :: acc) rest

end

/-! ## Members and the class -/

/-- The name and the descriptor that a member of the class gets. -/
def renamedDeclaration (h : Hierarchy) (kind : MemberKind) (name descriptor : String) :
    Renames (String × String) := do
  let owner ← nameAsRead
  match kind with
  | .field =>
    let newName ← resolve (h.fieldName owner name descriptor)
    return (newName, ← h.renames.classes.translateField .toSource descriptor)
  | .method | .interfaceMethod =>
    let newName ← resolve (h.methodName owner name descriptor)
    return (newName, ← h.renames.classes.translateMethod .toSource descriptor)

/-- Renames a member and what its attributes mention, and tells whether its name changed. -/
def renameMember (h : Hierarchy) (kind : MemberKind) (m : Member) : Renames (Member × Bool) := do
  let pool ← Pass.pool
  let name ← m.nameIn pool
  let descriptor ← m.descriptorIn pool
  let (newName, newDescriptor) ← renamedDeclaration h kind name descriptor
  let nameIndex ← if newName = name then pure m.name else Pass.onPool (Pool.internUtf8 newName)
  let descriptorIndex ← if newDescriptor = descriptor then pure m.descriptor
    else Pass.onPool (Pool.internUtf8 newDescriptor)
  let attributes ← renameAttributes h [] m.attributes
  return (⟨m.flags, nameIndex, descriptorIndex, attributes⟩, newName ≠ name)

/-- Renames a field and counts it. -/
def onField (h : Hierarchy) (m : Member) : Renames Member := do
  let (m, renamed) ← renameMember h .field m
  if renamed then count fun s => { s with fields := s.fields + 1 }
  return m

/-- Renames a method and counts it. -/
def onMethod (h : Hierarchy) (m : Member) : Renames Member := do
  let (m, renamed) ← renameMember h .method m
  if renamed then count fun s => { s with methods := s.methods + 1 }
  return m

/-- Remembers the class and its pool. -/
def remember (className : String) : Renames Unit := fun (s, pool) =>
  .ok () ({ s with className, asRead := pool }, pool)

/-- Registers the class with its supertypes, renames the pool and counts the class. -/
def onHeader (h : Hierarchy) (header : Header) : Renames Header := do
  let pool ← Pass.pool
  let className ← header.className pool
  let parents ← header.parents pool
  resolve (h.register className parents)
  remember className
  renameConstants h pool.indices
  let newName ← header.className (← Pass.pool)
  if newName ≠ className then count fun s => { s with classes := s.classes + 1 }
  return header

/-- The renaming stage. -/
def stage (h : Hierarchy) : Stage Renamer where
  onHeader := onHeader h
  onField := onField h
  onMethod := onMethod h
  onAttribute := renameAttribute h

end Renamer

end Relabel
