import Relabel.Class.File

/-!
# Class models

A class taken apart completely. A model is what a pass over a class can be collected into, what a
transformation of a whole class works on, and what new classes are built from; written as bytes it is a
class file again.
-/

set_option autoImplicit false

namespace Relabel

/-- A class with all its parts. -/
structure ClassModel where
  pool : Pool
  header : Header
  fields : Array Member
  methods : Array Member
  attributes : Array Attribute
  deriving BEq

namespace ClassModel

/-- A model of nothing, with an empty pool. -/
def blank : ClassModel := ⟨.empty, .blank, #[], #[], #[]⟩

/-- The version of class files that are built from nothing. -/
def defaultMajor : UInt16 := 52

/-- The flags of classes that are built from nothing: public, with the modern call convention. -/
def defaultFlags : UInt16 := 0x0021

/-- Interns a list of classes, with the indices after `acc` backwards. -/
def internClasses (acc : List UInt16) : List String → Effect Pool (List UInt16)
  | [], p => .ok acc.reverse p
  | name :: names, p =>
    match Pool.internClass name p with
    | .error e p => .error e p
    | .ok i p => internClasses (i :: acc) names p

/-- The header of a class without members, interned into the pool. -/
def internHeader (name : String) (super? : Option String) (interfaces : List String) :
    Effect Pool Header := do
  let thisClass ← Pool.internClass name
  let superClass ← match super? with
    | some super => Pool.internClass super
    | none => pure 0
  let interfaces ← internClasses [] interfaces
  return ⟨0, defaultMajor, defaultFlags, thisClass, superClass, interfaces⟩

/-- A class without members. -/
def named (name : String) (super? : Option String) (interfaces : List String) :
    Except Error ClassModel :=
  match internHeader name super? interfaces .empty with
  | .ok header pool => .ok { blank with pool, header }
  | .error e _ => .error e

/-! ## Reading a model -/

/-- The internal name of the class. -/
def className (m : ClassModel) : Except Error String :=
  m.header.className m.pool

/-- The internal name of the superclass. -/
def superName? (m : ClassModel) : Except Error (Option String) :=
  m.header.superName? m.pool

/-- The internal names of the interfaces. -/
def interfaceNames (m : ClassModel) : Except Error (List String) :=
  m.header.interfaceNames m.pool

/-- The first member that passes a test which may fail. -/
def findMember (test : Member → Except Error Bool) : List Member → Except Error (Option Member)
  | [] => .ok none
  | m :: ms => do
    if ← test m then return some m
    findMember test ms

/-- The first field with a given name. -/
def findField (m : ClassModel) (name : String) : Except Error (Option Member) :=
  findMember (fun f => return (← f.nameIn m.pool) == name) m.fields.toList

/-- The first method with a given name and descriptor. Descriptors of other names are not looked at. -/
def findMethod (m : ClassModel) (name descriptor : String) : Except Error (Option Member) :=
  findMember (fun f => do
    if (← f.nameIn m.pool) ≠ name then return false
    return (← f.descriptorIn m.pool) == descriptor) m.methods.toList

/-- The name and the descriptor of every method, in order. -/
def methodSignatures (m : ClassModel) : Except Error (List (String × String)) :=
  m.methods.toList.mapM fun f => do
    let name ← f.nameIn m.pool
    return (name, ← f.descriptorIn m.pool)

/-! ## Building a model -/

/-- An effect on the pool of a model. -/
def onPool {α : Type} (e : Effect Pool α) : Effect ClassModel α := fun m =>
  match m with
  | ⟨pool, header, fields, methods, attributes⟩ =>
    match e pool with
    | .ok a pool => .ok a ⟨pool, header, fields, methods, attributes⟩
    | .error err pool => .error err ⟨pool, header, fields, methods, attributes⟩

/-- Interns a text. -/
def internUtf8 (s : String) : Effect ClassModel UInt16 :=
  onPool (Pool.internUtf8 s)

/-- Interns the name and the descriptor of a new member. -/
def newMember (flags : UInt16) (name descriptor : String) : Effect ClassModel Member := do
  let n ← internUtf8 name
  let d ← internUtf8 descriptor
  return ⟨flags, n, d, []⟩

/-- Adds a field. -/
def addField (flags : UInt16) (name descriptor : String) : Effect ClassModel Unit := do
  let f ← newMember flags name descriptor
  modify fun m => { m with fields := m.fields.push f }

/-- Adds a method without code. -/
def addMethod (flags : UInt16) (name descriptor : String) : Effect ClassModel Unit := do
  let f ← newMember flags name descriptor
  modify fun m => { m with methods := m.methods.push f }

/-- Adds a method with code. -/
def addMethodWithCode (flags : UInt16) (name descriptor : String) (maxStack maxLocals : UInt16)
    (instructions : Bytes) : Effect ClassModel Unit := do
  let f ← newMember flags name descriptor
  let code ← internUtf8 codeName
  let body : Attribute := ⟨code, .code maxStack maxLocals instructions [] []⟩
  modify fun m => { m with methods := m.methods.push { f with attributes := [body] } }

/-- Adds an attribute to the class. -/
def addAttribute (name : String) (info : AttributeInfo) : Effect ClassModel Unit := do
  let n ← internUtf8 name
  modify fun m => { m with attributes := m.attributes.push ⟨n, info⟩ }

/-! ## Passes from and into a model -/

/-- The events of a model. -/
def events (m : ClassModel) : ClassEvents where
  pool := m.pool
  header := m.header
  items := m.fields.toList.map .field ++ (m.methods.toList.map .method
    ++ m.attributes.toList.map .attr)
  stop? := none

/-- The sink that collects a pass into a model. -/
def sink : Sink ClassModel where
  onHeader h := modify fun m => { m with header := h }
  onField f := modify fun m => { m with fields := m.fields.push f }
  onMethod f := modify fun m => { m with methods := m.methods.push f }
  onAttribute a := modify fun m => { m with attributes := m.attributes.push a }
  onEnd p := modify fun m => { m with pool := p }

/-- Collects a pass over a class file into a model. -/
def read {σ : Type} (f : ClassFile) (stages : List (Stage σ)) (flags : ReaderFlags) :
    Effect σ ClassModel :=
  (f.events flags).deliver stages sink blank

/-- The model of a class file. -/
def parse (bytes : Bytes) : Except Error ClassModel := do
  let f ← ClassFile.ofBytes bytes
  (read f [] .none : Effect Unit ClassModel).outcome ()

/-- The class file of a model. -/
def toBytes (m : ClassModel) : Except Error Bytes :=
  let fields := Encoding.sequence Member.encode m.fields.toList
  let methods := Encoding.sequence Member.encode m.methods.toList
  match fields.fault?, methods.fault? with
  | some e, _ => .error e
  | none, some e => .error e
  | none, none =>
    (encodeClass m.pool m.header m.fields.size fields.bytes m.methods.size methods.bytes
      m.attributes.toList).result

end ClassModel

end Relabel
