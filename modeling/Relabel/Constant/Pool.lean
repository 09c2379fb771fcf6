import Relabel.Effect
import Relabel.Text.ModifiedUtf8

/-!
# The constant pool

A pool is a row of slots. Slot 0 is never used and a wide constant makes the slot after it unusable.
Beside the slots the pool keeps an index from constants to slots, which is what `intern` consults: it
returns the slot the index has for a constant and appends the constant only if the index has none.
Existing slots never move, and an operation that fails halfway keeps what it had interned. The index is
a view of the slots, kept one slot per constant; two pools are the same pool when their slots are.
-/

set_option autoImplicit false

namespace Relabel

/-- A constant pool. -/
structure Pool where
  /-- The slots, slot 0 included. -/
  slots : Array Constant
  /-- The slot interning finds for a constant. -/
  index : Std.ExtTreeMap Constant UInt16

namespace Pool

/-- The pool with no constants. -/
def empty : Pool := ⟨#[.unusable], ∅⟩

instance : Inhabited Pool := ⟨empty⟩

instance : BEq Pool := ⟨fun a b => a.slots == b.slots⟩

/-- The count a class file records: the number of slots, slot 0 included. -/
def count (p : Pool) : UInt16 :=
  UInt16.ofNat p.slots.size

/-- The constant at an index; unusable slots have none. -/
def get (p : Pool) (i : UInt16) : Except Error Constant :=
  match p.slots[i.toNat]? with
  | none | some .unusable => .error (.classFile (.badIndex i))
  | some c => .ok c

/-- The indices of the usable slots, in order. -/
def indices (p : Pool) : List UInt16 :=
  p.slots.toList.zipIdx.filterMap fun (c, i) =>
    if c = .unusable then none else some (UInt16.ofNat i)

/-! ## Changing a pool -/

/-- Slots put at the end for a constant, the unusable one included. -/
def appendSlots (slots : Array Constant) (c : Constant) : Array Constant :=
  if c.isWide then (slots.push c).push .unusable else slots.push c

/-- Appends a constant while a pool is read: the index keeps the first of equal constants. -/
def append (p : Pool) (c : Constant) : Pool :=
  let i := UInt16.ofNat p.slots.size
  { slots := appendSlots p.slots c, index := p.index.insertIfNew c i }

/-- Appends a constant and indexes the new slot. A pool has at most 65535 slots. -/
def push (c : Constant) : Effect Pool UInt16 := fun p =>
  if p.slots.size + c.width > 65535 then .error (.unsupported .poolOverflow) p
  else
    let i := UInt16.ofNat p.slots.size
    .ok i { slots := appendSlots p.slots c, index := p.index.insert c i }

/-- Replaces the constant of a usable slot by one of the same width. The index forgets the old constant
if it pointed to this slot, and learns the new one if it had none like it. -/
def set (i : UInt16) (c : Constant) : Effect Pool Unit := fun p =>
  match p.get i with
  | .error e => .error e p
  | .ok old =>
    if old.isWide != c.isWide then .error (.unsupported (.widthChange i)) p
    else
      let index := if p.index[old]? = some i then p.index.erase old else p.index
      .ok () { slots := p.slots.setIfInBounds i.toNat c, index := index.insertIfNew c i }

/-- The slot the index has for a constant, which is appended if there is none. -/
def intern (c : Constant) : Effect Pool UInt16 := fun p =>
  match p.index[c]? with
  | some i => .ok i p
  | none => push c p

/-- Interns a text. -/
def internUtf8 (s : String) : Effect Pool UInt16 :=
  intern (.utf8 (ModifiedUtf8.encode s))

/-- Interns a class by its internal name. -/
def internClass (name : String) : Effect Pool UInt16 := do
  let n ← internUtf8 name
  intern (.classRef n)

/-- Interns a name with a descriptor. -/
def internNameAndType (name descriptor : String) : Effect Pool UInt16 := do
  let n ← internUtf8 name
  let d ← internUtf8 descriptor
  intern (.nameAndType n d)

/-- Interns a reference to a member of a class. -/
def internMember (kind : MemberKind) (owner name descriptor : String) : Effect Pool UInt16 := do
  let c ← internClass owner
  let nt ← internNameAndType name descriptor
  intern (.member kind c nt)

/-! ## Reading through a pool -/

/-- The text at an index. -/
def utf8 (p : Pool) (i : UInt16) : Except Error String :=
  match p.get i with
  | .error e => .error e
  | .ok (.utf8 bytes) => ModifiedUtf8.decode bytes
  | .ok c => .error (.classFile (.unexpectedConstant i .utf8 c))

/-- The internal name of the class at an index. -/
def className (p : Pool) (i : UInt16) : Except Error String :=
  match p.get i with
  | .error e => .error e
  | .ok (.classRef name) => p.utf8 name
  | .ok c => .error (.classFile (.unexpectedConstant i .classRef c))

/-- The class at an index, where index 0 stands for none. -/
def className? (p : Pool) (i : UInt16) : Except Error (Option String) :=
  if i = 0 then .ok none else (p.className i).map some

/-- The name and the descriptor at an index. -/
def nameAndType (p : Pool) (i : UInt16) : Except Error (String × String) :=
  match p.get i with
  | .error e => .error e
  | .ok (.nameAndType name descriptor) => do
    let n ← p.utf8 name
    let d ← p.utf8 descriptor
    return (n, d)
  | .ok c => .error (.classFile (.unexpectedConstant i .nameAndType c))

/-- A member reference: its owner, name and descriptor. -/
structure MemberRef where
  owner : String
  name : String
  descriptor : String
  deriving DecidableEq, Repr

/-- The member reference at an index. -/
def memberRef (p : Pool) (i : UInt16) : Except Error MemberRef :=
  match p.get i with
  | .error e => .error e
  | .ok (.member _ owner nt) => do
    let o ← p.className owner
    let (n, d) ← p.nameAndType nt
    return ⟨o, n, d⟩
  | .ok c => .error (.classFile (.unexpectedConstant i .member c))

end Pool

end Relabel
