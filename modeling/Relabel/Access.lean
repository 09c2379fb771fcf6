/-!
# Access flags

The visibility of a class or a member is kept in three bits of its flags, of which at most one is set;
another bit makes it final. A change of access sets the visibility, may drop the final bit and leaves
every other bit alone.
-/

set_option autoImplicit false

namespace Relabel

/-- Who may use a class or a member. -/
inductive Visibility where
  | ofPackage
  | ofClass
  | ofSubclasses
  | ofAll
  deriving DecidableEq, Hashable, Repr

namespace Visibility

/-- The bits of a visibility. -/
def flags : Visibility → UInt16
  | .ofPackage => 0x0000
  | .ofAll => 0x0001
  | .ofClass => 0x0002
  | .ofSubclasses => 0x0004

/-- The word for a visibility in mapping files. -/
def word : Visibility → String
  | .ofPackage => "PACKAGE"
  | .ofClass => "PRIVATE"
  | .ofSubclasses => "PROTECTED"
  | .ofAll => "PUBLIC"

/-- The visibility of a word. -/
def ofWord? (s : String) : Option Visibility :=
  [ofPackage, ofClass, ofSubclasses, ofAll].find? fun v => v.word = s

end Visibility

/-- The bits that hold a visibility. -/
def visibilityMask : UInt16 := 0x0007

/-- The bit that makes a class or a member final. -/
def finalMask : UInt16 := 0x0010

/-- A change of access. -/
structure AccessChange where
  visibility : Visibility
  removeFinal : Bool
  deriving DecidableEq, Hashable, Repr

/-- The flags after a change of access. -/
def AccessChange.apply (c : AccessChange) (flags : UInt16) : UInt16 :=
  let visible := (flags &&& ~~~visibilityMask) ||| c.visibility.flags
  if c.removeFinal then visible &&& ~~~finalMask else visible

end Relabel
