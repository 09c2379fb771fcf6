import Std.Data.ExtTreeMap

/-!
# Constants of a class file

A class file keeps every name, descriptor and number it mentions in one table, the constant pool, and
refers to them by sixteen bit indices. `Constant` is one entry of that table. Texts stay the bytes that
were read and numbers stay bit patterns, so an entry that nobody touches is written back exactly as it
was found.
-/

set_option autoImplicit false

namespace Relabel

/-- A byte string. -/
abbrev Bytes := List UInt8

/-- What a member reference refers to. -/
inductive MemberKind where
  | field
  | method
  | interfaceMethod
  deriving DecidableEq, Repr

/-- An entry of the constant pool. Indices point into the same pool. -/
inductive Constant where
  /-- A text in modified UTF-8. -/
  | utf8 (bytes : Bytes)
  /-- A 32 bit integer in two's complement. -/
  | integer (bits : UInt32)
  | float (bits : UInt32)
  /-- A 64 bit integer in two's complement; it takes two slots. -/
  | long (bits : UInt64)
  /-- A 64 bit floating point number; it takes two slots. -/
  | double (bits : UInt64)
  | classRef (name : UInt16)
  | string (text : UInt16)
  | member (kind : MemberKind) (owner nameAndType : UInt16)
  | nameAndType (name descriptor : UInt16)
  | methodHandle (kind : UInt8) (reference : UInt16)
  | methodType (descriptor : UInt16)
  | dynamic (bootstrap nameAndType : UInt16)
  | invokeDynamic (bootstrap nameAndType : UInt16)
  | moduleRef (name : UInt16)
  | packageRef (name : UInt16)
  /-- A slot that holds no entry: slot 0, and the slot after a wide constant. -/
  | unusable
  deriving DecidableEq, Repr

namespace Constant

/-- Wide constants take two slots of the pool. -/
def isWide : Constant → Bool
  | .long _ | .double _ => true
  | _ => false

/-- The number of slots a constant takes. -/
def width (c : Constant) : Nat :=
  if c.isWide then 2 else 1

/-- A constant as numbers: what it is, and what it holds. -/
def key : Constant → List Nat
  | .utf8 bytes => 0 :: bytes.map UInt8.toNat
  | .integer bits => [1, bits.toNat]
  | .float bits => [2, bits.toNat]
  | .long bits => [3, bits.toNat]
  | .double bits => [4, bits.toNat]
  | .classRef name => [5, name.toNat]
  | .string text => [6, text.toNat]
  | .member .field owner nat => [7, owner.toNat, nat.toNat]
  | .member .method owner nat => [8, owner.toNat, nat.toNat]
  | .member .interfaceMethod owner nat => [9, owner.toNat, nat.toNat]
  | .nameAndType name descriptor => [10, name.toNat, descriptor.toNat]
  | .methodHandle kind reference => [11, kind.toNat, reference.toNat]
  | .methodType descriptor => [12, descriptor.toNat]
  | .dynamic bootstrap nat => [13, bootstrap.toNat, nat.toNat]
  | .invokeDynamic bootstrap nat => [14, bootstrap.toNat, nat.toNat]
  | .moduleRef name => [15, name.toNat]
  | .packageRef name => [16, name.toNat]
  | .unusable => [17]

/-- Constants are ordered by what they are, and then by what they hold. -/
instance : Ord Constant := ⟨compareOn key⟩

instance : Std.TransOrd Constant := inferInstanceAs (Std.TransCmp (compareOn key))

theorem key_injective {c d : Constant} (h : c.key = d.key) : c = d := by
  unfold key at h
  split at h <;> split at h <;>
    simp_all [UInt8.toNat_inj, UInt16.toNat_inj, UInt32.toNat_inj, UInt64.toNat_inj, List.map_inj_right]

instance : Std.LawfulEqOrd Constant where
  eq_of_compare h := key_injective (Std.LawfulEqOrd.eq_of_compare (α := List Nat) h)

/-- A record of two named indices, as messages show it. -/
private def describePair (title first : String) (a : UInt16) (second : String) (b : UInt16) : String :=
  title ++ " \x7b " ++ first ++ ": " ++ toString a.toNat ++ ", " ++ second ++ ": " ++ toString b.toNat
    ++ " \x7d"

/-- A constant with one number, as messages show it. -/
private def describeNumber (title : String) (n : Int) : String :=
  title ++ "(" ++ toString n ++ ")"

/-- How a message shows a constant. -/
def describe : Constant → String
  | .utf8 bytes =>
    "Utf8([" ++ String.intercalate ", " (bytes.map fun b => toString b.toNat) ++ "])"
  | .integer bits => describeNumber "Integer" bits.toInt32.toInt
  | .float bits => describeNumber "Float" bits.toNat
  | .long bits => describeNumber "Long" bits.toInt64.toInt
  | .double bits => describeNumber "Double" bits.toNat
  | .classRef name => describeNumber "Class" name.toNat
  | .string text => describeNumber "String" text.toNat
  | .member .field owner nat => describePair "FieldRef" "class" owner "name_and_type" nat
  | .member .method owner nat => describePair "MethodRef" "class" owner "name_and_type" nat
  | .member .interfaceMethod owner nat =>
    describePair "InterfaceMethodRef" "class" owner "name_and_type" nat
  | .nameAndType name descriptor => describePair "NameAndType" "name" name "descriptor" descriptor
  | .methodHandle kind reference =>
    describePair "MethodHandle" "kind" kind.toUInt16 "reference" reference
  | .methodType descriptor => describeNumber "MethodType" descriptor.toNat
  | .dynamic bootstrap nat => describePair "Dynamic" "bootstrap" bootstrap "name_and_type" nat
  | .invokeDynamic bootstrap nat =>
    describePair "InvokeDynamic" "bootstrap" bootstrap "name_and_type" nat
  | .moduleRef name => describeNumber "Module" name.toNat
  | .packageRef name => describeNumber "Package" name.toNat
  | .unusable => "Unusable"

end Constant

end Relabel
