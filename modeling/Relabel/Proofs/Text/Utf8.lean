import Mathlib.Data.List.Basic
import Relabel.Constant.Basic

/-!
# The bytes of a text

A text is written as the bytes of its characters, one after the other. Text formats with an ASCII syntax
can be taken apart byte by byte, because a character outside ASCII has no ASCII byte.
-/

set_option autoImplicit false

namespace Relabel.Text

/-- The bytes of characters. -/
def utf8 (cs : List Char) : Bytes := cs.flatMap String.utf8EncodeChar

@[simp] theorem utf8_nil : utf8 [] = [] := rfl

@[simp] theorem utf8_append (cs ds : List Char) : utf8 (cs ++ ds) = utf8 cs ++ utf8 ds :=
  List.flatMap_append

theorem utf8_cons (c : Char) (cs : List Char) : utf8 (c :: cs) = String.utf8EncodeChar c ++ utf8 cs :=
  List.flatMap_cons

theorem toList_loop_eq (bytes : ByteArray) (i : Nat) (acc : Bytes) :
    ByteArray.toList.loop bytes i acc = acc.reverse ++ bytes.data.toList.drop i := by
  fun_induction ByteArray.toList.loop bytes i acc with
  | case1 i acc hi ih =>
    have hlength : i < bytes.data.toList.length := by simpa using hi
    have hget : bytes.get! i = bytes.data.toList[i] := by
      rw [Array.getElem_toList]
      exact getElem!_pos bytes.data i hi
    rw [ih, hget, List.reverse_cons, List.append_assoc, List.singleton_append,
      ← List.drop_eq_getElem_cons hlength]
  | case2 i acc hi =>
    have hlength : bytes.data.toList.length ≤ i := by simpa using Nat.le_of_not_lt hi
    rw [List.drop_eq_nil_of_le hlength, List.append_nil]

theorem toList_eq_data (bytes : ByteArray) : bytes.toList = bytes.data.toList := by
  rw [ByteArray.toList, toList_loop_eq]
  rfl

theorem toUTF8_eq (s : String) : s.toUTF8.toList = utf8 s.toList := by
  have hs : s.toUTF8 = s.toList.utf8Encode := String.utf8Encode_toList.symm
  rw [toList_eq_data, hs, List.utf8Encode, List.data_toByteArray]
  rfl

/-- The text of the bytes of a text. -/
theorem fromUTF8?_utf8 (s : String) : String.fromUTF8? ⟨(utf8 s.toList).toArray⟩ = some s := by
  have hbytes : (⟨(utf8 s.toList).toArray⟩ : ByteArray) = s.toByteArray := by
    rw [← toUTF8_eq, toList_eq_data]
    rfl
  rw [hbytes, String.fromUTF8?, dif_pos s.isValidUTF8]
  rfl

theorem utf8EncodeChar_of_lt {c : Char} (hc : c.toNat < 0x80) :
    String.utf8EncodeChar c = [UInt8.ofNat c.toNat] :=
  if_pos (Nat.le_of_lt_succ hc)

/-- A payload below `m` under the mark `k`. -/
theorem le_marked {m k : Nat} (hm : 0 < m) (hk : 0x80 ≤ k) (hmk : m + k ≤ 0x100) (n : Nat) :
    0x80 ≤ (UInt8.ofNat (n % m + k)).toNat := by
  have hpayload := Nat.mod_lt n hm
  rw [UInt8.toNat_ofNat']
  omega

/-- A character outside ASCII has no ASCII byte. -/
theorem le_of_mem_utf8EncodeChar {c : Char} (hc : 0x80 ≤ c.toNat) :
    ∀ b ∈ String.utf8EncodeChar c, 0x80 ≤ b.toNat := by
  have hascii : ¬c.val.toNat ≤ 127 := Nat.not_le.mpr hc
  have hnone : ∀ b ∈ ([] : Bytes), 0x80 ≤ b.toNat := fun b hb => absurd hb List.not_mem_nil
  simp only [String.utf8EncodeChar, if_neg hascii]
  -- The first byte carries the mark of the length, the others the mark of a continuation.
  have hnext (n : Nat) : 0x80 ≤ (UInt8.ofNat (n % 64 + 128)).toNat := le_marked (by decide) (by decide) (by decide) n
  split
  · exact List.forall_mem_cons.mpr ⟨le_marked (by decide) (by decide) (by decide) _,
      List.forall_mem_cons.mpr ⟨hnext _, hnone⟩⟩
  split
  · exact List.forall_mem_cons.mpr ⟨le_marked (by decide) (by decide) (by decide) _,
      List.forall_mem_cons.mpr ⟨hnext _, List.forall_mem_cons.mpr ⟨hnext _, hnone⟩⟩⟩
  · exact List.forall_mem_cons.mpr ⟨le_marked (by decide) (by decide) (by decide) _,
      List.forall_mem_cons.mpr ⟨hnext _, List.forall_mem_cons.mpr ⟨hnext _,
        List.forall_mem_cons.mpr ⟨hnext _, hnone⟩⟩⟩⟩

end Relabel.Text
