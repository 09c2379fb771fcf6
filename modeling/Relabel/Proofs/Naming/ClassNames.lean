import Relabel.Naming.ClassNames
import Relabel.Proofs.Text.Split

/-!
# How a nested name is translated

A name is translated by its own entry, or else as the name before its last `$` with the rest put back. The names
that are looked up for `outer$inner` before those for `outer` are therefore `outer` with a piece of `inner` behind
the `$`: all of it, or what comes before one of its own `$`. If none of them has an entry, the nested name follows
its outer class.
-/

set_option autoImplicit false

namespace Relabel

namespace ClassNames

variable {d : Dict String}

/-- Names are built from segments, one behind the last `$` at a time. -/
@[elab_as_elim]
theorem name_induction {motive : String → Prop} (name : String)
    (segment : ∀ name : String, '$' ∉ name.toList → motive name)
    (nested : ∀ outer last : String, '$' ∉ last.toList → motive outer → motive (outer ++ "$" ++ last)) :
    motive name :=
  Text.last_induction '$' name segment nested

/-- A segment without an entry is kept. -/
theorem translateWith_segment {name : String} (hname : '$' ∉ name.toList) (h : d[name]? = none) :
    translateWith d name = name := by
  rw [translateWith, Text.splitRev_of_notMem hname, translateSegments, h, Option.getD_none]

/-- A name without an entry follows the name before its last `$`. -/
theorem translateWith_of_not_entry {outer last : String} (hlast : '$' ∉ last.toList)
    (h : d[outer ++ "$" ++ last]? = none) :
    translateWith d (outer ++ "$" ++ last) = translateWith d outer ++ "$" ++ last := by
  have hsplit : Text.splitRev '$' (outer ++ "$" ++ last) = last :: Text.splitRev '$' outer :=
    Text.splitRev_append hlast outer
  have hname : nameOfSegments (last :: Text.splitRev '$' outer) = outer ++ "$" ++ last := by
    rw [← hsplit]
    exact Text.intercalate_splitRev '$' _
  rw [translateWith, hsplit, translateSegments.eq_3 _ _ _ (Text.splitRev_ne_nil '$' outer), hname, h]
  rfl

/-- The pieces of `inner` that are looked up behind an outer name: all of it, and what comes before any of its
own `$`. -/
def Piece (inner piece : String) : Prop :=
  ∃ rest, inner = piece ++ rest ∧ (rest = "" ∨ rest.toList.head? = some '$')

/-- A segment without a `$` is looked up in one piece. -/
theorem Piece.eq {inner piece : String} (h : Piece inner piece) (hinner : '$' ∉ inner.toList) : piece = inner := by
  obtain ⟨rest, rfl, hrest⟩ := h
  rcases hrest with rfl | hrest
  · exact String.append_empty.symm
  · refine absurd ?_ hinner
    rw [String.toList_append]
    exact List.mem_append_right _ (List.mem_of_mem_head? hrest)

/-- **A nested name follows its outer class** if no name in between has an entry. -/
theorem translateWith_nested {outer : String} (inner : String)
    (h : ∀ piece, Piece inner piece → d[outer ++ "$" ++ piece]? = none) :
    translateWith d (outer ++ "$" ++ inner) = translateWith d outer ++ "$" ++ inner := by
  induction inner using name_induction with
  | segment inner hinner =>
    exact translateWith_of_not_entry hinner (h inner ⟨"", String.append_empty.symm, .inl rfl⟩)
  | nested before last hlast ih =>
    -- What comes before the last `$` has the same pieces behind the outer name, except for the whole.
    have hbefore : translateWith d (outer ++ "$" ++ before) = translateWith d outer ++ "$" ++ before := by
      refine ih fun piece hpiece => h piece ?_
      obtain ⟨rest, rfl, hrest⟩ := hpiece
      refine ⟨rest ++ "$" ++ last, by simp [String.append_assoc], .inr ?_⟩
      rcases hrest with rfl | hrest
      · simp
      · simp [hrest]
    have hjoin (start : String) : start ++ "$" ++ (before ++ "$" ++ last) = start ++ "$" ++ before ++ "$" ++ last := by
      simp only [String.append_assoc]
    have hwhole := h (before ++ "$" ++ last) ⟨"", String.append_empty.symm, .inl rfl⟩
    rw [hjoin] at hwhole
    rw [hjoin, hjoin, translateWith_of_not_entry hlast hwhole, hbefore]

end ClassNames

end Relabel
