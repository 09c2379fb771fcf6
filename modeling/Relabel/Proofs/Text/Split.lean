import Mathlib.Data.List.Basic
import Mathlib.Data.List.TakeDrop
import Mathlib.Data.List.TakeWhile
import Relabel.Text.Split

/-!
# Pieces of a text

What is cut apart can be put together again, and what was put together around a character is cut apart
at it, as long as the first piece does not contain the character itself.
-/

set_option autoImplicit false

namespace Relabel.Text

/-! ## At the first character -/

/-- A text is cut off before the first character that fails a test. -/
theorem span_append {p : Char → Bool} {before : List Char} {c : Char} (rest : List Char)
    (hbefore : ∀ x ∈ before, p x = true) (hc : p c = false) :
    (before ++ c :: rest).span p = (before, c :: rest) := by
  have hstop : ¬p c = true := by simp [hc]
  rw [List.span_eq_takeWhile_dropWhile, List.takeWhile_append_of_pos hbefore,
    List.dropWhile_append_of_pos hbefore, List.takeWhile_cons_of_neg hstop, List.dropWhile_cons_of_neg hstop,
    List.append_nil]

/-- The two sides of a cut: the text is both together, the test holds on the first side and fails right
after it. -/
theorem span_eq {p : Char → Bool} {cs before rest : List Char} (h : cs.span p = (before, rest)) :
    cs = before ++ rest ∧ (∀ x ∈ before, p x = true) ∧ ∀ c ∈ rest.head?, p c = false := by
  rw [List.span_eq_takeWhile_dropWhile] at h
  obtain ⟨rfl, rfl⟩ := Prod.mk.inj h
  refine ⟨List.takeWhile_append_dropWhile.symm, fun x => List.mem_takeWhile_imp, fun c hc => ?_⟩
  have hnot := List.head?_dropWhile_not p cs
  rw [Option.mem_def.mp hc] at hnot
  exact hnot

theorem splitAtFirst?_append {c : Char} {before rest : String} (hbefore : c ∉ before.toList)
    (hrest : rest.toList.head? = some c) : splitAtFirst? c (before ++ rest) = some (before, rest) := by
  obtain ⟨cs, hcs⟩ : ∃ cs, rest.toList = c :: cs := List.head?_eq_some_iff.mp hrest
  have hspan : (before ++ rest).toList.span (· ≠ c) = (before.toList, rest.toList) := by
    rw [String.toList_append, hcs]
    refine span_append cs (fun x hx => ?_) (by simp)
    exact decide_eq_true fun heq => hbefore (heq ▸ hx)
  simp only [splitAtFirst?, hspan, String.ofList_toList]
  rw [hcs]
  rfl

/-- What stands on the two sides of the first occurrence of a character. -/
theorem splitAtFirst?_eq_some {c : Char} {s before rest : String} :
    splitAtFirst? c s = some (before, rest)
      ↔ s = before ++ rest ∧ c ∉ before.toList ∧ rest.toList.head? = some c := by
  constructor
  · intro h
    unfold splitAtFirst? at h
    cases hspan : s.toList.span (· ≠ c) with
    | mk front back =>
      obtain ⟨hs, hfront, hback⟩ := span_eq hspan
      simp only [hspan] at h
      split at h
      · exact absurd h nofun
      · next hne =>
        obtain ⟨rfl, rfl⟩ := Prod.mk.inj (Option.some.inj h)
        obtain ⟨x, back, rfl⟩ := List.exists_cons_of_ne_nil (by simpa using hne)
        refine ⟨String.toList_injective (by simp [hs]), fun hmem => ?_, ?_⟩
        · rw [String.toList_ofList] at hmem
          simpa using hfront c hmem
        · rw [String.toList_ofList]
          simpa using hback x rfl
  · rintro ⟨rfl, hbefore, hrest⟩
    exact splitAtFirst?_append hbefore hrest

/-- A text is not cut at a character that it does not have. -/
theorem splitAtFirst?_isNone {c : Char} {s : String} : (splitAtFirst? c s).isNone ↔ c ∉ s.toList := by
  have hrest : (s.toList.span (· ≠ c)).2.isEmpty ↔ c ∉ s.toList := by
    rw [List.span_eq_takeWhile_dropWhile, List.isEmpty_iff, List.dropWhile_eq_nil_iff]
    exact ⟨fun h hc => of_decide_eq_true (h c hc) rfl, fun h x hx => decide_eq_true fun heq => h (heq ▸ hx)⟩
  rw [← hrest]
  simp only [splitAtFirst?]
  split
  · next hempty => exact iff_of_true rfl hempty
  · next hempty => exact iff_of_false nofun hempty

/-! ## At the last character -/

/-- A text with a character in it has a last occurrence of it. -/
theorem exists_last {c : Char} {s : String} (h : c ∈ s.toList) :
    ∃ before last : String, s = before ++ String.singleton c ++ last ∧ c ∉ last.toList := by
  obtain ⟨after, before, hs, hafter⟩ := List.eq_append_cons_of_mem (List.mem_reverse.mpr h)
  refine ⟨String.ofList before.reverse, String.ofList after.reverse, String.toList_injective ?_, ?_⟩
  · rw [← List.reverse_reverse s.toList, hs]
    simp
  · simpa using hafter

/-- Whatever holds of texts without a character, and of a text with one more piece behind its last occurrence,
holds of every text. -/
@[elab_as_elim]
theorem last_induction (c : Char) {motive : String → Prop} (s : String)
    (piece : ∀ s : String, c ∉ s.toList → motive s)
    (append : ∀ before last : String, c ∉ last.toList → motive before →
      motive (before ++ String.singleton c ++ last)) : motive s := by
  induction hn : s.length using Nat.strong_induction_on generalizing s with
  | _ n ih =>
    subst hn
    by_cases hs : c ∈ s.toList
    · obtain ⟨before, last, rfl, hlast⟩ := exists_last hs
      have hshorter : before.length < (before ++ String.singleton c ++ last).length := by
        rw [String.length_append, String.length_append, String.length_singleton]
        omega
      exact append before last hlast (ih before.length hshorter before rfl)
    · exact piece s hs

theorem splitAtLast?_append {c : Char} {last : String} (hlast : c ∉ last.toList) (before : String) :
    splitAtLast? c (before ++ String.singleton c ++ last) = some (before, last) := by
  have hspan : (before ++ String.singleton c ++ last).toList.reverse.span (· ≠ c)
      = (last.toList.reverse, c :: before.toList.reverse) := by
    have htext : (before ++ String.singleton c ++ last).toList.reverse
        = last.toList.reverse ++ c :: before.toList.reverse := by simp
    rw [htext]
    refine span_append _ (fun x hx => decide_eq_true fun heq => hlast ?_) (by simp)
    exact heq ▸ List.mem_reverse.mp hx
  simp only [splitAtLast?, hspan, List.reverse_reverse, String.ofList_toList]

theorem afterLast_append {c : Char} {last : String} (hlast : c ∉ last.toList) (before : String) :
    afterLast c (before ++ String.singleton c ++ last) = last := by
  rw [afterLast, splitAtLast?_append hlast]

theorem afterLast_of_notMem {c : Char} {s : String} (hs : c ∉ s.toList) : afterLast c s = s := by
  have hrest : (s.toList.reverse.span (· ≠ c)).2 = [] := by
    rw [List.span_eq_takeWhile_dropWhile, List.dropWhile_eq_nil_iff]
    exact fun x hx => decide_eq_true fun heq => hs (heq ▸ List.mem_reverse.mp hx)
  simp only [afterLast, splitAtLast?, hrest]

/-! ## At the beginning and at the end -/

theorem stripPrefix?_eq_some {start s rest : String} :
    stripPrefix? start s = some rest ↔ s = start ++ rest := by
  unfold stripPrefix?
  rw [Option.map_eq_some_iff]
  constructor
  · rintro ⟨cs, hcs, rfl⟩
    rw [List.isPrefixOf?_eq_some_iff_append_eq] at hcs
    exact String.toList_injective (by simp [hcs])
  · rintro rfl
    exact ⟨rest.toList, by simp [List.isPrefixOf?_eq_some_iff_append_eq], by simp⟩

theorem stripSuffix?_eq_some {ending s rest : String} :
    stripSuffix? ending s = some rest ↔ s = rest ++ ending := by
  unfold stripSuffix?
  rw [Option.map_eq_some_iff]
  constructor
  · rintro ⟨cs, hcs, rfl⟩
    rw [List.isPrefixOf?_eq_some_iff_append_eq] at hcs
    exact String.toList_injective (by simp [← List.reverse_inj, hcs])
  · rintro rfl
    exact ⟨rest.toList.reverse, by simp [List.isPrefixOf?_eq_some_iff_append_eq], by simp⟩

/-! ## At every character -/

/-- The pieces with the character between them, the piece that is being cut included. -/
theorem intercalate_splitFrom (c : Char) (done : List String) (piece cs : List Char) :
    [c].intercalate ((splitFrom c done piece cs).reverse.map String.toList)
      = [c].intercalate ((done.reverse.map String.toList) ++ [piece.reverse ++ cs]) := by
  induction cs generalizing done piece with
  | nil => simp [splitFrom]
  | cons x cs ih =>
    rw [splitFrom]
    split
    · next hx =>
      subst hx
      rw [ih]
      -- The character that ends a piece stands between that piece and the next one.
      have hjoin : ∀ pieces : List (List Char),
          [x].intercalate (pieces ++ [piece.reverse] ++ [cs])
            = [x].intercalate (pieces ++ [piece.reverse ++ x :: cs]) := by
        intro pieces
        induction pieces with
        | nil => simp [List.intercalate]
        | cons p pieces ih =>
          cases pieces with
          | nil => simp [List.intercalate]
          | cons q pieces => simpa [List.intercalate_cons_cons] using ih
      simpa using hjoin (done.reverse.map String.toList)
    · rw [ih]
      simp

theorem splitRev_ne_nil (c : Char) (s : String) : splitRev c s ≠ [] := by
  have hfrom (done : List String) (piece cs : List Char) : splitFrom c done piece cs ≠ [] := by
    induction cs generalizing done piece with
    | nil => exact List.cons_ne_nil _ _
    | cons x cs ih =>
      rw [splitFrom]
      split
      · exact ih _ _
      · exact ih _ _
  exact hfrom [] [] s.toList

/-- The piece that is being cut goes on to the end if the character does not come again. -/
theorem splitFrom_of_notMem {c : Char} {cs : List Char} (done : List String) (piece : List Char) (hcs : c ∉ cs) :
    splitFrom c done piece cs = String.ofList (piece.reverse ++ cs) :: done := by
  induction cs generalizing piece with
  | nil => rw [splitFrom, List.append_nil]
  | cons x cs ih =>
    rw [List.mem_cons, not_or] at hcs
    rw [splitFrom, if_neg (Ne.symm hcs.1), ih _ hcs.2]
    simp

/-- A text without the character is one piece. -/
theorem splitRev_of_notMem {c : Char} {s : String} (hs : c ∉ s.toList) : splitRev c s = [s] := by
  rw [splitRev, splitFrom_of_notMem [] [] hs]
  simp

/-- What comes behind the last occurrence of a character is the last piece. -/
theorem splitRev_append {c : Char} {last : String} (hlast : c ∉ last.toList) (before : String) :
    splitRev c (before ++ String.singleton c ++ last) = last :: splitRev c before := by
  have hfrom (done : List String) (piece cs : List Char) :
      splitFrom c done piece (cs ++ c :: last.toList) = last :: splitFrom c done piece cs := by
    induction cs generalizing done piece with
    | nil =>
      simp [splitFrom, splitFrom_of_notMem _ _ hlast]
    | cons x cs ih =>
      rw [List.cons_append, splitFrom, splitFrom]
      split
      · exact ih _ _
      · exact ih _ _
  simpa [splitRev] using hfrom [] [] before.toList

/-- **Nothing is lost** when a text is cut at every occurrence of a character. -/
theorem intercalate_splitRev (c : Char) (s : String) :
    (String.singleton c).intercalate (splitRev c s).reverse = s := by
  apply String.toList_injective
  rw [String.toList_intercalate, String.toList_singleton, splitRev, intercalate_splitFrom]
  simp [List.intercalate]

end Relabel.Text
