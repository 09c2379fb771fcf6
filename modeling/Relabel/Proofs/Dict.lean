import Mathlib.Data.List.Induction
import Relabel.Dict

/-!
# Looking up in dictionaries

The entries of a dictionary after one operation, with equality of texts in place of their order, and the
one law of `override`: the entry on top wins. A dictionary that a loop fills is a dictionary from a list of
entries, and where no key has two values in the list, its entries are those of the list.
-/

set_option autoImplicit false

namespace Relabel

namespace Dict

variable {α : Type}

theorem getElem?_insert (d : Dict α) (k k' : String) (v : α) :
    (d.insert k v)[k']? = if k = k' then some v else d[k']? := by
  rw [Std.ExtTreeMap.getElem?_insert]
  simp only [Std.compare_eq_iff_eq]

theorem contains_insert (d : Dict α) (k k' : String) (v : α) :
    (d.insert k v).contains k' = (decide (k = k') || d.contains k') := by
  rw [Std.ExtTreeMap.contains_insert]
  by_cases h : k = k'
  · subst h; simp
  · simp [h]

theorem contains_eq_isSome (d : Dict α) (k : String) : d.contains k = d[k]?.isSome :=
  Std.ExtTreeMap.contains_eq_isSome_getElem?

/-- **The entry on top wins.** -/
theorem getElem?_override (base top : Dict α) (k : String) :
    (base.override top)[k]? = (top[k]?).or base[k]? := by
  have hfold : base.override top = base.insertMany top.toList := by
    rw [override, Std.ExtTreeMap.foldl_eq_foldl_toList, Std.ExtTreeMap.insertMany_list_eq_foldl]
  rw [hfold]
  cases ht : top[k]? with
  | none =>
    rw [Std.ExtTreeMap.getElem?_insertMany_list_of_contains_eq_false]
    · rfl
    · rw [List.contains_eq_mem, decide_eq_false_iff_not]
      intro hk
      obtain ⟨⟨k', v⟩, hmem, rfl⟩ := List.mem_map.mp hk
      rw [Std.ExtTreeMap.mem_toList_iff_getElem?_eq_some.mp hmem] at ht
      cases ht
  | some v =>
    have hmem : (k, v) ∈ top.toList := Std.ExtTreeMap.mem_toList_iff_getElem?_eq_some.mpr ht
    rw [Std.ExtTreeMap.getElem?_insertMany_list_of_mem (show compare k k = .eq by simp)
      Std.ExtTreeMap.distinct_keys_toList hmem]
    rfl

/-! ## Dictionaries from lists -/

/-- Entries put in one after another. -/
def ofEntries (entries : List (String × α)) : Dict α :=
  entries.foldl (fun d e => d.insert e.1 e.2) ∅

theorem ofEntries_concat (entries : List (String × α)) (e : String × α) :
    ofEntries (entries ++ [e]) = (ofEntries entries).insert e.1 e.2 := by
  rw [ofEntries, List.foldl_append]
  rfl

theorem mem_of_getElem?_ofEntries {entries : List (String × α)} {k : String} {v : α}
    (h : (ofEntries entries)[k]? = some v) : (k, v) ∈ entries := by
  induction entries using List.reverseRecOn with
  | nil => simp [ofEntries] at h
  | append_singleton entries e ih =>
    rw [ofEntries_concat, getElem?_insert] at h
    split at h
    · next hk =>
      obtain rfl := Option.some.inj h
      exact List.mem_append_right _ (List.mem_singleton.mpr (Prod.ext hk.symm rfl))
    · exact List.mem_append_left _ (ih h)

theorem exists_getElem?_ofEntries {entries : List (String × α)} {e : String × α} (h : e ∈ entries) :
    ∃ v, (ofEntries entries)[e.1]? = some v := by
  induction entries using List.reverseRecOn with
  | nil => cases h
  | append_singleton entries last ih =>
    rw [ofEntries_concat, getElem?_insert]
    split
    · exact ⟨last.2, rfl⟩
    · next hk =>
      rcases List.mem_append.mp h with hmem | hmem
      · exact ih hmem
      · exact absurd (congrArg Prod.fst (List.mem_singleton.mp hmem)).symm hk

/-- Where a key has one value, the order of the entries does not matter. -/
theorem getElem?_ofEntries {entries : List (String × α)} {k : String} {v : α}
    (hunique : ∀ v', (k, v) ∈ entries → (k, v') ∈ entries → v' = v) :
    (ofEntries entries)[k]? = some v ↔ (k, v) ∈ entries := by
  refine ⟨mem_of_getElem?_ofEntries, fun hmem => ?_⟩
  obtain ⟨v', hv'⟩ := exists_getElem?_ofEntries hmem
  rw [hv', hunique v' hmem (mem_of_getElem?_ofEntries hv')]

theorem getElem?_ofEntries_map {β : Type} {xs : List β} {entry : β → String × α}
    (hunique : ∀ x ∈ xs, ∀ y ∈ xs, (entry x).1 = (entry y).1 → (entry x).2 = (entry y).2)
    {k : String} {v : α} :
    (ofEntries (xs.map entry))[k]? = some v ↔ ∃ x ∈ xs, entry x = (k, v) := by
  rw [getElem?_ofEntries, List.mem_map]
  intro v' h h'
  obtain ⟨x, hx, hxe⟩ := List.mem_map.mp h
  obtain ⟨y, hy, hye⟩ := List.mem_map.mp h'
  have hsame := hunique y hy x hx
  rw [hxe, hye] at hsame
  exact hsame rfl

/-- Where elements stand in an order and a key may have several values, the last of them counts. -/
theorem getElem?_ofEntries_of_pairwise {β : Type} {xs : List β} {entry : β → String × α} {R : β → β → Prop}
    (hsorted : xs.Pairwise R) (hasymm : ∀ x y, R x y → ¬R y x) {k : String} {v : α} :
    (ofEntries (xs.map entry))[k]? = some v
      ↔ ∃ x ∈ xs, entry x = (k, v) ∧ ∀ y ∈ xs, R x y → (entry y).1 ≠ k := by
  induction xs using List.reverseRecOn with
  | nil => simp [ofEntries]
  | append_singleton xs last ih =>
    obtain ⟨hxs, -, hlast⟩ := List.pairwise_append.mp hsorted
    have hbefore : ∀ x ∈ xs, R x last := fun x hx => hlast x hx last (List.mem_singleton_self last)
    rw [List.map_append, List.map_singleton, ofEntries_concat, getElem?_insert]
    split
    · next hkey =>
      constructor
      · intro hv
        obtain rfl := Option.some.inj hv
        refine ⟨last, List.mem_append_right _ (List.mem_singleton_self last), Prod.ext hkey rfl, ?_⟩
        intro y hy hlater
        rcases List.mem_append.mp hy with hy | hy
        · exact absurd hlater (hasymm y last (hbefore y hy))
        · rw [List.mem_singleton.mp hy] at hlater
          exact absurd hlater (hasymm last last hlater)
      · intro h
        obtain ⟨x, hx, hentry, hnone⟩ := h
        rcases List.mem_append.mp hx with hx | hx
        · have hlast := hnone last (List.mem_append_right _ (List.mem_singleton_self last)) (hbefore x hx)
          exact absurd hkey hlast
        · rw [← List.mem_singleton.mp hx, hentry]
    · next hkey =>
      rw [ih hxs]
      constructor
      · intro h
        obtain ⟨x, hx, hentry, hnone⟩ := h
        refine ⟨x, List.mem_append_left _ hx, hentry, fun y hy hlater => ?_⟩
        rcases List.mem_append.mp hy with hy | hy
        · exact hnone y hy hlater
        · rw [List.mem_singleton.mp hy]
          exact hkey
      · intro h
        obtain ⟨x, hx, hentry, hnone⟩ := h
        rcases List.mem_append.mp hx with hx | hx
        · exact ⟨x, hx, hentry, fun y hy => hnone y (List.mem_append_left _ hy)⟩
        · rw [← List.mem_singleton.mp hx, hentry] at hkey
          exact absurd rfl hkey

/-- The entries of a dictionary stand in the order of their keys. -/
theorem pairwise_toList (d : Dict α) : d.toList.Pairwise fun e e' => e.1 < e'.1 := by
  have hordered : d.toList.Pairwise fun e e' => compare e.1 e'.1 = .lt := Std.ExtTreeMap.ordered_keys_toList
  exact hordered.imp compareOfLessAndEq_eq_lt.mp

/-- A dictionary is put together again from its entries. -/
theorem ofEntries_toList (d : Dict α) : ofEntries d.toList = d := by
  refine Std.ExtTreeMap.ext_getElem? fun k => Option.ext fun v => ?_
  have hentry (v : α) : (k, v) ∈ d.toList ↔ d[k]? = some v := Std.ExtTreeMap.mem_toList_iff_getElem?_eq_some
  rw [getElem?_ofEntries, hentry]
  intro v' hv hv'
  rw [hentry] at hv hv'
  exact Option.some.inj (hv'.symm.trans hv)

/-- A loop that goes over some elements and puts in one entry for each of them, unless it fails: `Gives` says
which entry that is. -/
theorem foldlM_put {ε σ β γ : Type} {put : σ → γ → σ} {step : σ → β → Except ε σ} {Gives : β → γ → Prop}
    (hstep : ∀ s x s', step s x = .ok s' → ∃ e, Gives x e ∧ s' = put s e) {xs : List β} :
    ∀ {s s' : σ}, xs.foldlM step s = .ok s' → ∃ entries : List γ, s' = entries.foldl put s ∧
      (∀ e ∈ entries, ∃ x ∈ xs, Gives x e) ∧ ∀ x ∈ xs, ∃ e ∈ entries, Gives x e := by
  induction xs with
  | nil =>
    intro s s' h
    obtain rfl := Except.ok.inj h
    exact ⟨[], rfl, fun e he => absurd he List.not_mem_nil, fun x hx => absurd hx List.not_mem_nil⟩
  | cons x xs ih =>
    intro s s' h
    rw [List.foldlM_cons] at h
    cases hx : step s x with
    | error e =>
      rw [hx] at h
      cases h
    | ok s₁ =>
      rw [hx] at h
      obtain ⟨entry, hgives, rfl⟩ := hstep s x s₁ hx
      obtain ⟨entries, rfl, hfrom, hto⟩ := ih h
      refine ⟨entry :: entries, rfl, fun e he => ?_, fun y hy => ?_⟩
      · rcases List.mem_cons.mp he with rfl | he
        · exact ⟨x, List.mem_cons_self, hgives⟩
        · obtain ⟨y, hy, hye⟩ := hfrom e he
          exact ⟨y, List.mem_cons_of_mem x hy, hye⟩
      · rcases List.mem_cons.mp hy with rfl | hy
        · exact ⟨entry, List.mem_cons_self, hgives⟩
        · obtain ⟨e, he, hye⟩ := hto y hy
          exact ⟨e, List.mem_cons_of_mem entry he, hye⟩

/-- A loop does not fail if none of its steps does. -/
theorem foldlM_ok {ε σ β : Type} {step : σ → β → Except ε σ} {xs : List β}
    (hstep : ∀ s, ∀ x ∈ xs, ∃ s', step s x = .ok s') : ∀ s, ∃ s', xs.foldlM step s = .ok s' := by
  induction xs with
  | nil => exact fun s => ⟨s, rfl⟩
  | cons x xs ih =>
    intro s
    obtain ⟨s₁, hs₁⟩ := hstep s x List.mem_cons_self
    obtain ⟨s₂, hs₂⟩ := ih (fun s y hy => hstep s y (List.mem_cons_of_mem x hy)) s₁
    refine ⟨s₂, ?_⟩
    rw [List.foldlM_cons, hs₁]
    exact hs₂

end Dict

end Relabel
