import Relabel.Proofs.Naming.Retraction

/-!
# Translation by the longest name around a name

The look-up of a name goes from the inside out: the name itself is looked up, and a name without an entry waits for
what becomes of the name before its last `$`, behind which the last segment is put back. `Resolves` is one such
look-up with all its steps, so that a derivation is a look-up that has come to its end.

Main statement: every look-up ends, with one result, and this result has a closed form. Of the names around the
name (the name itself and what stands before any of its `$`) the longest one that has an entry is replaced by this
entry, and what stands behind it is kept. A name around which no name has an entry is kept as a whole. Nothing is
asked of the name: it may begin or end with a `$` or have several in a row, which makes empty segments.
-/

set_option autoImplicit false

namespace Relabel

namespace ClassNames

/-- The look-up of a name step by step, and what it gives. -/
inductive Resolves (d : Dict String) : String → String → Prop where
  | entry {name hit : String} : d[name]? = some hit → Resolves d name hit
  | nested {outer last image : String} : '$' ∉ last.toList → d[outer ++ "$" ++ last]? = none →
      Resolves d outer image → Resolves d (outer ++ "$" ++ last) (image ++ "$" ++ last)
  | kept {name : String} : '$' ∉ name.toList → d[name]? = none → Resolves d name name

variable {d : Dict String}

/-- Every look-up ends. -/
theorem resolves_translateWith (d : Dict String) (name : String) : Resolves d name (translateWith d name) := by
  induction name using name_induction with
  | segment name hname =>
    cases hentry : d[name]? with
    | some hit =>
      rw [translateWith_of_entry hentry]
      exact .entry hentry
    | none =>
      rw [translateWith_segment hname hentry]
      exact .kept hname hentry
  | nested outer last hlast ih =>
    cases hentry : d[outer ++ "$" ++ last]? with
    | some hit =>
      rw [translateWith_of_entry hentry]
      exact .entry hentry
    | none =>
      rw [translateWith_of_not_entry hlast hentry]
      exact .nested hlast hentry ih

/-- And it gives the translation. -/
theorem Resolves.eq {name image : String} (h : Resolves d name image) : image = translateWith d name := by
  induction h with
  | entry hentry => exact (translateWith_of_entry hentry).symm
  | nested hlast hentry _ ih => rw [translateWith_of_not_entry hlast hentry, ih]
  | kept hname hentry => exact (translateWith_segment hname hentry).symm

/-- **A name is translated by the longest name around it that has an entry**, with the rest kept, and the look-up
that finds it ends for every name. -/
theorem translateWith_longest (d : Dict String) (name : String) :
    (∀ image, Resolves d name image ↔ image = translateWith d name) ∧
    ((∃ outer hit rest, Nearest (fun k => ∃ v, d[k]? = some v) name outer ∧ d[outer]? = some hit ∧
        name = outer ++ rest ∧ translateWith d name = hit ++ rest) ∨
      (∀ outer, Encloses outer name → d[outer]? = none) ∧ translateWith d name = name) := by
  refine ⟨fun image => ⟨Resolves.eq, ?_⟩, ?_⟩
  · rintro rfl
    exact resolves_translateWith d name
  · rcases nearest_or_none (fun k => ∃ v, d[k]? = some v) name with ⟨outer, hnear⟩ | hnone
    · obtain ⟨hit, hhit⟩ := hnear.holds
      obtain ⟨rest, hname, himage, -⟩ := translateWith_of_nearest hnear hhit
      exact .inl ⟨outer, hit, rest, hnear, hhit, hname, himage⟩
    · exact .inr ⟨fun outer houter => Option.eq_none_iff_forall_ne_some.mpr fun v hv => hnone outer houter ⟨v, hv⟩,
        translateWith_of_none hnone⟩

example : translateWith ((∅ : Dict String).insert "$a" "b") "$a$$c$" = "b$$c$" := by decide +kernel

end ClassNames

end Relabel
