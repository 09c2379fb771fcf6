import Relabel.Proofs.Effect
import Relabel.Proofs.Text.Split
import Relabel.Type.Descriptor

/-!
# Descriptors are read as they are written

A text is a descriptor exactly if it spells a type whose class names can be told from what follows them,
that is, are not empty and free of semicolons. Each half is proved with the rest of the text behind it,
for scalars, then field types, then lists of parameters. What renaming does to a descriptor is then said
of types alone: a renaming that another one undoes on the classes of a type is undone on its descriptor.
-/

set_option autoImplicit false

namespace Relabel

/-- A class name that can stand in a descriptor. -/
def SpelledName (name : String) : Prop := name ≠ "" ∧ ';' ∉ name.toList

instance (name : String) : Decidable (SpelledName name) := inferInstanceAs (Decidable (_ ∧ _))

/-! ## Scalars -/

namespace ScalarType

/-- The class that a scalar names. -/
def classes : ScalarType → List String
  | .primitive _ => []
  | .object name => [name]

/-- A scalar that can be spelled. -/
def Spelled : ScalarType → Prop
  | .primitive letter => letter ∈ primitiveLetters
  | .object name => SpelledName name

theorem Spelled.head {t : ScalarType} (ht : t.Spelled) :
    ∃ c cs, t.print = c :: cs ∧ c ∉ ['[', '(', ')', 'V'] := by
  cases t with
  | primitive letter =>
    have hother : ∀ c ∈ primitiveLetters, c ∉ ['[', '(', ')', 'V'] := by simp [primitiveLetters]
    exact ⟨letter, [], rfl, hother letter ht⟩
  | object name => exact ⟨'L', name.toList ++ [';'], rfl, by decide⟩

theorem parse_print {t : ScalarType} (ht : t.Spelled) (rest : List Char) :
    parse (t.print ++ rest) = some (t, rest) := by
  cases t with
  | primitive letter =>
    have hletter : primitiveLetters.contains letter = true := List.contains_iff_mem.mpr ht
    simp only [print, List.singleton_append, parse, hletter, if_true]
  | object name =>
    obtain ⟨hne, hsemi⟩ := ht
    have hspan : (name.toList ++ ';' :: rest).span (· ≠ ';') = (name.toList, ';' :: rest) := by
      refine Text.span_append rest (fun x hx => ?_) (by simp)
      exact decide_eq_true fun heq => hsemi (heq ▸ hx)
    have hL : primitiveLetters.contains 'L' = false := by decide
    obtain ⟨c, cs, hcs⟩ : ∃ c cs, name.toList = c :: cs :=
      List.exists_cons_of_ne_nil fun hnil => hne (String.toList_eq_nil_iff.mp hnil)
    have hname : String.ofList (c :: cs) = name := by rw [← hcs, String.ofList_toList]
    rw [hcs] at hspan
    rw [print, List.cons_append, List.append_assoc, List.singleton_append, parse, hL, hcs, hspan]
    simp [hname]

theorem print_of_parse {cs rest : List Char} {t : ScalarType} (h : parse cs = some (t, rest)) :
    cs = t.print ++ rest ∧ t.Spelled := by
  cases cs with
  | nil => cases h
  | cons c cs =>
    rw [parse] at h
    split at h
    · next hc =>
      obtain ⟨rfl, rfl⟩ := Prod.mk.inj (Option.some.inj h)
      exact ⟨rfl, List.contains_iff_mem.mp hc⟩
    · split at h
      · next hc =>
        split at h
        · cases h
        · cases h
        · next name x rest' hne hspan =>
          obtain ⟨rfl, rfl⟩ := Prod.mk.inj (Option.some.inj h)
          obtain ⟨hcs, hname, hx⟩ := Text.span_eq hspan
          have hx : x = ';' := by simpa using hx x rfl
          refine ⟨?_, ?_, ?_⟩
          · rw [hc, hcs, hx, print, String.toList_ofList, List.cons_append, List.append_assoc,
              List.singleton_append]
          · intro hempty
            have hnil : name = [] := by simpa using congrArg String.toList hempty
            exact hne hnil
          · rw [String.toList_ofList]
            intro hmem
            simpa using hname ';' hmem
      · cases h

theorem rename_rename {f g : String → String} {t : ScalarType} (h : ∀ c ∈ t.classes, g (f c) = c) :
    (t.rename f).rename g = t := by
  cases t with
  | primitive letter => rfl
  | object name => exact congrArg ScalarType.object (h name List.mem_cons_self)

theorem rename_of_fixed {f : String → String} {t : ScalarType} (h : ∀ c ∈ t.classes, f c = c) :
    t.rename f = t := by
  cases t with
  | primitive letter => rfl
  | object name => exact congrArg ScalarType.object (h name List.mem_cons_self)

theorem spelled_rename {f : String → String} {t : ScalarType} (ht : t.Spelled)
    (h : ∀ c ∈ t.classes, SpelledName (f c)) : (t.rename f).Spelled := by
  cases t with
  | primitive letter => exact ht
  | object name => exact h name List.mem_cons_self

end ScalarType

/-! ## Field types -/

namespace FieldType

/-- The class that a field type names. -/
def classes (t : FieldType) : List String := t.scalar.classes

/-- A field type that can be spelled. -/
def Spelled (t : FieldType) : Prop := t.scalar.Spelled

/-- The spelling of a field type cannot be taken for a list of parameters or the end of one, or for `void`. -/
theorem Spelled.head {t : FieldType} (ht : t.Spelled) : ∃ c cs, t.print = c :: cs ∧ c ∉ ['(', ')', 'V'] := by
  obtain ⟨dimensions, scalar⟩ := t
  cases dimensions with
  | zero =>
    obtain ⟨c, cs, hprint, hc⟩ := ScalarType.Spelled.head ht
    exact ⟨c, cs, hprint, fun hmem => hc (List.mem_cons_of_mem _ hmem)⟩
  | succ n => exact ⟨'[', List.replicate n '[' ++ scalar.print, rfl, by decide⟩

theorem parse_print {t : FieldType} (ht : t.Spelled) (rest : List Char) :
    parse (t.print ++ rest) = some (t, rest) := by
  obtain ⟨dimensions, scalar⟩ := t
  obtain ⟨c, cs, hprint, hc⟩ := ScalarType.Spelled.head ht
  have hspan : (List.replicate dimensions '[' ++ (scalar.print ++ rest)).span (· = '[')
      = (List.replicate dimensions '[', scalar.print ++ rest) := by
    rw [hprint, List.cons_append]
    refine Text.span_append _ (fun x hx => ?_) ?_
    · exact decide_eq_true (List.eq_of_mem_replicate hx)
    · exact decide_eq_false fun heq => hc (heq ▸ List.mem_cons_self)
  rw [print, List.append_assoc, parse, hspan]
  simp [ScalarType.parse_print ht]

theorem print_of_parse {cs rest : List Char} {t : FieldType} (h : parse cs = some (t, rest)) :
    cs = t.print ++ rest ∧ t.Spelled := by
  rw [parse] at h
  cases hspan : cs.span (· = '[') with
  | mk brackets scalarText =>
    rw [hspan] at h
    obtain ⟨⟨scalar, rest'⟩, hscalar, hpair⟩ := Option.map_eq_some_iff.mp h
    obtain ⟨rfl, rfl⟩ := Prod.mk.inj hpair
    obtain ⟨hcs, hbrackets, -⟩ := Text.span_eq hspan
    obtain ⟨hprint, hspelled⟩ := ScalarType.print_of_parse hscalar
    have hreplicate : brackets = List.replicate brackets.length '[' :=
      List.eq_replicate_of_mem fun x hx => of_decide_eq_true (hbrackets x hx)
    refine ⟨?_, hspelled⟩
    rw [hcs, hprint, print, List.append_assoc, ← hreplicate]

theorem rename_rename {f g : String → String} {t : FieldType} (h : ∀ c ∈ t.classes, g (f c) = c) :
    (t.rename f).rename g = t :=
  congrArg (FieldType.mk t.dimensions) (ScalarType.rename_rename h)

theorem rename_of_fixed {f : String → String} {t : FieldType} (h : ∀ c ∈ t.classes, f c = c) : t.rename f = t :=
  congrArg (FieldType.mk t.dimensions) (ScalarType.rename_of_fixed h)

theorem spelled_rename {f : String → String} {t : FieldType} (ht : t.Spelled)
    (h : ∀ c ∈ t.classes, SpelledName (f c)) : (t.rename f).Spelled :=
  ScalarType.spelled_rename ht h

/-- **A text is a field descriptor exactly if it spells a field type.** -/
theorem ofString_eq_ok {s : String} {t : FieldType} : ofString s = .ok t ↔ s = t.toString ∧ t.Spelled := by
  constructor
  · intro h
    unfold ofString at h
    split at h
    · cases h
    · next t' hparse =>
      obtain rfl := Except.ok.inj h
      obtain ⟨hprint, hspelled⟩ := print_of_parse hparse
      refine ⟨String.toList_injective ?_, hspelled⟩
      rw [toString, String.toList_ofList, hprint, List.append_nil]
    · cases h
  · rintro ⟨rfl, ht⟩
    have hparse := parse_print ht []
    rw [List.append_nil] at hparse
    rw [ofString, toString, String.toList_ofList, hparse]

theorem head?_toString {t : FieldType} (ht : t.Spelled) : t.toString.toList.head? ≠ some '(' := by
  obtain ⟨c, cs, hprint, hc⟩ := ht.head
  rw [toString, String.toList_ofList, hprint, List.head?_cons]
  intro heq
  exact hc (Option.some.inj heq ▸ List.mem_cons_self)

end FieldType

/-! ## Method types -/

namespace MethodType

/-- The classes that a method type names. -/
def classes (t : MethodType) : List String :=
  t.parameters.flatMap FieldType.classes ++ (t.result?.map FieldType.classes).getD []

/-- A method type that can be spelled. -/
structure Spelled (t : MethodType) : Prop where
  parameters : ∀ p ∈ t.parameters, p.Spelled
  result : ∀ r ∈ t.result?, r.Spelled

theorem parseParameters_print {ps : List FieldType} (hps : ∀ p ∈ ps, p.Spelled) (rest : List Char) :
    ∀ (acc : List FieldType) (fuel : Nat), ps.length ≤ fuel →
      parseParameters acc fuel (ps.flatMap FieldType.print ++ ')' :: rest)
        = .ok (acc.reverse ++ ps, rest) := by
  induction ps with
  | nil =>
    intro acc fuel _
    cases fuel <;> simp [parseParameters]
  | cons p ps ih =>
    intro acc fuel hfuel
    cases fuel with
    | zero => simp at hfuel
    | succ fuel =>
      have hp : p.Spelled := hps p List.mem_cons_self
      obtain ⟨c, cs, hprint, hc⟩ := hp.head
      have hparse := FieldType.parse_print hp (ps.flatMap FieldType.print ++ ')' :: rest)
      rw [hprint, List.cons_append] at hparse
      rw [List.flatMap_cons, List.append_assoc, hprint, List.cons_append, parseParameters, hparse]
      · simp only
        rw [ih (fun q hq => hps q (List.mem_cons_of_mem p hq)) (p :: acc) fuel (by simpa using hfuel)]
        simp
      · exact fun hnil => nomatch hnil
      · intro rest' hclose
        exact hc ((List.cons.inj hclose).1 ▸ List.mem_cons_of_mem _ List.mem_cons_self)

theorem print_of_parseParameters {acc : List FieldType} {fuel : Nat} {cs rest : List Char}
    {ps : List FieldType} (h : parseParameters acc fuel cs = .ok (ps, rest)) :
    ∃ qs, ps = acc.reverse ++ qs ∧ cs = qs.flatMap FieldType.print ++ ')' :: rest ∧
      ∀ q ∈ qs, q.Spelled := by
  fun_induction parseParameters acc fuel cs with
  | case1 | case3 | case4 => cases h
  | case2 acc fuel rest' =>
    obtain ⟨rfl, rfl⟩ := Prod.mk.inj (Except.ok.inj h)
    exact ⟨[], by simp, by simp, by simp⟩
  | case5 acc fuel cs _ _ t rest' hparse ih =>
    obtain ⟨qs, rfl, hcs, hqs⟩ := ih h
    obtain ⟨hprint, ht⟩ := FieldType.print_of_parse hparse
    refine ⟨t :: qs, by simp, by rw [hprint, hcs]; simp, ?_⟩
    intro q hq
    rcases List.mem_cons.mp hq with rfl | hq
    · exact ht
    · exact hqs q hq

/-- The spelling of a result. -/
def printResult : Option FieldType → List Char
  | none => ['V']
  | some r => r.print

theorem parseResult_print {result? : Option FieldType} (h : ∀ r ∈ result?, r.Spelled) :
    parseResult (printResult result?) = .ok result? := by
  cases result? with
  | none => rfl
  | some r =>
    have hr : r.Spelled := h r rfl
    obtain ⟨c, cs, hprint, hc⟩ := hr.head
    have hparse := FieldType.parse_print hr []
    rw [List.append_nil, hprint] at hparse
    rw [printResult, hprint, parseResult, hparse]
    · rfl
    · intro rest hvoid
      have hV : c = 'V' := (List.cons.inj hvoid).1
      subst hV
      exact hc (by decide)

theorem print_of_parseResult {cs : List Char} {result? : Option FieldType}
    (h : parseResult cs = .ok result?) : cs = printResult result? ∧ ∀ r ∈ result?, r.Spelled := by
  unfold parseResult at h
  split at h
  · next rest =>
    split at h
    · next hrest =>
      obtain rfl := Except.ok.inj h
      exact ⟨by rw [List.isEmpty_iff.mp hrest]; rfl, by simp⟩
    · cases h
  · split at h
    · cases h
    · next t rest hparse =>
      split at h
      · next hrest =>
        obtain rfl := Except.ok.inj h
        obtain ⟨hprint, ht⟩ := FieldType.print_of_parse hparse
        rw [List.isEmpty_iff.mp hrest, List.append_nil] at hprint
        refine ⟨hprint, fun r hr => ?_⟩
        obtain rfl := Option.some.inj hr
        exact ht
      · cases h

theorem print_eq (t : MethodType) :
    t.print = '(' :: (t.parameters.flatMap FieldType.print ++ ')' :: printResult t.result?) := by
  rw [print]
  cases t.result? <;> rfl

/-- Each parameter takes a character, so the length of the text is fuel enough for all of them. -/
theorem length_le_length_flatMap {ps : List FieldType} (hps : ∀ p ∈ ps, p.Spelled) :
    ps.length ≤ (ps.flatMap FieldType.print).length := by
  induction ps with
  | nil => simp
  | cons p ps ih =>
    obtain ⟨c, cs, hprint, -⟩ := (hps p List.mem_cons_self).head
    have hrest := ih fun q hq => hps q (List.mem_cons_of_mem p hq)
    rw [List.flatMap_cons, hprint, List.length_append, List.length_cons, List.length_cons]
    omega

theorem parse_print {t : MethodType} (ht : t.Spelled) : parse t.print = .ok t := by
  have hlength := length_le_length_flatMap ht.parameters
  have hfuel : t.parameters.length
      ≤ (t.parameters.flatMap FieldType.print ++ ')' :: printResult t.result?).length := by
    rw [List.length_append]
    omega
  rw [print_eq, parse, parseParameters_print ht.parameters _ [] _ hfuel]
  simp only [parseResult_print ht.result, List.reverse_nil, List.nil_append]

theorem print_of_parse {cs : List Char} {t : MethodType} (h : parse cs = .ok t) :
    cs = t.print ∧ t.Spelled := by
  unfold parse at h
  split at h
  · next cs =>
    split at h
    · cases h
    · next ps rest hps =>
      split at h
      · cases h
      · next result? hresult =>
        obtain rfl := Except.ok.inj h
        obtain ⟨qs, rfl, hcs, hqs⟩ := print_of_parseParameters hps
        obtain ⟨hrest, hr⟩ := print_of_parseResult hresult
        refine ⟨?_, hqs, hr⟩
        rw [print_eq, hcs, hrest]
  · cases h

theorem rename_rename {f g : String → String} {t : MethodType} (h : ∀ c ∈ t.classes, g (f c) = c) :
    (t.rename f).rename g = t := by
  obtain ⟨parameters, result?⟩ := t
  have hparameters (p : FieldType) (hp : p ∈ parameters) : (p.rename f).rename g = p := by
    refine FieldType.rename_rename fun c hc => h c ?_
    exact List.mem_append_left _ (List.mem_flatMap.mpr ⟨p, hp, hc⟩)
  have hresult (r : FieldType) (hr : r ∈ result?) : (r.rename f).rename g = r := by
    refine FieldType.rename_rename fun c hc => h c ?_
    exact List.mem_append_right _ (by rw [Option.mem_def.mp hr]; exact hc)
  show MethodType.mk ((parameters.map _).map _) ((result?.map _).map _) = ⟨parameters, result?⟩
  congr 1
  · rw [List.map_map]
    exact (List.map_congr_left hparameters).trans (List.map_id parameters)
  · cases result? with
    | none => rfl
    | some r => exact congrArg some (hresult r rfl)

theorem rename_of_fixed {f : String → String} {t : MethodType} (h : ∀ c ∈ t.classes, f c = c) :
    t.rename f = t := by
  obtain ⟨parameters, result?⟩ := t
  have hparameters (p : FieldType) (hp : p ∈ parameters) : p.rename f = id p :=
    FieldType.rename_of_fixed fun c hc => h c (List.mem_append_left _ (List.mem_flatMap.mpr ⟨p, hp, hc⟩))
  have hresult : result?.map (·.rename f) = result? := by
    cases result? with
    | none => rfl
    | some r => exact congrArg some (FieldType.rename_of_fixed fun c hc => h c (List.mem_append_right _ hc))
  rw [rename, List.map_congr_left hparameters, List.map_id, hresult]

theorem spelled_rename {f : String → String} {t : MethodType} (ht : t.Spelled)
    (h : ∀ c ∈ t.classes, SpelledName (f c)) : (t.rename f).Spelled where
  parameters p hp := by
    obtain ⟨q, hq, rfl⟩ := List.mem_map.mp hp
    refine FieldType.spelled_rename (ht.parameters q hq) fun c hc => h c ?_
    exact List.mem_append_left _ (List.mem_flatMap.mpr ⟨q, hq, hc⟩)
  result r hr := by
    obtain ⟨q, hq, rfl⟩ := Option.map_eq_some_iff.mp hr
    refine FieldType.spelled_rename (ht.result q hq) fun c hc => h c ?_
    exact List.mem_append_right _ (by rw [hq]; exact hc)

/-- **A text is a method descriptor exactly if it spells a method type.** -/
theorem ofString_eq_ok {s : String} {t : MethodType} : ofString s = .ok t ↔ s = t.toString ∧ t.Spelled := by
  constructor
  · intro h
    unfold ofString at h
    split at h
    · next t' hparse =>
      obtain rfl := Except.ok.inj h
      obtain ⟨hprint, hspelled⟩ := print_of_parse hparse
      refine ⟨String.toList_injective ?_, hspelled⟩
      rw [toString, String.toList_ofList, hprint]
    · cases h
  · rintro ⟨rfl, ht⟩
    rw [ofString, toString, String.toList_ofList, parse_print ht]

theorem head?_toString (t : MethodType) : t.toString.toList.head? = some '(' := by
  rw [toString, String.toList_ofList, print_eq]
  rfl

end MethodType

/-! ## Renaming -/

namespace Descriptor

variable {f : String → String} {s s' : String}

theorem renameField_eq_ok : renameField f s = .ok s' ↔
    ∃ t : FieldType, (s = t.toString ∧ t.Spelled) ∧ (t.rename f).toString = s' := by
  simp only [renameField, Effect.except_map_eq_ok, FieldType.ofString_eq_ok]

theorem renameMethod_eq_ok : renameMethod f s = .ok s' ↔
    ∃ t : MethodType, (s = t.toString ∧ t.Spelled) ∧ (t.rename f).toString = s' := by
  simp only [renameMethod, Effect.except_map_eq_ok, MethodType.ofString_eq_ok]

/-- A field descriptor whose class keeps its name stays as it is. -/
theorem renameField_of_fixed (h : renameField f s = .ok s')
    (hfixed : ∀ t, FieldType.ofString s = .ok t → ∀ c ∈ t.classes, f c = c) : s' = s := by
  obtain ⟨t, ht, rfl⟩ := renameField_eq_ok.mp h
  rw [FieldType.rename_of_fixed (hfixed t (FieldType.ofString_eq_ok.mpr ht)), ht.1]

/-- A method descriptor whose classes keep their names stays as it is. -/
theorem renameMethod_of_fixed (h : renameMethod f s = .ok s')
    (hfixed : ∀ t, MethodType.ofString s = .ok t → ∀ c ∈ t.classes, f c = c) : s' = s := by
  obtain ⟨t, ht, rfl⟩ := renameMethod_eq_ok.mp h
  rw [MethodType.rename_of_fixed (hfixed t (MethodType.ofString_eq_ok.mpr ht)), ht.1]

end Descriptor

end Relabel
