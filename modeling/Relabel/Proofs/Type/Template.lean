import Relabel.Constant.Basic
import Relabel.Naming.ClassNames
import Relabel.Proofs.Type.Descriptor

/-!
# Descriptors as templates

A descriptor is characters of its syntax with class names between them. Taken apart in this way it is a
template, and renaming fills the template with other names. The grammar is said of templates here, without a
word about how a descriptor is read.

A name that is filled in ends at the next semicolon, so what comes out is the same template with other names
only if no new name is empty or has a semicolon. This is the one condition under which renaming twice is
renaming once, and under which a renaming can be taken back.
-/

set_option autoImplicit false

namespace Relabel

/-- A part of a descriptor: a character of its syntax or a class name. -/
inductive DescriptorPart where
  | mark (c : Char)
  | className (name : String)
  deriving DecidableEq, Repr

namespace DescriptorPart

/-- The spelling of a part with its class renamed. -/
def fill (f : String → String) : DescriptorPart → List Char
  | .mark c => [c]
  | .className name => (f name).toList

/-- The class that a part names. -/
def name? : DescriptorPart → Option String
  | .mark _ => none
  | .className name => some name

/-- A part with its class renamed. -/
def rename (f : String → String) : DescriptorPart → DescriptorPart
  | .mark c => .mark c
  | .className name => .className (f name)

end DescriptorPart

/-- A descriptor taken apart. -/
abbrev Template := List DescriptorPart

namespace Template

/-- The text of a template with its classes renamed. -/
def fill (f : String → String) (t : Template) : String :=
  String.ofList (t.flatMap (·.fill f))

/-- The text of a template. -/
def text (t : Template) : String := t.fill id

/-- The class names in a template. -/
def names (t : Template) : List String := t.filterMap DescriptorPart.name?

/-- A template with its classes renamed. -/
def rename (f : String → String) (t : Template) : Template := t.map (·.rename f)

/-- A field type: a primitive letter or a class name between `L` and `;`, with brackets before it. -/
inductive IsField : Template → Prop
  | primitive {letter : Char} (h : letter ∈ primitiveLetters) : IsField [.mark letter]
  | object {name : String} (h : SpelledName name) : IsField [.mark 'L', .className name, .mark ';']
  | array {t : Template} (h : IsField t) : IsField (.mark '[' :: t)

/-- A method type: field types in parentheses and then a field type or `V`. -/
inductive IsMethod : Template → Prop
  | mk {parameters : List Template} {result : Template} (hparameters : ∀ p ∈ parameters, IsField p)
      (hresult : result = [.mark 'V'] ∨ IsField result) :
      IsMethod (.mark '(' :: (parameters.flatten ++ .mark ')' :: result))

/-- The grammar of the descriptors of one kind of members. -/
def Describes (kind : MemberKind) : Template → Prop :=
  match kind with
  | .field => IsField
  | .method | .interfaceMethod => IsMethod

variable {f g : String → String} {t : Template}

/-! ## Class names -/

theorem mem_names {t : Template} {c : String} : c ∈ t.names ↔ .className c ∈ t := by
  rw [names, List.mem_filterMap]
  constructor
  · intro h
    obtain ⟨part, hpart, hname⟩ := h
    cases part with
    | mark x => cases hname
    | className name =>
      obtain rfl := Option.some.inj hname
      exact hpart
  · exact fun h => ⟨_, h, rfl⟩

theorem mem_names_rename {c : String} : c ∈ (t.rename f).names ↔ ∃ c' ∈ t.names, f c' = c := by
  rw [mem_names, rename, List.mem_map]
  constructor
  · intro h
    obtain ⟨part, hpart, hname⟩ := h
    cases part with
    | mark x => cases hname
    | className name => exact ⟨name, mem_names.mpr hpart, DescriptorPart.className.inj hname⟩
  · intro h
    obtain ⟨name, hname, rfl⟩ := h
    exact ⟨.className name, mem_names.mp hname, rfl⟩

/-- The class names of a method type are those of its parameters and its result. -/
theorem mem_names_method {parameters : List Template} {result : Template} {c : String} :
    c ∈ names (.mark '(' :: (parameters.flatten ++ .mark ')' :: result))
      ↔ (∃ p ∈ parameters, c ∈ p.names) ∨ c ∈ result.names := by
  simp [mem_names]

theorem IsField.spelledName (ht : IsField t) {c : String} (hc : c ∈ t.names) : SpelledName c := by
  induction ht with
  | primitive _ => cases hc
  | object hname =>
    obtain rfl := List.mem_singleton.mp hc
    exact hname
  | array _ ih => exact ih hc

theorem Describes.spelledName {kind : MemberKind} (ht : t.Describes kind) {c : String} (hc : c ∈ t.names) :
    SpelledName c := by
  cases kind with
  | field => exact IsField.spelledName ht hc
  | method | interfaceMethod =>
    cases ht with
    | @mk parameters result hparameters hresult =>
      rcases mem_names_method.mp hc with hp | hr
      · obtain ⟨p, hp, hc⟩ := hp
        exact (hparameters p hp).spelledName hc
      · rcases hresult with rfl | hfield
        · cases hr
        · exact hfield.spelledName hr

/-! ## Filling in twice -/

theorem fill_rename (f g : String → String) (t : Template) : (t.rename f).fill g = t.fill (g ∘ f) := by
  have hpart (p : DescriptorPart) : (p.rename f).fill g = p.fill (g ∘ f) := by
    cases p <;> rfl
  rw [fill, rename, List.flatMap_map]
  simp only [hpart]
  rfl

theorem text_rename (f : String → String) (t : Template) : (t.rename f).text = t.fill f :=
  fill_rename f id t

theorem fill_eq_text (h : ∀ c ∈ t.names, f c = c) : t.fill f = t.text := by
  have hpart (p : DescriptorPart) (hp : p ∈ t) : p.fill f = p.fill id := by
    cases p with
    | mark c => rfl
    | className name => exact congrArg String.toList (h name (mem_names.mpr hp))
  exact congrArg String.ofList (List.flatMap_congr hpart)

theorem IsField.rename (ht : IsField t) (h : ∀ c ∈ t.names, SpelledName (f c)) : IsField (t.rename f) := by
  induction ht with
  | primitive hletter => exact .primitive hletter
  | object hname => exact .object (h _ List.mem_cons_self)
  | array _ ih => exact .array (ih h)

theorem IsMethod.rename (ht : IsMethod t) (h : ∀ c ∈ t.names, SpelledName (f c)) : IsMethod (t.rename f) := by
  cases ht with
  | @mk parameters result hparameters hresult =>
    have hrenamed : Template.rename f (.mark '(' :: (parameters.flatten ++ .mark ')' :: result))
        = .mark '(' :: ((parameters.map (Template.rename f)).flatten ++ .mark ')' :: Template.rename f result) := by
      show _ :: List.map _ (parameters.flatten ++ .mark ')' :: result) = _
      rw [List.map_append, List.map_flatten]
      rfl
    rw [hrenamed]
    refine .mk (fun p hp => ?_) (hresult.imp (fun hvoid => ?_) fun hfield => ?_)
    · obtain ⟨q, hq, rfl⟩ := List.mem_map.mp hp
      exact (hparameters q hq).rename fun c hc => h c (mem_names_method.mpr (.inl ⟨q, hq, hc⟩))
    · rw [hvoid]
      rfl
    · exact hfield.rename fun c hc => h c (mem_names_method.mpr (.inr hc))

theorem Describes.rename {kind : MemberKind} (ht : t.Describes kind) (h : ∀ c ∈ t.names, SpelledName (f c)) :
    (t.rename f).Describes kind := by
  cases kind with
  | field => exact IsField.rename ht h
  | method | interfaceMethod => exact IsMethod.rename ht h

end Template

/-! ## Types and their templates -/

namespace ScalarType

/-- The template of a scalar. -/
def template : ScalarType → Template
  | .primitive letter => [.mark letter]
  | .object name => [.mark 'L', .className name, .mark ';']

theorem flatMap_template (f : String → String) (t : ScalarType) :
    t.template.flatMap (·.fill f) = (t.rename f).print := by
  cases t with
  | primitive letter => rfl
  | object name => simp [template, DescriptorPart.fill, rename, print]

end ScalarType

namespace FieldType

/-- The template of a field type. -/
def template (t : FieldType) : Template :=
  List.replicate t.dimensions (.mark '[') ++ t.scalar.template

theorem flatMap_template (f : String → String) (t : FieldType) :
    t.template.flatMap (·.fill f) = (t.rename f).print := by
  rw [template, List.flatMap_append, ScalarType.flatMap_template, print]
  congr 1
  rw [List.flatMap_replicate]
  exact List.flatten_replicate_singleton

theorem fill_template (f : String → String) (t : FieldType) : t.template.fill f = (t.rename f).toString :=
  congrArg String.ofList (flatMap_template f t)

theorem text_template (t : FieldType) : t.template.text = t.toString := by
  have hsame : t.rename id = t := rename_of_fixed fun _ _ => rfl
  rw [Template.text, fill_template, hsame]

theorem isField_template {t : FieldType} (ht : t.Spelled) : t.template.IsField := by
  obtain ⟨dimensions, scalar⟩ := t
  induction dimensions with
  | zero =>
    cases scalar with
    | primitive letter => exact .primitive ht
    | object name => exact .object ht
  | succ n ih => exact .array (ih ht)

theorem exists_of_isField {u : Template} (hu : u.IsField) : ∃ t : FieldType, t.Spelled ∧ t.template = u := by
  induction hu with
  | primitive hletter => exact ⟨⟨0, .primitive _⟩, hletter, rfl⟩
  | object hname => exact ⟨⟨0, .object _⟩, hname, rfl⟩
  | array _ ih =>
    obtain ⟨t, ht, rfl⟩ := ih
    exact ⟨⟨t.dimensions + 1, t.scalar⟩, ht, rfl⟩

end FieldType

namespace MethodType

/-- The template of a result. -/
def resultTemplate : Option FieldType → Template
  | none => [.mark 'V']
  | some r => r.template

/-- The template of a method type. -/
def template (t : MethodType) : Template :=
  .mark '(' :: ((t.parameters.map FieldType.template).flatten ++ .mark ')' :: resultTemplate t.result?)

theorem fill_template (f : String → String) (t : MethodType) : t.template.fill f = (t.rename f).toString := by
  have hresult : (resultTemplate t.result?).flatMap (·.fill f) = printResult (t.rename f).result? := by
    rw [rename]
    cases t.result? with
    | none => rfl
    | some r => exact FieldType.flatMap_template f r
  have hparameters : (t.parameters.map FieldType.template).flatten.flatMap (·.fill f)
      = (t.rename f).parameters.flatMap FieldType.print := by
    rw [rename, List.flatMap_map, ← List.flatMap_def, List.flatMap_assoc]
    simp only [FieldType.flatMap_template]
  refine congrArg String.ofList ?_
  rw [print_eq, template, List.flatMap_cons, List.flatMap_append, List.flatMap_cons, hparameters, hresult]
  rfl

theorem text_template (t : MethodType) : t.template.text = t.toString := by
  have hsame : t.rename id = t := rename_of_fixed fun _ _ => rfl
  rw [Template.text, fill_template, hsame]

theorem isMethod_template {t : MethodType} (ht : t.Spelled) : t.template.IsMethod := by
  refine .mk (fun p hp => ?_) ?_
  · obtain ⟨q, hq, rfl⟩ := List.mem_map.mp hp
    exact FieldType.isField_template (ht.parameters q hq)
  · cases hresult : t.result? with
    | none => exact .inl rfl
    | some r => exact .inr (FieldType.isField_template (ht.result r hresult))

theorem exists_parameters {us : List Template} (hus : ∀ u ∈ us, u.IsField) :
    ∃ ts : List FieldType, (∀ t ∈ ts, t.Spelled) ∧ ts.map FieldType.template = us := by
  induction us with
  | nil => exact ⟨[], by simp, rfl⟩
  | cons u us ih =>
    obtain ⟨t, ht, rfl⟩ := FieldType.exists_of_isField (hus u List.mem_cons_self)
    obtain ⟨ts, hts, rfl⟩ := ih fun v hv => hus v (List.mem_cons_of_mem _ hv)
    exact ⟨t :: ts, by simpa using ⟨ht, hts⟩, rfl⟩

theorem exists_of_isMethod {u : Template} (hu : u.IsMethod) : ∃ t : MethodType, t.Spelled ∧ t.template = u := by
  cases hu with
  | @mk parameters result hparameters hresult =>
    obtain ⟨ps, hps, rfl⟩ := exists_parameters hparameters
    rcases hresult with rfl | hfield
    · exact ⟨⟨ps, none⟩, ⟨hps, by simp⟩, rfl⟩
    · obtain ⟨r, hr, rfl⟩ := FieldType.exists_of_isField hfield
      exact ⟨⟨ps, some r⟩, ⟨hps, by simpa using hr⟩, rfl⟩

end MethodType

/-! ## Renaming fills a template -/

namespace Descriptor

/-- Renames the classes in a descriptor of one kind of members. -/
def renameMember (kind : MemberKind) : (String → String) → String → Except Error String :=
  match kind with
  | .field => renameField
  | .method | .interfaceMethod => renameMethod

variable {kind : MemberKind} {f g : String → String} {d d' : String}

/-- **Renaming fills the template of a descriptor.** -/
theorem renameMember_text {t : Template} (ht : t.Describes kind) (f : String → String) :
    renameMember kind f t.text = .ok (t.fill f) := by
  cases kind with
  | field =>
    obtain ⟨type, htype, rfl⟩ := FieldType.exists_of_isField ht
    exact renameField_eq_ok.mpr ⟨type, ⟨type.text_template, htype⟩, (type.fill_template f).symm⟩
  | method | interfaceMethod =>
    obtain ⟨type, htype, rfl⟩ := MethodType.exists_of_isMethod ht
    exact renameMethod_eq_ok.mpr ⟨type, ⟨type.text_template, htype⟩, (type.fill_template f).symm⟩

theorem exists_template (h : renameMember kind f d = .ok d') : ∃ t : Template, t.Describes kind ∧ t.text = d := by
  cases kind with
  | field =>
    obtain ⟨type, ⟨rfl, htype⟩, -⟩ := renameField_eq_ok.mp h
    exact ⟨type.template, FieldType.isField_template htype, type.text_template⟩
  | method | interfaceMethod =>
    obtain ⟨type, ⟨rfl, htype⟩, -⟩ := renameMethod_eq_ok.mp h
    exact ⟨type.template, MethodType.isMethod_template htype, type.text_template⟩

/-- The fault of a text that is no descriptor does not depend on the renaming. -/
theorem renameMember_error {e : Error} (h : renameMember kind f d = .error e) (g : String → String) :
    renameMember kind g d = .error e := by
  have hmap {α : Type} {x : Except Error α} {p q : α → String} (hx : x.map p = .error e) :
      x.map q = .error e := by
    cases x with
    | ok a => cases hx
    | error e' => exact hx
  cases kind with
  | field => exact hmap h
  | method | interfaceMethod => exact hmap h

/-- What was renamed to names that can be spelled is renamed again as a descriptor of the same kind. -/
theorem renameMember_fill {t : Template} (ht : t.Describes kind) (h : ∀ c ∈ t.names, SpelledName (f c))
    (g : String → String) : renameMember kind g (t.fill f) = .ok (t.fill (g ∘ f)) := by
  rw [← Template.text_rename, renameMember_text (ht.rename h), Template.fill_rename]

/-- **Renaming descriptors is a functor** on the descriptors of the grammar. -/
theorem renameMember_functor (kind : MemberKind) :
    (∀ f d, (∃ d', renameMember kind f d = .ok d') ↔ ∃ t : Template, t.Describes kind ∧ t.text = d) ∧
    (∀ f g d e, renameMember kind f d = .error e → renameMember kind g d = .error e) ∧
    ∀ t : Template, t.Describes kind →
      (∀ f, renameMember kind f t.text = .ok (t.fill f)) ∧
      renameMember kind id t.text = .ok t.text ∧
      (∀ f g, (∀ c ∈ t.names, SpelledName (f c)) → ∃ d, renameMember kind g (t.fill f) = .ok d ∧
        renameMember kind (g ∘ f) t.text = .ok d) ∧
      ∀ names : ClassNames,
        (∀ c ∈ t.names, SpelledName (names.map c) ∧ names.unmap (names.map c) = c) →
        ∃ d, renameMember kind names.map t.text = .ok d ∧ renameMember kind names.unmap d = .ok t.text := by
  refine ⟨fun f d => ⟨?_, ?_⟩, fun f g d e h => renameMember_error h g, fun t ht => ⟨?_, ?_, ?_, ?_⟩⟩
  · intro h
    obtain ⟨d', h⟩ := h
    exact exists_template h
  · intro h
    obtain ⟨t, ht, rfl⟩ := h
    exact ⟨_, renameMember_text ht f⟩
  · exact renameMember_text ht
  · exact renameMember_text ht id
  · intro f g h
    exact ⟨_, renameMember_fill ht h g, renameMember_text ht (g ∘ f)⟩
  · intro names h
    refine ⟨_, renameMember_text ht names.map, ?_⟩
    rw [renameMember_fill ht fun c hc => (h c hc).1]
    exact congrArg Except.ok (Template.fill_eq_text fun c hc => (h c hc).2)

/-! ## A sample -/

/-- The parts of `(La;[I)La$b;`. -/
def sampleTemplate : Template :=
  [.mark '(', .mark 'L', .className "a", .mark ';', .mark '[', .mark 'I', .mark ')', .mark 'L', .className "a$b",
    .mark ';']

theorem describes_sampleTemplate : sampleTemplate.Describes .method := by
  have hobject (name : String) (hname : SpelledName name) := Template.IsField.object hname
  refine @Template.IsMethod.mk [[.mark 'L', .className "a", .mark ';'], [.mark '[', .mark 'I']]
    [.mark 'L', .className "a$b", .mark ';'] (fun p hp => ?_) (.inr (hobject "a$b" (by decide)))
  rcases List.mem_cons.mp hp with rfl | hp
  · exact hobject "a" (by decide)
  · obtain rfl := List.mem_singleton.mp hp
    exact .array (.primitive (by decide))

/-- A class with a nested one that has no name of its own. -/
def sampleNames : ClassNames := ClassNames.empty.insert "a" "x/Foo"

/-- The nested class goes along with its outer class and back, and names with characters of the syntax in them
are renamed twice as they are renamed once. -/
theorem renameMember_functor_sample :
    (∀ c ∈ sampleTemplate.names,
      SpelledName (sampleNames.map c) ∧ sampleNames.unmap (sampleNames.map c) = c) ∧
    (∃ d, renameMember .method sampleNames.map "(La;[I)La$b;" = .ok d ∧
      renameMember .method sampleNames.unmap d = .ok "(La;[I)La$b;") ∧
    (∀ c ∈ sampleTemplate.names, SpelledName (c ++ "(")) ∧
    ∃ d, renameMember .method (")" ++ ·) "(La(;[I)La$b(;" = .ok d ∧
      renameMember .method ((")" ++ ·) ∘ (· ++ "(")) "(La;[I)La$b;" = .ok d := by
  obtain ⟨-, -, hall⟩ := renameMember_functor .method
  obtain ⟨-, -, htwice, hback⟩ := hall sampleTemplate describes_sampleTemplate
  have hnames : ∀ c ∈ sampleTemplate.names,
      SpelledName (sampleNames.map c) ∧ sampleNames.unmap (sampleNames.map c) = c := by
    decide +kernel
  have hspelled : ∀ c ∈ sampleTemplate.names, SpelledName (c ++ "(") := by decide
  have htext : sampleTemplate.text = "(La;[I)La$b;" := by decide
  have hfill : sampleTemplate.fill (· ++ "(") = "(La(;[I)La$b(;" := by decide
  have hback := hback sampleNames hnames
  have htwice := htwice (· ++ "(") (")" ++ ·) hspelled
  rw [htext] at hback htwice
  rw [hfill] at htwice
  exact ⟨hnames, hback, hspelled, htwice⟩

end Descriptor

end Relabel
