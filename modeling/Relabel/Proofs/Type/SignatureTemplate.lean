import Mathlib.Data.List.Forall2
import Relabel.Proofs.Text.Split
import Relabel.Proofs.Type.Signature

/-!
# Signatures as templates

A signature is characters of its syntax, and the names of type parameters and variables, with class names between
them. Taken apart in this way it is a template. The grammar is said of templates here without a word about how a
signature is read, and what is printed for a class without a word about how one is renamed: a class that is not
nested is printed as its new name, and of a nested class only what its new name has behind the new name of the
class around it.

The trees that the reader works with are the derivations: every tree that is spelled has its template, and every
template of the grammar is that of a tree. Of the context there is one thing to keep: a bound may only be left out
if no reference type begins at what follows, which may be the name of the next type parameter. So the list of type
parameters is derived from its end.
-/

set_option autoImplicit false

namespace Relabel

/-! ## Templates -/

/-- A part of a signature: a character that is copied, the name of a class, or the last segment of the name of a
class nested in the class `outer`. -/
inductive SignaturePart where
  | mark (c : Char)
  | outermost (name : String)
  | nested (outer name : String)
  deriving DecidableEq, Repr

/-- What is printed for a nested class with a new name, given the new name of the class around it: what follows it
and a `$`, or else what follows the last `$`. -/
inductive IsSegment (outer full : String) : String → Prop
  | nested {segment : String} (h : full = outer ++ "$" ++ segment) : IsSegment outer full segment
  | last {before segment : String} (hnot : ∀ rest, full ≠ outer ++ "$" ++ rest)
      (h : full = before ++ "$" ++ segment) (hsegment : '$' ∉ segment.toList) : IsSegment outer full segment
  | whole (h : '$' ∉ full.toList) : IsSegment outer full full

namespace SignaturePart

/-- The spelling of a part. -/
def text : SignaturePart → List Char
  | .mark c => [c]
  | .outermost name => name.toList
  | .nested _ name => name.toList

/-- What is printed for a part when classes get other names. -/
inductive Fills (f : String → String) : SignaturePart → List Char → Prop
  | mark (c : Char) : Fills f (.mark c) [c]
  | outermost (name : String) : Fills f (.outermost name) (f name).toList
  | nested {outer name segment : String} (h : IsSegment (f outer) (f (outer ++ "$" ++ name)) segment) :
      Fills f (.nested outer name) segment.toList

end SignaturePart

/-- A signature taken apart. -/
abbrev SignatureTemplate := List SignaturePart

namespace SignatureTemplate

/-- Characters that are copied. -/
def copied (text : String) : SignatureTemplate := text.toList.map .mark

/-- The spelling of a template. -/
def text (t : SignatureTemplate) : String := String.ofList (t.flatMap SignaturePart.text)

/-- A text is printed for a template, part by part. -/
def Fills (f : String → String) (t : SignatureTemplate) (out : String) : Prop :=
  ∃ pieces, List.Forall₂ (SignaturePart.Fills f) t pieces ∧ String.ofList pieces.flatten = out

/-- What is derived for types: types, reference types, the type arguments of a class with and without their brackets,
and the segments behind the name of a class. -/
inductive Nonterminal where
  | type
  | reference
  | arguments
  | row
  | segments (outer : String)

/-- The grammar of types. -/
inductive Derives : Nonterminal → SignatureTemplate → Prop
  | primitive {letter : Char} (h : letter ∈ primitiveLetters) : Derives .type [.mark letter]
  | type {t : SignatureTemplate} (h : Derives .reference t) : Derives .type t
  | variable {name : String} (h : IsIdentifier [';'] name) :
      Derives .reference (.mark 'T' :: (copied name ++ [.mark ';']))
  | array {t : SignatureTemplate} (h : Derives .type t) : Derives .reference (.mark '[' :: t)
  | classType {name : String} {arguments nested : SignatureTemplate} (h : IsIdentifier ['<', '.', ';'] name)
      (harguments : Derives .arguments arguments) (hnested : Derives (.segments name) nested) :
      Derives .reference (.mark 'L' :: .outermost name :: (arguments ++ (nested ++ [.mark ';'])))
  | noArguments : Derives .arguments []
  | arguments {t : SignatureTemplate} (h : Derives .row t) : Derives .arguments (.mark '<' :: (t ++ [.mark '>']))
  | noArgument : Derives .row []
  | wildcard {t : SignatureTemplate} (h : Derives .row t) : Derives .row (.mark '*' :: t)
  | bounded {sign : Char} {bound t : SignatureTemplate} (hsign : sign ∈ ['+', '-'])
      (hbound : Derives .reference bound) (h : Derives .row t) : Derives .row (.mark sign :: (bound ++ t))
  | exact {type t : SignatureTemplate} (htype : Derives .reference type) (h : Derives .row t) :
      Derives .row (type ++ t)
  | noSegment (outer : String) : Derives (.segments outer) []
  | segment {outer name : String} {arguments nested : SignatureTemplate}
      (h : IsIdentifier ['<', '.', ';'] name) (harguments : Derives .arguments arguments)
      (hnested : Derives (.segments (outer ++ "$" ++ name)) nested) :
      Derives (.segments outer) (.mark '.' :: .nested outer name :: (arguments ++ nested))

/-- Where a list of type parameters goes on: with a name or the end of the list, with the colon of a bound, or with
any of these. -/
inductive ParameterPlace where
  | name
  | bound
  | either

/-- The rest of a list of type parameters, up to the bracket that closes it: names that do not begin with that
bracket, each followed by one or more bounds. A bound is a colon with a reference type behind it, exactly if what
follows the colon begins as one. -/
inductive Parameters : ParameterPlace → SignatureTemplate → Prop
  | close : Parameters .name [.mark '>']
  | name {name : String} {t : SignatureTemplate} (h : IsIdentifier [':'] name) (hopen : name.toList.head? ≠ some '>')
      (hrest : Parameters .bound t) : Parameters .name (copied name ++ t)
  | bound {bound t : SignatureTemplate} (h : Derives .reference bound) (hrest : Parameters .either t) :
      Parameters .bound (.mark ':' :: (bound ++ t))
  | blank {t : SignatureTemplate} (h : ∀ c ∈ t.text.toList.head?, c ∉ ['L', 'T', '[']) (hrest : Parameters .either t) :
      Parameters .bound (.mark ':' :: t)
  | again {t : SignatureTemplate} (h : Parameters .bound t) : Parameters .either t
  | done {t : SignatureTemplate} (h : Parameters .name t) : Parameters .either t

/-- What follows the type parameters. -/
inductive IsBody : SignatureTemplate → Prop
  | method {parameters throws : List SignatureTemplate} {result : SignatureTemplate}
      (hparameters : ∀ p ∈ parameters, Derives .type p) (hresult : result = [.mark 'V'] ∨ Derives .type result)
      (hthrows : ∀ t ∈ throws, Derives .reference t) :
      IsBody (.mark '(' :: (parameters.flatten ++ (.mark ')' :: (result ++ throws.flatMap (.mark '^' :: ·)))))
  | types {ts : List SignatureTemplate} (hne : ts ≠ []) (h : ∀ t ∈ ts, Derives .reference t) : IsBody ts.flatten

/-- The grammar of signatures. -/
inductive IsSignature : SignatureTemplate → Prop
  | plain {body : SignatureTemplate} (h : IsBody body) : IsSignature body
  | generic {parameters body : SignatureTemplate} (hparameters : Parameters .name parameters) (h : IsBody body) :
      IsSignature (.mark '<' :: (parameters ++ body))

end SignatureTemplate

/-! ## The templates of trees -/

open SignatureTemplate (copied)

mutual

/-- The template of a type. -/
def TypeSignature.template : TypeSignature → SignatureTemplate
  | .primitive letter => [.mark letter]
  | .variable name => .mark 'T' :: (copied name ++ [.mark ';'])
  | .classType name arguments nested =>
    .mark 'L' :: .outermost name
      :: (TypeArgument.templateOption arguments ++ (ClassSegment.templateList name nested ++ [.mark ';']))
  | .array dimensions element => List.replicate dimensions (.mark '[') ++ element.template

/-- The template of a type argument. -/
def TypeArgument.template : TypeArgument → SignatureTemplate
  | .wildcard => [.mark '*']
  | .bounded sign bound => .mark sign :: bound.template
  | .exact type => type.template

/-- The template of type arguments one after the other. -/
def TypeArgument.templateList : List TypeArgument → SignatureTemplate
  | [] => []
  | a :: rest => a.template ++ TypeArgument.templateList rest

/-- The template of the type arguments of a class, if it has any. -/
def TypeArgument.templateOption : Option (List TypeArgument) → SignatureTemplate
  | none => []
  | some arguments => .mark '<' :: (TypeArgument.templateList arguments ++ [.mark '>'])

/-- The template of segments nested in the class with the full name `outer`. -/
def ClassSegment.templateList (outer : String) : List ClassSegment → SignatureTemplate
  | [] => []
  | ⟨name, arguments⟩ :: rest =>
    .mark '.' :: .nested outer name
      :: (TypeArgument.templateOption arguments ++ ClassSegment.templateList (outer ++ "$" ++ name) rest)

end

/-- The template of a bound. -/
def TypeParameter.templateBound (bound? : Option TypeSignature) : SignatureTemplate :=
  .mark ':' :: (bound?.map TypeSignature.template).getD []

/-- The template of a type parameter. -/
def TypeParameter.template (p : TypeParameter) : SignatureTemplate :=
  copied p.name ++ p.bounds.flatMap TypeParameter.templateBound

/-- The template of what follows the type parameters. -/
def SignatureBody.template : SignatureBody → SignatureTemplate
  | .method parameters result? throws =>
    .mark '(' :: ((parameters.map TypeSignature.template).flatten
      ++ (.mark ')' :: ((result?.map TypeSignature.template).getD [.mark 'V']
        ++ (throws.map TypeSignature.template).flatMap (.mark '^' :: ·))))
  | .types ts => (ts.map TypeSignature.template).flatten

/-- The template of a signature. -/
def Signature.template (s : Signature) : SignatureTemplate :=
  match s.parameters? with
  | none => s.body.template
  | some ps => .mark '<' :: ((ps.flatMap TypeParameter.template ++ [.mark '>']) ++ s.body.template)

/-! ## What is printed -/

theorem isSegment_iff {f : String → String} {outer full segment : String} :
    IsSegment (f outer) (f full) segment ↔ segmentName f outer full = segment := by
  have hdollar : String.singleton '$' = "$" := rfl
  cases hstrip : Text.stripPrefix? (f outer ++ "$") (f full) with
  | some rest =>
    have hname : segmentName f outer full = rest := by simp only [segmentName, hstrip]
    have hfull := Text.stripPrefix?_eq_some.mp hstrip
    rw [hname]
    constructor
    · rintro (h | ⟨hnot, -⟩ | h)
      · exact Option.some.inj (hstrip.symm.trans (Text.stripPrefix?_eq_some.mpr h))
      · exact absurd hfull (hnot rest)
      · exact absurd (by simp [hfull]) h
    · rintro rfl
      exact .nested hfull
  | none =>
    have hname : segmentName f outer full = Text.afterLast '$' (f full) := by simp only [segmentName, hstrip]
    have hnot (rest : String) : f full ≠ f outer ++ "$" ++ rest := fun h =>
      Option.some_ne_none rest ((Text.stripPrefix?_eq_some.mpr h).symm.trans hstrip)
    rw [hname]
    constructor
    · rintro (h | ⟨-, h, hlast⟩ | h)
      · exact absurd h (hnot _)
      · rw [h, ← hdollar, Text.afterLast_append hlast]
      · exact Text.afterLast_of_notMem h
    · rintro rfl
      by_cases hin : '$' ∈ (f full).toList
      · obtain ⟨before, last, h, hlast⟩ := Text.exists_last hin
        have hafter : Text.afterLast '$' (f full) = last := by rw [h, Text.afterLast_append hlast]
        rw [hafter]
        exact .last hnot h hlast
      · rw [Text.afterLast_of_notMem hin]
        exact .whole hin

namespace SignaturePart

/-- What the program prints for a part. -/
def fill (f : String → String) : SignaturePart → List Char
  | .mark c => [c]
  | .outermost name => (f name).toList
  | .nested outer name => (segmentName f outer (outer ++ "$" ++ name)).toList

theorem fills_iff {f : String → String} {part : SignaturePart} {out : List Char} :
    part.Fills f out ↔ part.fill f = out := by
  constructor
  · rintro (c | name | h)
    · rfl
    · rfl
    · exact congrArg String.toList (isSegment_iff.mp h)
  · rintro rfl
    cases part with
    | mark c => exact .mark c
    | outermost name => exact .outermost name
    | nested outer name => exact .nested (isSegment_iff.mpr rfl)

theorem fill_id (part : SignaturePart) : part.fill id = part.text := by
  cases part with
  | mark c => rfl
  | outermost name => rfl
  | nested outer name => exact congrArg String.toList (segmentName_of_fixed rfl rfl)

end SignaturePart

namespace SignatureTemplate

theorem fills_iff {f : String → String} {t : SignatureTemplate} {out : String} :
    t.Fills f out ↔ String.ofList (t.flatMap (SignaturePart.fill f)) = out := by
  have hpart : SignaturePart.Fills f = fun part out => part.fill f = out :=
    funext₂ fun _ _ => propext SignaturePart.fills_iff
  have hpieces {pieces : List (List Char)} :
      List.Forall₂ (SignaturePart.Fills f) t pieces ↔ t.map (SignaturePart.fill f) = pieces := by
    rw [hpart, ← List.forall₂_map_left_iff, List.forall₂_eq_eq_eq]
  simp only [Fills, hpieces, exists_eq_left', List.flatMap]

theorem flatMap_copied (f : String → String) (text : String) :
    (copied text).flatMap (SignaturePart.fill f) = text.toList := by
  rw [copied, List.flatMap_map]
  exact List.flatMap_singleton' text.toList

theorem flatMap_brackets (f : String → String) (n : Nat) :
    (List.replicate n (.mark '[')).flatMap (SignaturePart.fill f) = List.replicate n '[' := by
  induction n with
  | zero => rfl
  | succ n ih => rw [List.replicate_succ, List.flatMap_cons, ih, List.replicate_succ, SignaturePart.fill,
      List.singleton_append]

theorem text_eq (t : SignatureTemplate) : t.text = String.ofList (t.flatMap (SignaturePart.fill id)) := by
  rw [text, funext SignaturePart.fill_id]

end SignatureTemplate

open SignatureTemplate (flatMap_copied flatMap_brackets)

section

variable {f : String → String}

mutual

theorem TypeSignature.fill_template : (t : TypeSignature) →
    t.template.flatMap (SignaturePart.fill f) = (t.rename f).print
  | .primitive letter => rfl
  | .variable name => by
    rw [TypeSignature.template, List.flatMap_cons, List.flatMap_append, flatMap_copied]
    rfl
  | .classType name arguments nested => by
    rw [TypeSignature.template, List.flatMap_cons, List.flatMap_cons, List.flatMap_append, List.flatMap_append,
      TypeArgument.fill_templateOption arguments, ClassSegment.fill_templateList name nested]
    rfl
  | .array dimensions element => by
    rw [TypeSignature.template, List.flatMap_append, flatMap_brackets, TypeSignature.fill_template element]
    rfl

theorem TypeArgument.fill_template : (a : TypeArgument) →
    a.template.flatMap (SignaturePart.fill f) = (a.rename f).print
  | .wildcard => rfl
  | .bounded sign bound => by
    rw [TypeArgument.template, List.flatMap_cons, TypeSignature.fill_template bound]
    rfl
  | .exact type => TypeSignature.fill_template type

theorem TypeArgument.fill_templateList : (as : List TypeArgument) →
    (TypeArgument.templateList as).flatMap (SignaturePart.fill f)
      = TypeArgument.printList (TypeArgument.renameList f as)
  | [] => rfl
  | a :: rest => by
    rw [TypeArgument.templateList, List.flatMap_append, TypeArgument.fill_template a,
      TypeArgument.fill_templateList rest]
    rfl

theorem TypeArgument.fill_templateOption : (as? : Option (List TypeArgument)) →
    (TypeArgument.templateOption as?).flatMap (SignaturePart.fill f)
      = TypeArgument.printOption (TypeArgument.renameOption f as?)
  | none => rfl
  | some as => by
    rw [TypeArgument.templateOption, List.flatMap_cons, List.flatMap_append, TypeArgument.fill_templateList as]
    rfl

theorem ClassSegment.fill_templateList (outer : String) : (ss : List ClassSegment) →
    (ClassSegment.templateList outer ss).flatMap (SignaturePart.fill f)
      = ClassSegment.printList (ClassSegment.renameList f outer ss)
  | [] => rfl
  | ⟨name, arguments⟩ :: rest => by
    rw [ClassSegment.templateList, List.flatMap_cons, List.flatMap_cons, List.flatMap_append,
      TypeArgument.fill_templateOption arguments, ClassSegment.fill_templateList (outer ++ "$" ++ name) rest,
      ClassSegment.renameList, ClassSegment.printList, ClassSegment.print]
    simp [SignaturePart.fill]

end

theorem TypeParameter.fill_templateBound (bound? : Option TypeSignature) :
    (TypeParameter.templateBound bound?).flatMap (SignaturePart.fill f)
      = TypeParameter.printBound (bound?.map (·.rename f)) := by
  cases bound? with
  | none => rfl
  | some t => exact congrArg _ t.fill_template

theorem TypeParameter.fill_template (p : TypeParameter) :
    p.template.flatMap (SignaturePart.fill f) = (p.rename f).print := by
  rw [TypeParameter.template, List.flatMap_append, flatMap_copied, List.flatMap_assoc]
  simp only [TypeParameter.fill_templateBound, TypeParameter.print, TypeParameter.rename, List.flatMap_map]

theorem SignatureBody.fill_template (b : SignatureBody) :
    b.template.flatMap (SignaturePart.fill f) = (b.rename f).print := by
  have htypes (ts : List TypeSignature) : (ts.map TypeSignature.template).flatten.flatMap (SignaturePart.fill f)
      = (ts.map (·.rename f)).flatMap TypeSignature.print := by
    rw [← List.flatMap_def, List.flatMap_assoc, List.flatMap_map]
    simp only [TypeSignature.fill_template]
  have hmarked (ts : List TypeSignature) :
      ((ts.map TypeSignature.template).flatMap (.mark '^' :: ·)).flatMap (SignaturePart.fill f)
        = (ts.map (·.rename f)).flatMap fun t => '^' :: t.print := by
    rw [List.flatMap_assoc, List.flatMap_map, List.flatMap_map]
    simp only [List.flatMap_cons, TypeSignature.fill_template, SignaturePart.fill, List.singleton_append]
  have hresult (t? : Option TypeSignature) :
      ((t?.map TypeSignature.template).getD [.mark 'V']).flatMap (SignaturePart.fill f)
        = SignatureBody.printResult (t?.map (·.rename f)) := by
    cases t? with
    | none => rfl
    | some t => exact t.fill_template
  cases b with
  | types ts => exact htypes ts
  | method parameters result? throws =>
    rw [SignatureBody.template, List.flatMap_cons, List.flatMap_append, List.flatMap_cons, List.flatMap_append,
      htypes, hresult, hmarked]
    rfl

/-- What the program prints for a signature is what is printed for its template. -/
theorem Signature.fill_template (s : Signature) :
    s.template.flatMap (SignaturePart.fill f) = (s.rename f).print := by
  obtain ⟨parameters?, body⟩ := s
  cases parameters? with
  | none => exact body.fill_template
  | some ps =>
    rw [Signature.template, List.flatMap_cons, List.flatMap_append, List.flatMap_append, body.fill_template,
      List.flatMap_assoc]
    simp only [TypeParameter.fill_template, Signature.print, Signature.rename, Option.map_some, List.flatMap_map,
      SignaturePart.fill, List.flatMap_cons, List.flatMap_nil, List.cons_append, List.append_nil, List.nil_append]

theorem Signature.text_template (s : Signature) : s.template.text = s.toString := by
  have hsame : s.rename id = s := Signature.rename_of_fixed fun _ _ => rfl
  rw [SignatureTemplate.text_eq, s.fill_template, hsame, Signature.toString]

end

/-! ## Trees that are spelled have templates of the grammar -/

namespace SignatureTemplate

theorem derives_brackets {n : Nat} (hn : 0 < n) {t : SignatureTemplate} (h : Derives .type t) :
    Derives .reference (List.replicate n (.mark '[') ++ t) := by
  induction n, hn using Nat.le_induction with
  | base => exact .array h
  | succ n _ ih => exact .array (.type ih)

end SignatureTemplate

open SignatureTemplate (Derives Parameters IsBody IsSignature derives_brackets)

mutual

theorem TypeSignature.derives : (t : TypeSignature) → t.Spelled →
    Derives .type t.template ∧ (t.IsReference → Derives .reference t.template)
  | .primitive _, h => ⟨.primitive h, nofun⟩
  | .variable _, h => ⟨.type (.variable h), fun _ => .variable h⟩
  | .classType name arguments nested, ⟨hname, harguments, hnested⟩ =>
    have h := Derives.classType hname (TypeArgument.derives_option arguments harguments)
      (ClassSegment.derives_list name nested hnested)
    ⟨.type h, fun _ => h⟩
  | .array _ element, ⟨hdimensions, _, helement⟩ =>
    have h := derives_brackets hdimensions (TypeSignature.derives element helement).1
    ⟨.type h, fun _ => h⟩

/-- A type argument in front of others. -/
theorem TypeArgument.derives : (a : TypeArgument) → a.Spelled → (t : SignatureTemplate) → Derives .row t →
    Derives .row (a.template ++ t)
  | .wildcard, _, _, ht => .wildcard ht
  | .bounded _ bound, ⟨hsign, hreference, hbound⟩, _, ht =>
    .bounded hsign ((TypeSignature.derives bound hbound).2 hreference) ht
  | .exact type, ⟨hreference, htype⟩, _, ht => .exact ((TypeSignature.derives type htype).2 hreference) ht

theorem TypeArgument.derives_list : (as : List TypeArgument) → TypeArgument.SpelledList as →
    Derives .row (TypeArgument.templateList as)
  | [], _ => .noArgument
  | a :: rest, ⟨ha, hrest⟩ => TypeArgument.derives a ha _ (TypeArgument.derives_list rest hrest)

theorem TypeArgument.derives_option : (as? : Option (List TypeArgument)) → TypeArgument.SpelledOption as? →
    Derives .arguments (TypeArgument.templateOption as?)
  | none, _ => .noArguments
  | some as, h => .arguments (TypeArgument.derives_list as h)

theorem ClassSegment.derives_list (outer : String) : (ss : List ClassSegment) → ClassSegment.SpelledList ss →
    Derives (.segments outer) (ClassSegment.templateList outer ss)
  | [], _ => .noSegment outer
  | ⟨name, arguments⟩ :: rest, ⟨hname, harguments, hrest⟩ =>
    .segment hname (TypeArgument.derives_option arguments harguments)
      (ClassSegment.derives_list (outer ++ "$" ++ name) rest hrest)

end

theorem TypeSignature.SpelledReference.derives {t : TypeSignature} (h : t.SpelledReference) :
    Derives .reference t.template :=
  (TypeSignature.derives t h.2).2 h.1

namespace SignatureTemplate

theorem head?_text_mark (c : Char) (t : SignatureTemplate) : (text (.mark c :: t)).toList.head? = some c := by
  simp [text, SignaturePart.text]

/-- A list of type parameters begins as the name of the first one. -/
theorem head?_text_row {p : TypeParameter} (hp : p.name ≠ "") (t : SignatureTemplate) :
    (text (p.template ++ t)).toList.head? = p.name.toList.head? := by
  obtain ⟨c, cs, hname⟩ := List.exists_cons_of_ne_nil fun hnil => hp (String.toList_eq_nil_iff.mp hnil)
  simp [text, TypeParameter.template, copied, hname, SignaturePart.text]

/-- Bounds, in front of what is left of the list. -/
theorem parameters_of_bounds {b? : Option TypeSignature} {bs : List (Option TypeSignature)} {t : SignatureTemplate}
    (hbs : ∀ τ, some τ ∈ b? :: bs → τ.SpelledReference)
    (hlast : (b? :: bs).getLast? = some none → ∀ c ∈ t.text.toList.head?, c ∉ referenceLetters)
    (ht : Parameters .name t) : Parameters .bound ((b? :: bs).flatMap TypeParameter.templateBound ++ t) := by
  induction bs generalizing b? with
  | nil =>
    cases b? with
    | none => exact .blank (hlast rfl) (.done ht)
    | some τ =>
      have hbound := Parameters.bound (hbs τ List.mem_cons_self).derives (.done ht)
      simpa [TypeParameter.templateBound] using hbound
  | cons b'? bs ih =>
    have hrest := ih (fun τ hτ => hbs τ (List.mem_cons_of_mem _ hτ)) (by simpa using hlast)
    rw [List.flatMap_cons, List.append_assoc]
    cases b? with
    | none =>
      refine .blank (fun c hc => ?_) (.again hrest)
      obtain rfl := Option.some.inj ((head?_text_mark ':' _).symm.trans hc)
      decide
    | some τ => exact .bound (hbs τ List.mem_cons_self).derives (.again hrest)

theorem parameters_of_row {ps : List TypeParameter} (h : TypeParameter.SpelledRow ps) (hclose : ∀ p ∈ ps, p.Closes) :
    Parameters .name (ps.flatMap TypeParameter.template ++ [.mark '>']) := by
  induction ps with
  | nil => exact .close
  | cons p ps ih =>
    obtain ⟨hp, hlast, hps⟩ := h
    obtain ⟨hopen, hclose⟩ := List.forall_mem_cons.mp hclose
    obtain ⟨b?, bs, hbounds⟩ := List.exists_cons_of_ne_nil hp.bounds
    rw [List.flatMap_cons, List.append_assoc, TypeParameter.template, List.append_assoc, hbounds]
    refine .name hp.name hopen (parameters_of_bounds (hbounds ▸ hp.types) (fun hnone c hc => ?_) (ih hps hclose))
    -- Behind the last bound stands the name of the next parameter or the bracket.
    cases ps with
    | nil =>
      obtain rfl := Option.some.inj ((head?_text_mark '>' []).symm.trans hc)
      decide
    | cons q qs =>
      rw [List.flatMap_cons, List.append_assoc, head?_text_row hps.1.name.1] at hc
      exact hlast (hbounds ▸ hnone) q rfl c hc

theorem isBody_template {b : SignatureBody} (h : b.Spelled) : IsBody b.template := by
  cases b with
  | types ts =>
    obtain ⟨hne, hts⟩ := h
    exact .types (by simpa using hne) (List.forall_mem_map.mpr fun t ht => (hts t ht).derives)
  | method parameters result? throws =>
    obtain ⟨hparameters, hresult, hthrows⟩ := h
    refine .method (List.forall_mem_map.mpr fun t ht => (t.derives (hparameters t ht)).1) ?_
      (List.forall_mem_map.mpr fun t ht => (hthrows t ht).derives)
    cases result? with
    | none => exact .inl rfl
    | some t => exact .inr (t.derives (hresult t rfl)).1

theorem isSignature_template {s : Signature} (h : s.Spelled) (hclose : s.Closes) : IsSignature s.template := by
  obtain ⟨parameters?, body⟩ := s
  cases parameters? with
  | none => exact .plain (isBody_template h.body)
  | some ps => exact .generic (parameters_of_row (h.parameters ps rfl) (hclose ps rfl)) (isBody_template h.body)

end SignatureTemplate

/-! ## Templates of the grammar are those of trees that are spelled -/

namespace SignatureTemplate

/-- There is a tree for what was derived. -/
def Nonterminal.Tree : Nonterminal → SignatureTemplate → Prop
  | .type, t => ∃ τ : TypeSignature, τ.Spelled ∧ τ.template = t
  | .reference, t => ∃ τ : TypeSignature, τ.SpelledReference ∧ τ.template = t
  | .arguments, t => ∃ as?, TypeArgument.SpelledOption as? ∧ TypeArgument.templateOption as? = t
  | .row, t => ∃ as, TypeArgument.SpelledList as ∧ TypeArgument.templateList as = t
  | .segments outer, t => ∃ ss, ClassSegment.SpelledList ss ∧ ClassSegment.templateList outer ss = t

/-- One more bracket. -/
theorem tree_array {t : SignatureTemplate} (h : Nonterminal.type.Tree t) :
    Nonterminal.reference.Tree (.mark '[' :: t) := by
  obtain ⟨τ, hτ, rfl⟩ := h
  cases τ with
  | array dimensions element =>
    exact ⟨.array (dimensions + 1) element, ⟨trivial, Nat.succ_pos _, hτ.2⟩, rfl⟩
  | primitive letter => exact ⟨.array 1 (.primitive letter), ⟨trivial, Nat.one_pos, trivial, hτ⟩, rfl⟩
  | «variable» name => exact ⟨.array 1 (.variable name), ⟨trivial, Nat.one_pos, trivial, hτ⟩, rfl⟩
  | classType name arguments nested =>
    exact ⟨.array 1 (.classType name arguments nested), ⟨trivial, Nat.one_pos, trivial, hτ⟩, rfl⟩

theorem Derives.tree {nonterminal : Nonterminal} {t : SignatureTemplate} (h : Derives nonterminal t) :
    nonterminal.Tree t := by
  induction h with
  | primitive hletter => exact ⟨.primitive _, hletter, rfl⟩
  | type _ ih =>
    obtain ⟨τ, hτ, rfl⟩ := ih
    exact ⟨τ, hτ.2, rfl⟩
  | «variable» hname => exact ⟨.variable _, ⟨trivial, hname⟩, rfl⟩
  | array _ ih => exact tree_array ih
  | classType hname _ _ iharguments ihnested =>
    obtain ⟨as?, has, rfl⟩ := iharguments
    obtain ⟨ss, hss, rfl⟩ := ihnested
    exact ⟨.classType _ as? ss, ⟨trivial, hname, has, hss⟩, rfl⟩
  | noArguments => exact ⟨none, trivial, rfl⟩
  | arguments _ ih =>
    obtain ⟨as, has, rfl⟩ := ih
    exact ⟨some as, has, rfl⟩
  | noArgument => exact ⟨[], trivial, rfl⟩
  | wildcard _ ih =>
    obtain ⟨as, has, rfl⟩ := ih
    exact ⟨.wildcard :: as, ⟨trivial, has⟩, rfl⟩
  | bounded hsign _ _ ihbound ih =>
    obtain ⟨τ, hτ, rfl⟩ := ihbound
    obtain ⟨as, has, rfl⟩ := ih
    exact ⟨.bounded _ τ :: as, ⟨⟨hsign, hτ⟩, has⟩, rfl⟩
  | exact _ _ ihtype ih =>
    obtain ⟨τ, hτ, rfl⟩ := ihtype
    obtain ⟨as, has, rfl⟩ := ih
    exact ⟨.exact τ :: as, ⟨hτ, has⟩, rfl⟩
  | noSegment _ => exact ⟨[], trivial, rfl⟩
  | segment hname _ _ iharguments ihnested =>
    obtain ⟨as?, has, rfl⟩ := iharguments
    obtain ⟨ss, hss, rfl⟩ := ihnested
    exact ⟨⟨_, as?⟩ :: ss, ⟨hname, has, hss⟩, rfl⟩

/-- There are type parameters for what is left of a list. -/
def RowTree (t : SignatureTemplate) : Prop :=
  ∃ ps, TypeParameter.SpelledRow ps ∧ (∀ p ∈ ps, p.Closes) ∧ ps.flatMap TypeParameter.template ++ [.mark '>'] = t

/-- There are bounds, and type parameters behind them. -/
def BoundsTree (t : SignatureTemplate) : Prop :=
  ∃ b? bs rest, (∀ τ, some τ ∈ b? :: bs → τ.SpelledReference) ∧
    ((b? :: bs).getLast? = some none → ∀ c ∈ rest.text.toList.head?, c ∉ referenceLetters) ∧
    RowTree rest ∧ (b? :: bs).flatMap TypeParameter.templateBound ++ rest = t

/-- There is what the place asks for. -/
def ParameterPlace.Tree : ParameterPlace → SignatureTemplate → Prop
  | .name, t => RowTree t
  | .bound, t => BoundsTree t
  | .either, t => BoundsTree t ∨ RowTree t

theorem rowTree_name {name : String} {t : SignatureTemplate} (hname : IsIdentifier [':'] name)
    (hopen : name.toList.head? ≠ some '>') (h : BoundsTree t) : RowTree (copied name ++ t) := by
  obtain ⟨b?, bs, rest, hbounds, hlast, ⟨ps, hps, hclose, rfl⟩, rfl⟩ := h
  refine ⟨⟨name, b? :: bs⟩ :: ps, ⟨⟨hname, List.cons_ne_nil _ _, hbounds⟩, fun hnone q hq c hc => ?_, hps⟩,
    List.forall_mem_cons.mpr ⟨hopen, hclose⟩, ?_⟩
  · obtain ⟨qs, rfl⟩ := List.head?_eq_some_iff.mp hq
    refine hlast hnone c ?_
    rwa [List.flatMap_cons, List.append_assoc, head?_text_row hps.1.name.1]
  · rw [List.flatMap_cons, TypeParameter.template, List.append_assoc, List.append_assoc]

theorem boundsTree_cons {b? : Option TypeSignature} {t : SignatureTemplate}
    (hbound : ∀ τ, some τ = b? → τ.SpelledReference)
    (hnext : b? = none → ∀ c ∈ t.text.toList.head?, c ∉ referenceLetters) (h : BoundsTree t ∨ RowTree t) :
    BoundsTree (TypeParameter.templateBound b? ++ t) := by
  obtain ⟨b'?, bs, rest, hbounds, hlast, hrest, rfl⟩ | hrow := h
  · refine ⟨b?, b'? :: bs, rest, fun τ hτ => ?_, by simpa using hlast, hrest, ?_⟩
    · exact (List.mem_cons.mp hτ).elim (hbound τ) (hbounds τ)
    · rw [List.flatMap_cons, List.append_assoc]
  · refine ⟨b?, [], t, fun τ hτ => hbound τ (List.mem_singleton.mp hτ), fun hnone => hnext ?_, hrow, ?_⟩
    · exact Option.some.inj hnone
    · rw [List.flatMap_cons, List.flatMap_nil, List.append_nil]

theorem Parameters.tree {place : ParameterPlace} {t : SignatureTemplate} (h : Parameters place t) :
    place.Tree t := by
  induction h with
  | close => exact ⟨[], trivial, List.forall_mem_nil _, rfl⟩
  | name hname hopen _ ih => exact rowTree_name hname hopen ih
  | bound hbound _ ih =>
    obtain ⟨τ, hτ, rfl⟩ := hbound.tree
    exact boundsTree_cons (fun τ' hsame => Option.some.inj hsame ▸ hτ) nofun ih
  | blank hnext _ ih => exact @boundsTree_cons none _ nofun (fun _ => hnext) ih
  | again _ ih => exact .inl ih
  | done _ ih => exact .inr ih

/-- Trees for the items of a list. -/
theorem exists_trees {P : TypeSignature → Prop} {ts : List SignatureTemplate}
    (h : ∀ t ∈ ts, ∃ τ : TypeSignature, P τ ∧ τ.template = t) :
    ∃ τs : List TypeSignature, (∀ τ ∈ τs, P τ) ∧ τs.map TypeSignature.template = ts := by
  induction ts with
  | nil => exact ⟨[], List.forall_mem_nil _, rfl⟩
  | cons t ts ih =>
    obtain ⟨⟨τ, hτ, rfl⟩, hts⟩ := List.forall_mem_cons.mp h
    obtain ⟨τs, hτs, rfl⟩ := ih hts
    exact ⟨τ :: τs, List.forall_mem_cons.mpr ⟨hτ, hτs⟩, rfl⟩

theorem IsBody.tree {t : SignatureTemplate} (h : IsBody t) : ∃ b : SignatureBody, b.Spelled ∧ b.template = t := by
  cases h with
  | types hne hts =>
    obtain ⟨τs, hτs, rfl⟩ := exists_trees fun t ht => (hts t ht).tree
    exact ⟨.types τs, ⟨by simpa using hne, hτs⟩, rfl⟩
  | method hparameters hresult hthrows =>
    obtain ⟨τs, hτs, rfl⟩ := exists_trees fun t ht => (hparameters t ht).tree
    obtain ⟨es, hes, rfl⟩ := exists_trees fun t ht => (hthrows t ht).tree
    obtain rfl | hresult := hresult
    · exact ⟨.method τs none es, ⟨hτs, nofun, hes⟩, rfl⟩
    · obtain ⟨τ, hτ, rfl⟩ := hresult.tree
      exact ⟨.method τs (some τ) es, ⟨hτs, fun τ' hsame => Option.some.inj hsame ▸ hτ, hes⟩, rfl⟩

/-- The grammar of templates is the grammar of trees. -/
theorem isSignature_iff {t : SignatureTemplate} :
    t.IsSignature ↔ ∃ s : Signature, s.Spelled ∧ s.Closes ∧ s.template = t := by
  constructor
  · rintro (hbody | ⟨hparameters, hbody⟩)
    · obtain ⟨b, hb, rfl⟩ := hbody.tree
      exact ⟨⟨none, b⟩, ⟨nofun, hb⟩, nofun, rfl⟩
    · obtain ⟨b, hb, rfl⟩ := hbody.tree
      obtain ⟨ps, hps, hclose, rfl⟩ := hparameters.tree
      have hsome {P : List TypeParameter → Prop} (hP : P ps) (ps' : List TypeParameter) (h : ps' ∈ some ps) : P ps' :=
        Option.some.inj h ▸ hP
      exact ⟨⟨some ps, b⟩, ⟨hsome hps, hb⟩, hsome hclose, rfl⟩
  · rintro ⟨s, hs, hclose, rfl⟩
    exact isSignature_template hs hclose

end SignatureTemplate

/-! ## Renaming a text -/

namespace Signature

/-- What comes out is printed for the template of the tree that was read. -/
theorem renameText_eq_ok {f : String → String} {text renamed : String} : renameText f text = .ok renamed ↔
    ∃ s : Signature, (s.Spells text ∧ s.Closes) ∧ s.template.Fills f renamed := by
  simp only [renameText, Effect.except_map_eq_ok, ofString_eq_ok, SignatureTemplate.fills_iff, fill_template, toString]

theorem eq_of_spells {s s' : Signature} {text : String} (h : s.Spells text ∧ s.Closes)
    (h' : s'.Spells text ∧ s'.Closes) : s' = s :=
  Except.ok.inj ((ofString_eq_ok.mpr h').symm.trans (ofString_eq_ok.mpr h))

/-- A text of the grammar has one template, that of the one tree that it spells. -/
theorem derives_iff {t : SignatureTemplate} {text : String} : t.IsSignature ∧ t.text = text ↔
    ∃ s : Signature, (s.Spells text ∧ s.Closes) ∧ s.template = t := by
  rw [SignatureTemplate.isSignature_iff]
  constructor
  · rintro ⟨⟨s, hs, hclose, rfl⟩, rfl⟩
    exact ⟨s, ⟨⟨hs, s.text_template.symm⟩, hclose⟩, rfl⟩
  · rintro ⟨s, ⟨⟨hs, rfl⟩, hclose⟩, rfl⟩
    exact ⟨⟨s, hs, hclose, rfl⟩, s.text_template⟩

/-- **Renaming a signature takes it apart by the grammar and fills in other names.** It succeeds for the texts of
the grammar, whatever the renaming is. Each of them has one template and spells one tree, and what comes out is the
template with the new name of every class, or its last segment, where the class was named. -/
theorem renameText_eq_ok_iff_spells (f : String → String) (text : String) :
    (∀ renamed, renameText f text = .ok renamed ↔
      ∃ t : SignatureTemplate, t.IsSignature ∧ t.text = text ∧ t.Fills f renamed) ∧
    ((∃ renamed, renameText f text = .ok renamed) ↔ ∃! t : SignatureTemplate, t.IsSignature ∧ t.text = text) ∧
    ((∃ renamed, renameText f text = .ok renamed) ↔ ∃! s : Signature, s.Spells text ∧ s.Closes) ∧
    (renameText id text = .ok text ↔ ∃ s : Signature, s.Spells text ∧ s.Closes) := by
  have hread : (∃ renamed, renameText f text = .ok renamed) ↔ ∃ s : Signature, s.Spells text ∧ s.Closes := by
    constructor
    · rintro ⟨renamed, h⟩
      obtain ⟨s, hs, -⟩ := renameText_eq_ok.mp h
      exact ⟨s, hs⟩
    · rintro ⟨s, hs⟩
      exact ⟨_, renameText_eq_ok.mpr ⟨s, hs, SignatureTemplate.fills_iff.mpr rfl⟩⟩
  refine ⟨fun renamed => ?_, hread.trans ⟨?_, ?_⟩, hread.trans ⟨?_, ExistsUnique.exists⟩, ?_⟩
  · rw [renameText_eq_ok]
    constructor
    · rintro ⟨s, hs, hfills⟩
      obtain ⟨hderives, htext⟩ := derives_iff.mpr ⟨s, hs, rfl⟩
      exact ⟨s.template, hderives, htext, hfills⟩
    · rintro ⟨t, hderives, htext, hfills⟩
      obtain ⟨s, hs, rfl⟩ := derives_iff.mp ⟨hderives, htext⟩
      exact ⟨s, hs, hfills⟩
  · rintro ⟨s, hs⟩
    refine ⟨s.template, derives_iff.mpr ⟨s, hs, rfl⟩, fun t ht => ?_⟩
    obtain ⟨s', hs', rfl⟩ := derives_iff.mp ht
    rw [eq_of_spells hs hs']
  · rintro ⟨t, ht, -⟩
    obtain ⟨s, hs, -⟩ := derives_iff.mp ht
    exact ⟨s, hs⟩
  · rintro ⟨s, hs⟩
    exact ⟨s, hs, fun s' hs' => eq_of_spells hs hs'⟩
  · rw [renameText_eq_ok]
    refine exists_congr fun s => and_iff_left_of_imp fun hs => ?_
    rw [SignatureTemplate.fills_iff, ← SignatureTemplate.text_eq, text_template, hs.1.2]

/-- A name that begins with the closing bracket is not read: the bracket in its place closes the list of type
parameters, although the text derives from the grammar. -/
theorem renameText_of_name_with_bracket : (∃ s : Signature, s.Spells "<>a:>Lc;") ∧
    ∀ f renamed, renameText f "<>a:>Lc;" ≠ .ok renamed := by
  constructor
  · refine ⟨⟨some [⟨">a", [none]⟩], .types [.classType "c" none []]⟩, ⟨?_, ?_⟩, by decide +kernel⟩
    · rintro _ ⟨rfl⟩
      exact ⟨⟨by decide, nofun, by simp⟩, fun _ => nofun, trivial⟩
    · refine ⟨nofun, ?_⟩
      rintro t (_ | ⟨_, ⟨⟩⟩)
      exact ⟨trivial, by decide, trivial, trivial⟩
  · intro f renamed h
    obtain ⟨s, hs, -⟩ := Effect.except_map_eq_ok.mp h
    have hrefused : (ofString "<>a:>Lc;").toOption.isNone = true := by decide +kernel
    rw [hs] at hrefused
    cases hrefused

/-- The inner class of a generic class is printed as the end of its new name. -/
example : renameText (fun name => if name = "a" then "x/Foo" else if name = "a$b" then "x/Foo$Bar" else name)
    "La<TT;>.b;" = .ok "Lx/Foo<TT;>.Bar;" := by decide +kernel

end Signature

end Relabel
