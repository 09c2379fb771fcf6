import Relabel.Proofs.Naming.ClassNames
import Relabel.Proofs.Type.Signature

/-!
# Nested classes in signatures and in descriptors

A signature spells a nested class segment by segment, a descriptor by its full name. Renaming goes by the full name
in both, so the two agree where the name of each nested class is that of its outer class with a segment behind it:
the segments are then printed one by one, and together they are the new name.

`types` lists what is written anywhere in a signature, at every depth of type arguments. Renaming a signature renames
each of them in its place.
-/

set_option autoImplicit false

namespace Relabel

/-! ## The types in a signature -/

mutual

/-- A type and the types inside it. -/
def TypeSignature.types : TypeSignature → List TypeSignature
  | .primitive letter => [.primitive letter]
  | .variable name => [.variable name]
  | .classType name arguments nested =>
    .classType name arguments nested :: (TypeArgument.optionTypes arguments ++ ClassSegment.listTypes nested)
  | .array dimensions element => .array dimensions element :: element.types

/-- The types inside a type argument. -/
def TypeArgument.types : TypeArgument → List TypeSignature
  | .wildcard => []
  | .bounded _ bound => bound.types
  | .exact type => type.types

/-- The types inside type arguments. -/
def TypeArgument.listTypes : List TypeArgument → List TypeSignature
  | [] => []
  | a :: rest => a.types ++ TypeArgument.listTypes rest

/-- The types inside optional type arguments. -/
def TypeArgument.optionTypes : Option (List TypeArgument) → List TypeSignature
  | none => []
  | some arguments => TypeArgument.listTypes arguments

/-- The types inside nested segments. -/
def ClassSegment.listTypes : List ClassSegment → List TypeSignature
  | [] => []
  | ⟨_, arguments⟩ :: rest => TypeArgument.optionTypes arguments ++ ClassSegment.listTypes rest

end

/-- The types of a type parameter. -/
def TypeParameter.parts (p : TypeParameter) : List TypeSignature := p.bounds.filterMap id

/-- The types that make up a body. -/
def SignatureBody.parts : SignatureBody → List TypeSignature
  | .method parameters result? throws => parameters ++ result?.toList ++ throws
  | .types ts => ts

namespace Signature

/-- The types that make up a signature. -/
def parts (s : Signature) : List TypeSignature :=
  (s.parameters?.getD []).flatMap TypeParameter.parts ++ s.body.parts

/-- The types of a signature, those inside others included. -/
def types (s : Signature) : List TypeSignature := s.parts.flatMap TypeSignature.types

end Signature

section

variable {f : String → String}

mutual

theorem TypeSignature.types_rename : (t : TypeSignature) → (t.rename f).types = t.types.map (TypeSignature.rename f)
  | .primitive _ => rfl
  | .variable _ => rfl
  | .classType name arguments nested => by
    simp only [TypeSignature.rename, TypeSignature.types, List.map_cons, List.map_append,
      TypeArgument.optionTypes_rename arguments, ClassSegment.listTypes_rename name nested]
  | .array _ element => by
    simp only [TypeSignature.rename, TypeSignature.types, List.map_cons, TypeSignature.types_rename element]

theorem TypeArgument.types_rename : (a : TypeArgument) →
    (a.rename f).types = a.types.map (TypeSignature.rename f)
  | .wildcard => rfl
  | .bounded _ bound => TypeSignature.types_rename bound
  | .exact type => TypeSignature.types_rename type

theorem TypeArgument.listTypes_rename : (as : List TypeArgument) →
    TypeArgument.listTypes (TypeArgument.renameList f as) = (TypeArgument.listTypes as).map (TypeSignature.rename f)
  | [] => rfl
  | a :: rest => by
    rw [TypeArgument.renameList, TypeArgument.listTypes, TypeArgument.listTypes, List.map_append,
      TypeArgument.types_rename a, TypeArgument.listTypes_rename rest]

theorem TypeArgument.optionTypes_rename : (as? : Option (List TypeArgument)) →
    TypeArgument.optionTypes (TypeArgument.renameOption f as?)
      = (TypeArgument.optionTypes as?).map (TypeSignature.rename f)
  | none => rfl
  | some as => TypeArgument.listTypes_rename as

theorem ClassSegment.listTypes_rename (outer : String) : (ss : List ClassSegment) →
    ClassSegment.listTypes (ClassSegment.renameList f outer ss)
      = (ClassSegment.listTypes ss).map (TypeSignature.rename f)
  | [] => rfl
  | ⟨name, arguments⟩ :: rest => by
    rw [ClassSegment.renameList, ClassSegment.listTypes, ClassSegment.listTypes, List.map_append,
      TypeArgument.optionTypes_rename arguments, ClassSegment.listTypes_rename _ rest]

end

/-- Renaming a signature renames every type in it, in its place. -/
theorem Signature.types_rename (s : Signature) : (s.rename f).types = s.types.map (TypeSignature.rename f) := by
  have hparameter (p : TypeParameter) : (p.rename f).parts = p.parts.map (TypeSignature.rename f) := by
    rw [TypeParameter.parts, TypeParameter.rename, TypeParameter.parts, List.filterMap_map, List.map_filterMap]
    rfl
  have hparameters : ((s.parameters?.map fun ps => ps.map (·.rename f)).getD []).flatMap TypeParameter.parts
      = ((s.parameters?.getD []).flatMap TypeParameter.parts).map (TypeSignature.rename f) := by
    cases s.parameters? with
    | none => rfl
    | some ps => simp [List.flatMap_map, List.map_flatMap, hparameter]
  have hbody : (s.body.rename f).parts = s.body.parts.map (TypeSignature.rename f) := by
    cases s.body with
    | method parameters result? throws => cases result? <;> simp [SignatureBody.rename, SignatureBody.parts]
    | types ts => rfl
  have hparts : (s.rename f).parts = s.parts.map (TypeSignature.rename f) := by
    rw [parts, parts, List.map_append, ← hparameters, ← hbody]
    rfl
  rw [types, hparts, types, List.flatMap_map, List.map_flatMap]
  simp only [TypeSignature.types_rename]

end

/-! ## Where they are written -/

section

variable {u : TypeSignature}

mutual

theorem TypeSignature.print_infix : (t : TypeSignature) → u ∈ t.types → u.print <:+: t.print
  | .primitive _, h => by
    obtain rfl := List.mem_singleton.mp h
    exact List.infix_rfl
  | .variable _, h => by
    obtain rfl := List.mem_singleton.mp h
    exact List.infix_rfl
  | .classType name arguments nested, h => by
    rcases List.mem_cons.mp h with rfl | h
    · exact List.infix_rfl
    rcases List.mem_append.mp h with h | h
    · obtain ⟨before, after, hprint⟩ := TypeArgument.printOption_infix arguments h
      refine ⟨'L' :: (name.toList ++ before), after ++ (ClassSegment.printList nested ++ [';']), ?_⟩
      simp [TypeSignature.print, ← hprint]
    · obtain ⟨before, after, hprint⟩ := ClassSegment.printList_infix nested h
      refine ⟨'L' :: (name.toList ++ TypeArgument.printOption arguments ++ before), after ++ [';'], ?_⟩
      simp [TypeSignature.print, ← hprint]
  | .array dimensions element, h => by
    rcases List.mem_cons.mp h with rfl | h
    · exact List.infix_rfl
    · exact (TypeSignature.print_infix element h).trans (List.suffix_append _ _).isInfix

theorem TypeArgument.print_infix : (a : TypeArgument) → u ∈ a.types → u.print <:+: a.print
  | .wildcard, h => absurd h List.not_mem_nil
  | .bounded _ bound, h => (TypeSignature.print_infix bound h).trans (List.suffix_cons _ _).isInfix
  | .exact type, h => TypeSignature.print_infix type h

theorem TypeArgument.printList_infix : (as : List TypeArgument) → u ∈ TypeArgument.listTypes as →
    u.print <:+: TypeArgument.printList as
  | [], h => absurd h List.not_mem_nil
  | a :: rest, h => by
    rcases List.mem_append.mp h with h | h
    · exact (TypeArgument.print_infix a h).trans (List.prefix_append _ _).isInfix
    · exact (TypeArgument.printList_infix rest h).trans (List.suffix_append _ _).isInfix

theorem TypeArgument.printOption_infix : (as? : Option (List TypeArgument)) → u ∈ TypeArgument.optionTypes as? →
    u.print <:+: TypeArgument.printOption as?
  | none, h => absurd h List.not_mem_nil
  | some as, h =>
    (TypeArgument.printList_infix as h).trans
      ((List.prefix_append _ _).isInfix.trans (List.suffix_cons _ _).isInfix)

theorem ClassSegment.printList_infix : (ss : List ClassSegment) → u ∈ ClassSegment.listTypes ss →
    u.print <:+: ClassSegment.printList ss
  | [], h => absurd h List.not_mem_nil
  | ⟨name, arguments⟩ :: rest, h => by
    rcases List.mem_append.mp h with h | h
    · exact (TypeArgument.printOption_infix arguments h).trans
        ((List.suffix_append _ _).isInfix.trans ((List.suffix_cons _ _).isInfix.trans (List.prefix_append _ _).isInfix))
    · exact (ClassSegment.printList_infix rest h).trans (List.suffix_append _ _).isInfix

end

mutual

theorem TypeSignature.spelled_of_mem : (t : TypeSignature) → t.Spelled → u ∈ t.types → u.Spelled
  | .primitive _, ht, h => List.mem_singleton.mp h ▸ ht
  | .variable _, ht, h => List.mem_singleton.mp h ▸ ht
  | .classType _ arguments nested, ht, h => by
    rcases List.mem_cons.mp h with rfl | h
    · exact ht
    rcases List.mem_append.mp h with h | h
    · exact TypeArgument.spelled_of_mem_option arguments ht.2.1 h
    · exact ClassSegment.spelled_of_mem_list nested ht.2.2 h
  | .array _ element, ht, h => by
    rcases List.mem_cons.mp h with rfl | h
    · exact ht
    · exact TypeSignature.spelled_of_mem element ht.2.2 h

theorem TypeArgument.spelled_of_mem : (a : TypeArgument) → a.Spelled → u ∈ a.types → u.Spelled
  | .wildcard, _, h => absurd h List.not_mem_nil
  | .bounded _ bound, ha, h => TypeSignature.spelled_of_mem bound ha.2.2 h
  | .exact type, ha, h => TypeSignature.spelled_of_mem type ha.2 h

theorem TypeArgument.spelled_of_mem_list : (as : List TypeArgument) → TypeArgument.SpelledList as →
    u ∈ TypeArgument.listTypes as → u.Spelled
  | [], _, h => absurd h List.not_mem_nil
  | a :: rest, has, h => by
    rcases List.mem_append.mp h with h | h
    · exact TypeArgument.spelled_of_mem a has.1 h
    · exact TypeArgument.spelled_of_mem_list rest has.2 h

theorem TypeArgument.spelled_of_mem_option : (as? : Option (List TypeArgument)) →
    TypeArgument.SpelledOption as? → u ∈ TypeArgument.optionTypes as? → u.Spelled
  | none, _, h => absurd h List.not_mem_nil
  | some as, has, h => TypeArgument.spelled_of_mem_list as has h

theorem ClassSegment.spelled_of_mem_list : (ss : List ClassSegment) → ClassSegment.SpelledList ss →
    u ∈ ClassSegment.listTypes ss → u.Spelled
  | [], _, h => absurd h List.not_mem_nil
  | ⟨_, arguments⟩ :: rest, hss, h => by
    rcases List.mem_append.mp h with h | h
    · exact TypeArgument.spelled_of_mem_option arguments hss.2.1 h
    · exact ClassSegment.spelled_of_mem_list rest hss.2.2 h

end

end

theorem infix_flatMap {α : Type} {a : α} {as : List α} (h : a ∈ as) (print : α → List Char) :
    print a <:+: as.flatMap print :=
  List.infix_of_mem_flatten (List.mem_map_of_mem h)

theorem TypeParameter.print_infix {p : TypeParameter} {t : TypeSignature} (h : t ∈ p.parts) :
    t.print <:+: p.print := by
  obtain ⟨b, hb, rfl⟩ := List.mem_filterMap.mp h
  have hbound : t.print <:+: printBound (some t) := (List.suffix_cons _ _).isInfix
  exact hbound.trans ((infix_flatMap hb printBound).trans (List.suffix_append _ _).isInfix)

theorem SignatureBody.print_infix {b : SignatureBody} {t : TypeSignature} (h : t ∈ b.parts) :
    t.print <:+: b.print := by
  cases b with
  | method parameters result? throws =>
    rcases List.mem_append.mp h with h | h
    · rcases List.mem_append.mp h with h | h
      · exact (infix_flatMap h _).trans ((List.prefix_append _ _).isInfix.trans (List.suffix_cons _ _).isInfix)
      · obtain rfl := Option.mem_toList.mp h
        refine ⟨'(' :: (parameters.flatMap TypeSignature.print ++ [')']), throws.flatMap fun t => '^' :: t.print, ?_⟩
        simp [print, printResult]
    · have hthrown : t.print <:+: throws.flatMap fun t => '^' :: t.print :=
        (List.suffix_cons '^' t.print).isInfix.trans (infix_flatMap h fun t => '^' :: t.print)
      refine hthrown.trans ⟨'(' :: (parameters.flatMap TypeSignature.print ++ ')' :: printResult result?), [], ?_⟩
      simp [print]
  | types ts => exact infix_flatMap h _

theorem TypeParameter.SpelledRow.mem {ps : List TypeParameter} (h : SpelledRow ps) {p : TypeParameter}
    (hp : p ∈ ps) : p.Spelled := by
  induction ps with
  | nil => cases hp
  | cons q ps ih =>
    rcases List.mem_cons.mp hp with rfl | hp
    · exact h.1
    · exact ih h.2.2 hp

namespace Signature

/-- A part of a signature belongs to one of its type parameters or to its body. -/
theorem mem_parts {s : Signature} {t : TypeSignature} :
    t ∈ s.parts ↔ (∃ ps ∈ s.parameters?, ∃ p ∈ ps, t ∈ p.parts) ∨ t ∈ s.body.parts := by
  rw [parts, List.mem_append, List.mem_flatMap]
  cases s.parameters? <;> simp

/-- What a signature is made of is written in its text. -/
theorem print_infix {s : Signature} {t : TypeSignature} (h : t ∈ s.types) : t.print <:+: s.print := by
  obtain ⟨part, hpart, ht⟩ := List.mem_flatMap.mp h
  refine (TypeSignature.print_infix part ht).trans ?_
  rw [print_eq]
  rcases mem_parts.mp hpart with ⟨ps, hps, p, hp, hpart⟩ | hpart
  · rw [Option.mem_def.mp hps]
    have hlist : part.print <:+: ps.flatMap TypeParameter.print :=
      (TypeParameter.print_infix hpart).trans (infix_flatMap hp _)
    exact hlist.trans ⟨['<'], '>' :: s.body.print, by simp [printParameters, printBracketed]⟩
  · exact (SignatureBody.print_infix hpart).trans (List.suffix_append _ _).isInfix

theorem spelled_of_mem {s : Signature} (hs : s.Spelled) {t : TypeSignature} (h : t ∈ s.types) : t.Spelled := by
  obtain ⟨part, hpart, ht⟩ := List.mem_flatMap.mp h
  refine TypeSignature.spelled_of_mem part ?_ ht
  rcases mem_parts.mp hpart with ⟨ps, hps, p, hp, hpart⟩ | hpart
  · obtain ⟨b, hb, rfl⟩ := List.mem_filterMap.mp hpart
    exact (((hs.parameters ps hps).mem hp).types part hb).2
  · have hbody := hs.body
    cases hb : s.body with
    | method parameters result? throws =>
      rw [hb] at hpart hbody
      rcases List.mem_append.mp hpart with hpart | hpart
      · rcases List.mem_append.mp hpart with hpart | hpart
        · exact hbody.1 part hpart
        · exact hbody.2.1 part (Option.mem_toList.mp hpart)
      · exact (hbody.2.2 part hpart).2
    | types ts =>
      rw [hb] at hpart hbody
      exact (hbody.2 part hpart).2

end Signature

/-! ## Full names -/

/-- The full name of the innermost segment. -/
def ClassSegment.fullName (outer : String) (nested : List ClassSegment) : String :=
  nested.foldl (fun full s => full ++ "$" ++ s.name) outer

/-- The renaming of each nested class is that of its outer class with one of the segments behind it. -/
def ClassSegment.Extend (f : String → String) : String → List ClassSegment → List String → Prop
  | _, [], [] => True
  | outer, s :: nested, g :: gs =>
    f (outer ++ "$" ++ s.name) = f outer ++ "$" ++ g ∧ ClassSegment.Extend f (outer ++ "$" ++ s.name) nested gs
  | _, _, _ => False

namespace ClassSegment

variable {f : String → String}

/-- Then the segments are printed one by one, with what is renamed of their arguments. -/
theorem renameList_of_extend {outer : String} {nested : List ClassSegment} {gs : List String}
    (h : Extend f outer nested gs) : renameList f outer nested =
      (gs.zip nested).map fun x => ⟨x.1, TypeArgument.renameOption f x.2.arguments⟩ := by
  induction nested generalizing outer gs with
  | nil =>
    cases gs with
    | nil => rfl
    | cons g gs => exact h.elim
  | cons s nested ih =>
    cases gs with
    | nil => exact h.elim
    | cons g gs =>
      obtain ⟨name, arguments⟩ := s
      have hstrip : Text.stripPrefix? (f outer ++ "$") (f (outer ++ "$" ++ name)) = some g :=
        Text.stripPrefix?_eq_some.mpr h.1
      rw [renameList, segmentName, hstrip, ih h.2]
      rfl

theorem intercalate_cons_cons (first second : String) (rest : List String) :
    "$".intercalate (first :: second :: rest) = "$".intercalate ((first ++ "$" ++ second) :: rest) := by
  apply String.toList_injective
  cases rest <;> simp [String.toList_intercalate, List.intercalate]

/-- Together they are the renaming of the full name. -/
theorem join_of_extend {outer : String} {nested : List ClassSegment} {gs : List String}
    (h : Extend f outer nested gs) : "$".intercalate (f outer :: gs) = f (fullName outer nested) := by
  induction nested generalizing outer gs with
  | nil =>
    cases gs with
    | nil => exact String.intercalate_singleton
    | cons g gs => exact h.elim
  | cons s nested ih =>
    cases gs with
    | nil => exact h.elim
    | cons g gs =>
      rw [intercalate_cons_cons, ← h.1]
      exact ih h.2

/-- The full name of a class that is spelled in a signature can be spelled in a descriptor. -/
theorem spelledName_fullName {outer : String} (houter : SpelledName outer) {nested : List ClassSegment}
    (h : SpelledList nested) : SpelledName (fullName outer nested) := by
  induction nested generalizing outer with
  | nil => exact houter
  | cons s nested ih =>
    obtain ⟨name, arguments⟩ := s
    refine ih ⟨?_, ?_⟩ h.2.2
    · exact fun hempty => houter.1 (by simp_all)
    · have hname : ';' ∉ name.toList := fun hmem => h.1.2 _ hmem (by simp)
      simp [houter.2, hname]

/-- No name that is looked up for a nested class before its outer class has an entry. -/
def Unlisted (d : Dict String) : String → List ClassSegment → Prop
  | _, [] => True
  | outer, s :: nested =>
    (∀ piece, ClassNames.Piece s.name piece → d[outer ++ "$" ++ piece]? = none)
      ∧ Unlisted d (outer ++ "$" ++ s.name) nested

/-- Then every segment is kept. -/
theorem extend_of_unlisted {names : ClassNames} {way : Direction} {outer : String} {nested : List ClassSegment}
    (h : Unlisted (names.dict way) outer nested) :
    Extend (names.translate way) outer nested (nested.map ClassSegment.name) := by
  induction nested generalizing outer with
  | nil => trivial
  | cons s nested ih => exact ⟨ClassNames.translateWith_nested s.name h.1, ih h.2⟩

end ClassSegment

theorem Descriptor.renameField_object (f : String → String) {name : String} (h : SpelledName name) :
    renameField f ("L" ++ name ++ ";") = .ok ("L" ++ f name ++ ";") := by
  have htext (name : String) : "L" ++ name ++ ";" = FieldType.toString ⟨0, .object name⟩ := by
    apply String.toList_injective
    simp [FieldType.toString, FieldType.print, ScalarType.print]
  have hread : FieldType.ofString ("L" ++ name ++ ";") = .ok ⟨0, .object name⟩ :=
    FieldType.ofString_eq_ok.mpr ⟨htext name, h⟩
  rw [renameField, hread, htext (f name)]
  rfl

namespace Signature

/-- **Signatures agree with descriptors.** Where the renaming of each nested class is that of its outer class with a
segment behind it, a class anywhere in a signature is printed with the renamed outer name and these segments, which
are together the name that a descriptor of the class gets. This is so for translated names that are not looked up
between a class and its outer class, and then the segments are kept. -/
theorem rename_classType_joins (f : String → String) {text : String} {s : Signature} (hs : ofString text = .ok s)
    {name : String} {arguments : Option (List TypeArgument)} {nested : List ClassSegment}
    (hmem : .classType name arguments nested ∈ s.types) :
    (∀ gs, ClassSegment.Extend f name nested gs →
      renameText f text = .ok (s.rename f).toString ∧
      (s.rename f).types = s.types.map (TypeSignature.rename f) ∧
      ((TypeSignature.classType name arguments nested).rename f).print <:+: (s.rename f).toString.toList ∧
      ((TypeSignature.classType name arguments nested).rename f).print
        = 'L' :: ((f name).toList ++ TypeArgument.printOption (TypeArgument.renameOption f arguments)
          ++ (gs.zip nested).flatMap (fun x =>
            '.' :: (x.1.toList ++ TypeArgument.printOption (TypeArgument.renameOption f x.2.arguments)))
          ++ [';']) ∧
      "$".intercalate (f name :: gs) = f (ClassSegment.fullName name nested) ∧
      Descriptor.renameField f ("L" ++ ClassSegment.fullName name nested ++ ";")
        = .ok ("L" ++ "$".intercalate (f name :: gs) ++ ";")) ∧
    ∀ (names : ClassNames) (way : Direction), ClassSegment.Unlisted (names.dict way) name nested →
      ClassSegment.Extend (names.translate way) name nested (nested.map ClassSegment.name) := by
  refine ⟨fun gs hgs => ?_, fun names way => ClassSegment.extend_of_unlisted⟩
  have hmem' : (TypeSignature.classType name arguments nested).rename f ∈ (s.rename f).types := by
    rw [types_rename]
    exact List.mem_map_of_mem hmem
  have hspelled := spelled_of_mem (ofString_eq_ok.mp hs).1.1 hmem
  have hname : SpelledName name := ⟨hspelled.1.1, fun hc => hspelled.1.2 _ hc (by simp)⟩
  have hjoin := ClassSegment.join_of_extend hgs
  refine ⟨?_, types_rename s, ?_, ?_, hjoin, ?_⟩
  · rw [renameText, hs]
    rfl
  · rw [toString, String.toList_ofList]
    exact print_infix hmem'
  · rw [TypeSignature.rename, TypeSignature.print, ClassSegment.renameList_of_extend hgs, printList_segments,
      List.flatMap_map]
    simp [ClassSegment.print]
  · rw [hjoin]
    exact Descriptor.renameField_object f (ClassSegment.spelledName_fullName hname hspelled.2.2)

/-- A class with two nested segments in a type argument, of which only the first has a name of its own. -/
theorem rename_classType_joins_sample :
    ∃ (s : Signature) (names : ClassNames) (t : TypeSignature),
      names = (ClassNames.empty.insert "a" "x/Foo").insert "a$b" "x/Foo$Bar" ∧
      t = .classType "a" (some [.exact (.variable "T")]) [⟨"b", none⟩, ⟨"c", none⟩] ∧
      ofString "Lm<La<TT;>.b.c;>;" = .ok s ∧ t ∈ s.types ∧
      ClassSegment.Extend (names.translate .toSource) "a" [⟨"b", none⟩, ⟨"c", none⟩] ["Bar", "c"] ∧
      (t.rename (names.translate .toSource)).print = "Lx/Foo<TT;>.Bar.c;".toList ∧
      Descriptor.renameField (names.translate .toSource) "La$b$c;" = .ok "Lx/Foo$Bar$c;" ∧
      ClassSegment.Unlisted (names.dict .toTarget) "a" [⟨"b", none⟩, ⟨"c", none⟩] ∧
      ClassSegment.Extend (names.translate .toTarget) "a" [⟨"b", none⟩, ⟨"c", none⟩] ["b", "c"] := by
  let t : TypeSignature := .classType "a" (some [.exact (.variable "T")]) [⟨"b", none⟩, ⟨"c", none⟩]
  let s : Signature := ⟨none, .types [.classType "m" (some [.exact t]) []]⟩
  let names : ClassNames := (ClassNames.empty.insert "a" "x/Foo").insert "a$b" "x/Foo$Bar"
  have ht : t.Spelled :=
    ⟨by decide, ⟨⟨trivial, (by decide : IsIdentifier [';'] "T")⟩, trivial⟩, by decide, trivial, by decide, trivial,
      trivial⟩
  have hs : ofString "Lm<La<TT;>.b.c;>;" = .ok s := by
    refine ofString_eq_ok.mpr ⟨⟨⟨nofun, nofun, ?_⟩, by decide +kernel⟩, nofun⟩
    exact List.forall_mem_singleton.mpr ⟨trivial, by decide, ⟨⟨trivial, ht⟩, trivial⟩, trivial⟩
  have hmem : t ∈ s.types := List.mem_cons_of_mem _ List.mem_cons_self
  have hgs : ClassSegment.Extend (names.translate .toSource) "a" [⟨"b", none⟩, ⟨"c", none⟩] ["Bar", "c"] :=
    ⟨by decide +kernel, by decide +kernel, trivial⟩
  have hunlisted : ClassSegment.Unlisted (names.dict .toTarget) "a" [⟨"b", none⟩, ⟨"c", none⟩] :=
    ⟨fun _ hb => hb.eq (by decide) ▸ by decide +kernel, fun _ hc => hc.eq (by decide) ▸ by decide +kernel, trivial⟩
  obtain ⟨hsegments, hkept⟩ := rename_classType_joins (names.translate .toSource) hs hmem
  obtain ⟨-, -, -, hprint, -, hdescriptor⟩ := hsegments _ hgs
  have hfirst : names.translate .toSource "a" = "x/Foo" := by decide +kernel
  rw [hfirst] at hprint hdescriptor
  exact ⟨s, names, t, rfl, rfl, hs, hmem, hgs, hprint.trans (by decide +kernel), hdescriptor, hunlisted,
    hkept names .toTarget hunlisted⟩

end Signature

end Relabel
