import Relabel.Proofs.Type.Scanner

/-!
# Signatures are read by their grammar

Each scanner of a part of a signature takes exactly the spellings of that part. A reference type is scanned with
fuel for the depth of its type arguments, and what is inside a class type is at least one letter shorter, so the
induction on the fuel goes along with the length of the text. The whole text is a signature with a given tree
exactly if the grammar derives it with that tree, and the bracket that closes its type parameters is the first
one in the place of a name.
-/

set_option autoImplicit false

namespace Relabel

/-! ## What spellings begin with

The scanner looks one character ahead and decides by it what comes, while the grammar says of a tree what it is
spelled like. The two meet in the first character of a spelling: every kind of tree begins with characters of its
own, and none of these is one with which a list of such trees may end. -/

/-- A reference type that begins with this letter. -/
def TypeSignature.SpelledFrom (letter : Char) (t : TypeSignature) : Prop :=
  t.SpelledReference ∧ t.print.head? = some letter

namespace TypeSignature

theorem head_array {dimensions : Nat} (hpos : 0 < dimensions) (element : TypeSignature) :
    (array dimensions element).print.head? = some '[' := by
  obtain ⟨d, rfl⟩ := Nat.exists_eq_succ_of_ne_zero hpos.ne'
  rfl

/-- A reference type begins with the letter of its kind. -/
theorem SpelledReference.head? {t : TypeSignature} (h : t.SpelledReference) :
    t.print.head? = match t with
      | .primitive letter => some letter
      | .variable _ => some 'T'
      | .classType _ _ _ => some 'L'
      | .array _ _ => some '[' := by
  match t, h with
  | .variable _, _ => rfl
  | .classType _ _ _, _ => rfl
  | .array _ _, h => exact head_array h.2.1 _

theorem spelledFrom_class {t : TypeSignature} : t.SpelledFrom 'L' ↔
    ∃ name arguments nested, t = .classType name arguments nested ∧ t.Spelled := by
  constructor
  · rintro ⟨h, hhead⟩
    rw [h.head?] at hhead
    match t, h with
    | .classType _ _ _, h => exact ⟨_, _, _, rfl, h.2⟩
    | .array _ _, _ => cases hhead
  · rintro ⟨_, _, _, rfl, h⟩
    exact ⟨⟨trivial, h⟩, rfl⟩

theorem spelledFrom_variable {t : TypeSignature} : t.SpelledFrom 'T' ↔
    ∃ name, t = .variable name ∧ t.Spelled := by
  constructor
  · rintro ⟨h, hhead⟩
    rw [h.head?] at hhead
    match t, h with
    | .variable _, h => exact ⟨_, rfl, h.2⟩
    | .array _ _, _ => cases hhead
  · rintro ⟨_, rfl, h⟩
    exact ⟨⟨trivial, h⟩, rfl⟩

theorem spelledFrom_array {t : TypeSignature} : t.SpelledFrom '[' ↔
    ∃ dimensions element, t = .array dimensions element ∧ t.Spelled := by
  constructor
  · rintro ⟨h, hhead⟩
    rw [h.head?] at hhead
    match t, h with
    | .array _ _, h => exact ⟨_, _, rfl, h.2⟩
  · rintro ⟨_, _, rfl, h⟩
    exact ⟨⟨trivial, h⟩, head_array h.1 _⟩

/-- A reference type begins with one of its letters. -/
theorem SpelledReference.head {t : TypeSignature} (h : t.SpelledReference) :
    ∃ c ∈ referenceLetters, ∃ cs, t.print = c :: cs := by
  have hletter : ∃ c ∈ referenceLetters, t.print.head? = some c := by
    rw [h.head?]
    match t, h with
    | .variable _, _ => exact ⟨'T', by decide, rfl⟩
    | .classType _ _ _, _ => exact ⟨'L', by decide, rfl⟩
    | .array _ _, _ => exact ⟨'[', by decide, rfl⟩
  obtain ⟨c, hc, hhead⟩ := hletter
  exact ⟨c, hc, List.head?_eq_some_iff.mp hhead⟩

theorem SpelledReference.head?_append {t : TypeSignature} (h : t.SpelledReference) (rest : List Char) :
    (t.print ++ rest).head? = t.print.head? := by
  obtain ⟨c, -, cs, hcs⟩ := h.head
  rw [hcs]
  rfl

/-- Which kind of reference type comes is seen at its first letter. -/
theorem spelledFrom_iff {t : TypeSignature} {c : Char} {rest : List Char}
    (hhead : (t.print ++ rest).head? = some c) : t.SpelledFrom c ↔ t.SpelledReference :=
  ⟨fun h => h.1, fun h => ⟨h, h.head?_append rest ▸ hhead⟩⟩

theorem SpelledFrom.mem {t : TypeSignature} {c : Char} (h : t.SpelledFrom c) : c ∈ referenceLetters := by
  obtain ⟨c', hc', cs, hcs⟩ := h.1.head
  rw [SpelledFrom, hcs] at h
  obtain rfl := Option.some.inj h.2
  exact hc'

theorem spelled_iff {t : TypeSignature} : t.Spelled ↔
    (∃ letter ∈ primitiveLetters, t = .primitive letter) ∨ t.SpelledReference := by
  cases t <;> simp [SpelledReference, IsReference, Spelled]

theorem scalar_iff {t : TypeSignature} : t.IsScalar ∧ t.Spelled ↔
    (∃ letter ∈ primitiveLetters, t = .primitive letter) ∨ (t.SpelledReference ∧ t.IsScalar) := by
  cases t <;> simp [SpelledReference, IsReference, IsScalar, Spelled]

/-- No primitive type begins like a reference type. -/
theorem not_mem_primitiveLetters {c : Char} (h : c ∈ referenceLetters) : c ∉ primitiveLetters := by
  revert c
  simp [referenceLetters, primitiveLetters]

/-- A type cannot be taken for the end of the parameters of a method, or for `void`. -/
theorem Spelled.head {t : TypeSignature} (h : t.Spelled) : ∃ c cs, t.print = c :: cs ∧ c ∉ [')', 'V'] := by
  obtain ⟨letter, hletter, rfl⟩ | href := spelled_iff.mp h
  · have hdisjoint : ∀ c ∈ primitiveLetters, c ∉ [')', 'V'] := by simp [primitiveLetters]
    exact ⟨letter, [], rfl, hdisjoint letter hletter⟩
  · have hdisjoint : ∀ c ∈ referenceLetters, c ∉ [')', 'V'] := by simp [referenceLetters]
    obtain ⟨c, hc, cs, hcs⟩ := href.head
    exact ⟨c, cs, hcs, hdisjoint c hc⟩

/-- A type that is no array does not begin like one. -/
theorem Spelled.head?_ne_of_scalar {t : TypeSignature} (h : t.Spelled) (hscalar : t.IsScalar) (rest : List Char) :
    (t.print ++ rest).head? ≠ some '[' := by
  match t, h with
  | .primitive letter, h =>
    intro hhead
    obtain rfl : letter = '[' := Option.some.inj hhead
    exact absurd h (by decide : '[' ∉ primitiveLetters)
  | .variable _, _ => exact nofun
  | .classType _ _ _, _ => exact nofun

end TypeSignature

namespace TypeArgument

/-- What an argument is, by its first character. -/
theorem spelled_iff {a : TypeArgument} {c : Char} : a.Spelled ∧ a.print.head? = some c ↔
    (c = '*' ∧ a = .wildcard) ∨ ((c = '+' ∨ c = '-') ∧ ∃ bound, a = .bounded c bound ∧ bound.SpelledReference) ∨
      ∃ t, a = .exact t ∧ t.SpelledFrom c := by
  cases a with
  | wildcard => simp [Spelled, print, eq_comm]
  | bounded sign bound =>
    simp only [Spelled, print, TypeSignature.SpelledReference, List.mem_cons]
    grind
  | exact t => simp [Spelled, print, TypeSignature.SpelledFrom, TypeSignature.SpelledReference]

/-- An argument cannot be taken for the end of the arguments. -/
theorem Spelled.head {a : TypeArgument} (h : a.Spelled) : ∃ c cs, a.print = c :: cs ∧ c ≠ '>' := by
  match a, h with
  | .wildcard, _ => exact ⟨'*', [], rfl, by decide⟩
  | .bounded sign bound, h => exact ⟨sign, bound.print, rfl, fun heq => absurd (heq ▸ h.1) (by decide)⟩
  | .exact t, h =>
    obtain ⟨c, hc, cs, hcs⟩ := TypeSignature.SpelledReference.head h
    exact ⟨c, cs, hcs, fun heq => absurd (heq ▸ hc) (by decide)⟩

theorem Spelled.head?_append {a : TypeArgument} (h : a.Spelled) (rest : List Char) :
    (a.print ++ rest).head? = a.print.head? := by
  obtain ⟨c, cs, hcs, -⟩ := h.head
  rw [hcs]
  rfl

end TypeArgument

/-- A nested segment, or the first segment of a class. -/
def ClassSegment.Spelled (s : ClassSegment) : Prop :=
  IsIdentifier ['<', '.', ';'] s.name ∧ TypeArgument.SpelledOption s.arguments

/-- If it has no arguments, then something follows that ends its name. -/
def ClassSegment.Ahead (s : ClassSegment) (rest : List Char) : Prop :=
  s.arguments = none → rest.head? = some '.' ∨ rest.head? = some ';'

namespace Signature

open Scanner

/-! ## Types

In `Takes n x P` the relation `P` speaks of the tree that `x` gives, of the characters it takes and of those it
leaves. Most of the lemmas have one shape: `P` is first put together from the parts of the scanner, and then shown
to be the clause of the grammar. One direction takes the parts from the relation and builds the tree, and the other
takes the tree apart and gives the parts their characters.

What is left is spoken of only where the scanner looks at it. A name ends where a stop character comes, and what may
be absent is absent because what would open it does not come. -/

section

variable {n size : Nat} {reference : Scanner TypeSignature}

/-- A type, where `reference` takes the reference types of some set. An array has no brackets in front of its
element, so the set is not always that of all reference types. -/
theorem takes_parseType {S : TypeSignature → Prop} (h : Takes n reference fun t cs _ => cs = t.print ∧ S t)
    (hS : ∀ t, S t → t.SpelledReference) :
    Takes n (parseType reference) fun t cs _ =>
      cs = t.print ∧ ((∃ letter ∈ primitiveLetters, t = .primitive letter) ∨ S t) := by
  refine Takes.peek fun c? => ?_
  cases c? with
  | none =>
    refine ⟨_, h, fun t cs rest hhead => and_congr_right ?_⟩
    rintro rfl
    refine ⟨.inr, ?_⟩
    rintro (⟨letter, -, rfl⟩ | ht)
    · cases hhead
    · exact ht
  | some c =>
    dsimp only
    split
    · next hc =>
      refine ⟨_, (Takes.expect c <| Takes.pure _).le n.le_succ, fun t cs rest hhead => ?_⟩
      constructor
      · rintro ⟨_, rfl, rfl, rfl⟩
        exact ⟨rfl, .inl ⟨c, List.contains_iff_mem.mp hc, rfl⟩⟩
      · rintro ⟨rfl, ⟨letter, -, rfl⟩ | ht⟩
        · obtain rfl := Option.some.inj hhead
          exact ⟨[], rfl, rfl, rfl⟩
        · -- A reference type would not begin with the letter of a primitive one.
          obtain ⟨c', hc', cs, hcs⟩ := (hS t ht).head
          rw [hcs] at hhead
          obtain rfl := Option.some.inj hhead
          exact absurd (List.contains_iff_mem.mp hc) (TypeSignature.not_mem_primitiveLetters hc')
    · next hc =>
      refine ⟨_, h, fun t cs rest hhead => and_congr_right ?_⟩
      rintro rfl
      refine ⟨.inr, ?_⟩
      rintro (⟨letter, hletter, rfl⟩ | ht)
      · obtain rfl := Option.some.inj hhead
        exact absurd (List.contains_iff_mem.mpr hletter) hc
      · exact ht

/-- The scanner of reference types in a text shorter than `n`. -/
abbrev TakesReference (n : Nat) (reference : Scanner TypeSignature) : Prop :=
  Takes n reference fun t cs _ => cs = t.print ∧ t.SpelledReference

theorem TakesReference.parseType (h : TakesReference n reference) :
    Takes n (parseType reference) fun t cs _ => cs = t.print ∧ t.Spelled :=
  (takes_parseType h fun _ ht => ht).congr fun _ _ _ => by rw [TypeSignature.spelled_iff]

/-- An argument. The reader tests for `*`, `+` and `-`, and takes everything else for a type: these three are no
letters of reference types, so the kinds of arguments exclude each other. -/
theorem takes_parseArgument (h : TakesReference n reference) :
    Takes n (parseArgument reference) fun a cs _ => cs = a.print ∧ a.Spelled := by
  have hbounded (sign : Char) : Takes n (do
      expect sign
      return TypeArgument.bounded sign (← reference)) fun a cs _ =>
        ∃ cs', cs = sign :: cs' ∧ ∃ bound, a = .bounded sign bound ∧ cs' = bound.print ∧ bound.SpelledReference :=
    (Takes.expect sign <| h.map _).le n.le_succ
  have hsign {sign : Char} (hsign : sign ∈ ['+', '-']) {a : TypeArgument} {cs rest : List Char}
      (hhead : (cs ++ rest).head? = some sign) :
      (∃ cs', cs = sign :: cs' ∧ ∃ bound, a = .bounded sign bound ∧ cs' = bound.print ∧ bound.SpelledReference)
        ↔ cs = a.print ∧ a.Spelled := by
    constructor
    · rintro ⟨_, rfl, bound, rfl, rfl, hbound⟩
      exact ⟨rfl, hsign, hbound⟩
    · rintro ⟨rfl, ha⟩
      rw [ha.head?_append] at hhead
      obtain ⟨rfl, -⟩ | ⟨-, bound, rfl, hbound⟩ | ⟨t, -, ht⟩ := TypeArgument.spelled_iff.mp ⟨ha, hhead⟩
      · exact absurd hsign (by decide)
      · exact ⟨bound.print, rfl, bound, rfl, rfl, hbound⟩
      · have hdisjoint : ∀ c ∈ ['+', '-'], c ∉ referenceLetters := by simp [referenceLetters]
        exact absurd ht.mem (hdisjoint sign hsign)
  refine Takes.peek fun c? => ?_
  split
  · refine ⟨_, (Takes.expect '*' <| Takes.pure _).le n.le_succ, fun a cs rest hhead => ?_⟩
    constructor
    · rintro ⟨_, rfl, rfl, rfl⟩
      exact ⟨rfl, trivial⟩
    · rintro ⟨rfl, ha⟩
      rw [ha.head?_append] at hhead
      obtain ⟨-, rfl⟩ | ⟨hc, -⟩ | ⟨t, -, ht⟩ := TypeArgument.spelled_iff.mp ⟨ha, hhead⟩
      · exact ⟨[], rfl, rfl, rfl⟩
      · exact absurd hc (by decide)
      · exact absurd ht.mem (by decide)
  · exact ⟨_, hbounded '+', fun a cs rest hhead => hsign (by decide) hhead⟩
  · exact ⟨_, hbounded '-', fun a cs rest hhead => hsign (by decide) hhead⟩
  · next hstar hplus hminus =>
    refine ⟨_, h.map _, fun a cs rest hhead => ?_⟩
    constructor
    · rintro ⟨t, rfl, rfl, ht⟩
      exact ⟨rfl, ht⟩
    · -- An argument of another kind would have been seen by one of the tests.
      rintro ⟨rfl, ha⟩
      rw [ha.head?_append] at hhead
      obtain ⟨c, cs, hcs, -⟩ := ha.head
      have hc : a.print.head? = some c := by rw [hcs]; rfl
      rw [hc] at hhead
      obtain ⟨rfl, -⟩ | ⟨rfl | rfl, -⟩ | ⟨t, rfl, ht⟩ := TypeArgument.spelled_iff.mp ⟨ha, hc⟩
      · exact (hstar hhead.symm).elim
      · exact (hplus hhead.symm).elim
      · exact (hminus hhead.symm).elim
      · exact ⟨t, rfl, rfl, ht.1⟩

/-- The spelling of something between angle brackets that may be absent. -/
def printBracketed {α : Type} (print : α → List Char) : Option α → List Char
  | none => []
  | some a => '<' :: (print a ++ ['>'])

/-- Something between angle brackets. If it is absent, then no bracket comes. -/
theorem takes_bracketed {α : Type} {items : Scanner α} {print : α → List Char} {S : α → Prop}
    (hitems : Takes n items fun a cs rest => cs = print a ∧ S a ∧ rest.head? = some '>') :
    Takes n (do
      if (← peek) = some '<' then
        expect '<'
        let a ← items
        expect '>'
        return some a
      else return none) fun a? cs rest =>
        cs = printBracketed print a? ∧ (∀ a ∈ a?, S a) ∧ (a? = none → rest.head? ≠ some '<') := by
  refine Takes.peek fun c? => ?_
  split
  · next hc =>
    subst hc
    refine ⟨_, (Takes.expect '<' <| hitems.bind fun a => (Takes.expect '>' <| Takes.pure _).le n.le_succ).le
      n.le_succ, fun a? cs rest hhead => ?_⟩
    constructor
    · rintro ⟨_, rfl, a, _, _, rfl, ⟨rfl, ha, -⟩, _, rfl, rfl, rfl⟩
      exact ⟨rfl, fun _ hmem => Option.some.inj hmem ▸ ha, nofun⟩
    · rintro ⟨rfl, ha, hnone⟩
      cases a? with
      | none => exact absurd hhead (hnone rfl)
      | some a => exact ⟨_, rfl, a, _, _, rfl, ⟨rfl, ha a rfl, rfl⟩, _, rfl, rfl, rfl⟩
  · next hc =>
    refine ⟨_, Takes.pure _, fun a? cs rest hhead => ?_⟩
    constructor
    · rintro ⟨rfl, rfl⟩
      exact ⟨rfl, nofun, fun _ => hhead.trans_ne hc⟩
    · rintro ⟨rfl, -, -⟩
      cases a? with
      | none => exact ⟨rfl, rfl⟩
      | some a => exact absurd hhead.symm hc

theorem printList_arguments (as : List TypeArgument) :
    TypeArgument.printList as = as.flatMap TypeArgument.print := by
  induction as with
  | nil => rfl
  | cons a as ih => rw [TypeArgument.printList, ih, List.flatMap_cons]

theorem printList_segments (ss : List ClassSegment) :
    ClassSegment.printList ss = ss.flatMap ClassSegment.print := by
  induction ss with
  | nil => rfl
  | cons s ss ih => rw [ClassSegment.printList, ih, List.flatMap_cons]

theorem spelledList_arguments (as : List TypeArgument) :
    TypeArgument.SpelledList as ↔ ∀ a ∈ as, a.Spelled := by
  induction as with
  | nil => exact iff_of_true trivial (List.forall_mem_nil _)
  | cons a as ih => rw [TypeArgument.SpelledList, ih, List.forall_mem_cons]

theorem spelledList_segments (ss : List ClassSegment) :
    ClassSegment.SpelledList ss ↔ ∀ s ∈ ss, s.Spelled := by
  induction ss with
  | nil => exact iff_of_true trivial (List.forall_mem_nil _)
  | cons s ss ih =>
    obtain ⟨name, arguments⟩ := s
    rw [ClassSegment.SpelledList, ih, List.forall_mem_cons, ClassSegment.Spelled, and_assoc]

theorem takes_parseArguments (h : TakesReference n reference) (hsize : n ≤ size + 1) :
    Takes n (parseArguments size reference) fun as? cs rest =>
      cs = TypeArgument.printOption as? ∧ TypeArgument.SpelledOption as? ∧ (as? = none → rest.head? ≠ some '<') := by
  have hitems := takes_itemsUntil (takes_parseArgument h) (fun _ ha => TypeArgument.Spelled.head ha) hsize
  refine (takes_bracketed hitems).congr fun as? cs rest => ?_
  cases as? with
  | none => simp [printBracketed, TypeArgument.printOption, TypeArgument.SpelledOption]
  | some as =>
    simp [printBracketed, TypeArgument.printOption, TypeArgument.SpelledOption, printList_arguments,
      spelledList_arguments]

/-- What has to come behind the name of a class and its arguments, if it has any. -/
theorem ahead_of_segment {as? : Option (List TypeArgument)} {rest : List Char} :
    ((∃ c ∈ ['<', '.', ';'], (TypeArgument.printOption as? ++ rest).head? = some c)
      ∧ (as? = none → rest.head? ≠ some '<')) ↔ (as? = none → rest.head? = some '.' ∨ rest.head? = some ';') := by
  cases as? with
  | none => 
    simp only [TypeArgument.printOption, List.nil_append]
    simp
    grind
  | some as => simp [TypeArgument.printOption]

theorem takes_parseSegment (h : TakesReference n reference) (hsize : n ≤ size + 1) :
    Takes n (parseSegment size reference) fun s cs rest => '.' :: cs = s.print ∧ s.Spelled ∧ s.Ahead rest := by
  refine ((takes_identifier _).bind fun name =>
    (takes_parseArguments h hsize).map fun as => ClassSegment.mk name as).congr fun s cs rest => ?_
  constructor
  · rintro ⟨name, _, _, rfl, ⟨rfl, hname, hstop⟩, as, rfl, rfl, has, hnone⟩
    exact ⟨rfl, ⟨hname, has⟩, ahead_of_segment.mp ⟨hstop, hnone⟩⟩
  · obtain ⟨name, as⟩ := s
    rintro ⟨hcs, ⟨hname, has⟩, hahead⟩
    obtain rfl := (List.cons.inj hcs).2
    obtain ⟨hstop, hnone⟩ := ahead_of_segment.mpr hahead
    exact ⟨name, _, _, rfl, ⟨rfl, hname, hstop⟩, as, rfl, rfl, has, hnone⟩

/-- A class is its first segment and the segments nested in it. -/
theorem parseClass_eq : parseClass size reference = (do
    expect 'L'
    let s ← parseSegment size reference
    let nested ← itemsMarked '.' (parseSegment size reference) [] (size + 1)
    expect ';'
    return .classType s.name s.arguments nested) := by
  simp only [parseClass, parseSegment, bind_assoc, pure_bind]

/-- A class takes one character before anything that is nested in it is scanned. So its scanner is good for texts
that are one longer than those its arguments are scanned in, which is the step of the induction on the fuel. -/
theorem takes_parseClass (h : TakesReference n reference) (hsize : n ≤ size + 1) :
    Takes (n + 1) (parseClass size reference) fun t cs _ => cs = t.print ∧ t.SpelledFrom 'L' := by
  have hsegment := takes_parseSegment h hsize
  have hnested := takes_itemsMarked hsegment (fun ⟨_, _⟩ => ⟨_, rfl⟩) (fun _ _ hdot _ => .inl hdot) hsize
  rw [parseClass_eq]
  refine (Takes.expect 'L' <| hsegment.bind fun s => hnested.bind fun nested =>
    (Takes.expect ';' <| Takes.pure _).le n.le_succ).congr fun t cs rest => ?_
  rw [TypeSignature.spelledFrom_class]
  constructor
  · rintro ⟨_, rfl, ⟨name, as⟩, _, _, rfl, ⟨hs, hspelled, -⟩, nested, _, _, rfl, ⟨rfl, hall, -⟩, _, rfl, rfl, rfl⟩
    obtain rfl := (List.cons.inj hs).2
    refine ⟨?_, _, _, _, rfl, hspelled.1, hspelled.2, (spelledList_segments nested).mpr hall⟩
    simp [TypeSignature.print, printList_segments]
  · rintro ⟨rfl, name, as, nested, rfl, hname, has, hall⟩
    -- Behind the first segment comes the dot of the next one or the semicolon, and both end a name.
    have hend (cs : List Char) : (ClassSegment.printList nested ++ (';' :: cs)).head? = some '.'
        ∨ (ClassSegment.printList nested ++ (';' :: cs)).head? = some ';' := by
      cases nested with
      | nil => exact .inr rfl
      | cons s nested =>
        obtain ⟨name, as⟩ := s
        exact .inl rfl
    refine ⟨_, rfl, ⟨name, as⟩, name.toList ++ TypeArgument.printOption as, _, (List.append_assoc ..).symm,
      ⟨rfl, ⟨hname, has⟩, fun _ => ?_⟩, nested, _, _, rfl, ⟨printList_segments nested,
      (spelledList_segments nested).mp hall, fun _ _ _ => .inr rfl, by simp⟩, _, rfl, rfl, rfl⟩
    simpa using hend rest

theorem takes_parseVariable : Takes n parseVariable fun t cs _ => cs = t.print ∧ t.SpelledFrom 'T' := by
  refine ((Takes.expect 'T' <| (takes_identifier _).bind fun name =>
    (Takes.expect ';' <| Takes.pure _).le n.le_succ).le n.le_succ).congr fun t cs rest => ?_
  rw [TypeSignature.spelledFrom_variable]
  constructor
  · rintro ⟨_, rfl, name, _, _, rfl, ⟨rfl, hname, -⟩, _, rfl, rfl, rfl⟩
    exact ⟨rfl, _, rfl, hname⟩
  · rintro ⟨rfl, name, rfl, hname⟩
    exact ⟨_, rfl, name, _, _, rfl, ⟨rfl, hname, ';', List.mem_singleton_self _, rfl⟩, _, rfl, rfl, rfl⟩

/-- The brackets of an array, all of them. -/
theorem takes_brackets : Takes n (fun place : Place =>
    let (brackets, rest) := place.rest.span (· = '[')
    (advance brackets rest *> pure brackets : Scanner (List Char)) place) fun brackets cs rest =>
      cs = brackets ∧ brackets = List.replicate brackets.length '[' ∧ rest.head? ≠ some '[' := by
  intro text offset brackets rest _
  constructor
  · rintro ⟨_, h⟩
    cases hspan : text.span (· = '[') with
    | mk before after =>
      simp only [hspan] at h
      obtain ⟨htext, hall, hstop⟩ := Text.span_eq hspan
      obtain ⟨rfl, hplace⟩ := Prod.mk.inj (Except.ok.inj h)
      obtain ⟨rfl, -⟩ := Place.mk.inj hplace
      exact ⟨before, htext, rfl, List.eq_replicate_of_mem fun c hc => of_decide_eq_true (hall c hc),
        fun hhead => of_decide_eq_false (hstop '[' hhead) rfl⟩
  · rintro ⟨brackets, rfl, rfl, hall, hstop⟩
    have hbrackets : ∀ c ∈ brackets, decide (c = '[') = true := by
      intro c hc
      rw [hall] at hc
      exact decide_eq_true (List.eq_of_mem_replicate hc)
    have hspan : (brackets ++ rest).span (· = '[') = (brackets, rest) := by
      cases rest with
      | nil =>
        rw [List.append_nil, List.span_eq_takeWhile_dropWhile, List.takeWhile_eq_self_iff.mpr hbrackets,
          List.dropWhile_eq_nil_iff.mpr hbrackets]
      | cons c rest => exact Text.span_append rest hbrackets (decide_eq_false fun hc => hstop (congrArg some hc))
    simp only [hspan]
    exact ⟨_, rfl⟩

/-- An array. Its scanner counts the brackets and does not recur on them, so the element must be no array: this is
why trees have the number of brackets in one place. -/
theorem takes_parseArray (h : TakesReference n reference) (hsize : n ≤ size + 1) :
    Takes (n + 1) (parseArray size reference) fun t cs _ =>
      cs = t.print ∧ ∃ dimensions element, t = .array dimensions element ∧ element.IsScalar ∧ element.Spelled := by
  refine (takes_brackets.bind fun brackets =>
    (takes_parseType (S := fun t => t.SpelledReference ∧ t.IsScalar) (Takes.peek fun c? => ?element)
      fun _ ht => ht.1).map fun element => TypeSignature.array brackets.length element).congr fun t cs rest => ?array
  case element =>
    split
    · refine ⟨_, takes_parseClass h hsize, fun t cs rest hhead => and_congr_right ?_⟩
      rintro rfl
      refine ⟨fun ht => ?_, fun ht => (TypeSignature.spelledFrom_iff hhead).mpr ht.1⟩
      obtain ⟨_, _, _, rfl, -⟩ := TypeSignature.spelledFrom_class.mp ht
      exact ⟨ht.1, trivial⟩
    · refine ⟨_, takes_parseVariable, fun t cs rest hhead => and_congr_right ?_⟩
      rintro rfl
      refine ⟨fun ht => ?_, fun ht => (TypeSignature.spelledFrom_iff hhead).mpr ht.1⟩
      obtain ⟨_, rfl, -⟩ := TypeSignature.spelledFrom_variable.mp ht
      exact ⟨ht.1, trivial⟩
    · next hclass hvariable =>
      refine ⟨_, Takes.refuse, fun t cs rest hhead => ?_⟩
      refine iff_of_false id ?_
      rintro ⟨rfl, ht, hscalar⟩
      rw [ht.head?_append, ht.head?] at hhead
      cases t with
      | primitive _ => exact ht.1
      | «variable» _ => exact hvariable hhead.symm
      | classType _ _ _ => exact hclass hhead.symm
      | array _ _ => exact hscalar
  case array =>
    constructor
    · rintro ⟨brackets, _, _, rfl, ⟨rfl, hbrackets, -⟩, element, rfl, rfl, helement⟩
      refine ⟨?_, _, element, rfl, TypeSignature.scalar_iff.mpr helement⟩
      rw [TypeSignature.print, ← hbrackets]
    · rintro ⟨rfl, dimensions, element, rfl, hscalar, hspelled⟩
      refine ⟨List.replicate dimensions '[', _, _, rfl, ⟨rfl, by simp, ?_⟩, element, by simp, rfl,
        TypeSignature.scalar_iff.mp ⟨hscalar, hspelled⟩⟩
      exact hspelled.head?_ne_of_scalar hscalar rest

/-- A reference type, at every depth. With fuel `n` the scanner is right on all texts shorter than `n`: it has used
up one unit when it comes to what is inside a class, and the text has then lost at least the letter in front. -/
theorem takes_parseReference (size : Nat) {fuel : Nat} (hsize : fuel ≤ size + 1) :
    TakesReference fuel (parseReference size fuel) := by
  induction fuel with
  | zero => exact Takes.zero
  | succ fuel ih =>
    have hfuel : fuel ≤ size + 1 := Nat.le_of_succ_le hsize
    have hinner := ih hfuel
    refine Takes.peek fun c? => ?_
    split
    · refine ⟨_, takes_parseClass hinner hfuel, fun t cs rest hhead => and_congr_right ?_⟩
      rintro rfl
      exact TypeSignature.spelledFrom_iff hhead
    · refine ⟨_, takes_parseVariable, fun t cs rest hhead => and_congr_right ?_⟩
      rintro rfl
      exact TypeSignature.spelledFrom_iff hhead
    · refine ⟨_, takes_parseArray hinner hfuel, fun t cs rest hhead => and_congr_right ?_⟩
      rintro rfl
      constructor
      · -- A bracket was seen, so there is at least one.
        rintro ⟨dimensions, element, rfl, hscalar, helement⟩
        refine ⟨trivial, Nat.pos_of_ne_zero fun hzero => ?_, hscalar, helement⟩
        subst hzero
        exact helement.head?_ne_of_scalar hscalar rest hhead
      · intro ht
        obtain ⟨dimensions, element, rfl, hspelled⟩ :=
          TypeSignature.spelledFrom_array.mp ((TypeSignature.spelledFrom_iff hhead).mpr ht)
        exact ⟨dimensions, element, rfl, hspelled.2⟩
    · next hclass hvariable harray =>
      refine ⟨_, Takes.refuse, fun t cs rest hhead => ?_⟩
      refine iff_of_false id ?_
      rintro ⟨rfl, ht⟩
      rw [ht.head?_append, ht.head?] at hhead
      match t, ht with
      | .variable _, _ => exact hvariable hhead.symm
      | .classType _ _ _, _ => exact hclass hhead.symm
      | .array _ _, _ => exact harray hhead.symm

/-! ## Type parameters

Here what is left cannot be kept out of the statements. Whether a colon has a type behind it is decided by the next
character, and behind the last bound of a parameter this is the first character of the next name. In the same place
the list may end, so a name that began with the bracket would be cut off: `Closes` is exactly what is missing. -/

/-- A bound that is left out is seen by what comes next. -/
def BoundAhead (b : Option TypeSignature) (rest : List Char) : Prop :=
  b = none → ∀ c ∈ rest.head?, c ∉ referenceLetters

theorem takes_parseBound (h : TakesReference n reference) :
    Takes n (parseBound reference) fun b cs rest =>
      ':' :: cs = TypeParameter.printBound b ∧ (∀ t ∈ b, t.SpelledReference) ∧ BoundAhead b rest := by
  have hsome {c : Char} (hc : c ∈ referenceLetters) : ∃ P, Takes n (do return some (← reference)) P ∧
      ∀ b cs rest, (cs ++ rest).head? = some c → (P b cs rest ↔ ':' :: cs = TypeParameter.printBound b
        ∧ (∀ t ∈ b, t.SpelledReference) ∧ BoundAhead b rest) := by
    refine ⟨_, h.map _, fun b cs rest hhead => ?_⟩
    constructor
    · rintro ⟨t, rfl, rfl, ht⟩
      exact ⟨rfl, fun _ hmem => Option.some.inj hmem ▸ ht, nofun⟩
    · rintro ⟨hcs, hb, hahead⟩
      cases b with
      | none =>
        obtain rfl := (List.cons.inj hcs).2
        exact absurd hc (hahead rfl c hhead)
      | some t => exact ⟨t, rfl, (List.cons.inj hcs).2, hb t rfl⟩
  refine Takes.peek fun c? => ?_
  split
  · exact hsome (by decide)
  · exact hsome (by decide)
  · exact hsome (by decide)
  · next hclass hvariable harray =>
    have hother : ∀ c ∈ referenceLetters, c? ≠ some c := by
      simp only [referenceLetters, List.forall_mem_cons]
      exact ⟨hclass, hvariable, harray, List.forall_mem_nil _⟩
    refine ⟨_, Takes.pure none, fun b cs rest hhead => ?_⟩
    constructor
    · rintro ⟨rfl, rfl⟩
      exact ⟨rfl, nofun, fun _ c hc hmem => hother c hmem (hhead.symm.trans hc)⟩
    · rintro ⟨hcs, hb, -⟩
      cases b with
      | none => exact ⟨rfl, (List.cons.inj hcs).2⟩
      | some t =>
        obtain ⟨c, hc, cs', hprint⟩ := (hb t rfl).head
        obtain rfl := (List.cons.inj hcs).2
        rw [hprint] at hhead
        exact absurd hhead.symm (hother c hc)

/-- A type parameter. A bound cannot be followed by a colon that is not its own, so only the last bound looks at what
is left behind the parameter. -/
theorem takes_parseParameter (h : TakesReference n reference) (hsize : n ≤ size + 1) :
    Takes n (parseParameter size reference) fun p cs rest =>
      cs = p.print ∧ p.Spelled ∧ (∀ b ∈ p.bounds.getLast?, BoundAhead b rest) ∧ rest.head? ≠ some ':' := by
  have hbounds := takes_itemsMarked (takes_parseBound h)
    (fun b => match b with | none => ⟨_, rfl⟩ | some _ => ⟨_, rfl⟩) (fun b rest hcolon _ c hc => by
      rw [hcolon] at hc; obtain rfl := Option.some.inj hc; decide) hsize
  refine ((takes_identifier _).bind fun name => hbounds.map fun bounds => TypeParameter.mk name bounds).congr
    fun p cs rest => ?_
  constructor
  · rintro ⟨name, _, _, rfl, ⟨rfl, hname, c, hc, hstop⟩, bounds, rfl, rfl, hall, hlast, hcolon⟩
    refine ⟨rfl, ⟨hname, ?_, fun t ht => hall _ ht t rfl⟩, hlast, hcolon⟩
    rintro rfl
    exact hcolon (List.mem_singleton.mp hc ▸ hstop)
  · obtain ⟨name, bounds⟩ := p
    rintro ⟨rfl, ⟨hname, hbounds, hall⟩, hlast, hcolon⟩
    refine ⟨name, _, _, rfl, ⟨rfl, hname, ':', List.mem_singleton_self _, ?_⟩, bounds, rfl, rfl,
      fun b hb t ht => hall t (Option.mem_def.mp ht ▸ hb), hlast, hcolon⟩
    obtain ⟨b, bounds, rfl⟩ := List.exists_cons_of_ne_nil hbounds
    cases b <;> rfl

/-- A type parameter begins with its name. -/
theorem head?_parameter {p : TypeParameter} (h : p.Spelled) (rest : List Char) :
    (p.print ++ rest).head? = p.name.toList.head? := by
  obtain ⟨c, cs, hcs⟩ := List.exists_cons_of_ne_nil fun hnil => h.name.1 (String.toList_eq_nil_iff.mp hnil)
  rw [TypeParameter.print, hcs]
  rfl

/-- The list of type parameters ends at the first bracket in the place of a name. `Row` is what a loop takes, item
by item with what each of them leaves; the induction turns what is left behind an item into the first character of
the next one. -/
theorem row_parameters {ps : List TypeParameter} {cs rest : List Char} :
    Row (untilClose '>') (fun p cs rest => cs = p.print ∧ p.Spelled ∧ (∀ b ∈ p.bounds.getLast?, BoundAhead b rest)
        ∧ rest.head? ≠ some ':') ps cs rest ↔
      cs = ps.flatMap TypeParameter.print ∧ TypeParameter.SpelledRow ps ∧ (∀ p ∈ ps, p.Closes)
        ∧ rest.head? = some '>' := by
  induction ps generalizing cs with
  | nil =>
    constructor
    · rintro ⟨hend⟩
      exact ⟨rfl, trivial, List.forall_mem_nil _, not_not.mp (of_decide_eq_false hend)⟩
    · rintro ⟨rfl, -, -, hend⟩
      exact .nil (decide_eq_false (not_not.mpr hend))
  | cons p ps ih =>
    rw [List.forall_mem_cons, List.flatMap_cons]
    constructor
    · rintro (_ | ⟨hmore, ⟨rfl, hp, hlast, hcolon⟩, hrow⟩)
      obtain ⟨rfl, hps, hcloses, hend⟩ := ih.mp hrow
      refine ⟨rfl, ⟨hp, fun hnone q hq c hc => hlast none hnone rfl c ?_, hps⟩, ⟨?_, hcloses⟩, hend⟩
      · obtain ⟨qs, rfl⟩ := List.head?_eq_some_iff.mp hq
        rwa [List.flatMap_cons, List.append_assoc, head?_parameter hps.1]
      · have hname := of_decide_eq_true hmore
        rwa [head?_parameter hp] at hname
    · rintro ⟨rfl, ⟨hp, hnext, hps⟩, ⟨hcloses, hall⟩, hend⟩
      refine .cons (decide_eq_true (head?_parameter hp _ ▸ hcloses)) ⟨rfl, hp, ?_⟩ (ih.mpr ⟨rfl, hps, hall, hend⟩)
      -- Behind the parameter stands the bracket, or the name of the next one, which has no colon.
      cases ps with
      | nil =>
        rw [List.flatMap_nil, List.nil_append, hend]
        refine ⟨fun b _ _ c hc => ?_, by decide⟩
        obtain rfl := Option.some.inj (hend.symm.trans hc)
        decide
      | cons q qs =>
        rw [List.flatMap_cons, List.append_assoc]
        refine ⟨?_, ?_⟩
        · rintro b hb rfl c hc
          rw [head?_parameter hps.1] at hc
          exact hnext hb q rfl c hc
        · rw [head?_parameter hps.1]
          exact fun hcolon => hps.1.name.2 ':' (List.mem_of_mem_head? hcolon) (List.mem_singleton_self _)

/-- What comes before the body. -/
def printParameters : Option (List TypeParameter) → List Char :=
  printBracketed fun ps => ps.flatMap TypeParameter.print

theorem takes_parseParameters (h : TakesReference n reference) (hsize : n ≤ size + 1) :
    Takes n (parseParameters size reference) fun ps? cs rest =>
      cs = printParameters ps? ∧ (∀ ps ∈ ps?, TypeParameter.SpelledRow ps ∧ ∀ p ∈ ps, p.Closes)
        ∧ (ps? = none → rest.head? ≠ some '<') := by
  have hitems : Takes n (itemsUntil '>' (parseParameter size reference) [] (size + 1)) fun ps cs rest =>
      cs = ps.flatMap TypeParameter.print ∧ (TypeParameter.SpelledRow ps ∧ ∀ p ∈ ps, p.Closes)
        ∧ rest.head? = some '>' := by
    rw [itemsUntil_eq]
    refine (takes_itemsWhile (takes_parseParameter h hsize) ?_ hsize).congr fun _ _ _ => ?_
    · rintro p _ rest ⟨rfl, hp, -⟩ hnil
      exact hp.name.1 (String.toList_eq_nil_iff.mp (List.append_eq_nil_iff.mp hnil).1)
    · rw [row_parameters, and_assoc]
  exact takes_bracketed hitems

/-! ## The body

A body goes on as long as it can, so it is whole where nothing comes that would continue it. -/

theorem takes_parseResult (h : TakesReference n reference) :
    Takes n (parseResult reference) fun r cs _ => cs = SignatureBody.printResult r ∧ ∀ t ∈ r, t.Spelled := by
  have hvoid {t : TypeSignature} (ht : t.Spelled) (rest : List Char) : (t.print ++ rest).head? ≠ some 'V' := by
    obtain ⟨c, cs, hcs, hc⟩ := ht.head
    rw [hcs]
    rintro ⟨rfl⟩
    exact absurd hc (by decide)
  refine Takes.peek fun c? => ?_
  split
  · next hc =>
    subst hc
    refine ⟨_, (Takes.expect 'V' <| Takes.pure none).le n.le_succ, fun r cs rest hhead => ?_⟩
    constructor
    · rintro ⟨_, rfl, rfl, rfl⟩
      exact ⟨rfl, nofun⟩
    · rintro ⟨rfl, hr⟩
      cases r with
      | none => exact ⟨[], rfl, rfl, rfl⟩
      | some t => exact absurd hhead (hvoid (hr t rfl) rest)
  · next hc =>
    refine ⟨_, h.parseType.map _, fun r cs rest hhead => ?_⟩
    constructor
    · rintro ⟨t, rfl, rfl, ht⟩
      exact ⟨rfl, fun _ hmem => Option.some.inj hmem ▸ ht⟩
    · rintro ⟨rfl, hr⟩
      cases r with
      | none => exact absurd hhead.symm hc
      | some t => exact ⟨t, rfl, rfl, hr t rfl⟩

/-- A method ends where nothing more is thrown, and a list of types at the end of the text. -/
def BodyAhead : SignatureBody → List Char → Prop
  | .method _ _ _, rest => rest.head? ≠ some '^'
  | .types _, rest => rest = []

theorem takes_method (h : TakesReference n reference) (hsize : n ≤ size + 1) :
    Takes n (do
      expect '('
      let parameters ← itemsUntil ')' (parseType reference) [] (size + 1)
      expect ')'
      let result? ← parseResult reference
      let throws ← itemsMarked '^' reference [] (size + 1)
      return SignatureBody.method parameters result? throws) fun b cs rest =>
        ∃ parameters result? throws, b = .method parameters result? throws ∧ cs = b.print ∧ b.Spelled
          ∧ rest.head? ≠ some '^' := by
  have hparameters : Takes n (itemsUntil ')' (parseType reference) [] (size + 1)) _ :=
    takes_itemsUntil h.parseType (fun t ht => by
      obtain ⟨c, cs, hcs, hc⟩ := ht.head
      exact ⟨c, cs, hcs, fun heq => hc (heq ▸ List.mem_cons_self)⟩) hsize
  have hthrown : Takes n reference fun t cs _ =>
      '^' :: cs = '^' :: t.print ∧ t.SpelledReference ∧ True := h.congr fun t cs _ => by simp
  have hthrows := takes_itemsMarked hthrown (fun _ => ⟨_, rfl⟩) (fun _ _ _ => trivial) hsize
  refine ((Takes.expect '(' <| hparameters.bind fun ps => (Takes.expect ')' <| (takes_parseResult h).bind fun r =>
    hthrows.map fun throws => SignatureBody.method ps r throws).le n.le_succ).le n.le_succ).congr fun b cs rest => ?_
  constructor
  · rintro ⟨_, rfl, ps, _, _, rfl, ⟨rfl, hps, -⟩, _, rfl, r, _, _, rfl, ⟨rfl, hr⟩, throws, rfl, rfl, hall, -, hend⟩
    exact ⟨ps, r, throws, rfl, rfl, ⟨hps, hr, hall⟩, hend⟩
  · rintro ⟨ps, r, throws, rfl, rfl, ⟨hps, hr, hall⟩, hend⟩
    exact ⟨_, rfl, ps, _, _, rfl, ⟨rfl, hps, rfl⟩, _, rfl, r, _, _, rfl, ⟨rfl, hr⟩, throws, rfl, rfl, hall,
      fun _ _ => trivial, hend⟩

theorem takes_types (h : TakesReference n reference) (hsize : n ≤ size + 1) :
    Takes n (do
      let first ← reference
      let others ← itemsToEnd reference [] (size + 1)
      return SignatureBody.types (first :: others)) fun b cs rest =>
        ∃ ts, b = .types ts ∧ cs = b.print ∧ b.Spelled ∧ rest = [] := by
  have hothers := takes_itemsToEnd h (fun t ht => by
    obtain ⟨c, -, cs, hcs⟩ := ht.head
    exact hcs ▸ List.cons_ne_nil c cs) hsize
  refine (h.bind fun first => hothers.map fun others => SignatureBody.types (first :: others)).congr
    fun b cs rest => ?_
  constructor
  · rintro ⟨first, _, _, rfl, ⟨rfl, hfirst⟩, others, rfl, rfl, hall, rfl⟩
    exact ⟨first :: others, rfl, rfl, ⟨nofun, List.forall_mem_cons.mpr ⟨hfirst, hall⟩⟩, rfl⟩
  · rintro ⟨ts, rfl, rfl, ⟨hts, hall⟩, rfl⟩
    obtain ⟨first, others, rfl⟩ := List.exists_cons_of_ne_nil hts
    rw [List.forall_mem_cons] at hall
    exact ⟨first, _, _, rfl, ⟨rfl, hall.1⟩, others, rfl, rfl, hall.2, rfl⟩

/-- A list of types begins like a reference type. -/
theorem head?_types {ts : List TypeSignature} (h : (SignatureBody.types ts).Spelled) (rest : List Char) :
    ∃ c ∈ referenceLetters, ((SignatureBody.types ts).print ++ rest).head? = some c := by
  obtain ⟨t, others, rfl⟩ := List.exists_cons_of_ne_nil h.1
  obtain ⟨c, hc, cs, hcs⟩ := (h.2 t List.mem_cons_self).head
  refine ⟨c, hc, ?_⟩
  rw [SignatureBody.print, List.flatMap_cons, hcs]
  rfl

theorem takes_parseBody (h : TakesReference n reference) (hsize : n ≤ size + 1) :
    Takes n (parseBody size reference) fun b cs rest => cs = b.print ∧ b.Spelled ∧ BodyAhead b rest := by
  refine Takes.peek fun c? => ?_
  split
  · next hopen =>
    refine ⟨_, takes_method h hsize, fun b cs rest hhead => ?_⟩
    constructor
    · rintro ⟨ps, r, throws, rfl, hb⟩
      exact hb
    · rintro ⟨rfl, hb⟩
      match b, hb with
      | .method ps r throws, hb => exact ⟨ps, r, throws, rfl, rfl, hb⟩
      | .types ts, hb =>
        obtain ⟨c, hc, htypes⟩ := head?_types hb.1 rest
        obtain rfl := Option.some.inj (htypes.symm.trans (hhead.trans hopen))
        exact absurd hc (by decide)
  · next hc =>
    refine ⟨_, takes_types h hsize, fun b cs rest hhead => ?_⟩
    constructor
    · rintro ⟨ts, rfl, hb⟩
      exact hb
    · rintro ⟨rfl, hb⟩
      match b, hb with
      | .method ps r throws, hb => exact absurd hhead.symm hc
      | .types ts, hb => exact ⟨ts, rfl, rfl, hb⟩

/-! ## A whole signature -/

/-- A body is not taken for a list of type parameters. -/
theorem head?_body {b : SignatureBody} (h : b.Spelled) (rest : List Char) : (b.print ++ rest).head? ≠ some '<' := by
  match b, h with
  | .method _ _ _, _ => exact nofun
  | .types ts, h =>
    obtain ⟨c, hc, htypes⟩ := head?_types h rest
    rw [htypes]
    rintro ⟨rfl⟩
    exact absurd hc (by decide)

theorem print_eq (s : Signature) : s.print = printParameters s.parameters? ++ s.body.print := by
  obtain ⟨parameters?, body⟩ := s
  cases parameters? <;> rfl

theorem takes_scanner (size : Nat) : Takes (size + 1) (scanner size) fun s cs rest =>
    cs = s.print ∧ s.Spelled ∧ s.Closes ∧ rest = [] := by
  have hreference := takes_parseReference size (Nat.le_refl (size + 1))
  have hend (s : Signature) : Takes (size + 1) (do
      if (← peek).isSome then Scanner.refuse
      return s) fun a cs rest => a = s ∧ cs = [] ∧ rest = [] := by
    refine Takes.peek fun c? => ?_
    cases c? with
    | none =>
      refine ⟨_, Takes.pure s, fun a cs rest hhead => ?_⟩
      have hnil := List.append_eq_nil_iff.mp (List.head?_eq_none_iff.mp hhead)
      exact ⟨fun h => ⟨h.1, hnil⟩, fun h => ⟨h.1, h.2.1⟩⟩
    | some c =>
      refine ⟨_, Takes.refuse, fun a cs rest hhead => iff_of_false id ?_⟩
      rintro ⟨-, rfl, rfl⟩
      cases hhead
  refine ((takes_parseParameters hreference le_rfl).bind fun ps? =>
    (takes_parseBody hreference le_rfl).bind fun body => hend ⟨ps?, body⟩).congr fun s cs rest => ?_
  constructor
  · rintro ⟨ps?, _, _, rfl, ⟨rfl, hps, -⟩, body, _, _, rfl, ⟨rfl, hbody, -⟩, rfl, rfl, rfl⟩
    refine ⟨?_, ⟨fun ps hmem => (hps ps hmem).1, hbody⟩, fun ps hmem => (hps ps hmem).2, rfl⟩
    rw [print_eq, List.append_nil]
  · obtain ⟨ps?, body⟩ := s
    rintro ⟨rfl, ⟨hrows, hbody⟩, hcloses, rfl⟩
    have hahead : BodyAhead body [] := by
      cases body with
      | method ps r throws => exact nofun
      | types ts => rfl
    refine ⟨ps?, printParameters ps?, body.print, print_eq _, ⟨rfl, fun ps hmem => ⟨hrows ps hmem, hcloses ps hmem⟩,
      fun _ => head?_body hbody []⟩, body, body.print, [], (List.append_nil _).symm, ⟨rfl, hbody, hahead⟩, rfl, rfl, rfl⟩

/-- **A text is read as a signature exactly if the grammar derives it**, with the same tree. The text is shorter than
the fuel that its length gives, so the bound in `Takes` is met and disappears. -/
theorem ofString_eq_ok {text : String} {s : Signature} : ofString text = .ok s ↔ s.Spells text ∧ s.Closes := by
  have hlength : text.toList.length < text.length + 1 := by
    rw [String.length_toList]
    exact Nat.lt_succ_self _
  have hscan : (∃ offset, scanner text.length ⟨text.toList, 0⟩ = .ok (s, ⟨[], offset⟩)) ↔
      s.Spells text ∧ s.Closes := by
    rw [takes_scanner text.length text.toList 0 s [] hlength]
    constructor
    · rintro ⟨_, htext, rfl, hspelled, hcloses, -⟩
      refine ⟨⟨hspelled, String.toList_injective ?_⟩, hcloses⟩
      rw [toString, String.toList_ofList, htext, List.append_nil]
    · rintro ⟨⟨hspelled, rfl⟩, hcloses⟩
      exact ⟨s.print, by rw [toString, String.toList_ofList, List.append_nil], rfl, hspelled, hcloses, rfl⟩
  -- What is left is known to be nothing, whatever place the scanner ends in.
  rw [← hscan]
  unfold ofString
  constructor
  · intro h
    split at h
    · next s' place hok =>
      obtain rfl := Except.ok.inj h
      obtain ⟨_, -, -, -, -, hrest⟩ := (takes_scanner text.length text.toList 0 s' place.rest hlength).mp ⟨_, hok⟩
      exact ⟨place.offset, by rw [hok, ← hrest]⟩
    · cases h
  · rintro ⟨offset, hok⟩
    rw [hok]

end

end Signature

end Relabel
