import Relabel.Proofs.Text.Split
import Relabel.Proofs.Type.Grammar

/-!
# What a scanner takes

`Takes n x P` says exactly what a scanner does on texts shorter than `n`: it gives `a` and leaves `rest` if and
only if what it took and what it left are related to `a` by `P`. What is left counts, because some scanners look
at the character behind what they take.

Both directions are carried along together, one rule for each way to put scanners together. The length is there
for the scanners that run on fuel: each step of theirs takes at least one character, so fuel for more steps than
the text has characters never runs out.
-/

set_option autoImplicit false

namespace Relabel.Signature.Scanner

variable {α β : Type} {n : Nat}

theorem bind_eq_ok {x : Scanner α} {f : α → Scanner β} {place place'' : Place} {b : β} :
    (x >>= f) place = .ok (b, place'') ↔
      ∃ a place', x place = .ok (a, place') ∧ f a place' = .ok (b, place'') := by
  change Except.bind (x place) (fun y => f y.1 y.2) = _ ↔ _
  cases h : x place with
  | error e => simp [Except.bind]
  | ok y =>
    obtain ⟨a, place'⟩ := y
    simp [Except.bind]

/-- What the scanner gives, takes and leaves, for every text shorter than `n`. -/
def Takes (n : Nat) (x : Scanner α) (P : α → List Char → List Char → Prop) : Prop :=
  ∀ text offset a rest, text.length < n →
    ((∃ offset', x ⟨text, offset⟩ = .ok (a, ⟨rest, offset'⟩)) ↔
      ∃ taken, text = taken ++ rest ∧ P a taken rest)

namespace Takes

variable {x : Scanner α} {P Q : α → List Char → List Char → Prop}

theorem congr (h : Takes n x P) (hPQ : ∀ a cs rest, P a cs rest ↔ Q a cs rest) : Takes n x Q := by
  intro text offset a rest htext
  rw [h text offset a rest htext]
  exact exists_congr fun cs => and_congr_right' (hPQ a cs rest)

theorem le {m : Nat} (h : Takes n x P) (hmn : m ≤ n) : Takes m x P :=
  fun text offset a rest htext => h text offset a rest (htext.trans_le hmn)

/-- No text is that short. -/
theorem zero : Takes 0 x P :=
  fun _ _ _ _ htext => absurd htext (Nat.not_lt_zero _)

theorem pure (a : α) : Takes n (Pure.pure a) fun b cs _ => b = a ∧ cs = [] := by
  intro text offset b rest _
  constructor
  · rintro ⟨_, h⟩
    obtain ⟨rfl, hplace⟩ := Prod.mk.inj (Except.ok.inj h)
    obtain ⟨rfl, -⟩ := Place.mk.inj hplace
    exact ⟨[], rfl, rfl, rfl⟩
  · rintro ⟨_, rfl, rfl, rfl⟩
    exact ⟨offset, rfl⟩

theorem refuse : Takes n (Scanner.refuse (α := α)) fun _ _ _ => False := by
  intro text offset a rest _
  constructor
  · rintro ⟨_, h⟩
    cases h
  · rintro ⟨_, _, h⟩
    exact h.elim

/-- One scanner, and then another on what the first one left. -/
theorem bind {f : α → Scanner β} {Q : α → β → List Char → List Char → Prop} (hx : Takes n x P)
    (hf : ∀ a, Takes n (f a) (Q a)) :
    Takes n (x >>= f) fun b cs rest =>
      ∃ a first second, cs = first ++ second ∧ P a first (second ++ rest) ∧ Q a b second rest := by
  intro text offset b rest htext
  constructor
  · rintro ⟨_, h⟩
    obtain ⟨a, ⟨middle, offset'⟩, ha, hb⟩ := bind_eq_ok.mp h
    obtain ⟨first, rfl, hP⟩ := (hx text offset a middle htext).mp ⟨_, ha⟩
    have hmiddle : middle.length < n := by
      rw [List.length_append] at htext
      omega
    obtain ⟨second, rfl, hQ⟩ := (hf a middle offset' b rest hmiddle).mp ⟨_, hb⟩
    exact ⟨first ++ second, (List.append_assoc ..).symm, a, first, second, rfl, hP, hQ⟩
  · rintro ⟨_, rfl, a, first, second, rfl, hP, hQ⟩
    rw [List.append_assoc] at htext ⊢
    have hmiddle : (second ++ rest).length < n := by
      rw [List.length_append] at htext
      omega
    obtain ⟨offset', ha⟩ := (hx _ offset a _ htext).mpr ⟨first, rfl, hP⟩
    obtain ⟨offset'', hb⟩ := (hf a _ offset' b rest hmiddle).mpr ⟨second, rfl, hQ⟩
    exact ⟨offset'', bind_eq_ok.mpr ⟨a, _, ha, hb⟩⟩

/-- A function of what a scanner gives. -/
theorem map (h : Takes n x P) (g : α → β) :
    Takes n (x >>= fun a => Pure.pure (g a)) fun b cs rest => ∃ a, b = g a ∧ P a cs rest := by
  refine (h.bind fun a => pure (g a)).congr fun b cs rest => exists_congr fun a => ?_
  constructor
  · rintro ⟨first, _, rfl, ha, rfl, rfl⟩
    rw [List.append_nil]
    exact ⟨rfl, ha⟩
  · rintro ⟨rfl, ha⟩
    exact ⟨cs, [], (List.append_nil cs).symm, ha, rfl, rfl⟩

/-- Looking ahead takes nothing, and what comes then need only be right for texts with that first character. -/
theorem peek {f : Option Char → Scanner α} (hf : ∀ c?, ∃ P, Takes n (f c?) P ∧
    ∀ a cs rest, (cs ++ rest).head? = c? → (P a cs rest ↔ Q a cs rest)) : Takes n (Scanner.peek >>= f) Q := by
  intro text offset a rest htext
  have hpeek (place' : Place) : (Scanner.peek >>= f) ⟨text, offset⟩ = .ok (a, place')
      ↔ f text.head? ⟨text, offset⟩ = .ok (a, place') := Iff.rfl
  obtain ⟨P, hP, hPQ⟩ := hf text.head?
  simp only [hpeek, hP text offset a rest htext]
  exact exists_congr fun cs => and_congr_right fun htaken => hPQ a cs rest (htaken ▸ rfl)

end Takes

theorem takes_expect (wanted : Char) : Takes n (expect wanted) fun _ cs _ => cs = [wanted] := by
  intro text offset _ rest _
  constructor
  · rintro ⟨_, h⟩
    simp only [expect] at h
    split at h
    · next c after =>
      split at h
      · next hc =>
        obtain ⟨-, hplace⟩ := Prod.mk.inj (Except.ok.inj h)
        obtain ⟨rfl, -⟩ := Place.mk.inj hplace
        exact ⟨[wanted], by rw [hc]; rfl, rfl⟩
      · cases h
    · cases h
  · rintro ⟨_, rfl, rfl⟩
    refine ⟨offset + wanted.utf8Size, ?_⟩
    simp only [expect, List.cons_append, List.nil_append, if_true]
    rfl

/-- A given character, and then the rest, which is shorter. -/
theorem Takes.expect (wanted : Char) {y : Scanner β} {P : β → List Char → List Char → Prop} (hy : Takes n y P) :
    Takes (n + 1) (Scanner.expect wanted >>= fun _ => y) fun b cs rest => ∃ cs', cs = wanted :: cs' ∧ P b cs' rest := by
  intro text offset b rest htext
  constructor
  · rintro ⟨_, h⟩
    obtain ⟨_, ⟨middle, offset'⟩, hc, hb⟩ := bind_eq_ok.mp h
    obtain ⟨_, rfl, rfl⟩ := (takes_expect wanted text offset () middle htext).mp ⟨_, hc⟩
    obtain ⟨cs, rfl, hP⟩ := (hy middle offset' b rest (Nat.lt_of_succ_lt_succ htext)).mp ⟨_, hb⟩
    exact ⟨wanted :: cs, rfl, cs, rfl, hP⟩
  · rintro ⟨_, rfl, cs, rfl, hP⟩
    obtain ⟨offset', hc⟩ := (takes_expect wanted _ offset () (cs ++ rest) htext).mpr ⟨[wanted], rfl, rfl⟩
    obtain ⟨offset'', hb⟩ := (hy _ offset' b rest (Nat.lt_of_succ_lt_succ htext)).mpr ⟨cs, rfl, hP⟩
    exact ⟨offset'', bind_eq_ok.mpr ⟨(), _, hc, hb⟩⟩

theorem takes_identifier (stops : List Char) : Takes n (identifier stops) fun name cs rest =>
    cs = name.toList ∧ IsIdentifier stops name ∧ ∃ c ∈ stops, rest.head? = some c := by
  intro text offset name rest _
  constructor
  · rintro ⟨_, h⟩
    simp only [identifier] at h
    split at h
    · cases h
    · cases h
    · next taken after hempty hend hspan =>
      obtain ⟨rfl, hplace⟩ := Prod.mk.inj (Except.ok.inj h)
      obtain ⟨rfl, -⟩ := Place.mk.inj hplace
      obtain ⟨htext, hall, hstop⟩ := Text.span_eq hspan
      obtain ⟨c, after, rfl⟩ := List.exists_cons_of_ne_nil hend
      refine ⟨taken, htext, String.toList_ofList.symm, ⟨?_, ?_⟩, c, by simpa using hstop c rfl, rfl⟩
      · simpa using hempty
      · simpa using hall
  · rintro ⟨_, rfl, rfl, ⟨hempty, hname⟩, c, hc, hrest⟩
    obtain ⟨rest, rfl⟩ := List.head?_eq_some_iff.mp hrest
    have hspan : (name.toList ++ c :: rest).span (fun c => !stops.contains c) = (name.toList, c :: rest) :=
      Text.span_append rest (by simpa using hname) (by simpa using hc)
    refine ⟨name.toList.foldl (fun n c => n + c.utf8Size) offset, ?_⟩
    simp only [identifier, hspan]
    split
    · next heq => simp_all
    · next heq => simp_all
    · next heq =>
      obtain ⟨rfl, rfl⟩ := Prod.mk.inj heq
      change Except.ok (String.ofList name.toList, _) = _
      rw [String.ofList_toList]

/-! ## Rows of items -/

/-- Items for as long as a test of what is left says so. -/
def itemsWhile (more : List Char → Bool) (item : Scanner α) (acc : List α) : (fuel : Nat) → Scanner (List α)
  | 0, place => refuse place
  | fuel + 1, place =>
    if more place.rest then
      match item place with
      | .error offset => .error offset
      | .ok (a, place) => itemsWhile more item (a :: acc) fuel place
    else .ok (acc.reverse, place)

/-- Another item begins unless there is the closing character. -/
def untilClose (close : Char) (cs : List Char) : Bool := cs.head? ≠ some close

/-- Another item begins with its mark. -/
def atMark (mark : Char) (cs : List Char) : Bool := cs.head? = some mark

/-- Another item begins unless the text ends. -/
def beforeEnd (cs : List Char) : Bool := !cs.isEmpty

theorem itemsUntil_eq (close : Char) (item : Scanner α) (acc : List α) (fuel : Nat) :
    itemsUntil close item acc fuel = itemsWhile (untilClose close) item acc fuel := by
  induction fuel generalizing acc with
  | zero => rfl
  | succ fuel ih =>
    funext place
    by_cases hclose : place.rest.head? = some close
    · simp [itemsUntil, itemsWhile, untilClose, hclose]
    · cases hitem : item place <;> simp [itemsUntil, itemsWhile, untilClose, hclose, hitem, ih]

theorem itemsToEnd_eq (item : Scanner α) (acc : List α) (fuel : Nat) :
    itemsToEnd item acc fuel = itemsWhile beforeEnd item acc fuel := by
  induction fuel generalizing acc with
  | zero => rfl
  | succ fuel ih =>
    funext place
    by_cases hend : place.rest.isEmpty
    · simp [itemsToEnd, itemsWhile, beforeEnd, hend]
    · cases hitem : item place <;> simp [itemsToEnd, itemsWhile, beforeEnd, hend, hitem, ih]

theorem itemsMarked_eq (mark : Char) (item : Scanner α) (acc : List α) (fuel : Nat) :
    itemsMarked mark item acc fuel = itemsWhile (atMark mark) (expect mark >>= fun _ => item) acc fuel := by
  induction fuel generalizing acc with
  | zero => rfl
  | succ fuel ih =>
    funext place
    obtain ⟨text, offset⟩ := place
    match text with
    | [] => rfl
    | c :: rest =>
      by_cases hc : c = mark
      · subst hc
        have hmarked : (expect c >>= fun _ => item) ⟨c :: rest, offset⟩
            = (advance [c] rest *> item : Scanner α) ⟨c :: rest, offset⟩ := by
          change Except.bind (expect c ⟨c :: rest, offset⟩) (fun y => item y.2) = _
          simp only [expect, if_true]
          rfl
        cases hitem : (advance [c] rest *> item : Scanner α) ⟨c :: rest, offset⟩ <;>
          simp [itemsMarked, itemsWhile, atMark, hmarked, hitem, ih]
      · simp [itemsMarked, itemsWhile, atMark, hc]

/-- What a row of items takes: what each item takes, where the test says that there is another one, and then the
test says that there is none. -/
inductive Row (more : List Char → Bool) (P : α → List Char → List Char → Prop) :
    List α → List Char → List Char → Prop
  | nil {rest : List Char} (hend : more rest = false) : Row more P [] [] rest
  | cons {a : α} {as : List α} {first second rest : List Char} (hmore : more (first ++ (second ++ rest)) = true)
      (ha : P a first (second ++ rest)) (has : Row more P as second rest) :
      Row more P (a :: as) (first ++ second) rest

/-- With more fuel than characters, and items that take characters, the row ends only where the test says so. -/
theorem takes_itemsWhile {more : List Char → Bool} {item : Scanner α} {P : α → List Char → List Char → Prop}
    (hitem : Takes n item P) (hlong : ∀ a cs rest, P a cs rest → cs ≠ []) {fuel : Nat} (hfuel : n ≤ fuel) :
    Takes n (itemsWhile more item [] fuel) (Row more P) := by
  suffices hall : ∀ fuel acc text offset items rest, text.length < n → text.length < fuel →
      ((∃ offset', itemsWhile more item acc fuel ⟨text, offset⟩ = .ok (items, ⟨rest, offset'⟩)) ↔
        ∃ as taken, items = acc.reverse ++ as ∧ text = taken ++ rest ∧ Row more P as taken rest) by
    intro text offset items rest htext
    rw [hall fuel [] text offset items rest htext (htext.trans_le hfuel)]
    simp
  intro fuel
  induction fuel with
  | zero => exact fun _ _ _ _ _ _ h => absurd h (Nat.not_lt_zero _)
  | succ fuel ih =>
    intro acc text offset items rest htext hfuel
    simp only [itemsWhile]
    by_cases hmore : more text
    · simp only [hmore, if_true]
      constructor
      · rintro ⟨offset'', h⟩
        split at h
        · cases h
        · next a place ha =>
          obtain ⟨middle, offset'⟩ := place
          obtain ⟨first, rfl, hP⟩ := (hitem text offset a middle htext).mp ⟨_, ha⟩
          have hfirst := List.length_pos_iff.mpr (hlong a first middle hP)
          rw [List.length_append] at htext hfuel
          obtain ⟨as, second, rfl, rfl, hrow⟩ :=
            (ih (a :: acc) middle offset' items rest (by omega) (by omega)).mp ⟨_, h⟩
          exact ⟨a :: as, first ++ second, by simp, (List.append_assoc ..).symm, .cons hmore hP hrow⟩
      · rintro ⟨_, _, rfl, rfl, hrow⟩
        cases hrow with
        | nil hend =>
          rw [List.nil_append, hend] at hmore
          cases hmore
        | @cons a as first second _ _ hP hrow =>
          have hfirst := List.length_pos_iff.mpr (hlong a first _ hP)
          rw [List.append_assoc] at htext hfuel ⊢
          obtain ⟨offset', ha⟩ := (hitem _ offset a _ htext).mpr ⟨first, rfl, hP⟩
          rw [List.length_append] at htext hfuel
          obtain ⟨offset'', has⟩ := (ih (a :: acc) (second ++ rest) offset' (acc.reverse ++ a :: as) rest (by omega)
            (by omega)).mpr ⟨as, second, by simp, rfl, hrow⟩
          exact ⟨offset'', by rw [ha]; exact has⟩
    · simp only [hmore]
      constructor
      · rintro ⟨_, h⟩
        obtain ⟨rfl, hplace⟩ := Prod.mk.inj (Except.ok.inj h)
        obtain ⟨rfl, -⟩ := Place.mk.inj hplace
        exact ⟨[], [], by simp, rfl, .nil (by simpa using hmore)⟩
      · rintro ⟨_, _, rfl, rfl, hrow⟩
        cases hrow with
        | nil _ => exact ⟨offset, by simp⟩
        | cons hmore' _ _ =>
          rw [List.append_assoc] at hmore
          exact absurd hmore' hmore

variable {item : Scanner α} {print : α → List Char} {S : α → Prop} {ahead : α → List Char → Prop} {fuel : Nat}

/-- A row of items that tell of themselves that there is another one. What an item wants to see behind it is what
another item begins with, so it matters for the last one only. -/
theorem row_iff {more : List Char → Bool} (hmore : ∀ a rest, S a → more (print a ++ rest) = true)
    (hahead : ∀ a rest, more rest = true → ahead a rest) {as : List α} {cs rest : List Char} :
    Row more (fun a cs rest => cs = print a ∧ S a ∧ ahead a rest) as cs rest ↔
      cs = as.flatMap print ∧ (∀ a ∈ as, S a) ∧ (∀ a ∈ as.getLast?, ahead a rest) ∧ more rest = false := by
  induction as generalizing cs with
  | nil =>
    constructor
    · rintro ⟨hend⟩
      exact ⟨rfl, List.forall_mem_nil _, nofun, hend⟩
    · rintro ⟨rfl, -, -, hend⟩
      exact .nil hend
  | cons a as ih =>
    rw [List.forall_mem_cons, List.flatMap_cons]
    constructor
    · rintro (_ | ⟨_, ⟨rfl, ha, hnext⟩, hrow⟩)
      obtain ⟨rfl, has, hlast, hend⟩ := ih.mp hrow
      refine ⟨rfl, ⟨ha, has⟩, ?_, hend⟩
      cases as with
      | nil => simpa using hnext
      | cons b as => rwa [List.getLast?_cons_cons]
    · rintro ⟨rfl, ⟨ha, has⟩, hlast, hend⟩
      refine .cons (hmore a _ ha) ⟨rfl, ha, ?_⟩ (ih.mpr ⟨rfl, has, ?_, hend⟩)
      · cases as with
        | nil => exact hlast a rfl
        | cons b as =>
          rw [List.flatMap_cons, List.append_assoc]
          exact hahead a _ (hmore b _ (has b List.mem_cons_self))
      · cases as with
        | nil => exact nofun
        | cons b as => rwa [List.getLast?_cons_cons] at hlast

/-- A row of items that take no notice of what is behind them. -/
theorem row_iff_of_forall {more : List Char → Bool} (hmore : ∀ a rest, S a → more (print a ++ rest) = true)
    {as : List α} {cs rest : List Char} :
    Row more (fun a cs _ => cs = print a ∧ S a) as cs rest ↔
      cs = as.flatMap print ∧ (∀ a ∈ as, S a) ∧ more rest = false := by
  have hrow : Row more (fun a cs _ => cs = print a ∧ S a ∧ True) as cs rest ↔ _ := row_iff hmore fun _ _ _ => trivial
  simpa using hrow

theorem takes_itemsMarked {mark : Char}
    (hitem : Takes n item fun a cs rest => mark :: cs = print a ∧ S a ∧ ahead a rest)
    (hprint : ∀ a, ∃ cs, print a = mark :: cs) (hahead : ∀ a rest, rest.head? = some mark → ahead a rest)
    (hfuel : n ≤ fuel) :
    Takes n (itemsMarked mark item [] fuel) fun as cs rest =>
      cs = as.flatMap print ∧ (∀ a ∈ as, S a) ∧ (∀ a ∈ as.getLast?, ahead a rest) ∧ rest.head? ≠ some mark := by
  have hmarked : Takes n (expect mark >>= fun _ => item) fun a cs rest => cs = print a ∧ S a ∧ ahead a rest := by
    refine ((Takes.expect mark hitem).le n.le_succ).congr fun a cs rest => ?_
    constructor
    · rintro ⟨_, rfl, ha⟩
      exact ha
    · rintro ⟨rfl, ha⟩
      obtain ⟨cs, hcs⟩ := hprint a
      exact ⟨cs, hcs, hcs.symm, ha⟩
  have hmore (a : α) (rest : List Char) (_ : S a) : atMark mark (print a ++ rest) = true := by
    obtain ⟨cs, hcs⟩ := hprint a
    simp [atMark, hcs]
  rw [itemsMarked_eq]
  refine (takes_itemsWhile hmarked ?_ hfuel).congr fun as cs rest => ?_
  · rintro a _ _ ⟨rfl, -⟩
    obtain ⟨cs, hcs⟩ := hprint a
    exact hcs ▸ List.cons_ne_nil mark cs
  · rw [row_iff hmore fun a rest h => hahead a rest (of_decide_eq_true h), atMark, decide_eq_false_iff_not]

theorem takes_itemsUntil {close : Char} (hitem : Takes n item fun a cs _ => cs = print a ∧ S a)
    (hprint : ∀ a, S a → ∃ c cs, print a = c :: cs ∧ c ≠ close) (hfuel : n ≤ fuel) :
    Takes n (itemsUntil close item [] fuel) fun as cs rest =>
      cs = as.flatMap print ∧ (∀ a ∈ as, S a) ∧ rest.head? = some close := by
  have hmore (a : α) (rest : List Char) (ha : S a) : untilClose close (print a ++ rest) = true := by
    obtain ⟨c, cs, hcs, hc⟩ := hprint a ha
    simp [untilClose, hcs, hc]
  rw [itemsUntil_eq]
  refine (takes_itemsWhile hitem ?_ hfuel).congr fun as cs rest => ?_
  · rintro a _ _ ⟨rfl, ha⟩
    obtain ⟨c, cs, hcs, -⟩ := hprint a ha
    exact hcs ▸ List.cons_ne_nil c cs
  · rw [row_iff_of_forall hmore, untilClose, decide_eq_false_iff_not, not_not]

theorem takes_itemsToEnd (hitem : Takes n item fun a cs _ => cs = print a ∧ S a)
    (hprint : ∀ a, S a → print a ≠ []) (hfuel : n ≤ fuel) :
    Takes n (itemsToEnd item [] fuel) fun as cs rest => cs = as.flatMap print ∧ (∀ a ∈ as, S a) ∧ rest = [] := by
  have hmore (a : α) (rest : List Char) (ha : S a) : beforeEnd (print a ++ rest) = true := by
    simp [beforeEnd, hprint a ha]
  rw [itemsToEnd_eq]
  refine (takes_itemsWhile hitem ?_ hfuel).congr fun as cs rest => ?_
  · rintro a _ _ ⟨rfl, ha⟩
    exact hprint a ha
  · rw [row_iff_of_forall hmore]
    simp [beforeEnd]

end Relabel.Signature.Scanner
