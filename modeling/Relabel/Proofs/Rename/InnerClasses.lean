import Relabel.Proofs.Rename.Class
import Relabel.Proofs.Text.Split

/-!
# Simple names of nested classes

An entry for a nested class gives its simple name, which is what the name of the class has behind that of the class
around it. Renaming never looks at the class around it: the simple name stays if the class keeps its name or the last
part of its path, and otherwise it is what follows the last `$` of the new name, without the digits in front. So an
entry that decomposes the name of its class still does so afterwards exactly if this happens to be the segment that
the new name has behind that of the class around it: it is not if the segment has a `$` of its own, as the class of a
nested object has, or begins with a digit.
-/

set_option autoImplicit false

namespace Relabel

/-! ## The entries of a class -/

/-- The entries for nested classes in the data of an attribute. Attributes in it have entries of their own. -/
def AttributeInfo.nestedClasses : AttributeInfo → List InnerClass
  | .innerClasses classes => classes
  | _ => []

/-- The entries for nested classes in an element of the body, at every depth. -/
def ClassItem.nestedClasses (item : ClassItem) : List InnerClass :=
  item.within.flatMap fun a => a.info.nestedClasses

/-- The entry gives the name of its class as that of the class around it and the simple name. -/
structure InnerClass.Decomposes (pool : Pool) (c : InnerClass) (outer simple : String) : Prop where
  innerClass : pool.className c.innerClass = .ok (outer ++ "$" ++ simple)
  outerClass : pool.className c.outerClass = .ok outer
  innerName : pool.utf8 c.innerName = .ok simple

namespace Renamer

/-! ## Simple names -/

/-- The class keeps its name, or the last part of its path. -/
def Stays (asRead renamed : String) : Prop :=
  asRead = renamed ∨ ∃ before before' part,
    Text.splitAtLast? '/' asRead = some (before, part) ∧ Text.splitAtLast? '/' renamed = some (before', part)

theorem innerSimpleName_of_stays {asRead renamed : String} (h : Stays asRead renamed) (inner : String) :
    innerSimpleName asRead renamed inner = inner := by
  unfold innerSimpleName
  split
  · rfl
  · next hne =>
    obtain ⟨before, before', part, hread, hrenamed⟩ := h.resolve_left hne
    simp [hread, hrenamed]

theorem innerSimpleName_of_moves {asRead renamed : String} (h : ¬Stays asRead renamed) (inner : String) :
    innerSimpleName asRead renamed inner = innerSimpleName.nestedName renamed inner := by
  rw [Stays, not_or] at h
  unfold innerSimpleName
  rw [if_neg h.1]
  split
  · next before part before' part' hread hrenamed =>
    have hpart : part ≠ part' := fun heq => h.2 ⟨before, before', part, hread, heq ▸ hrenamed⟩
    rw [if_neg hpart]
  · rfl

/-- What follows the last `$` is the whole segment if it has no other `$` and does not begin with a digit. -/
theorem nestedName_eq_iff {outer segment : String} (hsegment : segment ≠ "") (inner : String) :
    innerSimpleName.nestedName (outer ++ "$" ++ segment) inner = segment ↔
      '$' ∉ segment.toList ∧ ∀ c ∈ segment.toList.head?, c.isDigit = false := by
  by_cases hdollar : '$' ∈ segment.toList
  · refine iff_of_false (fun heq => ?_) fun h => h.1 hdollar
    obtain ⟨before, last, rfl, hlast⟩ := Text.exists_last hdollar
    have hcut : Text.splitAtLast? '$' (outer ++ "$" ++ (before ++ "$" ++ last)) = some (outer ++ "$" ++ before, last) := by
      have hjoin : outer ++ "$" ++ (before ++ "$" ++ last) = outer ++ "$" ++ before ++ "$" ++ last := by
        simp only [String.append_assoc]
      rw [hjoin]
      exact Text.splitAtLast?_append hlast _
    -- What follows the last `$` is shorter than the segment that has it.
    have hlength : (last.toList.dropWhile Char.isDigit).length = (before ++ "$" ++ last).toList.length := by
      rw [innerSimpleName.nestedName, show String.singleton '$' = "$" from rfl, hcut] at heq
      rw [← heq, String.toList_ofList]
    have hshort := (List.dropWhile_sublist Char.isDigit (l := last.toList)).length_le
    rw [hlength] at hshort
    simp at hshort
    omega
  · have hcut : Text.splitAtLast? '$' (outer ++ "$" ++ segment) = some (outer, segment) :=
      Text.splitAtLast?_append hdollar outer
    rw [innerSimpleName.nestedName, hcut]
    obtain ⟨c, cs, hcs⟩ := List.exists_cons_of_ne_nil fun hnil => hsegment (String.toList_eq_nil_iff.mp hnil)
    have hkept : String.ofList (segment.toList.dropWhile Char.isDigit) = segment ↔ c.isDigit = false := by
      rw [← String.toList_inj, String.toList_ofList, hcs, List.dropWhile_cons]
      cases hc : c.isDigit with
      | false => simp
      | true =>
        refine iff_of_false (fun heq => ?_) Bool.noConfusion
        have hshort := (List.dropWhile_sublist Char.isDigit (l := cs)).length_le
        rw [if_pos rfl] at heq
        rw [heq, List.length_cons] at hshort
        omega
    rw [hcs] at hdollar ⊢
    simp [hkept, hdollar]

/-- The simple name after renaming is the segment of the new name. -/
def FollowsSegment (outer simple outer' segment : String) : Prop :=
  (Stays (outer ++ "$" ++ simple) (outer' ++ "$" ++ segment) → simple = segment) ∧
  (¬Stays (outer ++ "$" ++ simple) (outer' ++ "$" ++ segment) →
    '$' ∉ segment.toList ∧ ∀ c ∈ segment.toList.head?, c.isDigit = false)

theorem innerSimpleName_eq_iff {outer simple outer' segment : String} (hsegment : segment ≠ "") :
    innerSimpleName (outer ++ "$" ++ simple) (outer' ++ "$" ++ segment) simple = segment
      ↔ FollowsSegment outer simple outer' segment := by
  by_cases hstays : Stays (outer ++ "$" ++ simple) (outer' ++ "$" ++ segment)
  · rw [innerSimpleName_of_stays hstays]
    exact ⟨fun h => ⟨fun _ => h, fun hmoves => absurd hstays hmoves⟩, fun h => h.1 hstays⟩
  · rw [innerSimpleName_of_moves hstays, nestedName_eq_iff hsegment]
    exact ⟨fun h => ⟨fun hs => absurd hs hstays, fun _ => h⟩, fun h => h.2 hstays⟩

/-! ## Entries and their images -/

variable {h : Hierarchy} {t : Renamer × Pool}

theorem AttributeImage.nestedClasses {read : Pool} {a a' : Attribute} (himage : AttributeImage h read t a a') :
    List.Forall₂ (InnerClassImage read t) a.info.nestedClasses a'.info.nestedClasses := by
  obtain ⟨name, hinfo⟩ := himage
  cases hinfo with
  | innerClasses _ hclasses => exact hclasses
  | _ => exact .nil

theorem ItemImage.nestedClasses {read : Pool} {item item' : ClassItem} (himage : ItemImage h read t item item') :
    List.Forall₂ (InnerClassImage read t) item.nestedClasses item'.nestedClasses :=
  List.rel_flatMap himage.within fun _ _ ha => ha.nestedClasses

/-- What becomes of an entry that decomposes the name of its class, where the new name is again that of the class
around it with a segment behind it. -/
structure EntryFollows (names : ClassNames) (asRead written : Pool) (c c' : InnerClass) : Prop where
  innerClass : c'.innerClass = c.innerClass
  outerClass : c'.outerClass = c.outerClass
  flags : c'.flags = c.flags
  simpleName : ∀ outer simple outer' segment, c.innerName ≠ 0 → c.Decomposes asRead outer simple →
    names.translateType .toSource outer = .ok outer' →
    names.translateType .toSource (outer ++ "$" ++ simple) = .ok (outer' ++ "$" ++ segment) → segment ≠ "" →
    written.className c'.innerClass = .ok (outer' ++ "$" ++ segment) ∧
    written.className c'.outerClass = .ok outer' ∧
    written.utf8 c'.innerName
      = .ok (innerSimpleName (outer ++ "$" ++ simple) (outer' ++ "$" ++ segment) simple) ∧
    (c'.Decomposes written outer' segment ↔ FollowsSegment outer simple outer' segment)

theorem InnerClassImage.follows (ht : Redirected h t) {c c' : InnerClass} (himage : InnerClassImage t.2 t c c') :
    EntryFollows h.renames.classes t.1.asRead t.2 c c' := by
  refine ⟨himage.innerClass, himage.outerClass, himage.flags, ?_⟩
  intro outer simple outer' segment hname hentry houter hinner hsegment
  have htranslated {name name' : String} {i : UInt16} (hi : t.1.asRead.className i = .ok name)
      (hname : h.renames.classes.translateType .toSource name = .ok name') : t.2.className i = .ok name' := by
    obtain ⟨newName, hnew, hwritten⟩ := ht.className hi
    rw [hname] at hnew
    rw [hwritten, Except.ok.inj hnew]
  have hwritten : t.2.className c'.innerClass = .ok (outer' ++ "$" ++ segment) := by
    rw [himage.innerClass]
    exact htranslated hentry.innerClass hinner
  have houterWritten : t.2.className c'.outerClass = .ok outer' := by
    rw [himage.outerClass]
    exact htranslated hentry.outerClass houter
  have hemitted : t.2.utf8 c'.innerName
      = .ok (innerSimpleName (outer ++ "$" ++ simple) (outer' ++ "$" ++ segment) simple) := by
    obtain ⟨asRead, renamed, hread, hrenamed, text, newText, htext, hnew, hreplaces⟩ := himage.innerName hname
    obtain rfl := Except.ok.inj (hentry.innerClass.symm.trans hread)
    rw [himage.innerClass] at hwritten
    obtain rfl := Except.ok.inj (hwritten.symm.trans hrenamed)
    obtain rfl := Except.ok.inj ((ht.changes.utf8 hentry.innerName).symm.trans htext)
    rw [Except.ok.inj hnew]
    exact hreplaces.1
  refine ⟨hwritten, houterWritten, hemitted, ?_⟩
  rw [← innerSimpleName_eq_iff hsegment]
  constructor
  · intro hdecomposes
    exact Except.ok.inj (hemitted.symm.trans hdecomposes.innerName)
  · intro hsame
    rw [hsame] at hemitted
    exact ⟨hwritten, houterWritten, hemitted⟩

/-- **Entries for nested classes follow the renaming of their classes** as far as the segment behind the class around
them is what follows the last `$` of the new name. If a class comes through, then its sink receives for each entry,
at every depth, one for the same classes, and it decomposes the new name exactly in the cases of `FollowsSegment`. -/
theorem entryFollows_of_deliverAll {τ : Type} {sink : Sink τ} {bytes : Bytes} {f : ClassFile}
    (hf : ClassFile.ofBytes bytes = .ok f) {flags : ReaderFlags} {x x' : τ} {s : Renamer} {s' : Renamer × Pool}
    (hd : (f.events flags).deliverAll [stage h] sink x (s, f.pool) = .ok x' s') :
    ∃ items, (⟨s'.2, f.header, items, none⟩ : ClassEvents).deliver ([] : List (Stage Unit)) sink x () = .ok x' () ∧
      List.Forall₂ (EntryFollows h.renames.classes f.pool s'.2)
        ((f.events flags).items.flatMap ClassItem.nestedClasses) (items.flatMap ClassItem.nestedClasses) := by
  obtain ⟨-, hentered, -, items, himages, hdeliver⟩ := entered_of_deliverAll hf hd
  have hentries := List.rel_flatMap himages fun _ _ himage => himage.nestedClasses
  refine ⟨items, hdeliver, hentries.imp fun c c' himage => ?_⟩
  rw [← hentered.asRead]
  exact himage.follows hentered.redirected

/-! ## A nested object -/

/-- A class `a` with an entry for its member `a$b`. -/
def nestedBytes : Bytes :=
  [0xCA, 0xFE, 0xBA, 0xBE, 0, 0, 0, 52, 0, 7, 7, 0, 2, 1, 0, 1, 97, 7, 0, 4, 1, 0, 3, 97, 36, 98, 1, 0, 1, 98,
    1, 0, 12, 73, 110, 110, 101, 114, 67, 108, 97, 115, 115, 101, 115, 0, 33, 0, 1, 0, 0, 0, 0, 0, 0, 0, 0,
    0, 1, 0, 6, 0, 0, 0, 10, 0, 1, 0, 3, 0, 1, 0, 5, 0, 9]

def nestedFile : ClassFile := (ClassFile.ofBytes nestedBytes).toOption.get (by decide +kernel)

theorem ofBytes_nested : ClassFile.ofBytes nestedBytes = .ok nestedFile := Effect.eq_ok_get _

/-- The object `Inner` in `x/Foo`. -/
def nestedHierarchy : Hierarchy where
  renames :=
    { classes := (ClassNames.empty.insert "a" "x/Foo").insert "a$b" "x/Foo$Inner$"
      methods := ∅
      fields := ∅
      access := ∅ }
  provider := .ofFiles ∅

/-- The class when it is renamed. -/
def nestedEnd : Renamer × Pool :=
  ((nestedFile.events .none).deliverAll [stage nestedHierarchy] ClassModel.sink .blank).after
    (.ofResolver .empty, nestedFile.pool)

/-- The entry for a nested object does not decompose its new name: the simple name has become empty. -/
theorem entryFollows_nested :
    (⟨3, 1, 5, 9⟩ : InnerClass).Decomposes nestedFile.pool "a" "b" ∧
    ∃ c', EntryFollows nestedHierarchy.renames.classes nestedFile.pool nestedEnd.2 ⟨3, 1, 5, 9⟩ c' ∧
      nestedEnd.2.className c'.innerClass = .ok ("x/Foo" ++ "$" ++ "Inner$") ∧
      nestedEnd.2.className c'.outerClass = .ok "x/Foo" ∧
      nestedEnd.2.utf8 c'.innerName = .ok "" ∧ ¬c'.Decomposes nestedEnd.2 "x/Foo" "Inner$" := by
  have hentry : (⟨3, 1, 5, 9⟩ : InnerClass).Decomposes nestedFile.pool "a" "b" :=
    ⟨by decide +kernel, by decide +kernel, by decide +kernel⟩
  obtain ⟨m, hm⟩ : ∃ m, (nestedFile.events .none).deliverAll [stage nestedHierarchy] ClassModel.sink .blank
      (.ofResolver .empty, nestedFile.pool) = .ok m nestedEnd := Effect.exists_ok_of_isSome (by decide +kernel)
  obtain ⟨items, -, hentries⟩ := entryFollows_of_deliverAll ofBytes_nested hm
  have hitems : (nestedFile.events .none).items.flatMap ClassItem.nestedClasses = [⟨3, 1, 5, 9⟩] := by decide +kernel
  rw [hitems] at hentries
  obtain ⟨c', _, hc', -, -⟩ := List.forall₂_cons_left_iff.mp hentries
  obtain ⟨hinner, houter, hname, hdecomposes⟩ :=
    hc'.simpleName "a" "b" "x/Foo" "Inner$" (by decide) hentry rfl rfl (by decide)
  have hempty : innerSimpleName ("a" ++ "$" ++ "b") ("x/Foo" ++ "$" ++ "Inner$") "b" = "" := by decide +kernel
  have hmoves : ¬Stays ("a" ++ "$" ++ "b") ("x/Foo" ++ "$" ++ "Inner$") := by
    rintro (hsame | ⟨_, _, _, hcut, -⟩)
    · exact absurd hsame (by decide)
    · have hnone : Text.splitAtLast? '/' ("a" ++ "$" ++ "b") = none := by decide +kernel
      rw [hnone] at hcut
      cases hcut
  rw [hempty] at hname
  refine ⟨hentry, c', hc', hinner, houter, hname, fun hstill => ?_⟩
  exact absurd ((hdecomposes.mp hstill).2 hmoves).1 (by decide)

end Renamer

end Relabel
