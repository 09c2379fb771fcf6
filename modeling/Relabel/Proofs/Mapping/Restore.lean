import Relabel.Proofs.Hierarchy.Image
import Relabel.Proofs.Mapping.Inverse

/-!
# Renaming back

A program is renamed by a table and then by the inverse of the table, each time along its own hierarchy: the
second one has the classes of the first under their new names. Main statement: every member of every class
gets its name and its descriptor back, and every class its name.

Two cases need different arguments. A member that was renamed has an entry in the row of some class above
its owner; the inverse of that entry is above the image of the owner, so the way back finds an entry, and
whichever it finds comes from an entry that was renamed to the same member. A member that was not renamed
must not be found on the way back, and this is where a member in the way has to be ruled out: one that the
record of a class above the owner renames to it.
-/

set_option autoImplicit false

namespace Relabel

/-! ## Descriptors of members -/

/-- The class names in the descriptor of a member. -/
def MemberKind.classNames (kind : MemberKind) (d : String) : Except Error (List String) :=
  match kind with
  | .field => (FieldType.ofString d).map FieldType.classes
  | .method | .interfaceMethod => (MethodType.ofString d).map MethodType.classes

namespace ClassNames

/-- A descriptor can be translated and translated back if this can be done with the classes in it. -/
theorem translateMember_back {names back : ClassNames} {kind : MemberKind} {d : String}
    {classes : List String} (hd : kind.classNames d = .ok classes) (hspelled : ∀ c ∈ classes, SpelledName (names.map c))
    (hback : ∀ c ∈ classes, back.map (names.map c) = c) :
    ∃ d', names.translateMember kind d = .ok d' ∧ back.translateMember kind d' = .ok d := by
  cases kind with
  | field =>
    obtain ⟨t, ht, rfl⟩ := Effect.except_map_eq_ok.mp hd
    obtain ⟨rfl, hs⟩ := FieldType.ofString_eq_ok.mp ht
    refine ⟨_, Descriptor.renameField_eq_ok.mpr ⟨t, ⟨rfl, hs⟩, rfl⟩, ?_⟩
    refine Descriptor.renameField_eq_ok.mpr ⟨_, ⟨rfl, FieldType.spelled_rename hs hspelled⟩, ?_⟩
    exact congrArg FieldType.toString (FieldType.rename_rename hback)
  | method | interfaceMethod =>
    obtain ⟨t, ht, rfl⟩ := Effect.except_map_eq_ok.mp hd
    obtain ⟨rfl, hs⟩ := MethodType.ofString_eq_ok.mp ht
    refine ⟨_, Descriptor.renameMethod_eq_ok.mpr ⟨t, ⟨rfl, hs⟩, rfl⟩, ?_⟩
    refine Descriptor.renameMethod_eq_ok.mpr ⟨_, ⟨rfl, MethodType.spelled_rename hs hspelled⟩, ?_⟩
    exact congrArg MethodType.toString (MethodType.rename_rename hback)

end ClassNames

/-! ## Tables that can be undone -/

/-- A name that a class can have: it can stand in a descriptor and is not taken for an array. -/
def IsClassName (name : String) : Prop :=
  SpelledName name ∧ Hierarchy.isArray name = false

instance (name : String) : Decidable (IsClassName name) := inferInstanceAs (Decidable (_ ∧ _))

namespace MappingTable

/-- The entries of all records for members of one kind. -/
def entries (t : MappingTable) (kind : MemberKind) : List (String × String) :=
  t.records.flatMap fun e => (e.2.members kind).toList

theorem mem_entries {t : MappingTable} {kind : MemberKind} {key source : String} :
    (key, source) ∈ t.entries kind ↔ ∃ s r, t.find? s = some r ∧ (r.members kind)[key]? = some source := by
  rw [entries, List.mem_flatMap]
  constructor
  · intro h
    obtain ⟨⟨s, r⟩, he, hmem⟩ := h
    exact ⟨s, r, mem_records.mp he, Std.ExtTreeMap.mem_toList_iff_getElem?_eq_some.mp hmem⟩
  · intro h
    obtain ⟨s, r, hr, hkey⟩ := h
    exact ⟨(s, r), mem_records.mpr hr, Std.ExtTreeMap.mem_toList_iff_getElem?_eq_some.mpr hkey⟩

/-- A table that can be undone on the classes in `N`. -/
structure Reversible (t : MappingTable) (N : Set String) : Prop where
  inputs : t.InputsDistinct
  /-- Classes without a target name keep their names. -/
  keeps : ∀ e ∈ t.records, e.2.name = "" → (ClassNames.ofTable t).map e.1 = e.1
  /-- The new name of a member can be told from the descriptor behind it. -/
  sources : ∀ kind : MemberKind, ∀ e ∈ t.entries kind, kind.separator ∉ e.2.toList
  /-- Members that get the same name and the same descriptor had the same name. -/
  targets : ∀ kind : MemberKind, ∀ e ∈ t.entries kind, ∀ e' ∈ t.entries kind, ∀ n d n' d',
    kind.split? e.1 = some (n, d) → kind.split? e'.1 = some (n', d') → e.2 = e'.2 →
    (ClassNames.ofTable t).translateMember kind d = (ClassNames.ofTable t).translateMember kind d' → n = n'
  names : ∀ c ∈ N, IsClassName c ∧ IsClassName ((ClassNames.ofTable t).map c)
  unmaps : ∀ c ∈ N, (ClassNames.ofTable t).unmap ((ClassNames.ofTable t).map c) = c

theorem Reversible.injOn {t : MappingTable} {N : Set String} (ht : t.Reversible N) :
    Set.InjOn (ClassNames.ofTable t).map N :=
  Set.LeftInvOn.injOn ht.unmaps

/-- The class with a source name has a member that is renamed to `n`, with a descriptor that is translated as
`d` is. -/
def HasImage (t : MappingTable) (kind : MemberKind) (s n d : String) : Prop :=
  ∃ r key target e, t.find? s = some r ∧ (r.members kind)[key]? = some n ∧
    kind.split? key = some (target, e) ∧
    (ClassNames.ofTable t).translateMember kind e = (ClassNames.ofTable t).translateMember kind d

end MappingTable

/-! ## There and back -/

/-- A table and its inverse, each used along a hierarchy: the second hierarchy is the first one under the
new names. -/
structure Reversal where
  table : MappingTable
  inverse : MappingTable
  inverted : table.inverted = .ok inverse
  classes : Set String
  reversible : table.Reversible classes
  ancestry : Ancestry
  ancestry_over : ancestry.Over classes
  forth : Hierarchy
  forth_renames : forth.renames = .ofTable table
  forth_follows : forth.provider.Follows ancestry ∅ classes
  back : Hierarchy
  back_renames : back.renames = .ofTable inverse
  back_follows : back.provider.Follows (ancestry.image ancestry_over reversible.injOn) ∅
    ((ClassNames.ofTable table).map '' classes)

namespace Reversal

variable (R : Reversal)

/-- The class names of the table. -/
abbrev names : ClassNames := ClassNames.ofTable R.table

/-- The hierarchy under the new names. -/
abbrev imageAncestry : Ancestry := R.ancestry.image R.ancestry_over R.reversible.injOn

/-- A member of a class, its descriptor over the given classes. -/
structure Symbol (kind : MemberKind) (o n d : String) : Prop where
  owner : o ∈ R.classes
  name : kind.separator ∉ n.toList
  descriptor : ∃ classes, kind.classNames d = .ok classes ∧ ∀ c ∈ classes, c ∈ R.classes

/-- A member gets its owner, its name and its descriptor back, by resolvers in the states `r` and `r'`. -/
def Restores (r r' : Resolver) (kind : MemberKind) (o n d : String) : Prop :=
  ∃ n' d', (R.forth.memberName kind o n d).outcome r = .ok n' ∧
    R.forth.renames.classes.translateMember kind d = .ok d' ∧
    (R.back.memberName kind (R.forth.renames.classes.map o) n' d').outcome r' = .ok n ∧
    R.back.renames.classes.translateMember kind d' = .ok d ∧
    R.back.renames.classes.map (R.forth.renames.classes.map o) = o

variable {R}

theorem forth_classes : R.forth.renames.classes = R.names := by
  rw [R.forth_renames, Renaming.classes_ofTable, names]

theorem map_back (hs : R.table.SourcesNamed) {c : String} (hc : c ∈ R.classes) :
    R.back.renames.classes.map (R.names.map c) = c := by
  rw [R.back_renames, Renaming.classes_ofTable,
    MappingTable.map_ofTable_inverted R.reversible.inputs hs R.inverted]
  exact R.reversible.unmaps c hc

/-- What is found on the way back is the inverse of an entry above the owner. -/
theorem exists_of_back_entry (hs : R.table.SourcesNamed) {kind : MemberKind} {o key target : String}
    (ho : o ∈ R.classes) (he : R.back.entry R.imageAncestry kind key (R.names.map o) = some target) :
    ∃ a r targetKey source d d', R.ancestry.Reaches o a ∧ R.table.find? (R.names.map a) = some r ∧
      (r.members kind)[targetKey]? = some source ∧ kind.split? targetKey = some (target, d) ∧
      R.names.translateMember kind d = .ok d' ∧ key = kind.key source d' := by
  obtain ⟨x, -, habove, hrow⟩ := Hierarchy.exists_of_entry he
  obtain ⟨a, hreach, rfl⟩ := (Ancestry.reaches_image R.ancestry_over R.reversible.injOn ho).mp habove
  rw [R.back_renames, MappingTable.row_inverted R.reversible.inputs hs R.inverted] at hrow
  obtain ⟨r, r', hfind, hinv, hkey⟩ := hrow
  obtain ⟨targetKey, source, d, d', hentry, hsplit, hd, heq⟩ := ClassRecord.entry_of_inverted hinv hkey
  exact ⟨a, r, targetKey, source, d, d', hreach, hfind, hentry, hsplit, hd, heq⟩

/-- An entry above the owner leaves an entry to be found on the way back. -/
theorem back_entry_ne_none (hs : R.table.SourcesNamed) {kind : MemberKind} {o key source : String}
    (ho : o ∈ R.classes) (he : R.forth.entry R.ancestry kind key o = some source) :
    (key, source) ∈ R.table.entries kind ∧ ∃ n d d', kind.split? key = some (n, d) ∧
      R.names.translateMember kind d = .ok d' ∧
      R.back.entry R.imageAncestry kind (kind.key source d') (R.names.map o) ≠ none := by
  obtain ⟨a, ha, hreach, hrow⟩ := Hierarchy.exists_of_entry he
  rw [R.forth_renames, Renaming.row_eq_some R.reversible.inputs] at hrow
  obtain ⟨s, r, hfind, hinput, hkey⟩ := hrow
  have hmap := MappingTable.map_inputName R.reversible.inputs R.reversible.keeps hfind
  rw [hinput] at hmap
  obtain ⟨r', hinv⟩ := MappingTable.exists_inverted R.inverted hfind
  obtain ⟨n, d, d', hsplit, hd, n', hn'⟩ := ClassRecord.exists_entry_inverted hinv hkey
  refine ⟨MappingTable.mem_entries.mpr ⟨s, r, hfind, hkey⟩, n, d, d', hsplit, hd, ?_⟩
  have haN : a ∈ R.classes := R.ancestry_over.of_reaches ho hreach
  refine Hierarchy.entry_ne_none
    ((Ancestry.mem_image_parents R.ancestry_over R.reversible.injOn haN).mpr ha)
    ((Ancestry.reaches_image R.ancestry_over R.reversible.injOn ho).mpr ⟨a, hreach, rfl⟩) ?_
  have hback := (MappingTable.row_inverted R.reversible.inputs hs R.inverted).mpr ⟨r, r', hfind, hinv, hn'⟩
  rw [hmap, R.back_renames, hback]
  exact Option.some_ne_none n'

/-- The name of a member that was renamed is found on the way back. -/
theorem back_entry_of_renamed (hs : R.table.SourcesNamed) {kind : MemberKind} {o n d d' source : String}
    (hsymbol : R.Symbol kind o n d) (hd : R.names.translateMember kind d = .ok d')
    (he : R.forth.entry R.ancestry kind (kind.key n d) o = some source) :
    R.back.entry R.imageAncestry kind (kind.key source d') (R.names.map o) = some n := by
  have hends := ClassNames.ends_of_translateMember hd
  obtain ⟨hmem, n₁, d₁, d₁', hsplit, hd₁, hne⟩ := back_entry_ne_none hs hsymbol.owner he
  obtain ⟨rfl, rfl⟩ : n₁ = n ∧ d₁ = d := by
    rw [MemberKind.split?_key hsymbol.name hends.1] at hsplit
    obtain ⟨rfl, rfl⟩ := Prod.mk.inj (Option.some.inj hsplit)
    exact ⟨rfl, rfl⟩
  obtain rfl : d₁' = d' := Except.ok.inj (hd₁.symm.trans hd)
  obtain ⟨target, htarget⟩ := Option.ne_none_iff_exists'.mp hne
  obtain ⟨a, r, key, source₂, d₂, d₂', -, hfind, hkey, hsplit₂, hd₂, heq⟩ :=
    exists_of_back_entry hs hsymbol.owner htarget
  -- The entry that is found was renamed to the same name and descriptor, so it had the same name.
  have hmem₂ : (key, source₂) ∈ R.table.entries kind := MappingTable.mem_entries.mpr ⟨_, r, hfind, hkey⟩
  obtain ⟨rfl, rfl⟩ := MemberKind.key_inj (R.reversible.sources kind _ hmem)
    (R.reversible.sources kind _ hmem₂) hends.2 (ClassNames.ends_of_translateMember hd₂).2 heq
  have hsame := R.reversible.targets kind _ hmem _ hmem₂ _ _ _ _ hsplit hsplit₂ rfl (hd.trans hd₂.symm)
  rw [htarget, hsame]

/-- A member that was not renamed is not found on the way back, unless another one was renamed to it. -/
theorem back_entry_of_kept (hs : R.table.SourcesNamed) {kind : MemberKind} {o n d d' : String}
    (hsymbol : R.Symbol kind o n d) (hd : R.names.translateMember kind d = .ok d')
    (hfree : ∀ a, R.ancestry.Reaches o a → ¬R.table.HasImage kind (R.names.map a) n d) :
    R.back.entry R.imageAncestry kind (kind.key n d') (R.names.map o) = none := by
  by_contra hne
  obtain ⟨target, htarget⟩ := Option.ne_none_iff_exists'.mp hne
  obtain ⟨a, r, key, source, d₂, d₂', hreach, hfind, hkey, hsplit, hd₂, heq⟩ :=
    exists_of_back_entry hs hsymbol.owner htarget
  have hmem : (key, source) ∈ R.table.entries kind := MappingTable.mem_entries.mpr ⟨_, r, hfind, hkey⟩
  obtain ⟨rfl, rfl⟩ := MemberKind.key_inj hsymbol.name (R.reversible.sources kind _ hmem)
    (ClassNames.ends_of_translateMember hd).2 (ClassNames.ends_of_translateMember hd₂).2 heq
  exact hfree a hreach ⟨r, key, target, d₂, hfind, hkey, hsplit, hd₂.trans hd.symm⟩

/-- **Renaming back restores every symbol**, whatever the two resolvers were asked before. -/
theorem restores (R : Reversal) (hs : R.table.SourcesNamed) {calls calls' : List ResolverCall}
    (hcalls : ∀ c ∈ calls, c.Follows R.ancestry ∅) (hcalls' : ∀ c ∈ calls', c.Follows R.imageAncestry ∅)
    {kind : MemberKind} {o n d : String} (hsymbol : R.Symbol kind o n d)
    (hcase : (∃ new, (R.forth.lookupMember kind o n d).outcome
        (calls.foldl (ResolverCall.run R.forth) .empty) = .ok (some new)) ∨
      ∀ a, R.ancestry.Reaches o a → ¬R.table.HasImage kind (R.names.map a) n d) :
    R.Restores (calls.foldl (ResolverCall.run R.forth) .empty)
      (calls'.foldl (ResolverCall.run R.back) .empty) kind o n d := by
  have hforth : R.forth.Settled R.ancestry ∅ R.classes (calls.foldl (ResolverCall.run R.forth) .empty) :=
    Hierarchy.Settled.runs R.forth_follows hcalls Hierarchy.settled_empty
  have hback : R.back.Settled R.imageAncestry ∅ (Set.image R.names.map R.classes)
      (calls'.foldl (ResolverCall.run R.back) .empty) :=
    Hierarchy.Settled.runs R.back_follows hcalls' Hierarchy.settled_empty
  obtain ⟨howner, himage⟩ := R.reversible.names o hsymbol.owner
  obtain ⟨classes, hclasses, hN⟩ := hsymbol.descriptor
  obtain ⟨d', hd, hd'⟩ := ClassNames.translateMember_back hclasses
    (fun c hc => (R.reversible.names c (hN c hc)).2.1) fun c hc => map_back hs (hN c hc)
  have hlookup := hforth.outcome_lookupMember R.forth_follows hsymbol.owner howner.2 kind n d
  have hlookup' (n' : String) := hback.outcome_lookupMember R.back_follows
    (Set.mem_image_of_mem _ hsymbol.owner) himage.2 kind n' d'
  refine ⟨_, d', Hierarchy.outcome_memberName hlookup, ?_, ?_, hd', ?_⟩
  · rw [forth_classes]
    exact hd
  · rw [forth_classes, Hierarchy.outcome_memberName (hlookup' _)]
    cases he : R.forth.entry R.ancestry kind (kind.key n d) o with
    | some source =>
      have hfound := back_entry_of_renamed hs hsymbol hd he
      exact congrArg (fun found => Except.ok (Option.getD found source)) hfound
    | none =>
      have hfree : ∀ a, R.ancestry.Reaches o a → ¬R.table.HasImage kind (R.names.map a) n d := by
        refine hcase.resolve_left fun hrenamed => ?_
        obtain ⟨new, hnew⟩ := hrenamed
        rw [hlookup, he] at hnew
        cases hnew
      exact congrArg (fun found => Except.ok (Option.getD found n)) (back_entry_of_kept hs hsymbol hd hfree)
  · rw [forth_classes]
    exact map_back hs hsymbol.owner

/-! ## Samples -/

/-- A class file with nothing but its name and that of its superclass, which counts if `super` is 3. -/
def headerBytes (name parent : List UInt8) (super : UInt8) : Bytes :=
  [0xCA, 0xFE, 0xBA, 0xBE, 0, 0, 0, 52, 0, 5] ++
    [7, 0, 2, 1, 0, UInt8.ofNat name.length] ++ name ++
    [7, 0, 4, 1, 0, UInt8.ofNat parent.length] ++ parent ++ [0, 33, 0, 1, 0, super, 0, 0, 0, 0, 0, 0, 0, 0]

/-- A hierarchy in which no class but one has supertypes, and that one not itself. -/
def singleStep (parents : Dict (List String)) (c : String)
    (h : ∀ e ∈ parents.toList, e.2 = [] ∨ e.1 = c ∧ c ∉ e.2) : Ancestry where
  parents := parents
  acyclic := by
    have hstep : ∀ x p, Extends parents x p → x = c ∧ p ≠ c := by
      intro x p hxp
      obtain ⟨ps, hx, hp⟩ := extends_iff.mp hxp
      rcases h (x, ps) (Std.ExtTreeMap.mem_toList_iff_getElem?_eq_some.mpr hx) with hnil | ⟨hc, hnot⟩
      · rw [show ps = [] from hnil] at hp
        cases hp
      · exact ⟨hc, fun heq => hnot (heq ▸ hp)⟩
    intro name hcycle
    obtain ⟨p, hfirst, hrest⟩ := Relation.TransGen.head'_iff.mp hcycle
    rcases Relation.ReflTransGen.cases_head hrest with rfl | ⟨q, hnext, -⟩
    · exact (hstep p p hfirst).2 (hstep p p hfirst).1
    · exact (hstep name p hfirst).2 (hstep p q hnext).1

/-- Members are told apart by their new names alone. -/
theorem targets_of_distinct {t : MappingTable} {kind : MemberKind}
    (h : ∀ e ∈ t.entries kind, ∀ e' ∈ t.entries kind, e.2 = e'.2 → e = e') :
    ∀ e ∈ t.entries kind, ∀ e' ∈ t.entries kind, ∀ n d n' d', kind.split? e.1 = some (n, d) →
      kind.split? e'.1 = some (n', d') → e.2 = e'.2 →
      (ClassNames.ofTable t).translateMember kind d = (ClassNames.ofTable t).translateMember kind d' →
      n = n' := by
  intro e he e' he' n d n' d' hsplit hsplit' hsource _
  obtain rfl := h e he e' he' hsource
  exact (Prod.mk.inj (Option.some.inj (hsplit.symm.trans hsplit'))).1

/-- A method of `a`, inherited by `b`. -/
def inheritedTable : MappingTable :=
  (MappingTable.empty.insert "Base" ((ClassRecord.named "a").withMethod "m" "(La;)V" "run")).insert "Impl"
    (ClassRecord.named "b")

def inheritedInverse : MappingTable :=
  (MappingTable.empty.insert "a" ((ClassRecord.named "Base").withMethod "run" "(LBase;)V" "m")).insert "b"
    (ClassRecord.named "Impl")

def inheritedAncestry : Ancestry :=
  singleStep (((∅ : Dict (List String)).insert "a" []).insert "b" ["a"]) "b" (by decide)

theorem over_inheritedAncestry : inheritedAncestry.Over {"a", "b"} := by
  intro c parents hc
  have hall : ∀ e ∈ inheritedAncestry.parents.toList, e = ("a", []) ∨ e = ("b", ["a"]) := by decide
  rcases hall (c, parents) (Std.ExtTreeMap.mem_toList_iff_getElem?_eq_some.mpr hc) with he | he
  · obtain ⟨rfl, rfl⟩ := Prod.mk.inj he
    simp
  · obtain ⟨rfl, rfl⟩ := Prod.mk.inj he
    simp

theorem reversible_inheritedTable : inheritedTable.Reversible {"a", "b"} where
  inputs := by decide
  keeps := by decide
  sources kind := by cases kind <;> decide
  targets kind := targets_of_distinct (by cases kind <;> decide)
  names c hc := by rcases hc with rfl | rfl <;> decide
  unmaps c hc := by rcases hc with rfl | rfl <;> rfl

def inherited : Reversal where
  table := inheritedTable
  inverse := inheritedInverse
  inverted := rfl
  classes := {"a", "b"}
  reversible := reversible_inheritedTable
  ancestry := inheritedAncestry
  ancestry_over := over_inheritedAncestry
  forth :=
    { renames := .ofTable inheritedTable
      provider := .ofFiles (((∅ : Dict Bytes).insert "a" (headerBytes [97] [] 0)).insert "b"
        (headerBytes [98] [97] 3)) }
  forth_renames := rfl
  forth_follows := over_inheritedAncestry.follows fun o ho => by rcases ho with rfl | rfl <;> rfl
  back :=
    { renames := .ofTable inheritedInverse
      provider := .ofFiles (((∅ : Dict Bytes).insert "Base" (headerBytes [66, 97, 115, 101] [] 0)).insert
        "Impl" (headerBytes [73, 109, 112, 108] [66, 97, 115, 101] 3)) }
  back_renames := rfl
  back_follows := (Ancestry.over_image _ _).follows fun o ho => by
    obtain ⟨c, hc, rfl⟩ := ho
    rcases hc with rfl | rfl <;> rfl

theorem symbol_inherited : inherited.Symbol .method "b" "m" "(La;)V" where
  owner := Or.inr rfl
  name := by decide
  descriptor := ⟨["a"], rfl, by simp [inherited]⟩

/-- After other calls, the inherited method gets its name back. -/
theorem restores_inherited : inherited.Restores
    ([.rename .method "a" "m" "(La;)V", .register "b" ["a"]].foldl (ResolverCall.run inherited.forth) .empty)
    ([.rename .field "Impl" "x" "I"].foldl (ResolverCall.run inherited.back) .empty)
    .method "b" "m" "(La;)V" := by
  have hsources : inherited.table.SourcesNamed := by
    intro r hr
    cases (show inheritedTable.find? "" = none from rfl).symm.trans hr
  refine inherited.restores hsources (fun c hc => ?_) (fun c hc => ?_) symbol_inherited (Or.inl ⟨"run", rfl⟩)
  · rcases List.mem_cons.mp hc with rfl | hc
    · trivial
    · rw [List.mem_singleton.mp hc]
      exact ⟨Set.notMem_empty _, rfl⟩
  · rw [List.mem_singleton.mp hc]
    trivial

/-! ## A class without a source name -/

/-- The class `t` is renamed to nothing, and `c` to `t`. -/
def namelessTable : MappingTable :=
  (MappingTable.empty.insert "" ((ClassRecord.named "t").withMethod "p" "()V" "q")).insert "t"
    ((ClassRecord.named "c").withMethod "m" "()V" "v")

def namelessInverse : MappingTable :=
  (MappingTable.empty.insert "t" ((ClassRecord.named "").withMethod "q" "()V" "p")).insert "c"
    ((ClassRecord.named "t").withMethod "v" "()V" "m")

def namelessAncestry : Ancestry :=
  singleStep ((∅ : Dict (List String)).insert "c" []) "c" (by decide)

theorem over_namelessAncestry : namelessAncestry.Over {"c"} := by
  intro c parents hc
  have hall : ∀ e ∈ namelessAncestry.parents.toList, e = ("c", []) := by decide
  obtain ⟨rfl, rfl⟩ := Prod.mk.inj (hall _ (Std.ExtTreeMap.mem_toList_iff_getElem?_eq_some.mpr hc))
  simp

theorem reversible_namelessTable : namelessTable.Reversible {"c"} where
  inputs := by decide
  keeps := by decide
  sources kind := by cases kind <;> decide
  targets kind := targets_of_distinct (by cases kind <;> decide)
  names c hc := by
    obtain rfl := Set.mem_singleton_iff.mp hc
    decide
  unmaps c hc := by
    obtain rfl := Set.mem_singleton_iff.mp hc
    rfl

/-- In the inverse, the record of `t` has no name, so it is taken for the class `t` of the input, and its row
replaces that of `c`. -/
def nameless : Reversal where
  table := namelessTable
  inverse := namelessInverse
  inverted := rfl
  classes := {"c"}
  reversible := reversible_namelessTable
  ancestry := namelessAncestry
  ancestry_over := over_namelessAncestry
  forth := ⟨.ofTable namelessTable, .ofFiles ((∅ : Dict Bytes).insert "c" (headerBytes [99] [] 0))⟩
  forth_renames := rfl
  forth_follows := over_namelessAncestry.follows fun o ho => by
    obtain rfl := Set.mem_singleton_iff.mp ho
    rfl
  back := ⟨.ofTable namelessInverse, .ofFiles ((∅ : Dict Bytes).insert "t" (headerBytes [116] [] 0))⟩
  back_renames := rfl
  back_follows := (Ancestry.over_image _ _).follows fun o ho => by
    obtain ⟨c, hc, rfl⟩ := ho
    obtain rfl := Set.mem_singleton_iff.mp hc
    rfl

/-- A method that is renamed by the record of its class keeps its new name on the way back, although no key
has two new names and all descriptors are over the given classes. -/
theorem not_restores_nameless :
    (∀ kind : MemberKind, ∀ e ∈ nameless.table.entries kind, ∀ e' ∈ nameless.table.entries kind,
      e.1 = e'.1 → e.2 = e'.2) ∧
    (∀ kind : MemberKind, ∀ e ∈ nameless.table.entries kind, ∃ n d, kind.split? e.1 = some (n, d) ∧
      kind.classNames d = .ok []) ∧
    nameless.Symbol .method "c" "m" "()V" ∧
    (nameless.forth.lookupMember .method "c" "m" "()V").outcome .empty = .ok (some "v") ∧
    ¬nameless.Restores .empty .empty .method "c" "m" "()V" := by
  have hsymbol : nameless.Symbol .method "c" "m" "()V" := ⟨rfl, by decide, [], rfl, by simp⟩
  refine ⟨fun kind => by cases kind <;> decide, fun kind e he => ?_, hsymbol, rfl, ?_⟩
  · have hall : ∀ kind : MemberKind, ∀ e ∈ nameless.table.entries kind,
        kind.split? e.1 = some ("m", "()V") ∨ kind.split? e.1 = some ("p", "()V") := by
      intro kind
      cases kind <;> decide
    have hclasses : kind.classNames "()V" = .ok [] := by
      cases kind with
      | field => cases he
      | method | interfaceMethod => rfl
    rcases hall kind e he with hsplit | hsplit
    · exact ⟨"m", "()V", hsplit, hclasses⟩
    · exact ⟨"p", "()V", hsplit, hclasses⟩
  · intro hrestores
    obtain ⟨n', d', hforth, hd, hback, -⟩ := hrestores
    obtain rfl : "v" = n' := Except.ok.inj hforth
    obtain rfl : "()V" = d' := Except.ok.inj hd
    have hkept : (nameless.back.memberName .method "t" "v" "()V").outcome .empty = .ok "v" := rfl
    exact absurd (Except.ok.inj (hkept.symm.trans hback)) (by decide)

end Reversal

end Relabel
