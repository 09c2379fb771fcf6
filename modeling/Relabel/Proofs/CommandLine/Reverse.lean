import Relabel.CommandLine.Run
import Relabel.Proofs.Jar.Output
import Relabel.Proofs.Mapping.Inverse

/-!
# Two ways to go back

Remapping an archive backwards inverts the table and then goes forward; asking for a single name backwards
keeps the table and goes backward. The names agree because the class names of the inverse are those of the
table with the directions exchanged, and everything else that is translated (arrays, descriptors, signatures)
is translated name by name. Records without a target name, classes that keep their name and chains of renames
need no care of their own.

What the two commands do is compared where it can be seen: the one prints a name, and the other leaves an archive
behind, in which every class bears the name that the first one prints for it.
-/

set_option autoImplicit false

namespace Relabel

/-- The other direction. -/
def Direction.opposite : Direction → Direction
  | .toSource => .toTarget
  | .toTarget => .toSource

theorem ClassNames.translate_flipped (names : ClassNames) (way : Direction) :
    names.flipped.translate way = names.translate way.opposite := by
  cases way <;> rfl

/-! ## Loading a table -/

/-- A run that goes backwards finds the inverse of the table in the file. -/
theorem loadTable_reverse {path : String} {s s₁ : Session} {t t' : MappingTable}
    (hload : loadTable path false s = .ok t s₁) (h : t.inverted = .ok t') :
    loadTable path true s = .ok t' s₁ := by
  cases hread : Run.attempt ("Failed to load mapping file: " ++ path) (MappingTable.load path) s with
  | error failure s₂ =>
    have hfails : loadTable path false s = .error failure s₂ := by
      show EStateM.bind _ _ s = _
      rw [EStateM.bind, hread]
    rw [hfails] at hload
    cases hload
  | ok table s₂ =>
    have hforward : loadTable path false s = .ok table s₂ := Effect.bind_of_ok hread
    rw [hforward] at hload
    obtain ⟨rfl, rfl⟩ := EStateM.Result.ok.inj hload
    rw [loadTable, Effect.bind_of_ok hread, if_pos rfl, h]
    rfl

/-! ## Remapping an archive -/

theorem Run.attempt_eq_ok {α : Type} {context : String} {e : Effect Files α} {s s' : Session} {a : α} :
    Run.attempt context e s = .ok a s' ↔
      ∃ files, e s.files = .ok a files ∧ s' = { s with files := files } := by
  show Run.onFiles context Error.chain e s = _ ↔ _
  unfold Run.onFiles
  cases e s.files <;> simp [eq_comm]

/-- A request is carried out if the archive can be remapped, and the files are then as that leaves them. -/
theorem RemapRequest.perform_eq_ok {r : RemapRequest} {table : MappingTable} {s : Session} {files : Files} :
    (∃ report s', r.perform table s = .ok report s' ∧ s'.files = files) ↔
      ∃ report, remapFile r.input (outputPath r.input r.output? r.reverse) table r.classpath s.files
        = .ok report files := by
  constructor
  · rintro ⟨report, s', h, rfl⟩
    obtain ⟨⟨⟩, s₁, htell, h⟩ := Effect.bind_eq_ok.mp h
    obtain ⟨-, rfl⟩ := EStateM.Result.ok.inj htell
    obtain ⟨done, s₂, hattempt, h⟩ := Effect.bind_eq_ok.mp h
    obtain ⟨files, hfile, rfl⟩ := Run.attempt_eq_ok.mp hattempt
    obtain ⟨-, rfl⟩ := EStateM.Result.ok.inj h
    exact ⟨done, hfile⟩
  · rintro ⟨done, h⟩
    have hattempt (context : String) (s' : Session) (hs' : s'.files = s.files) :
        Run.attempt context (remapFile r.input (outputPath r.input r.output? r.reverse) table r.classpath) s'
          = .ok done { s' with files := files } :=
      Run.attempt_eq_ok.mpr ⟨files, hs' ▸ h, rfl⟩
    exact ⟨_, _, Effect.bind_eq_ok.mpr ⟨(), _, rfl, Effect.bind_eq_ok.mpr ⟨done, _, hattempt _ _ rfl, rfl⟩⟩, rfl⟩

/-! ## Both ways agree -/

/-- **The two ways back agree** on names, arrays, descriptors and signatures. A run that remaps an archive backwards
works with the inverse of the table, and in the archive that it leaves every class bears the name that a run which
asks for one name backwards, and only has the table itself, prints for it. -/
theorem reverse_agrees {t t' : MappingTable} (ht : t.InputsDistinct) (hs : t.SourcesNamed)
    (h : t.inverted = .ok t') :
    (∀ (way : Direction) (x : String),
      (ClassNames.ofTable t').translate way x = (ClassNames.ofTable t).translate way.opposite x ∧
      (ClassNames.ofTable t').translateType way x = (ClassNames.ofTable t).translateType way.opposite x ∧
      (ClassNames.ofTable t').translateField way x = (ClassNames.ofTable t).translateField way.opposite x ∧
      (ClassNames.ofTable t').translateMethod way x = (ClassNames.ofTable t).translateMethod way.opposite x ∧
      (ClassNames.ofTable t').translateSignature way x
        = (ClassNames.ofTable t).translateSignature way.opposite x) ∧
    ∀ (mappings? environment? : Option String) (path : String) (s s₀ s₁ : Session),
      mappingsPath mappings? environment? s = .ok path s₀ → loadTable path false s₀ = .ok t s₁ →
      (∀ request : RemapRequest, request.reverse = true →
        Invocation.perform ⟨mappings?, .remap request⟩ environment? s = request.perform t' s₁ ∧
        ∀ report s₂, request.perform t' s₁ = .ok report s₂ → ∃ xs,
          Remaps (Renaming.ofTable t') request.input (outputPath request.input request.output? true) s₁.files
            s₂.files xs ∧
          ∀ x ∈ xs, isClassName x.record.name = true → ∃ c, x.class? = some c ∧
            ClassMoves (Renaming.ofTable t') x c ∧
            (ClassNames.ofTable t).translateType .toTarget c.inputName = .ok c.name ∧
            (c.inputName.toList.head? ≠ some '[' → c.name = (ClassNames.ofTable t).unmap c.inputName ∧
              ∀ name : String, normalizeClassName name = c.inputName →
                Invocation.perform ⟨mappings?, .map name true⟩ environment? s
                  = .ok (fun _ => publish (renamedJson c.inputName c.name true).pretty none) s₁)) ∧
      ∀ name : String, Invocation.perform ⟨mappings?, .map name true⟩ environment? s
        = .ok (fun _ => publish (renamedJson (normalizeClassName name)
            ((Renaming.ofTable t').classes.map (normalizeClassName name)) true).pretty none) s₁ := by
  have hway (way : Direction) :
      (ClassNames.ofTable t').translate way = (ClassNames.ofTable t).translate way.opposite := by
    rw [MappingTable.ofTable_inverted ht hs h, ClassNames.translate_flipped]
  refine ⟨fun way x => ?_, fun mappings? environment? path s s₀ s₁ hpath hload => ?_⟩
  · simp only [ClassNames.translateType, ClassNames.translateField, ClassNames.translateMethod,
      ClassNames.translateSignature, hway, and_self]
  -- Asking for a name takes the table backwards.
  have hasked (name : String) : Invocation.perform ⟨mappings?, .map name true⟩ environment? s
      = .ok (fun _ => publish (renamedJson (normalizeClassName name)
          ((ClassNames.ofTable t).unmap (normalizeClassName name)) true).pretty none) s₁ := by
    rw [Invocation.perform, Effect.bind_of_ok hpath]
    show (loadTable path false >>= _) s₀ = _
    rw [Effect.bind_of_ok hload, Renaming.classes_ofTable]
    rfl
  have hmap (name : String) :
      (Renaming.ofTable t').classes.map name = (ClassNames.ofTable t).unmap name := by
    rw [Renaming.classes_ofTable]
    exact congrFun (hway .toSource) name
  refine ⟨fun request hreverse => ⟨?_, fun report s₂ hperform => ?_⟩, fun name => ?_⟩
  · rw [Invocation.perform, Effect.bind_of_ok hpath]
    show (loadTable path request.reverse >>= request.perform) s₀ = _
    rw [hreverse, Effect.bind_of_ok (loadTable_reverse hload h)]
  · obtain ⟨done, hfile⟩ := RemapRequest.perform_eq_ok.mp ⟨report, s₂, hperform, rfl⟩
    rw [hreverse] at hfile
    obtain ⟨xs, hremaps⟩ := remaps_of_remapFile hfile
    refine ⟨xs, hremaps, fun x hx hclass => ?_⟩
    obtain ⟨c, hc, hmoves⟩ := hremaps.classMoves hx hclass
    refine ⟨c, hc, hmoves, ?_, fun hplain => ?_⟩
    · rw [← hmoves.name, Renaming.classes_ofTable, ClassNames.translateType, ClassNames.translateType,
        show Direction.toTarget = Direction.toSource.opposite from rfl, ← hway]
    · have hname : c.name = (ClassNames.ofTable t).unmap c.inputName := by
        rw [← hmap]
        exact (Except.ok.inj ((ClassNames.translateType_of_class hplain).symm.trans hmoves.name)).symm
      refine ⟨hname, fun name hnormal => ?_⟩
      rw [hasked, hnormal, hname]
  · rw [hmap, hasked]

/-! ## A sample -/

/-- The source name of one class is the target name of another, and a third class keeps its name. -/
def chainTable : MappingTable :=
  ((MappingTable.empty.insert "a" (.named "b")).insert "x/Foo" ((ClassRecord.named "a").withField "f" "La;" "foo")).insert
    "y/Kept" (ClassRecord.blank.withMethod "m" "(La;)Lb;" "run")

def chainInverse : MappingTable :=
  ((MappingTable.empty.insert "a" ((ClassRecord.named "x/Foo").withField "foo" "Lx/Foo;" "f")).insert "b"
    (.named "a")).insert "y/Kept" (ClassRecord.blank.withMethod "run" "(Lx/Foo;)La;" "m")

/-- The chain as a mapping file. -/
def chainText : String :=
  "\x7b\"a\": \x7b\"name\": \"b\"\x7d, "
    ++ "\"x/Foo\": \x7b\"name\": \"a\", \"fields\": \x7b\"f:La;\": \"foo\"\x7d\x7d, "
    ++ "\"y/Kept\": \x7b\"methods\": \x7b\"m(La;)Lb;\": \"run\"\x7d\x7d\x7d"

/-- The class `x/Foo`. -/
def fooBytes : Bytes :=
  [0xCA, 0xFE, 0xBA, 0xBE, 0, 0, 0, 52, 0, 3, 7, 0, 2, 1, 0, 5, 120, 47, 70, 111, 111, 0, 33, 0, 1,
    0, 0, 0, 0, 0, 0, 0, 0, 0, 0]

/-- The class `a`. -/
def innermostBytes : Bytes :=
  [0xCA, 0xFE, 0xBA, 0xBE, 0, 0, 0, 52, 0, 3, 7, 0, 2, 1, 0, 1, 97, 0, 33, 0, 1, 0, 0, 0, 0, 0, 0, 0, 0, 0, 0]

/-- An archive with two classes, of which one will have the name of the other. -/
def chainArchive : Bytes :=
  Zip.writeArchive [⟨"x/Foo.class", ⟨0, 0⟩, .file, .stored, 0x1c65ea03, 35, 35, fooBytes⟩,
    ⟨"a.class", ⟨0, 0⟩, .file, .stored, 0xe80e3f56, 31, 31, innermostBytes⟩]

/-- A session with the chain in the file `m` and the archive in the file `in.jar`. -/
def chainSession : Session :=
  ⟨((Files.empty ["w"]).put ["m", "w"] (.file chainText.toUTF8.toList)).put ["in.jar", "w"] (.file chainArchive),
    "", ""⟩

/-- To remap the archive backwards. -/
def chainRequest : RemapRequest where
  input := "in.jar"
  output? := none
  reverse := true
  classpath := []
  format := .json
  report? := none

theorem loadTable_chain : loadTable "m" false chainSession = .ok chainTable chainSession := by
  have hfile : chainSession.files.find "m" = .ok (.file chainText.toUTF8.toList) := rfl
  have htable : MappingTable.ofBytes chainText.toUTF8.toList = .ok chainTable := by decide +kernel
  have hload : MappingTable.load "m" chainSession.files = .ok chainTable chainSession.files := by
    have hfound : (liftM (Files.check fun files => files.find "m") : Effect Files FileNode) chainSession.files
        = .ok (.file chainText.toUTF8.toList) chainSession.files :=
      Files.toEffect_eq_ok.mpr (Files.check_eq_ok.mpr ⟨hfile, rfl⟩)
    rw [MappingTable.load, Effect.bind_of_ok hfound]
    exact Effect.lift_eq_ok.mpr ⟨htable, rfl⟩
  exact Effect.bind_of_ok (Run.attempt_eq_ok.mpr ⟨chainSession.files, hload, rfl⟩)

/-- The archive can be remapped, and one of its entries is the class `x/Foo`. -/
theorem remapFile_chain :
    (∃ report files, remapFile "in.jar" "in-reobf.jar" chainInverse [] chainSession.files = .ok report files) ∧
    ∃ records, openArchive "in.jar" chainSession.files
        = .ok records ((openArchive "in.jar").after chainSession.files) ∧
      ∃ r ∈ records, isClassName r.name = true ∧ r.className.toOption = some "x/Foo" := by
  have hboth : ((remapFile "in.jar" "in-reobf.jar" chainInverse []).outcome chainSession.files).toOption.isSome = true ∧
      ((openArchive "in.jar").outcome chainSession.files).toOption.any (fun records =>
        ∃ r ∈ records, isClassName r.name = true ∧ r.className.toOption = some "x/Foo") = true := by
    decide +kernel
  obtain ⟨report, hremap⟩ := Effect.exists_ok_of_isSome hboth.1
  exact ⟨⟨report, _, hremap⟩, Effect.exists_of_outcome hboth.2⟩

/-- Both commands, run on the file with the chain: in the archive that the one leaves, `x/Foo` has got the name
`a`, which is what the other prints. -/
theorem reverse_agrees_chain :
    chainTable.InputsDistinct ∧ chainTable.SourcesNamed ∧ chainTable.inverted = .ok chainInverse ∧
    (ClassNames.ofTable chainInverse).translateSignature .toSource "Lx/Foo$1<[Lb;>.c;"
      = (ClassNames.ofTable chainTable).translateSignature .toTarget "Lx/Foo$1<[Lb;>.c;" ∧
    Invocation.perform ⟨some "m", .map "x.Foo$1" true⟩ none chainSession
      = .ok (fun _ => publish (renamedJson (normalizeClassName "x.Foo$1")
          ((Renaming.ofTable chainInverse).classes.map (normalizeClassName "x.Foo$1")) true).pretty none)
        chainSession ∧
    ∃ report s₂ xs x c,
      Invocation.perform ⟨some "m", .remap chainRequest⟩ none chainSession = .ok report s₂ ∧
      Remaps (Renaming.ofTable chainInverse) "in.jar" "in-reobf.jar" chainSession.files s₂.files xs ∧
      x ∈ xs ∧ x.class? = some c ∧ ClassMoves (Renaming.ofTable chainInverse) x c ∧ c.inputName = "x/Foo" ∧
      c.name = "a" ∧
      Invocation.perform ⟨some "m", .map "x.Foo" true⟩ none chainSession
        = .ok (fun _ => publish (renamedJson "x/Foo" c.name true).pretty none) chainSession := by
  have hinputs : chainTable.InputsDistinct := by decide
  have hsources : chainTable.SourcesNamed := by
    intro r hr
    cases (show chainTable.find? "" = none from rfl).symm.trans hr
  have hinverted : chainTable.inverted = .ok chainInverse := rfl
  obtain ⟨hnames, hruns⟩ := reverse_agrees hinputs hsources hinverted
  obtain ⟨-, -, -, -, hsignature⟩ := hnames .toSource "Lx/Foo$1<[Lb;>.c;"
  obtain ⟨hremap, hmap⟩ := hruns (some "m") none "m" chainSession chainSession chainSession rfl loadTable_chain
  obtain ⟨hperform, harchive⟩ := hremap chainRequest rfl
  have houtput : outputPath chainRequest.input chainRequest.output? true = "in-reobf.jar" := by decide +kernel
  obtain ⟨⟨done, files, hfile⟩, records, hopen, r, hr, hclass, hfoo⟩ := remapFile_chain
  have hrun : ∃ report s₂, chainRequest.perform chainInverse chainSession = .ok report s₂ ∧ s₂.files = files :=
    RemapRequest.perform_eq_ok.mpr ⟨done, by rw [show chainRequest.reverse = true from rfl, houtput]; exact hfile⟩
  obtain ⟨report, s₂, hran, -⟩ := hrun
  obtain ⟨xs, hremaps, hall⟩ := harchive report s₂ hran
  rw [houtput] at hremaps
  obtain rfl : xs.map Passage.record = records := (EStateM.Result.ok.inj (hremaps.opened.symm.trans hopen)).1
  obtain ⟨x, hx, rfl⟩ := List.mem_map.mp hr
  obtain ⟨c, hc, hmoves, -, hback⟩ := hall x hx hclass
  have hname : c.inputName = "x/Foo" := by
    rw [hmoves.className] at hfoo
    exact Option.some.inj hfoo
  rw [hname] at hback
  obtain ⟨hunmap, hprinted⟩ := hback (by decide)
  have hnormal : normalizeClassName "x.Foo" = "x/Foo" := by decide +kernel
  have ha : (ClassNames.ofTable chainTable).unmap "x/Foo" = "a" := by decide +kernel
  exact ⟨hinputs, hsources, hinverted, hsignature, hmap "x.Foo$1", report, s₂, xs, x, c, hperform.trans hran, hremaps,
    hx, hc, hmoves, hname, hunmap.trans ha, hprinted "x.Foo" hnormal⟩

end Relabel
