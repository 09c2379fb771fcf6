import Relabel.Proofs.Files.Tree
import Relabel.Proofs.Jar.Remap
import Relabel.Proofs.Jar.Repack

/-!
# The archive that a run leaves

A run opens the archive at one path, takes its entries through the pipeline and leaves the result at another path.
`Remaps` says this of the files before and after the run. Where supertypes are looked for depends on the class path
and on what the directories hold while the run is under way, so the provider stays open there: classes get their
names from the table alone.
-/

set_option autoImplicit false

namespace Relabel

/-! ## Records of a directory -/

namespace Zip

theorem name_of_readRecord {image : Image} {lead pos next : Nat} {r : Record}
    (h : readRecord image lead pos = .ok (r, next)) {e : Entry} (he : r.raw = .ok e) : e.name = r.name := by
  unfold readRecord at h
  obtain ⟨_, -, h⟩ := Effect.except_bind_eq_ok.mp h
  split at h
  · obtain ⟨_, hthrow, -⟩ := Effect.except_bind_eq_ok.mp h
    cases hthrow
  -- Of all the fields that are read, only the name goes to both places.
  iterate 17 obtain ⟨_, -, h⟩ := Effect.except_bind_eq_ok.mp h
  split at h
  · obtain ⟨_, hthrow, -⟩ := Effect.except_bind_eq_ok.mp h
    cases hthrow
  obtain ⟨rfl, -⟩ := Prod.mk.inj (Except.ok.inj h)
  rw [Record.raw] at he
  split at he
  · next entry hentry =>
    obtain rfl := Except.ok.inj he
    obtain ⟨data, -, rfl⟩ := Effect.except_map_eq_ok.mp hentry
    rfl
  · cases he

/-- An entry that is there has the name that the directory gives. -/
theorem name_of_readDirectory {bytes : Bytes} {records : List Record} (h : readDirectory bytes = .ok records)
    {r : Record} (hr : r ∈ records) {e : Entry} (he : r.raw = .ok e) : e.name = r.name := by
  obtain ⟨range, -, h⟩ := Effect.except_bind_eq_ok.mp h
  have hall (count pos : Nat) (acc : List Record) (hacc : ∀ r ∈ acc, ∀ e, r.raw = .ok e → e.name = r.name)
      (h : readRecords bytes.toArray range.lead count pos acc = .ok records) :
      ∀ r ∈ records, ∀ e, r.raw = .ok e → e.name = r.name := by
    induction count generalizing pos acc with
    | zero =>
      obtain rfl := Except.ok.inj h
      exact fun r hr => hacc r (List.mem_reverse.mp hr)
    | succ count ih =>
      rw [readRecords] at h
      split at h
      · cases h
      · next record next hrecord =>
        exact ih next _ (List.forall_mem_cons.mpr ⟨fun e he => name_of_readRecord hrecord he, hacc⟩) h
  exact hall _ _ _ (List.forall_mem_nil _) h r hr e he

theorem Record.exists_content {r : Record} {e : Entry} {content : Bytes} (h : r.unpacked = .ok (e, content)) :
    r.content = .ok content := by
  rw [Record.content, h]
  rfl

end Zip

namespace Pipeline

variable {σ : Type} {p : Pipeline σ}

/-- The entries of a run that got through were there, and its classes could be unpacked. -/
theorem faithful_of_repackFrom {records : List Zip.Record} {done done' : Repacked} {s s' : σ}
    (hnames : ∀ r ∈ records, ∀ e, r.raw = .ok e → e.name = r.name)
    (h : p.repackFrom records done s = .ok done' s') : ∀ r ∈ records, r.Faithful := by
  induction records generalizing done s with
  | nil => exact List.forall_mem_nil _
  | cons r records ih =>
    obtain ⟨hname, hnames⟩ := List.forall_mem_cons.mp hnames
    obtain ⟨done₁, s₁, hrecord, hrest⟩ := Effect.bind_eq_ok.mp h
    refine List.forall_mem_cons.mpr ⟨?_, ih hnames hrest⟩
    obtain ⟨e, s₂, hraw, hrecord⟩ := Effect.bind_eq_ok.mp hrecord
    obtain ⟨hthere, rfl⟩ := Effect.lift_eq_ok.mp hraw
    refine ⟨⟨e, hthere, hname e hthere⟩, fun hclass => ?_⟩
    rw [if_pos hclass] at hrecord
    obtain ⟨⟨e, content⟩, s₂, hunpacked, -⟩ := Effect.bind_eq_ok.mp hrecord
    exact ⟨content, Zip.Record.exists_content (Effect.lift_eq_ok.mp hunpacked).1⟩

/-- A run over the entries of an archive that got through. -/
theorem passes_of_repack {bytes : Bytes} {records : List Zip.Record} (hread : Zip.readDirectory bytes = .ok records)
    {done : Repacked} {s s' : σ} (h : p.repack records s = .ok done s') :
    ∃ xs : List Passage, xs.map Passage.record = records ∧ p.Passes xs s s' ∧
      xs.map Passage.entry = done.entries.toList := by
  have hfaithful := faithful_of_repackFrom (fun r hr e => Zip.name_of_readDirectory hread hr) h
  obtain ⟨xs, done', s'', hrun, hrecords, hwrites⟩ | ⟨err, s'', hrun, -⟩ :=
    p.repackFrom_cases records hfaithful .empty s
  · obtain ⟨rfl, rfl⟩ := EStateM.Result.ok.inj (hrun.symm.trans h)
    exact ⟨xs, hrecords, hwrites.passes, hwrites.entries.symm⟩
  · rw [repack, hrun] at h
    cases h

/-- What became of one class of a run. -/
theorem Passes.transform_of_mem {xs : List Passage} {s s' : σ} (h : p.Passes xs s s') {x : Passage} (hx : x ∈ xs)
    (hname : isClassName x.record.name = true) :
    ∃ content c folder s₁ s₂, x.class? = some c ∧ x.record.content = .ok content ∧
      p.transform content s₁ = .ok c s₂ ∧ x.entry.content = .ok c.bytes ∧ KeptFolder x.record.name folder ∧
      x.entry.name = folder ++ c.name ++ classEnding := by
  induction h with
  | nil => cases hx
  | resource hresource _ _ _ ih =>
    obtain rfl | hx := List.mem_cons.mp hx
    · cases hname.symm.trans hresource
    · exact ih hx
  | «class» _ hcontent htransform hbytes hfolder hentry _ ih =>
    obtain rfl | hx := List.mem_cons.mp hx
    · exact ⟨_, _, _, _, _, rfl, hcontent, htransform, hbytes, hfolder, hentry⟩
    · exact ih hx

end Pipeline

/-! ## Runs -/

/-- From one tree of files to another, the archive at `input` was remapped to `output`. -/
structure Remaps (renames : Renaming) (input output : String) (files files' : Files) (xs : List Passage) : Prop where
  opened : openArchive input files = .ok (xs.map Passage.record) files
  passes : ∃ provider s, (remapPipeline ⟨renames, provider⟩).Passes xs ⟨.ofResolver .empty, 0⟩ s
  written : files'.read output = .ok (Zip.writeArchive (xs.map Passage.entry))

/-- The class that an entry of an archive holds. -/
def Zip.Record.className (r : Zip.Record) : Except Error String :=
  r.content >>= ClassFile.ofBytes >>= ClassFile.className

/-- A class was read under one name and written under its image, in its bytes as well as in the archive. -/
structure ClassMoves (renames : Renaming) (x : Passage) (c : TransformedClass) : Prop where
  read : ∃ content f, x.record.content = .ok content ∧ ClassFile.ofBytes content = .ok f ∧
    f.className = .ok c.inputName
  name : renames.classes.translateType .toSource c.inputName = .ok c.name
  written : ∃ f, x.entry.content = .ok c.bytes ∧ ClassFile.ofBytes c.bytes = .ok f ∧ f.className = .ok c.name
  place : ∃ folder, KeptFolder x.record.name folder ∧ x.entry.name = folder ++ c.name ++ classEnding

theorem ClassMoves.className {renames : Renaming} {x : Passage} {c : TransformedClass}
    (h : ClassMoves renames x c) : x.record.className = .ok c.inputName := by
  obtain ⟨content, f, hcontent, hf, hname⟩ := h.read
  rw [Zip.Record.className, hcontent]
  show ClassFile.ofBytes content >>= ClassFile.className = _
  rw [hf]
  exact hname

theorem Remaps.classMoves {renames : Renaming} {input output : String} {files files' : Files} {xs : List Passage}
    (h : Remaps renames input output files files' xs) {x : Passage} (hx : x ∈ xs)
    (hname : isClassName x.record.name = true) : ∃ c, x.class? = some c ∧ ClassMoves renames x c := by
  obtain ⟨provider, s, hpasses⟩ := h.passes
  obtain ⟨content, c, folder, s₁, s₂, hc, hcontent, htransform, hbytes, hfolder, hentry⟩ :=
    hpasses.transform_of_mem hx hname
  obtain ⟨f, m, hf, hclass, -, -, htranslate, f', hf', hwritten⟩ := Pipeline.read_of_transform htransform
  exact ⟨c, hc, ⟨content, f, hcontent, hf, hclass⟩, htranslate, ⟨f', hbytes, hf', hwritten⟩, folder, hfolder, hentry⟩

theorem openArchive_eq_ok {path : String} {files files' : Files} {records : List Zip.Record}
    (h : openArchive path files = .ok records files') :
    files = files' ∧ ∃ bytes, Zip.readDirectory bytes = .ok records := by
  obtain ⟨bytes, files₁, hread, h⟩ := Effect.bind_eq_ok.mp h
  obtain ⟨-, rfl⟩ := Files.check_eq_ok.mp (Files.toEffect_eq_ok.mp hread)
  cases hrecords : Zip.readDirectory bytes with
  | error =>
    rw [hrecords] at h
    cases h
  | ok records' =>
    rw [hrecords] at h
    obtain ⟨rfl, rfl⟩ := Effect.pure_eq_ok.mp h
    exact ⟨rfl, bytes, hrecords⟩

theorem files_of_ofPath {path : String} {files files' : Files} {source : ClassSource}
    (h : ClassSource.ofPath path files = .ok source files') : files = files' := by
  obtain ⟨_, _, hget, h⟩ := Effect.bind_eq_ok.mp h
  obtain ⟨rfl, rfl⟩ := EStateM.Result.ok.inj hget
  split at h
  · exact (Effect.pure_eq_ok.mp h).2
  · obtain ⟨records, files₁, hopen, h⟩ := Effect.bind_eq_ok.mp h
    obtain ⟨rfl, -⟩ := openArchive_eq_ok hopen
    exact (Effect.pure_eq_ok.mp h).2

/-- Looking at the class path changes no files. -/
theorem files_of_mapM {paths : List String} {files files' : Files} {sources : List ClassSource}
    (h : paths.mapM ClassSource.ofPath files = .ok sources files') : files = files' := by
  induction paths generalizing files files' sources with
  | nil => exact (Effect.pure_eq_ok.mp h).2
  | cons path paths ih =>
    rw [List.mapM_cons] at h
    obtain ⟨source, files₁, hfirst, h⟩ := Effect.bind_eq_ok.mp h
    obtain ⟨rest, files₂, hrest, h⟩ := Effect.bind_eq_ok.mp h
    exact (files_of_ofPath hfirst).trans ((ih hrest).trans (Effect.pure_eq_ok.mp h).2)

theorem eq_ok_of_discardOnFailure {α : Type} {path : String} {e : Effect Files α} {files files' : Files} {a : α}
    (h : discardOnFailure path e files = .ok a files') : e files = .ok a files' := by
  unfold discardOnFailure at h
  split at h
  · next he =>
    obtain ⟨rfl, rfl⟩ := EStateM.Result.ok.inj h
    exact he
  · split at h <;> cases h

/-- The result of a run is where it was asked for. -/
theorem repackFile_eq_ok {σ : Type} {pipeline : Files → Pipeline σ} {start s : σ} {input output : String}
    {files files' : Files} {summary : ArchiveSummary}
    (h : repackFile pipeline start input output files = .ok (summary, s) files') :
    ∃ files₁ xs, openArchive input files = .ok (xs.map Passage.record) files ∧
      (pipeline files₁).Passes xs start s ∧ files'.read output = .ok (Zip.writeArchive (xs.map Passage.entry)) := by
  obtain ⟨records, _, hopen, h⟩ := Effect.bind_eq_ok.mp h
  obtain ⟨rfl, bytes, hrecords⟩ := openArchive_eq_ok hopen
  obtain ⟨⟨⟩, files₁, -, h⟩ := Effect.bind_eq_ok.mp h
  have h := eq_ok_of_discardOnFailure h
  obtain ⟨⟨⟩, files₂, -, h⟩ := Effect.bind_eq_ok.mp h
  obtain ⟨_, _, hget, h⟩ := Effect.bind_eq_ok.mp h
  obtain ⟨rfl, rfl⟩ := EStateM.Result.ok.inj hget
  cases hrepack : (pipeline files₂).repack records start with
  | error =>
    rw [hrepack] at h
    cases h
  | ok done s₁ =>
  rw [hrepack] at h
  obtain ⟨⟨⟩, files₃, hwrite, h⟩ := Effect.bind_eq_ok.mp h
  obtain ⟨⟨⟩, files₄, hrename, h⟩ := Effect.bind_eq_ok.mp h
  obtain ⟨hsame, rfl⟩ := Effect.pure_eq_ok.mp h
  obtain ⟨rfl, rfl⟩ := Prod.mk.inj hsame
  obtain ⟨xs, rfl, hpasses, hentries⟩ := Pipeline.passes_of_repack hrecords hrepack
  refine ⟨_, xs, hopen, hpasses, ?_⟩
  rw [hentries]
  exact Files.read_of_write_rename (Files.toEffect_eq_ok.mp hwrite) (Files.toEffect_eq_ok.mp hrename)

theorem remaps_of_remapFile {input output : String} {table : MappingTable} {classpath : List String}
    {files files' : Files} {report : RemapReport}
    (h : remapFile input output table classpath files = .ok report files') :
    ∃ xs, Remaps (Renaming.ofTable table) input output files files' xs := by
  obtain ⟨own, _, hown, h⟩ := Effect.bind_eq_ok.mp h
  obtain ⟨rfl, -⟩ := openArchive_eq_ok hown
  obtain ⟨others, _, hothers, h⟩ := Effect.bind_eq_ok.mp h
  obtain rfl := files_of_mapM hothers
  obtain ⟨⟨archive, s⟩, files₁, hrun, h⟩ := Effect.bind_eq_ok.mp h
  obtain ⟨files₂, xs, hopen, hpasses, hwritten⟩ := repackFile_eq_ok hrun
  obtain ⟨digest, _, hdigest, h⟩ := Effect.bind_eq_ok.mp h
  obtain ⟨content, _, hread, hdigest⟩ := Effect.bind_eq_ok.mp hdigest
  obtain ⟨-, rfl⟩ := Files.check_eq_ok.mp (Files.toEffect_eq_ok.mp hread)
  obtain ⟨-, rfl⟩ := Effect.pure_eq_ok.mp hdigest
  obtain ⟨-, rfl⟩ := Effect.pure_eq_ok.mp h
  exact ⟨xs, hopen, ⟨_, s, hpasses⟩, hwritten⟩

end Relabel
