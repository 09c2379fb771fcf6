import Relabel.Digest.Sha256
import Relabel.Jar.ClassPath
import Relabel.Jar.Repack
import Relabel.Zip.Writer

/-!
# Remapping an archive

The archive at one path is taken through a pipeline and written to another path. It is first written to a
temporary path, which gets its proper name when it is complete, so a run that fails leaves no output
behind. Supertypes are looked for in the archive itself and then along the class path.
-/

set_option autoImplicit false

namespace Relabel

/-- What a run did. -/
structure RemapReport where
  input : String
  output : String
  archive : ArchiveSummary
  renames : RenameStats
  /-- How many declarations had their access changed. -/
  patched : Nat
  resolver : ResolverStats
  /-- The SHA-256 digest of the output. -/
  digest : String

/-! ## Paths -/

/-- Where an archive is written while it is incomplete. -/
def temporaryPath (output : String) : String := output ++ ".tmp"

/-- A text that is used unless it is empty or missing. -/
def orElseText (text? : Option String) (default : String) : String :=
  match text? with
  | some text => if text = "" then default else text
  | none => default

/-- The output of a run: next to the input, with a name that tells the direction, unless it is given. -/
def outputPath (input : String) (output? : Option String) (reverse : Bool) : String :=
  match output? with
  | some output => output
  | none =>
    let name := Path.splitName? input
    let stem := orElseText (name.map Prod.fst) "output"
    let extension := orElseText (name.bind Prod.snd) "jar"
    let file := stem ++ (if reverse then "-reobf." else "-deobf.") ++ extension
    match Path.parent? input with
    | some parent => Path.join parent file
    | none => file

/-! ## Runs -/

/-- Removes the file at a path if an effect fails. -/
def discardOnFailure {α : Type} (path : String) (e : Effect Files α) : Effect Files α := fun files =>
  match e files with
  | .ok a files => .ok a files
  | .error error files =>
    match Files.remove path files with
    | .ok () files => .error error files
    | .error _ files => .error error files

/-- Takes the archive at `input` through a pipeline and publishes the result at `output`. The pipeline
may look at the files as they are once the output is under way. -/
def repackFile {σ : Type} (pipeline : Files → Pipeline σ) (start : σ) (input output : String) :
    Effect Files (ArchiveSummary × σ) := do
  let records ← openArchive input
  Files.makeParent output
  let temporary := temporaryPath output
  discardOnFailure temporary do
    Files.write temporary []
    match (pipeline (← get)).repack records start with
    | .error e _ => throw e
    | .ok done s => do
      Files.write temporary (Zip.writeArchive done.entries.toList)
      Files.rename temporary output
      return (done.summary, s)

/-- What the stages of a run keep. -/
structure RemapState where
  renamer : Renamer
  patched : Nat

/-- Renames, and then changes access. -/
def remapPipeline (h : Hierarchy) : Pipeline RemapState where
  names? := some h.renames.classes
  transformers :=
    [.rename h ⟨RemapState.renamer, fun r s => { s with renamer := r }⟩,
      .patch h.renames ⟨RemapState.patched, fun n s => { s with patched := n }⟩]

/-- The digest of the file at a path. -/
def fileDigest (path : String) : Effect Files String := do
  return Sha256.hex (← Files.check fun files => files.read path)

/-- Remaps the archive at `input` into `output`. -/
def remapFile (input output : String) (table : MappingTable) (classpath : List String) :
    Effect Files RemapReport := do
  let own ← openArchive input
  let others ← classpath.mapM ClassSource.ofPath
  let sources := .archive own :: others
  let renames := Renaming.ofTable table
  let pipeline (files : Files) : Pipeline RemapState :=
    remapPipeline ⟨renames, .ofList (sources.map (ClassSource.provider files))⟩
  let (archive, s) ← repackFile pipeline ⟨.ofResolver .empty, 0⟩ input output
  return {
    input := input
    output := output
    archive := archive
    renames := s.renamer.stats
    patched := s.patched
    resolver := s.renamer.resolver.stats
    digest := ← fileDigest output }

end Relabel
