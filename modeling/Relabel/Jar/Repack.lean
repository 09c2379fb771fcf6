import Relabel.Class.Name
import Relabel.Pipeline
import Relabel.Zip.Directory

/-!
# A pass over an archive

Every entry of an archive is taken in order. A class goes through a pipeline and is written under its new
internal name; anything else is copied as it is. So the result has one entry for each entry of the input,
in the same order. No class may be written under a name that is already taken.

Only one part of the old name of a class entry survives: the folder of a release, which is how an archive
keeps several versions of a class.
-/

set_option autoImplicit false

namespace Relabel

/-- What a pass did to the entries of an archive. -/
structure ArchiveSummary where
  entries : Nat
  classes : Nat
  /-- Classes to which a transformer applied. -/
  transformed : Nat
  unchanged : Nat
  /-- Classes that are written under another entry name than they were read from. -/
  relocated : Nat
  /-- Directories and entries that are no classes. -/
  resources : Nat
  deriving DecidableEq, Repr

/-- Nothing done. -/
def ArchiveSummary.zero : ArchiveSummary := ⟨0, 0, 0, 0, 0, 0⟩

/-! ## Names -/

/-- The name of an entry that is a class. -/
def isClassName (name : String) : Bool :=
  !Zip.isDirectoryName name && (Text.stripSuffix? classEnding name).isSome

/-- The folder in which the folders of the releases lie. -/
def releasesFolder : String := "META-INF/versions/"

/-- The folder of a release, if an entry lies in one: its name consists of one or more digits. -/
def releaseFolder? (name : String) : Option String := do
  let rest ← Text.stripPrefix? releasesFolder name
  let (release, _) ← Text.splitAtFirst? '/' rest
  if release.isEmpty || !release.toList.all Char.isDigit then none
  else some (releasesFolder ++ release ++ "/")

/-- The name under which a class is written, from the name of its entry and its new internal name. -/
def relocatedName (entryName className : String) : String :=
  (releaseFolder? entryName).getD "" ++ className ++ classEnding

/-! ## The pass -/

/-- What a pass has written. -/
structure Repacked where
  entries : Array Zip.Entry
  /-- The names of the entries. -/
  names : Dict Unit
  summary : ArchiveSummary

namespace Repacked

/-- Nothing written. -/
def empty : Repacked := ⟨#[], ∅, .zero⟩

/-- Copies an entry that is no class. -/
def addResource (r : Repacked) (e : Zip.Entry) : Repacked where
  entries := r.entries.push e
  names := r.names.insert e.name ()
  summary := { r.summary with
    entries := r.summary.entries + 1, resources := r.summary.resources + 1 }

/-- Writes a class that was read from the entry `e`, packed in the way of that entry as far as that is
possible, and with its time stamp and its permissions. -/
def addClass (r : Repacked) (e : Zip.Entry) (c : TransformedClass) : Except Error Repacked :=
  let name := relocatedName e.name c.name
  if r.names.contains name then .error (.unsupported (.duplicateEntry name))
  else
    let method := if e.method = .stored then .stored else .deflated
    let s := r.summary
    .ok
      { entries := r.entries.push (.ofContent name method e.stamp e.mode.asFile c.bytes)
        names := r.names.insert name ()
        summary :=
          { s with
            entries := s.entries + 1
            classes := s.classes + 1
            transformed := if c.transformed then s.transformed + 1 else s.transformed
            unchanged := if c.transformed then s.unchanged else s.unchanged + 1
            relocated := if name = e.name then s.relocated else s.relocated + 1 } }

end Repacked

namespace Effect

variable {σ α : Type}

/-- Names the entry during which an effect fails. -/
def inEntry (name : String) (e : Effect σ α) : Effect σ α := fun s =>
  match e s with
  | .ok a s => .ok a s
  | .error cause s => .error (.entry name cause) s

end Effect

namespace Pipeline

variable {σ : Type}

/-- Takes one entry through the pipeline. -/
def repackRecord (p : Pipeline σ) (done : Repacked) (r : Zip.Record) : Effect σ Repacked := do
  let raw ← r.raw
  if isClassName r.name then
    let (e, bytes) ← r.unpacked
    Effect.inEntry r.name do
      let c ← p.transform bytes
      done.addClass e c
  else return done.addResource raw

/-- Takes entries through the pipeline, one after the other. -/
def repackFrom (p : Pipeline σ) : List Zip.Record → Repacked → Effect σ Repacked
  | [], done => pure done
  | r :: rs, done => do
    let done ← p.repackRecord done r
    repackFrom p rs done

/-- Takes all entries of an archive through the pipeline. -/
def repack (p : Pipeline σ) (records : List Zip.Record) : Effect σ Repacked :=
  p.repackFrom records .empty

end Pipeline

end Relabel
