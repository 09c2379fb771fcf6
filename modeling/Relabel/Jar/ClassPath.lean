import Relabel.Class.Name
import Relabel.Files.Tree
import Relabel.Hierarchy.Provider
import Relabel.Zip.Directory

/-!
# Where to look for classes

A class path is a row of archives and directories, and the first that has a class wins. The class with
an internal name is the entry or the file of that name with `.class` behind it. Of several entries with
one name the last one counts.
-/

set_option autoImplicit false

namespace Relabel

namespace ClassProvider

/-- The class in a file that may be absent or unreadable. -/
def ofOutcome : Option (Except Error Bytes) → Except Error (Option ClassFile)
  | none => .ok none
  | some (.ok bytes) => classOf (some bytes)
  | some (.error e) => .error e

theorem ofOutcome_eq_some {outcome? : Option (Except Error Bytes)} {c : ClassFile}
    (h : ofOutcome outcome? = .ok (some c)) :
    ∃ bytes, outcome? = some (.ok bytes) ∧ ClassFile.ofBytes bytes = .ok c := by
  cases outcome? with
  | none => simp [ofOutcome] at h
  | some outcome =>
    cases outcome with
    | error e => simp [ofOutcome] at h
    | ok content =>
      rw [ofOutcome] at h
      obtain ⟨bytes, hbytes, hf⟩ := classOf_eq_some h
      obtain rfl := Option.some.inj hbytes
      exact ⟨content, rfl, hf⟩

/-- The contents of the class entries of an archive, by internal name. -/
def archiveClasses (records : List Zip.Record) : Dict (Except Error Bytes) :=
  records.foldl (fun d r =>
    match Text.stripSuffix? classEnding r.name with
    | some name => d.insert name r.content
    | none => d) ∅

/-- The classes of an archive. -/
def ofArchive (records : List Zip.Record) : ClassProvider :=
  let classes := archiveClasses records
  { find := fun name => ofOutcome classes[name]?
    depth := classes.foldl (fun n _ outcome =>
      match outcome with
      | .ok bytes => n + bytes.length
      | .error _ => n) 0
    bounded := by
      refine namesAtMost_of_dict classes Except.toOption _ (fun n _ outcome => ?_) fun name c hc => ?_
      · cases outcome <;> simp [Except.toOption]
      · obtain ⟨bytes, hbytes, hf⟩ := ofOutcome_eq_some hc
        exact ⟨name, .ok bytes, bytes, hbytes, rfl, hf⟩ }

/-- The classes below a directory. -/
def ofDirectory (files : Files) (root : String) : ClassProvider where
  find name :=
    match files.read (Path.join root (name ++ classEnding)) with
    | .ok bytes => classOf (some bytes)
    | .error .notFound => .ok none
    | .error fault => .error (.file fault)
  depth := files.totalSize
  bounded := by
    refine namesAtMost_of_dict files.nodes FileNode.content? _ (fun n _ node => ?_) fun name c hc => ?_
    · cases node <;> simp [FileNode.content?]
    · split at hc
      · next bytes hread =>
        obtain ⟨_, hbytes, hf⟩ := classOf_eq_some hc
        obtain rfl := Option.some.inj hbytes
        obtain ⟨key, hkey⟩ := Files.exists_key_of_read hread
        exact ⟨key, .file bytes, bytes, hkey, rfl, hf⟩
      · exact absurd hc (by simp)
      · exact absurd hc (by simp)

end ClassProvider

/-- An item of a class path. -/
inductive ClassSource where
  | memory (classes : Dict Bytes)
  | archive (records : List Zip.Record)
  | directory (root : String)

/-- Opens the archive at a path. -/
def openArchive (path : String) : Effect Files (List Zip.Record) := do
  let bytes ← Files.check fun files => files.readWhole path
  match Zip.readDirectory bytes with
  | .ok records => return records
  | .error fault => throw (.archive fault)

namespace ClassSource

/-- The directory or the archive at a path. -/
def ofPath (path : String) : Effect Files ClassSource := do
  if (← get).isDirectory path then return .directory path
  else return .archive (← openArchive path)

/-- The classes of a source. -/
def provider (files : Files) : ClassSource → ClassProvider
  | .memory classes => .ofFiles classes
  | .archive records => .ofArchive records
  | .directory root => .ofDirectory files root

end ClassSource

end Relabel
