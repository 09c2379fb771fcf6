import Relabel.Files.Tree
import Relabel.Proofs.Effect

/-!
# Files that are written and renamed

A path only goes through directories. So whatever becomes of files, a path that had a target has the same one as
long as all directories stay: `Files.KeepsDirectories` says this from one tree to a later one, and writing and
renaming files are such steps. What is written under one path and renamed to another is then read there.
-/

set_option autoImplicit false

namespace Relabel.Files

variable {files files' : Files} {path : String} {place directory : Place} {t : Target} {content : Bytes}

/-! ## Trees with the same directories -/

/-- All directories stay, and relative paths start where they started. -/
structure KeepsDirectories (files files' : Files) : Prop where
  home : files'.home = files.home
  directory : ∀ place, files.nodeAt? place = some .directory → files'.nodeAt? place = some .directory

theorem KeepsDirectories.trans {files'' : Files} (h : files.KeepsDirectories files')
    (h' : files'.KeepsDirectories files'') : files.KeepsDirectories files'' :=
  ⟨h'.home.trans h.home, fun place hplace => h'.directory place (h.directory place hplace)⟩

/-- A target is not the root. -/
theorem nodeAt?_place (files : Files) (t : Target) : files.nodeAt? t.place = files.nodes[t.place.key]? := rfl

/-- A change at one place, where there was no directory. -/
theorem keepsDirectories_of_nodes (hplace : files.nodeAt? t.place ≠ some .directory)
    (hhome : files'.home = files.home)
    (hnodes : ∀ key, key ≠ t.place.key → files'.nodes[key]? = files.nodes[key]?) : files.KeepsDirectories files' where
  home := hhome
  directory there hthere := by
    unfold nodeAt? at hthere ⊢
    split
    · rfl
    · next hne =>
      rw [if_neg hne] at hthere
      rw [hnodes _ fun hkey => hplace ?_, hthere]
      rw [nodeAt?_place, ← hkey, hthere]

theorem keepsDirectories_put (hplace : files.nodeAt? t.place ≠ some .directory) (node : FileNode) :
    files.KeepsDirectories (files.put t.place node) :=
  keepsDirectories_of_nodes hplace rfl fun key hkey => by
    rw [put, Std.ExtTreeMap.getElem?_insert, if_neg (by simpa using hkey.symm)]

theorem keepsDirectories_erase (hplace : files.nodeAt? t.place ≠ some .directory) :
    files.KeepsDirectories { files with nodes := files.nodes.erase t.place.key } :=
  keepsDirectories_of_nodes hplace rfl fun key hkey => by
    rw [Std.ExtTreeMap.getElem?_erase, if_neg (by simpa using hkey.symm)]

theorem nodeAt?_put (files : Files) (t : Target) (node : FileNode) :
    (files.put t.place node).nodeAt? t.place = some node :=
  Std.ExtTreeMap.getElem?_insert_self

theorem nodeAt?_of_erase {key : String} {node : FileNode}
    (h : nodeAt? { files with nodes := files.nodes.erase key } t.place = some node) :
    files.nodeAt? t.place = some node := by
  rw [nodeAt?_place, Std.ExtTreeMap.getElem?_erase] at h
  split at h
  · cases h
  · exact h

/-- A file is taken from one place to another one. -/
theorem keepsDirectories_move {old : Target} (hfile : files.nodeAt? old.place = some (.file content))
    (hplace : files.nodeAt? t.place ≠ some .directory) (node : FileNode) :
    files.KeepsDirectories (put { files with nodes := files.nodes.erase old.place.key } t.place node) :=
  (keepsDirectories_erase fun h => absurd (hfile.symm.trans h) nofun).trans
    (keepsDirectories_put (fun h => hplace (nodeAt?_of_erase h)) node)

/-! ## Following a path -/

theorem directory_of_enter {name : String} (h : files.enter place name = .ok directory) :
    files.nodeAt? place = some .directory := by
  unfold enter at h
  split at h
  · cases h
  · next hplace => exact Decidable.not_not.mp hplace

theorem directory_of_walk {names : List String} (h : names.foldlM files.enter place = .ok directory)
    (hend : files.nodeAt? directory = some .directory) : files.nodeAt? place = some .directory := by
  cases names with
  | nil =>
    obtain rfl := Except.ok.inj h
    exact hend
  | cons name names =>
    obtain ⟨next, hnext, -⟩ := Effect.except_bind_eq_ok.mp h
    exact directory_of_enter hnext

theorem enter_of_keepsDirectories (hkeeps : files.KeepsDirectories files') {name : String}
    (h : files.enter place name = .ok directory) (hend : files.nodeAt? directory = some .directory) :
    files'.enter place name = .ok directory := by
  have hplace := directory_of_enter h
  rw [enter, if_neg (Decidable.not_not.mpr hplace)] at h
  rw [enter, if_neg (Decidable.not_not.mpr (hkeeps.directory place hplace))]
  by_cases hstay : name = "" ∨ name = "."
  · rw [if_pos hstay] at h ⊢
    exact h
  by_cases hup : name = ".."
  · rw [if_neg hstay, if_pos hup] at h ⊢
    exact h
  rw [if_neg hstay, if_neg hup] at h ⊢
  split at h
  · cases h
  split at h
  · obtain rfl := Except.ok.inj h
    rw [if_neg ‹_›, hkeeps.directory _ hend]
    rfl
  · cases h

/-- A path goes through directories only. -/
theorem walk_of_keepsDirectories (hkeeps : files.KeepsDirectories files') {names : List String}
    (h : names.foldlM files.enter place = .ok directory) (hend : files.nodeAt? directory = some .directory) :
    names.foldlM files'.enter place = .ok directory := by
  induction names generalizing place with
  | nil => exact h
  | cons name names ih =>
    obtain ⟨next, hnext, hrest⟩ := Effect.except_bind_eq_ok.mp h
    refine Effect.except_bind_eq_ok.mpr ⟨next, ?_, ih hrest⟩
    exact enter_of_keepsDirectories hkeeps hnext (directory_of_walk hrest hend)

theorem target_eq_ok : files.target path = .ok t ↔ ∃ start names, files.openPath path = .ok (start, names) ∧
    (names.reverse.dropWhile (· = "")).tail.reverse.foldlM files.enter start = .ok t.directory ∧
    files.nodeAt? t.directory = some .directory ∧ t.name = (names.reverse.dropWhile (· = "")).headD "" ∧
    t.slashed = decide ((names.reverse.dropWhile (· = "")).length < names.length) := by
  constructor
  · intro h
    obtain ⟨⟨start, names⟩, hopen, h⟩ := Effect.except_bind_eq_ok.mp h
    obtain ⟨directory, hwalk, h⟩ := Effect.except_bind_eq_ok.mp h
    split at h
    · cases h
    · next hdirectory =>
      obtain rfl := Except.ok.inj h
      exact ⟨start, names, hopen, hwalk, Decidable.not_not.mp hdirectory, rfl, rfl⟩
  · rintro ⟨start, names, hopen, hwalk, hdirectory, hname, hslashed⟩
    refine Effect.except_bind_eq_ok.mpr ⟨(start, names), hopen, Effect.except_bind_eq_ok.mpr ⟨_, hwalk, ?_⟩⟩
    rw [if_neg (Decidable.not_not.mpr hdirectory), ← hname]
    obtain ⟨directory, name, slashed⟩ := t
    obtain rfl : slashed = _ := hslashed
    rfl

theorem target_of_keepsDirectories (hkeeps : files.KeepsDirectories files') (h : files.target path = .ok t) :
    files'.target path = .ok t := by
  obtain ⟨start, names, hopen, hwalk, hdirectory, hrest⟩ := target_eq_ok.mp h
  refine target_eq_ok.mpr ⟨start, names, ?_, walk_of_keepsDirectories hkeeps hwalk hdirectory,
    hkeeps.directory _ hdirectory, hrest⟩
  rw [openPath, hkeeps.home]
  exact hopen

/-- A path with a target of its own leads to what is there. -/
theorem read_of_target (ht : files.target path = .ok t) (htaken : t.isTaken = false) (hslashed : t.slashed = false)
    (hshort : t.name.utf8ByteSize ≤ nameLimit) (hfile : files.nodeAt? t.place = some (.file content)) :
    files.read path = .ok content := by
  obtain ⟨start, names, hopen, hwalk, hdirectory, hname, hslash⟩ := target_eq_ok.mp ht
  simp only [Target.isTaken, Bool.or_eq_false_iff, decide_eq_false_iff_not] at htaken
  obtain ⟨⟨hempty, hdot⟩, hup⟩ := htaken
  -- The path does not end in a slash, so the name of the target is its last one.
  have hnames : names.reverse.dropWhile (· = "") = names.reverse := by
    rw [hslashed, eq_comm, decide_eq_false_iff_not, Nat.not_lt] at hslash
    refine (List.dropWhile_suffix _).eq_of_length (Nat.le_antisymm (List.dropWhile_suffix _).length_le ?_)
    rwa [List.length_reverse]
  rw [hnames] at hwalk hname
  obtain ⟨last, rest, hlast⟩ : ∃ last rest, names.reverse = last :: rest := by
    refine List.exists_cons_of_ne_nil fun hnil => hempty ?_
    rw [hname, hnil]
    rfl
  rw [hlast] at hwalk hname
  obtain rfl : t.name = last := hname
  have hlocate : files.locate path = .ok t.place := by
    refine Effect.except_bind_eq_ok.mpr ⟨(start, names), hopen, ?_⟩
    show names.foldlM files.enter start = _
    rw [← List.reverse_reverse names, hlast, List.reverse_cons, List.foldlM_append]
    refine Effect.except_bind_eq_ok.mpr ⟨t.directory, hwalk, ?_⟩
    have henter : files.enter t.directory t.name = .ok t.place := by
      rw [enter, if_neg (Decidable.not_not.mpr hdirectory), if_neg (not_or.mpr ⟨hempty, hdot⟩), if_neg hup,
        if_neg (Nat.not_lt.mpr hshort), if_pos (by rw [show t.name :: t.directory = t.place from rfl, hfile]; rfl)]
      rfl
    rw [List.foldlM_cons, henter]
    rfl
  have hfind : files.find path = .ok (.file content) := by
    refine Effect.except_bind_eq_ok.mpr ⟨t.place, hlocate, ?_⟩
    rw [hfile]
  refine Effect.except_bind_eq_ok.mpr ⟨_, hfind, rfl⟩

/-! ## Writing and renaming -/

theorem toEffect_eq_ok {α : Type} {e : FileEffect α} {a : α} :
    (liftM e : Effect Files α) files = .ok a files' ↔ e files = .ok a files' := by
  show FileEffect.toEffect e files = _ ↔ _
  unfold FileEffect.toEffect
  cases e files <;> simp

theorem check_eq_ok {α : Type} {answer : Files → Except FileFault α} {a : α} :
    check answer files = .ok a files' ↔ answer files = .ok a ∧ files = files' := by
  unfold check
  cases answer files <;> simp

theorem lookUp?_eq_ok {node? : Option FileNode} :
    files.lookUp? t = .ok node? ↔ t.name.utf8ByteSize ≤ nameLimit ∧ files.nodeAt? t.place = node? := by
  unfold lookUp?
  split
  · next hlong => exact iff_of_false nofun fun h => absurd h.1 (Nat.not_le.mpr hlong)
  · next hshort =>
    rw [Except.ok.injEq]
    exact ⟨fun h => ⟨Nat.not_lt.mp hshort, h⟩, fun h => h.2⟩

theorem exists_target_of_write (h : write path content files = .ok () files') :
    ∃ t, files.target path = .ok t ∧ files.nodeAt? t.place ≠ some .directory ∧
      files' = files.put t.place (.file content) := by
  obtain ⟨t, files₁, ht, h⟩ := Effect.bind_eq_ok.mp h
  obtain ⟨htarget, rfl⟩ := check_eq_ok.mp ht
  split at h
  · obtain ⟨_, _, hthrow, -⟩ := Effect.bind_eq_ok.mp h
    cases hthrow
  obtain ⟨node?, files₁, hnode, h⟩ := Effect.bind_eq_ok.mp h
  obtain ⟨hlook, rfl⟩ := check_eq_ok.mp hnode
  split at h
  · obtain ⟨_, _, hthrow, -⟩ := Effect.bind_eq_ok.mp h
    cases hthrow
  · next hdirectory =>
    rw [← (lookUp?_eq_ok.mp hlook).2] at hdirectory
    obtain ⟨-, rfl⟩ := EStateM.Result.ok.inj h
    exact ⟨t, htarget, hdirectory, rfl⟩

/-- A file that was renamed is gone from its old place and there at its new one. -/
theorem exists_targets_of_rename {source : String} (h : rename source path files = .ok () files') :
    ∃ old t content, files.target source = .ok old ∧ files.nodeAt? old.place = some (.file content) ∧
      files.target path = .ok t ∧ t.isTaken = false ∧ t.slashed = false ∧ t.name.utf8ByteSize ≤ nameLimit ∧
      files.nodeAt? t.place ≠ some .directory ∧
      files' = Files.put { files with nodes := files.nodes.erase old.place.key } t.place (.file content) := by
  obtain ⟨old, files₁, hold, h⟩ := Effect.bind_eq_ok.mp h
  obtain ⟨hsource, rfl⟩ := check_eq_ok.mp hold
  obtain ⟨t, files₁, ht, h⟩ := Effect.bind_eq_ok.mp h
  obtain ⟨htarget, rfl⟩ := check_eq_ok.mp ht
  split at h
  · obtain ⟨_, _, hthrow, -⟩ := Effect.bind_eq_ok.mp h
    cases hthrow
  next htaken =>
  obtain ⟨node?, files₁, hnode, h⟩ := Effect.bind_eq_ok.mp h
  obtain ⟨hlook, rfl⟩ := check_eq_ok.mp hnode
  split at h
  · next content =>
    obtain ⟨present?, files₁, hpresent, h⟩ := Effect.bind_eq_ok.mp h
    obtain ⟨hthere, rfl⟩ := check_eq_ok.mp hpresent
    split at h
    · obtain ⟨_, _, hthrow, -⟩ := Effect.bind_eq_ok.mp h
      cases hthrow
    next hslashed =>
    split at h
    · obtain ⟨_, _, hthrow, -⟩ := Effect.bind_eq_ok.mp h
      cases hthrow
    next hdirectory =>
    obtain ⟨hshort, hnone⟩ := lookUp?_eq_ok.mp hthere
    rw [← hnone] at hdirectory
    obtain ⟨-, rfl⟩ := EStateM.Result.ok.inj h
    exact ⟨old, t, content, hsource, (lookUp?_eq_ok.mp hlook).2, htarget, Bool.eq_false_iff.mpr htaken,
      Bool.eq_false_iff.mpr hslashed, hshort, hdirectory, rfl⟩
  · cases h
  · cases h

/-- What is written to one path and then renamed to another one is read there. -/
theorem read_of_write_rename {source : String} {files₁ : Files} (hwrite : write source content files = .ok () files₁)
    (hrename : rename source path files₁ = .ok () files') : files'.read path = .ok content := by
  obtain ⟨t₀, ht₀, hplace₀, rfl⟩ := exists_target_of_write hwrite
  obtain ⟨old, t, content', hold, hfile, ht, htaken, hslashed, hshort, hplace, rfl⟩ :=
    exists_targets_of_rename hrename
  -- The file that is renamed is the one that was written.
  obtain rfl : t₀ = old := by
    have hsame := target_of_keepsDirectories (keepsDirectories_put hplace₀ (.file content)) ht₀
    exact Except.ok.inj (hsame.symm.trans hold)
  obtain rfl : content = content' := FileNode.file.inj (Option.some.inj ((nodeAt?_put files t₀ _).symm.trans hfile))
  have hkeeps := keepsDirectories_move hfile hplace (.file content)
  exact read_of_target (target_of_keepsDirectories hkeeps ht) htaken hslashed hshort (nodeAt?_put _ t _)

end Relabel.Files
