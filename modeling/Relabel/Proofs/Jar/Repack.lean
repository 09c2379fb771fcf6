import Relabel.Jar.Remap
import Relabel.Proofs.Dict
import Relabel.Proofs.Effect
import Relabel.Proofs.Text.Split
import Relabel.Proofs.Zip.Deflate

/-!
# What a pass does to an archive

A pass loses no entry, adds none and keeps their order. To say so, every entry of the input is put together
with what became of it in a `Passage`, and `Pipeline.Passes` lists the passages of a whole run: which state
each class met, which class came out, and under which name its bytes stand in the result. Nothing in it
speaks of the names already taken or of the counts; that two entries do not get in each other's way is said
of the passages afterwards.

A pass over a list is followed entry by entry from whatever was written before it. A name can only be
refused because of an earlier class: what is copied never has the name of a class.
-/

set_option autoImplicit false

namespace Relabel

variable {σ : Type}

/-! ## Names -/

theorem isClassName_iff {name : String} : isClassName name = true ↔ ∃ stem, name = stem ++ classEnding := by
  constructor
  · intro h
    obtain ⟨stem, hstem⟩ := Option.isSome_iff_exists.mp (Bool.and_eq_true_iff.mp h).2
    exact ⟨stem, Text.stripSuffix?_eq_some.mp hstem⟩
  · rintro ⟨stem, rfl⟩
    refine Bool.and_eq_true_iff.mpr ⟨?_, Option.isSome_iff_exists.mpr ⟨stem, Text.stripSuffix?_eq_some.mpr rfl⟩⟩
    -- A name with this ending ends in a letter.
    have hlast : (stem ++ classEnding).toList.getLast? = some 's' := by
      rw [String.toList_append, List.getLast?_append]
      rfl
    rw [Zip.isDirectoryName, hlast]
    rfl

theorem isClassName_append (stem : String) : isClassName (stem ++ classEnding) = true :=
  isClassName_iff.mpr ⟨stem, rfl⟩

/-- The folder of a release: its name is one or more digits. -/
def IsReleaseFolder (folder : String) : Prop :=
  ∃ release : String, release ≠ "" ∧ (∀ c ∈ release.toList, '0' ≤ c ∧ c ≤ '9')
    ∧ folder = releasesFolder ++ release ++ "/"

/-- What a class keeps of the name of its entry: the folder of a release that the name starts with, and
nothing if there is none. -/
inductive KeptFolder (name : String) : String → Prop where
  | release {folder rest : String} (hfolder : IsReleaseFolder folder) (hname : name = folder ++ rest) :
      KeptFolder name folder
  | none (hnone : ∀ folder rest, IsReleaseFolder folder → name ≠ folder ++ rest) : KeptFolder name ""

theorem isDigit_iff {c : Char} : c.isDigit = true ↔ '0' ≤ c ∧ c ≤ '9' := by
  simp [Char.isDigit, Char.le_def]

theorem releaseFolder?_eq_some {name folder : String} :
    releaseFolder? name = some folder ↔ IsReleaseFolder folder ∧ ∃ rest, name = folder ++ rest := by
  constructor
  · intro h
    obtain ⟨rest, hrest, htest⟩ := Option.bind_eq_some_iff.mp h
    obtain ⟨⟨release, behind⟩, hcut, hfound⟩ := Option.bind_eq_some_iff.mp htest
    obtain ⟨rfl, -, hslash⟩ := Text.splitAtFirst?_eq_some.mp hcut
    obtain ⟨tail, htail⟩ : ∃ tail, behind.toList = '/' :: tail := List.head?_eq_some_iff.mp hslash
    obtain rfl : behind = "/" ++ String.ofList tail := String.toList_injective (by simp [htail])
    dsimp only at hfound
    split at hfound
    · exact absurd hfound nofun
    · next hdigits =>
      obtain rfl := Option.some.inj hfound
      simp only [Bool.or_eq_true, Bool.not_eq_true', not_or, Bool.not_eq_true, Bool.not_eq_false,
        String.isEmpty_eq_false_iff, List.all_eq_true] at hdigits
      refine ⟨⟨release, hdigits.1, fun c hc => isDigit_iff.mp (hdigits.2 c hc), rfl⟩, String.ofList tail, ?_⟩
      rw [Text.stripPrefix?_eq_some.mp hrest]
      simp [String.append_assoc]
  · rintro ⟨⟨release, hne, hdigits, rfl⟩, rest, rfl⟩
    have hslash : '/' ∉ release.toList := fun hmem => absurd (hdigits _ hmem).1 (by decide)
    have hcut : Text.splitAtFirst? '/' (release ++ ("/" ++ rest)) = some (release, "/" ++ rest) :=
      Text.splitAtFirst?_append hslash (by simp)
    have hprefix : Text.stripPrefix? releasesFolder (releasesFolder ++ release ++ "/" ++ rest)
        = some (release ++ ("/" ++ rest)) :=
      Text.stripPrefix?_eq_some.mpr (by simp [String.append_assoc])
    have hall : ∀ c ∈ release.toList, c.isDigit = true := fun c hc => isDigit_iff.mpr (hdigits c hc)
    rw [releaseFolder?, hprefix]
    change (Text.splitAtFirst? '/' (release ++ ("/" ++ rest))).bind _ = _
    rw [hcut]
    simpa [hne] using hall

theorem keptFolder_iff {name folder : String} :
    KeptFolder name folder ↔ (releaseFolder? name).getD "" = folder := by
  constructor
  · rintro (@⟨_, rest, hfolder, hname⟩ | hnone)
    · rw [releaseFolder?_eq_some.mpr ⟨hfolder, rest, hname⟩, Option.getD_some]
    · cases hfound : releaseFolder? name with
      | none => rfl
      | some folder =>
        obtain ⟨hfolder, rest, hname⟩ := releaseFolder?_eq_some.mp hfound
        exact absurd hname (hnone folder rest hfolder)
  · rintro rfl
    cases hfound : releaseFolder? name with
    | none =>
      refine .none fun folder rest hfolder hname => ?_
      rw [releaseFolder?_eq_some.mpr ⟨hfolder, rest, hname⟩] at hfound
      exact absurd hfound nofun
    | some folder =>
      obtain ⟨hfolder, rest, hname⟩ := releaseFolder?_eq_some.mp hfound
      exact .release hfolder hname

theorem KeptFolder.unique {name folder folder' : String} (h : KeptFolder name folder)
    (h' : KeptFolder name folder') : folder = folder' :=
  (keptFolder_iff.mp h).symm.trans (keptFolder_iff.mp h')

/-! ## What became of an entry -/

/-- An entry of an archive and what became of it. -/
structure Passage where
  record : Zip.Record
  /-- The class that came out of the pipeline, if the entry is one. -/
  class? : Option TransformedClass
  /-- What was written for the entry. -/
  entry : Zip.Entry

namespace Passage

/-- Two passages of which none writes a class under the name of the other. -/
def Apart (x y : Passage) : Prop :=
  x.class?.isSome ∨ y.class?.isSome → x.entry.name ≠ y.entry.name

/-- The passages are those that were counted between two summaries. -/
structure Counted (xs : List Passage) (before after : ArchiveSummary) : Prop where
  entries : after.entries = before.entries + xs.length
  classes : after.classes = before.classes + xs.countP (·.class?.isSome)
  transformed : after.transformed = before.transformed + xs.countP (·.class?.any (·.transformed))
  unchanged : after.unchanged = before.unchanged + xs.countP (·.class?.any (!·.transformed))
  relocated : after.relocated
    = before.relocated + xs.countP fun x => x.class?.isSome && x.entry.name != x.record.name
  resources : after.resources = before.resources + xs.countP (·.class?.isNone)

end Passage

namespace Pipeline

variable {p : Pipeline σ}

/-- A run over some entries that got through. What is no class is copied. A class is what the pipeline
made of the content of its entry in the state that the classes before it left. -/
inductive Passes (p : Pipeline σ) : List Passage → σ → σ → Prop where
  | nil (s : σ) : Passes p [] s s
  | resource {r : Zip.Record} {e : Zip.Entry} {xs : List Passage} {s s' : σ}
      (hname : isClassName r.name = false) (hraw : r.raw = .ok e) (hentry : e.name = r.name)
      (hrest : Passes p xs s s') : Passes p (⟨r, none, e⟩ :: xs) s s'
  | class {r : Zip.Record} {e : Zip.Entry} {content : Bytes} {c : TransformedClass} {folder : String}
      {xs : List Passage} {s s₁ s' : σ} (hname : isClassName r.name = true)
      (hcontent : r.content = .ok content) (htransform : p.transform content s = .ok c s₁)
      (hbytes : e.content = .ok c.bytes) (hfolder : KeptFolder r.name folder)
      (hentry : e.name = folder ++ c.name ++ classEnding) (hrest : Passes p xs s₁ s') :
      Passes p (⟨r, some c, e⟩ :: xs) s s'

/-- A run does not get past an entry, met in the state `s` when some names are taken: it is a class that
does not get through the pipeline, or that would be written under such a name. -/
inductive Refuses (p : Pipeline σ) (taken : String → Prop) (r : Zip.Record) (s : σ) : Prop where
  | transform {content : Bytes} {err : Error} {s' : σ} (hname : isClassName r.name = true)
      (hcontent : r.content = .ok content) (htransform : p.transform content s = .error err s')
  | repeated {content : Bytes} {c : TransformedClass} {s' : σ} {folder : String}
      (hname : isClassName r.name = true) (hcontent : r.content = .ok content)
      (htransform : p.transform content s = .ok c s') (hfolder : KeptFolder r.name folder)
      (htaken : taken (folder ++ c.name ++ classEnding))

end Pipeline

/-- The directory tells the truth of an entry: it is there, under the name that the directory gives, and if
it is a class, it can be unpacked. -/
def Zip.Record.Faithful (r : Zip.Record) : Prop :=
  (∃ e, r.raw = .ok e ∧ e.name = r.name) ∧ (isClassName r.name → ∃ content, r.content = .ok content)

/-! ## Counts -/

namespace Passage

theorem Counted.nil (summary : ArchiveSummary) : Counted [] summary summary := by
  constructor <;> rfl

theorem Counted.cons {x : Passage} {xs : List Passage} {a b c : ArchiveSummary} (hx : Counted [x] a b)
    (hxs : Counted xs b c) : Counted (x :: xs) a c := by
  constructor
  · rw [hxs.entries, hx.entries]
    simp only [List.length_cons, List.length_nil]
    omega
  all_goals rw [← List.singleton_append, List.countP_append, ← Nat.add_assoc]
  · rw [hxs.classes, hx.classes]
  · rw [hxs.transformed, hx.transformed]
  · rw [hxs.unchanged, hx.unchanged]
  · rw [hxs.relocated, hx.relocated]
  · rw [hxs.resources, hx.resources]

/-- Every entry is a class or a resource, and every class was transformed or left alone. -/
theorem Counted.sums {xs : List Passage} {after : ArchiveSummary} (h : Counted xs .zero after) :
    after.entries = after.classes + after.resources
      ∧ after.classes = after.transformed + after.unchanged := by
  have hkinds : xs.length = xs.countP (·.class?.isSome) + xs.countP (·.class?.isNone) := by
    clear h
    induction xs with
    | nil => rfl
    | cons x xs ih =>
      simp only [List.length_cons, List.countP_cons, ih]
      cases x.class? <;> simp <;> omega
  have hclasses : xs.countP (·.class?.isSome)
      = xs.countP (·.class?.any (·.transformed)) + xs.countP (·.class?.any (!·.transformed)) := by
    clear h hkinds
    induction xs with
    | nil => rfl
    | cons x xs ih =>
      simp only [List.countP_cons, ih]
      cases x.class? with
      | none => simp
      | some c => cases hc : c.transformed <;> simp [hc] <;> omega
  rw [h.entries, h.classes, h.resources, h.transformed, h.unchanged, hkinds, hclasses]
  simp [ArchiveSummary.zero]

end Passage

/-! ## One entry -/

@[simp] theorem Zip.Entry.name_ofContent (name : String) (method : Method) (stamp : Stamp) (mode : Mode)
    (content : Bytes) : (ofContent name method stamp mode content).name = name := rfl

namespace Repacked

/-- What was written and counted, with one more passage. -/
structure Adds (done : Repacked) (x : Passage) (done' : Repacked) : Prop where
  entries : done'.entries = done.entries.push x.entry
  names : ∀ name, done'.names.contains name = (decide (x.entry.name = name) || done.names.contains name)
  counted : Passage.Counted [x] done.summary done'.summary
  /-- A class is written under a new name. -/
  fresh : x.class?.isSome → done.names.contains x.entry.name = false

theorem adds_resource (done : Repacked) (r : Zip.Record) (e : Zip.Entry) :
    done.Adds ⟨r, none, e⟩ (done.addResource e) where
  entries := rfl
  names name := by
    exact Dict.contains_insert done.names e.name name ()
  counted := by constructor <;> rfl
  fresh h := absurd h Bool.false_ne_true

theorem addClass_of_taken {done : Repacked} {e : Zip.Entry} {c : TransformedClass}
    (h : done.names.contains (relocatedName e.name c.name) = true) :
    done.addClass e c = .error (.unsupported (.duplicateEntry (relocatedName e.name c.name))) :=
  if_pos h

theorem addClass_of_free {done : Repacked} {r : Zip.Record} {e : Zip.Entry} {c : TransformedClass}
    (hentry : e.name = r.name) (h : done.names.contains (relocatedName e.name c.name) = false) :
    ∃ done' written, done.addClass e c = .ok done' ∧ written.name = relocatedName r.name c.name
      ∧ written.content = .ok c.bytes ∧ done.Adds ⟨r, some c, written⟩ done' := by
  have hknown : (if e.method = .stored then Zip.Method.stored else .deflated).isKnown = true := by
    split <;> rfl
  refine ⟨_, Zip.Entry.ofContent (relocatedName e.name c.name) _ e.stamp e.mode.asFile c.bytes,
    if_neg (by rw [h]; exact Bool.false_ne_true), by rw [← hentry]; rfl,
    Zip.Entry.content_ofContent _ hknown _ _ _, ?_⟩
  constructor
  · rfl
  · exact fun name => Dict.contains_insert done.names _ name ()
  · constructor
    · rfl
    · rfl
    · cases hc : c.transformed <;> simp [hc]
    · cases hc : c.transformed <;> simp [hc]
    · by_cases hsame : relocatedName e.name c.name = e.name <;> simp [hsame, ← hentry]
    · rfl
  · exact fun _ => h

end Repacked

theorem Zip.Record.unpacked_of_content {r : Zip.Record} {e : Zip.Entry} {content : Bytes}
    (hraw : r.raw = .ok e) (h : r.content = .ok content) : r.unpacked = .ok (e, content) := by
  obtain ⟨⟨e', content'⟩, hunpacked, rfl⟩ : ∃ x, r.unpacked = .ok x ∧ x.2 = content := by
    rw [Zip.Record.content] at h
    cases hu : r.unpacked with
    | error err => rw [hu] at h; cases h
    | ok x => rw [hu] at h; exact ⟨x, rfl, Except.ok.inj h⟩
  have hsame : e' = e := by
    unfold Zip.Record.unpacked at hunpacked
    simp only [hraw, bind, Except.bind, pure, Except.pure, throw, throwThe, MonadExceptOf.throw] at hunpacked
    split at hunpacked
    · cases hunpacked
    split at hunpacked
    · cases hunpacked
    split at hunpacked
    · cases hunpacked
    · exact (Prod.mk.inj (Except.ok.inj hunpacked)).1.symm
  rw [hunpacked, hsame]

theorem Zip.Record.unpacked_ofEntry (e : Zip.Entry) :
    (ofEntry e).unpacked = e.content.map fun content => (e, content) := by
  change (e.content >>= fun content => pure (e, content)) = _
  cases e.content <;> rfl

namespace Effect

theorem inEntry_of_ok {α : Type} {name : String} {e : Effect σ α} {s s' : σ} {a : α}
    (h : e s = .ok a s') : inEntry name e s = .ok a s' := by
  rw [inEntry, h]

theorem inEntry_of_error {α : Type} {name : String} {e : Effect σ α} {s s' : σ} {err : Error}
    (h : e s = .error err s') : inEntry name e s = .error (.entry name err) s' := by
  rw [inEntry, h]

end Effect

namespace Pipeline

variable {p : Pipeline σ}

/-- The outcome of one entry behind what was written before. -/
theorem repackRecord_cases (p : Pipeline σ) {r : Zip.Record} (h : r.Faithful) (done : Repacked) (s : σ) :
    (∃ x done' s', p.repackRecord done r s = .ok done' s' ∧ x.record = r ∧ p.Passes [x] s s'
        ∧ done.Adds x done')
      ∨ ∃ err s', p.repackRecord done r s = .error err s'
        ∧ p.Refuses (fun name => done.names.contains name = true) r s := by
  obtain ⟨⟨e, hraw, hentry⟩, hcontent⟩ := h
  have hlift : (liftM r.raw : Effect σ Zip.Entry) s = .ok e s := Effect.lift_eq_ok.mpr ⟨hraw, rfl⟩
  cases hname : isClassName r.name with
  | false =>
    refine .inl ⟨⟨r, none, e⟩, done.addResource e, s, ?_, rfl, .resource hname hraw hentry (.nil s),
      done.adds_resource r e⟩
    rw [repackRecord, Effect.bind_of_ok hlift, hname]
    rfl
  | true =>
    obtain ⟨content, hcontent⟩ := hcontent hname
    have hunpacked : (liftM r.unpacked : Effect σ (Zip.Entry × Bytes)) s = .ok (e, content) s :=
      Effect.lift_eq_ok.mpr ⟨r.unpacked_of_content hraw hcontent, rfl⟩
    let add : Effect σ Repacked := p.transform content >>= fun c => liftM (done.addClass e c)
    have hrecord : p.repackRecord done r s = Effect.inEntry r.name add s := by
      rw [repackRecord, Effect.bind_of_ok hlift, hname, if_pos rfl, Effect.bind_of_ok hunpacked]
    rw [hrecord]
    have hfolder : KeptFolder r.name ((releaseFolder? r.name).getD "") := keptFolder_iff.mpr rfl
    cases htransform : p.transform content s with
    | error cause s' =>
      exact .inr ⟨_, s', Effect.inEntry_of_error (Effect.bind_of_error htransform),
        .transform hname hcontent htransform⟩
    | ok c s' =>
      cases hfree : done.names.contains (relocatedName e.name c.name) with
      | true =>
        have hadd : add s = .error (.unsupported (.duplicateEntry (relocatedName e.name c.name))) s' := by
          rw [show add s = _ from Effect.bind_of_ok htransform, Repacked.addClass_of_taken hfree]
          rfl
        exact .inr ⟨_, s', Effect.inEntry_of_error hadd,
          .repeated hname hcontent htransform hfolder (hentry ▸ hfree)⟩
      | false =>
        obtain ⟨done', written, hdone, hwritten, hbytes, hadds⟩ := Repacked.addClass_of_free hentry hfree
        have hadd : add s = .ok done' s' := by
          rw [show add s = _ from Effect.bind_of_ok htransform, hdone]
          rfl
        exact .inl ⟨⟨r, some c, written⟩, done', s', Effect.inEntry_of_ok hadd, rfl,
          .class hname hcontent htransform hbytes hfolder hwritten (.nil s'), hadds⟩

/-! ## Runs -/

theorem Passes.append {xs ys : List Passage} {s s₁ s' : σ} (hx : p.Passes xs s s₁) (hy : p.Passes ys s₁ s') :
    p.Passes (xs ++ ys) s s' := by
  induction hx with
  | nil => exact hy
  | resource hname hraw hentry _ ih => exact .resource hname hraw hentry (ih hy)
  | «class» hname hcontent htransform hbytes hfolder hentry _ ih =>
    exact .class hname hcontent htransform hbytes hfolder hentry (ih hy)

theorem Passes.of_append {xs ys : List Passage} {s s' : σ} (h : p.Passes (xs ++ ys) s s') :
    ∃ s₁, p.Passes xs s s₁ ∧ p.Passes ys s₁ s' := by
  induction xs generalizing s with
  | nil => exact ⟨s, .nil s, h⟩
  | cons x xs ih =>
    cases h with
    | resource hname hraw hentry hrest =>
      obtain ⟨s₁, hxs, hys⟩ := ih hrest
      exact ⟨s₁, .resource hname hraw hentry hxs, hys⟩
    | «class» hname hcontent htransform hbytes hfolder hentry hrest =>
      obtain ⟨s₁, hxs, hys⟩ := ih hrest
      exact ⟨s₁, .class hname hcontent htransform hbytes hfolder hentry hxs, hys⟩

/-- The names under which the classes of a run are written, and the state it leaves, depend on nothing but
the records. -/
theorem Passes.unique {xs ys : List Passage} {s s₁ s₂ : σ} (hx : p.Passes xs s s₁) (hy : p.Passes ys s s₂)
    (hsame : xs.map Passage.record = ys.map Passage.record) :
    s₁ = s₂ ∧ xs.map (fun x => (x.class?, x.entry.name)) = ys.map (fun x => (x.class?, x.entry.name)) := by
  induction hx generalizing ys with
  | nil s =>
    obtain rfl : ys = [] := List.map_eq_nil_iff.mp hsame.symm
    cases hy
    exact ⟨rfl, rfl⟩
  | resource hname hraw hentry _ ih =>
    cases hy with
    | nil => cases hsame
    | resource hname' hraw' hentry' hrest =>
      obtain ⟨rfl, htail⟩ := List.cons.inj hsame
      obtain ⟨rfl, hall⟩ := ih hrest htail
      exact ⟨rfl, by simp only [List.map_cons, hentry, hentry', hall]⟩
    | «class» hname' =>
      obtain ⟨rfl, -⟩ := List.cons.inj hsame
      simp [hname] at hname'
  | «class» hname hcontent htransform hbytes hfolder hentry _ ih =>
    cases hy with
    | nil => cases hsame
    | resource hname' =>
      obtain ⟨rfl, -⟩ := List.cons.inj hsame
      simp [hname] at hname'
    | «class» hname' hcontent' htransform' hbytes' hfolder' hentry' hrest =>
      obtain ⟨rfl, htail⟩ := List.cons.inj hsame
      obtain rfl := Except.ok.inj (hcontent.symm.trans hcontent')
      obtain ⟨rfl, rfl⟩ := EStateM.Result.ok.inj (htransform.symm.trans htransform')
      obtain ⟨rfl, hall⟩ := ih hrest htail
      obtain rfl := hfolder.unique hfolder'
      exact ⟨rfl, by simp only [List.map_cons, hentry, hentry', hall]⟩

/-- A class is what has the name of one. -/
theorem Passes.isSome_iff {xs : List Passage} {s s' : σ} (h : p.Passes xs s s') {x : Passage} (hx : x ∈ xs) :
    x.class?.isSome ↔ isClassName x.entry.name = true := by
  induction h with
  | nil => cases hx
  | resource hname _ hentry _ ih =>
    rcases List.mem_cons.mp hx with rfl | hx
    · simp [hentry, hname]
    · exact ih hx
  | «class» _ _ _ _ _ hentry _ ih =>
    rcases List.mem_cons.mp hx with rfl | hx
    · simp [hentry, isClassName_append]
    · exact ih hx

theorem Refuses.mono {taken taken' : String → Prop} {r : Zip.Record} {s : σ}
    (h : ∀ name, isClassName name = true → taken name → taken' name) (hr : p.Refuses taken r s) :
    p.Refuses taken' r s := by
  cases hr with
  | transform hname hcontent htransform => exact .transform hname hcontent htransform
  | repeated hname hcontent htransform hfolder htaken =>
    exact .repeated hname hcontent htransform hfolder (h _ (isClassName_append _) htaken)

/-- What a run that gets through writes behind what was written before. -/
structure Writes (p : Pipeline σ) (done : Repacked) (xs : List Passage) (s : σ) (done' : Repacked) (s' : σ) :
    Prop where
  passes : p.Passes xs s s'
  entries : done'.entries.toList = done.entries.toList ++ xs.map Passage.entry
  counted : Passage.Counted xs done.summary done'.summary
  apart : xs.Pairwise Passage.Apart
  fresh : ∀ x ∈ xs, x.class?.isSome → done.names.contains x.entry.name = false

theorem Writes.nil (done : Repacked) (s : σ) : p.Writes done [] s done s where
  passes := .nil s
  entries := by simp
  counted := .nil _
  apart := .nil
  fresh := by simp

theorem Writes.cons {done done₁ done' : Repacked} {x : Passage} {xs : List Passage} {s s₁ s' : σ}
    (hx : p.Passes [x] s s₁) (hadds : done.Adds x done₁) (hxs : p.Writes done₁ xs s₁ done' s') :
    p.Writes done (x :: xs) s done' s' := by
  have hall : p.Passes (x :: xs) s s' := hx.append hxs.passes
  have hfree (y : Passage) (hy : y ∈ xs) (hclass : y.class?.isSome) :
      x.entry.name ≠ y.entry.name ∧ done.names.contains y.entry.name = false := by
    have h := hxs.fresh y hy hclass
    rw [hadds.names, Bool.or_eq_false_iff] at h
    exact ⟨of_decide_eq_false h.1, h.2⟩
  constructor
  · exact hall
  · rw [hxs.entries, hadds.entries]
    simp
  · exact hadds.counted.cons hxs.counted
  · refine List.pairwise_cons.mpr ⟨fun y hy hclass hsame => ?_, hxs.apart⟩
    -- If one of two entries with one name is a class, so is the other.
    have hx := hall.isSome_iff List.mem_cons_self
    have hy' := hall.isSome_iff (List.mem_cons_of_mem x hy)
    rw [hsame, ← hy'] at hx
    exact (hfree y hy (hclass.elim hx.mp id)).1 hsame
  · intro y hy hclass
    rcases List.mem_cons.mp hy with rfl | hy
    · exact hadds.fresh hclass
    · exact (hfree y hy hclass).2

/-- A run behind what was written before either gets through or does not get past some entry. -/
theorem repackFrom_cases (p : Pipeline σ) (records : List Zip.Record) (h : ∀ r ∈ records, r.Faithful)
    (done : Repacked) (s : σ) :
    (∃ xs done' s', p.repackFrom records done s = .ok done' s' ∧ xs.map Passage.record = records
        ∧ p.Writes done xs s done' s')
      ∨ ∃ err s', p.repackFrom records done s = .error err s' ∧
        ∃ before r after s₁, records = before.map Passage.record ++ r :: after ∧ p.Passes before s s₁
          ∧ p.Refuses (fun name => done.names.contains name = true ∨ ∃ x ∈ before, x.entry.name = name)
            r s₁ := by
  induction records generalizing done s with
  | nil => exact .inl ⟨[], done, s, rfl, rfl, .nil done s⟩
  | cons r records ih =>
    rcases p.repackRecord_cases (h r List.mem_cons_self) done s with
      ⟨x, done₁, s₁, hstep, hrecord, hpass, hadds⟩ | ⟨err, s', hstep, hrefuses⟩
    · have hrun : p.repackFrom (r :: records) done s = p.repackFrom records done₁ s₁ :=
        Effect.bind_of_ok hstep
      rw [hrun]
      rcases ih (fun r' hr' => h r' (List.mem_cons_of_mem r hr')) done₁ s₁ with
        ⟨xs, done', s', hrest, hrecords, hwrites⟩
        | ⟨err, s', hrest, before, r', after, s₂, hrecords, hpasses, hrefuses⟩
      · refine .inl ⟨x :: xs, done', s', hrest, ?_, .cons hpass hadds hwrites⟩
        rw [List.map_cons, hrecord, hrecords]
      · refine .inr ⟨err, s', hrest, x :: before, r', after, s₂, ?_, hpass.append hpasses,
          hrefuses.mono fun name _ htaken => ?_⟩
        · rw [hrecords, List.map_cons, hrecord]
          rfl
        · rcases htaken with htaken | ⟨y, hy, hsame⟩
          · rw [hadds.names, Bool.or_eq_true] at htaken
            exact htaken.symm.imp id fun hsame => ⟨x, List.mem_cons_self, of_decide_eq_true hsame⟩
          · exact .inr ⟨y, List.mem_cons_of_mem x hy, hsame⟩
    · exact .inr ⟨err, s', Effect.bind_of_error hstep, [], r, records, s, rfl, .nil s,
        hrefuses.mono fun _ _ => .inl⟩

/-- **A pass over an archive loses, duplicates and reorders nothing.** If it gets through, the result has one
entry for each entry of the archive, in the same order: what is no class is copied, and a class has the
bytes that the pipeline made of it and its new name behind the folder of a release in which its entry lay.
No class is written under the name of another entry, and the summary counts what was done. The pass fails
exactly if some class does not get through the pipeline or would be written under the name of an earlier
class. -/
theorem repack_faithful (p : Pipeline σ) {records : List Zip.Record} (h : ∀ r ∈ records, r.Faithful) (s : σ) :
    (∀ done s', p.repack records s = .ok done s' →
      ∃ xs : List Passage, xs.map Passage.record = records ∧ xs.map Passage.entry = done.entries.toList
        ∧ p.Passes xs s s' ∧ xs.Pairwise Passage.Apart ∧ Passage.Counted xs .zero done.summary
        ∧ done.summary.entries = done.summary.classes + done.summary.resources
        ∧ done.summary.classes = done.summary.transformed + done.summary.unchanged)
      ∧ ((∃ err s', p.repack records s = .error err s') ↔
        ∃ before r after s₁, records = before.map Passage.record ++ r :: after ∧ p.Passes before s s₁
          ∧ p.Refuses (fun name => ∃ x ∈ before, x.class?.isSome ∧ x.entry.name = name) r s₁)
      ∧ ∀ name, ∃! folder, KeptFolder name folder := by
  refine ⟨fun done s' hdone => ?_, ⟨?_, ?_⟩, fun name => ?_⟩
  · rcases p.repackFrom_cases records h .empty s with
      ⟨xs, done', s'', hrun, hrecords, hwrites⟩ | ⟨err, s'', hrun, -⟩
    · obtain ⟨rfl, rfl⟩ := EStateM.Result.ok.inj (hdone.symm.trans hrun)
      exact ⟨xs, hrecords, hwrites.entries.symm, hwrites.passes, hwrites.apart, hwrites.counted,
        hwrites.counted.sums⟩
    · rw [repack, hrun] at hdone
      cases hdone
  · rintro ⟨err, s', herror⟩
    rcases p.repackFrom_cases records h .empty s with
      ⟨xs, done', s'', hrun, -⟩ | ⟨err', s'', hrun, before, r, after, s₁, hrecords, hpasses, hrefuses⟩
    · rw [repack, hrun] at herror
      cases herror
    · refine ⟨before, r, after, s₁, hrecords, hpasses, hrefuses.mono fun name hname htaken => ?_⟩
      rcases htaken with htaken | ⟨x, hx, rfl⟩
      · exact absurd htaken (by simp [Repacked.empty])
      · exact ⟨x, hx, (hpasses.isSome_iff hx).mpr hname, rfl⟩
  · rintro ⟨before, r, after, s₁, rfl, hpasses, hrefuses⟩
    rcases p.repackFrom_cases _ h .empty s with
      ⟨xs, done', s', hrun, hrecords, hwrites⟩ | ⟨err, s', hrun, -⟩
    · -- A run that got through passed the same entries, and then this one.
      exfalso
      obtain ⟨ys, zs, rfl, hys, hzs⟩ := List.map_eq_append_iff.mp hrecords
      obtain ⟨x, zs, rfl, rfl, -⟩ := List.map_eq_cons_iff.mp hzs
      obtain ⟨s₂, hfirst, hrest⟩ := hwrites.passes.of_append
      obtain ⟨rfl, hsame⟩ := hpasses.unique hfirst hys.symm
      cases hrefuses with
      | transform hname hcontent htransform =>
        cases hrest with
        | resource hname' => simp [hname] at hname'
        | «class» _ hcontent' htransform' =>
          obtain rfl := Except.ok.inj (hcontent.symm.trans hcontent')
          exact absurd (htransform.symm.trans htransform') nofun
      | repeated hname hcontent htransform hfolder htaken =>
        cases hrest with
        | resource hname' => simp [hname] at hname'
        | «class» _ hcontent' htransform' _ hfolder' hentry =>
          obtain rfl := Except.ok.inj (hcontent.symm.trans hcontent')
          obtain ⟨rfl, -⟩ := EStateM.Result.ok.inj (htransform.symm.trans htransform')
          obtain rfl := hfolder.unique hfolder'
          obtain ⟨y, hy, -, hname⟩ := htaken
          obtain ⟨y', hy', heq⟩ := List.mem_map.mp (hsame ▸ List.mem_map_of_mem hy)
          have hapart := (List.pairwise_append.mp hwrites.apart).2.2 y' hy' _ List.mem_cons_self
          refine hapart (.inr rfl) ?_
          rw [hentry, (Prod.mk.inj heq).2, hname]
    · exact ⟨err, s', hrun⟩
  · exact ⟨(releaseFolder? name).getD "", keptFolder_iff.mpr rfl,
      fun folder hfolder => (keptFolder_iff.mp hfolder).symm⟩

/-- The shortest class `A`. -/
def shortBytes : Bytes :=
  [0xCA, 0xFE, 0xBA, 0xBE, 0, 0, 0, 52, 0, 3, 7, 0, 2, 1, 0, 1, 65, 0, 33, 0, 1, 0, 0, 0, 0, 0, 0, 0, 0, 0, 0]

/-- The class `A` under some name. -/
def shortRecord (name : String) : Zip.Record :=
  .ofEntry (.ofContent name .stored ⟨0, 0⟩ .file shortBytes)

theorem content_short (name : String) : (shortRecord name).content = .ok shortBytes := by
  rw [Zip.Record.content, shortRecord, Zip.Record.unpacked_ofEntry, Zip.Entry.content_ofContent _ rfl]
  rfl

/-- `A` is called `B`. -/
def shortPipeline : Pipeline RemapState :=
  remapPipeline ⟨⟨ClassNames.empty.insert "A" "B", ∅, ∅, ∅⟩, .ofFiles ∅⟩

/-- A resource, a class, and another version of the class which is not where its name says. -/
def strayRecords : List Zip.Record :=
  [.ofEntry (.ofContent "META-INF/MANIFEST.MF" .stored ⟨0, 0⟩ .file [77]), shortRecord "A.class",
    shortRecord "META-INF/versions/9/old/A.class"]

theorem faithful_short (name : String) : (shortRecord name).Faithful :=
  ⟨⟨_, rfl, rfl⟩, fun _ => ⟨shortBytes, content_short name⟩⟩

/-- The three entries and then the class once more. -/
theorem repack_stray : ∃ done s₁ c s₂, shortPipeline.repack strayRecords ⟨.ofResolver .empty, 0⟩ = .ok done s₁ ∧
    shortPipeline.transform shortBytes s₁ = .ok c s₂ ∧
    done.entries.toList.map Zip.Entry.name = ["META-INF/MANIFEST.MF", "B.class", "META-INF/versions/9/B.class"] ∧
    done.summary = { entries := 3, classes := 2, transformed := 2, unchanged := 0, relocated := 2, resources := 1 } ∧
    c.name = "B" := by
  have hboth : ((do return (← shortPipeline.repack strayRecords, ← shortPipeline.transform shortBytes) :
      Effect RemapState (Repacked × TransformedClass)).outcome ⟨.ofResolver .empty, 0⟩).toOption.any (fun a =>
        a.1.entries.toList.map Zip.Entry.name = ["META-INF/MANIFEST.MF", "B.class", "META-INF/versions/9/B.class"] ∧
        a.1.summary = ⟨3, 2, 2, 0, 2, 1⟩ ∧ a.2.name = "B") = true := by
    decide +kernel
  obtain ⟨a, hrun, hnames, hsummary, hname⟩ := Effect.exists_of_outcome hboth
  obtain ⟨done, s₁, hdone, hlast⟩ := Effect.bind_eq_ok.mp hrun
  obtain ⟨c, s₂, htransform, hpair⟩ := Effect.bind_eq_ok.mp hlast
  obtain ⟨rfl, -⟩ := Effect.pure_eq_ok.mp hpair
  exact ⟨done, s₁, c, s₂, hdone, htransform, hnames, hsummary, hname⟩

/-- Three entries get through, each class to its own place. A fourth one does not, whose class has the name that a
class before it has. -/
theorem repack_faithful_stray :
    (∀ r ∈ strayRecords, r.Faithful) ∧ (shortRecord "old/A.class").Faithful ∧
    (∃ done s' xs, shortPipeline.repack strayRecords ⟨.ofResolver .empty, 0⟩ = .ok done s' ∧
      xs.map Passage.record = strayRecords ∧ xs.map Passage.entry = done.entries.toList ∧
      shortPipeline.Passes xs ⟨.ofResolver .empty, 0⟩ s' ∧ xs.Pairwise Passage.Apart ∧
      done.entries.toList.map Zip.Entry.name
        = ["META-INF/MANIFEST.MF", "B.class", "META-INF/versions/9/B.class"] ∧
      done.summary = { entries := 3, classes := 2, transformed := 2, unchanged := 0, relocated := 2, resources := 1 }) ∧
    ∃ err s', shortPipeline.repack (strayRecords ++ [shortRecord "old/A.class"]) ⟨.ofResolver .empty, 0⟩
      = .error err s' := by
  have hresource : Zip.Record.Faithful (.ofEntry (.ofContent "META-INF/MANIFEST.MF" .stored ⟨0, 0⟩ .file [77])) :=
    ⟨⟨_, rfl, rfl⟩, fun hclass => absurd hclass (by decide +kernel)⟩
  have hfaithful : ∀ r ∈ strayRecords, r.Faithful :=
    List.forall_mem_cons.mpr ⟨hresource, List.forall_mem_cons.mpr ⟨faithful_short _,
      List.forall_mem_cons.mpr ⟨faithful_short _, List.forall_mem_nil _⟩⟩⟩
  have hclash : ∀ r ∈ strayRecords ++ [shortRecord "old/A.class"], r.Faithful :=
    List.forall_mem_append.mpr ⟨hfaithful, List.forall_mem_singleton.mpr (faithful_short _)⟩
  obtain ⟨done, s₁, c, s₂, hdone, htransform, hnames, hsummary, hname⟩ := repack_stray
  obtain ⟨hgood, -⟩ := repack_faithful shortPipeline hfaithful ⟨.ofResolver .empty, 0⟩
  obtain ⟨-, hbad, -⟩ := repack_faithful shortPipeline hclash ⟨.ofResolver .empty, 0⟩
  obtain ⟨xs, hrecords, hentries, hpasses, hapart, -⟩ := hgood _ s₁ hdone
  refine ⟨hfaithful, faithful_short _, ⟨_, s₁, xs, hdone, hrecords, hentries, hpasses, hapart, hnames, hsummary⟩,
    hbad.mpr ⟨xs, _, [], s₁, by rw [hrecords], hpasses, ?_⟩⟩
  have hfolder : KeptFolder (shortRecord "old/A.class").name "" := keptFolder_iff.mpr (by decide +kernel)
  refine .repeated rfl (content_short _) htransform hfolder ?_
  -- The class that was written first has the name.
  obtain ⟨x, hx, hplace⟩ : ∃ x ∈ xs, x.entry.name = "B.class" := by
    have hmem : "B.class" ∈ (xs.map Passage.entry).map Zip.Entry.name := by
      rw [hentries, hnames]
      decide
    obtain ⟨e, he, hname⟩ := List.mem_map.mp hmem
    obtain ⟨x, hx, rfl⟩ := List.mem_map.mp he
    exact ⟨x, hx, hname⟩
  exact ⟨x, hx, (hpasses.isSome_iff hx).mpr (by rw [hplace]; decide +kernel), by rw [hplace, hname]; rfl⟩

end Pipeline

end Relabel
