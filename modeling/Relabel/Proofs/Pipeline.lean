import Relabel.Pipeline
import Relabel.Proofs.Class.Replay

/-!
# The two paths of a pipeline

A class that only meets stages is streamed into a writer. One transformer of models is enough to send it the
other way: the stages fill a model, the model is handed on, and its events are streamed into the writer. A
transformer that leaves its model alone makes no difference to what comes out, wherever it stands in the row
and whatever the stages do to their state. The paths fail at different moments, so what is compared is what
they give when they come through, and that they come through together.
-/

set_option autoImplicit false

namespace Relabel

variable {σ : Type}

/-! ## The row of transformers -/

namespace Transformer

variable {name newName : String} {ts us : List (Transformer σ)} {t : Transformer σ}
  {change : String → String → ClassModel → Effect σ ClassModel}

/-- A transformer of models makes no stage. -/
theorem makeStages_insert (ht : t.action = .model change) (acc : List (Stage σ)) :
    makeStages name newName acc (ts ++ t :: us) = makeStages name newName acc (ts ++ us) := by
  induction ts generalizing acc with
  | nil => simp only [List.nil_append, makeStages, ht]
  | cons u ts ih =>
    simp only [List.cons_append, makeStages]
    cases u.action with
    | stage make => exact bind_congr fun stage => ih (stage :: acc)
    | model _ => exact ih acc

/-- Stages do not touch models. -/
theorem transformModel_of_stages (hts : ∀ u ∈ ts, u.needsModel = false) (m : ClassModel) :
    transformModel name newName ts m = pure m := by
  induction ts with
  | nil => rfl
  | cons u ts ih =>
    have hu := hts u (by simp)
    unfold needsModel at hu
    rw [transformModel]
    cases haction : u.action with
    | stage make => exact ih fun v hv => hts v (by simp [hv])
    | model _ => simp [haction] at hu

theorem transformModel_insert (hts : ∀ u ∈ ts ++ us, u.needsModel = false) (ht : t.action = .model change)
    (m : ClassModel) : transformModel name newName (ts ++ t :: us) m = change name newName m := by
  induction ts with
  | nil =>
    simp only [List.nil_append, transformModel, ht]
    have hus (m : ClassModel) : transformModel name newName us m = pure m := transformModel_of_stages hts m
    exact (bind_congr hus).trans (bind_pure _)
  | cons u ts ih =>
    have hu := hts u (by simp)
    unfold needsModel at hu
    rw [List.cons_append, transformModel]
    cases haction : u.action with
    | stage make => exact ih fun v hv => hts v (by simp only [List.cons_append, List.mem_cons, hv, or_true])
    | model _ => simp [haction] at hu

end Transformer

/-! ## One class -/

namespace Pipeline

open Transformer

/-- The transformers of a pipeline that apply to a class. -/
def applicable (p : Pipeline σ) (name : String) : List (Transformer σ) :=
  p.transformers.filter fun t => t.appliesTo name (p.newName name)

/-- What readers are asked by a row of transformers. -/
def readerFlags (ts : List (Transformer σ)) : ReaderFlags :=
  ts.foldl (fun flags t => flags.union t.readerFlags) .none

/-- What writers are asked by a row of transformers. -/
def writerFlags (ts : List (Transformer σ)) : WriterFlags :=
  ts.foldl (fun flags t => flags.union t.writerFlags) .none

/-- The model that transformers of models are handed, which all stages are done with. -/
def received (p : Pipeline σ) (bytes : Bytes) : Effect σ ClassModel := do
  let f ← ClassFile.ofBytes bytes
  let name ← f.className
  let stages ← makeStages name (p.newName name) [] (p.applicable name)
  ClassModel.read f stages (readerFlags (p.applicable name))

variable {bytes : Bytes} {f : ClassFile} {name newName : String} {ts us : List (Transformer σ)}
  {t : Transformer σ} {change : String → String → ClassModel → Effect σ ClassModel}
  {reading : ReaderFlags} {writing : WriterFlags} {w : ClassWriter} {s s' : σ}

/-- The stages alone: the class is collected and written. -/
theorem run_stages (hts : ∀ u ∈ ts, u.needsModel = false) :
    run f name newName ts reading writing s = .ok w s' ↔ ∃ stages s₀ m written out,
      makeStages name newName [] ts s = .ok stages s₀ ∧ ClassModel.read f stages reading s₀ = .ok m s' ∧
      m.className = .ok written ∧ m.toBytes = .ok out ∧ w = .finished writing m written out := by
  have hany : ts.any needsModel = false := by
    rw [List.any_eq_false]
    intro u hu
    simp [hts u hu]
  unfold run
  simp only [Effect.bind_eq_ok, hany, Bool.false_eq_true, if_false, ClassWriter.deliver_sink]
  constructor
  · intro h
    obtain ⟨stages, s₀, hstages, m, written, out, hread, hwritten⟩ := h
    exact ⟨stages, s₀, m, written, out, hstages, hread, hwritten⟩
  · intro h
    obtain ⟨stages, s₀, m, written, out, hstages, hread, hwritten⟩ := h
    exact ⟨stages, s₀, hstages, m, written, out, hread, hwritten⟩

/-- The stages and one transformer of models: what it gives is written. -/
theorem run_model {row : List (Transformer σ)} (hrow : row = ts ++ t :: us)
    (hts : ∀ u ∈ ts ++ us, u.needsModel = false) (ht : t.action = .model change) :
    run f name newName row reading writing s = .ok w s' ↔ ∃ stages s₀ m s₁ m' written out,
      makeStages name newName [] row s = .ok stages s₀ ∧ ClassModel.read f stages reading s₀ = .ok m s₁ ∧
      change name newName m s₁ = .ok m' s' ∧ m'.className = .ok written ∧ m'.toBytes = .ok out ∧
      w = .finished writing m' written out := by
  have hany : row.any needsModel = true := by
    rw [List.any_eq_true]
    exact ⟨t, by simp [hrow], by simp [needsModel, ht]⟩
  have hmodel (m : ClassModel) : transformModel name newName row m = change name newName m := by
    rw [hrow, transformModel_insert hts ht]
  unfold run
  simp only [Effect.bind_eq_ok, hany, if_true, ClassWriter.deliver_sink, hmodel, ClassModel.deliver_events]
  constructor
  · intro h
    obtain ⟨stages, s₀, hstages, m, s₁, hread, m', s₂, hchange, m'', written, out, hevents, hname, hout, rfl⟩ := h
    obtain ⟨rfl, rfl⟩ := EStateM.Result.ok.inj hevents
    exact ⟨stages, s₀, m, s₁, m', written, out, hstages, hread, hchange, hname, hout, rfl⟩
  · intro h
    obtain ⟨stages, s₀, m, s₁, m', written, out, hstages, hread, hchange, hname, hout, rfl⟩ := h
    exact ⟨stages, s₀, hstages, m, s₁, hread, m', s', hchange, m', written, out, rfl, hname, hout, rfl⟩

theorem exists_file {p : Pipeline σ} {x : TransformedClass} (h : p.transform bytes s = .ok x s') :
    ∃ f name, ClassFile.ofBytes bytes = .ok f ∧ f.className = .ok name := by
  obtain ⟨f, s₁, hx, h⟩ := Effect.bind_eq_ok.mp h
  obtain ⟨hf, rfl⟩ := Effect.lift_eq_ok.mp hx
  obtain ⟨name, s₂, hx, h⟩ := Effect.bind_eq_ok.mp h
  obtain ⟨hname, rfl⟩ := Effect.lift_eq_ok.mp hx
  exact ⟨f, name, hf, hname⟩

/-- What comes out of a pipeline in which something applies to the class. -/
theorem transform_eq_ok {p : Pipeline σ} (hf : ClassFile.ofBytes bytes = .ok f) (hname : f.className = .ok name)
    (hts : p.applicable name ≠ []) {x : TransformedClass} : p.transform bytes s = .ok x s' ↔
      ∃ w written out, run f name (p.newName name) (p.applicable name) (readerFlags (p.applicable name))
          (writerFlags (p.applicable name)) s = .ok w s' ∧ w.name? = some written ∧ w.bytes = .ok out ∧
        x = ⟨name, written, out, true, readerFlags (p.applicable name), w.flags⟩ := by
  have hempty : ¬(p.applicable name).isEmpty = true := by simpa using hts
  have hlift : (liftM (ClassFile.ofBytes bytes) : Effect σ ClassFile) s = .ok f s :=
    Effect.lift_eq_ok.mpr ⟨hf, rfl⟩
  have hliftName : (liftM f.className : Effect σ String) s = .ok name s := Effect.lift_eq_ok.mpr ⟨hname, rfl⟩
  unfold transform
  rw [Effect.bind_of_ok hlift, Effect.bind_of_ok hliftName]
  change (if (p.applicable name).isEmpty = true then _ else _ : Effect σ TransformedClass) s = _ ↔ _
  rw [if_neg hempty, Effect.bind_eq_ok]
  constructor
  · intro h
    obtain ⟨w, s₁, hrun, h⟩ := h
    cases hwritten : w.name? with
    | none =>
      simp only [hwritten] at h
      cases h
    | some written =>
      simp only [hwritten] at h
      obtain ⟨out, s₂, hout, h⟩ := Effect.bind_eq_ok.mp h
      obtain ⟨hbytes, rfl⟩ := Effect.lift_eq_ok.mp hout
      obtain ⟨rfl, rfl⟩ := Effect.pure_eq_ok.mp h
      exact ⟨w, written, out, hrun, hwritten, hbytes, rfl⟩
  · intro h
    obtain ⟨w, written, out, hrun, hwritten, hbytes, rfl⟩ := h
    refine ⟨w, s', hrun, ?_⟩
    simp only [hwritten]
    exact Effect.bind_eq_ok.mpr ⟨out, s', Effect.lift_eq_ok.mpr ⟨hbytes, rfl⟩, rfl⟩

theorem received_eq_ok {p : Pipeline σ} (hf : ClassFile.ofBytes bytes = .ok f) (hname : f.className = .ok name)
    {m : ClassModel} : p.received bytes s = .ok m s' ↔ ∃ stages s₀,
      makeStages name (p.newName name) [] (p.applicable name) s = .ok stages s₀ ∧
        ClassModel.read f stages (readerFlags (p.applicable name)) s₀ = .ok m s' := by
  have hlift : (liftM (ClassFile.ofBytes bytes) : Effect σ ClassFile) s = .ok f s :=
    Effect.lift_eq_ok.mpr ⟨hf, rfl⟩
  have hliftName : (liftM f.className : Effect σ String) s = .ok name s := Effect.lift_eq_ok.mpr ⟨hname, rfl⟩
  unfold received
  rw [Effect.bind_of_ok hlift, Effect.bind_of_ok hliftName, Effect.bind_eq_ok]

/-- A row of stages gives what the collected model is written as. -/
theorem transform_stages {p : Pipeline σ} (hf : ClassFile.ofBytes bytes = .ok f) (hname : f.className = .ok name)
    (hsome : p.applicable name ≠ []) (hts : ∀ u ∈ p.applicable name, u.needsModel = false)
    {x : TransformedClass} : p.transform bytes s = .ok x s' ↔ ∃ m written out, p.received bytes s = .ok m s' ∧
      m.className = .ok written ∧ m.toBytes = .ok out ∧ x = ⟨name, written, out, true,
        readerFlags (p.applicable name), writerFlags (p.applicable name)⟩ := by
  rw [transform_eq_ok hf hname hsome]
  constructor
  · intro h
    obtain ⟨w, written, out, hrun, hwritten, hbytes, rfl⟩ := h
    obtain ⟨stages, s₀, m, written', out', hstages, hread, hclass, hout, rfl⟩ := (run_stages hts).mp hrun
    obtain rfl := Option.some.inj hwritten
    obtain rfl := Except.ok.inj hbytes
    exact ⟨m, _, _, (received_eq_ok hf hname).mpr ⟨stages, s₀, hstages, hread⟩, hclass, hout, rfl⟩
  · intro h
    obtain ⟨m, written, out, hreceived, hclass, hout, rfl⟩ := h
    obtain ⟨stages, s₀, hstages, hread⟩ := (received_eq_ok hf hname).mp hreceived
    exact ⟨_, written, out, (run_stages hts).mpr ⟨stages, s₀, m, written, out, hstages, hread, hclass, hout, rfl⟩,
      rfl, rfl, rfl⟩

/-- A row with one transformer of models gives what this transformer makes of the collected model. -/
theorem transform_model {p : Pipeline σ} (hf : ClassFile.ofBytes bytes = .ok f) (hname : f.className = .ok name)
    (hsplit : p.applicable name = ts ++ t :: us) (hts : ∀ u ∈ ts ++ us, u.needsModel = false)
    (ht : t.action = .model change) {x : TransformedClass} : p.transform bytes s = .ok x s' ↔
      ∃ m s₁ m' written out, p.received bytes s = .ok m s₁ ∧ change name (p.newName name) m s₁ = .ok m' s' ∧
        m'.className = .ok written ∧ m'.toBytes = .ok out ∧ x = ⟨name, written, out, true,
          readerFlags (p.applicable name), writerFlags (p.applicable name)⟩ := by
  rw [transform_eq_ok hf hname (by simp [hsplit])]
  constructor
  · intro h
    obtain ⟨w, written, out, hrun, hwritten, hbytes, rfl⟩ := h
    obtain ⟨stages, s₀, m, s₁, m', _, _, hstages, hread, hchange, hclass, hout, rfl⟩ :=
      (run_model hsplit hts ht).mp hrun
    obtain rfl := Option.some.inj hwritten
    obtain rfl := Except.ok.inj hbytes
    exact ⟨m, s₁, m', _, _, (received_eq_ok hf hname).mpr ⟨stages, s₀, hstages, hread⟩, hchange, hclass, hout, rfl⟩
  · intro h
    obtain ⟨m, s₁, m', written, out, hreceived, hchange, hclass, hout, rfl⟩ := h
    obtain ⟨stages, s₀, hstages, hread⟩ := (received_eq_ok hf hname).mp hreceived
    exact ⟨_, written, out, (run_model hsplit hts ht).mpr ⟨stages, s₀, m, s₁, m', written, out, hstages, hread,
      hchange, hclass, hout, rfl⟩, rfl, rfl, rfl⟩

/-! ## Two rows -/

theorem readerFlags_insert (ht : t.readerFlags = .none) :
    readerFlags (ts ++ t :: us) = readerFlags (ts ++ us) := by
  have hnone (flags : ReaderFlags) : flags.union .none = flags := by
    simp [ReaderFlags.union, ReaderFlags.none]
  simp only [readerFlags, List.foldl_append, List.foldl_cons, ht, hnone]

theorem writerFlags_insert (ht : t.writerFlags = .none) :
    writerFlags (ts ++ t :: us) = writerFlags (ts ++ us) := by
  have hnone (flags : WriterFlags) : flags.union .none = flags := by
    simp [WriterFlags.union, WriterFlags.none]
  simp only [writerFlags, List.foldl_append, List.foldl_cons, ht, hnone]

/-- A transformer that works on models, asks nothing of readers and writers, and gives every model back as it
is. Its state may change. -/
structure HandsOn (t : Transformer σ) (change : String → String → ClassModel → Effect σ ClassModel) : Prop where
  action : t.action = .model change
  readerFlags : t.readerFlags = .none
  writerFlags : t.writerFlags = .none
  same : ∀ name newName m s, ∃ s', change name newName m s = .ok m s'

/-- The same row without and with one more transformer, which applies to the class. -/
structure Inserted (name : String) (t : Transformer σ) (p q : Pipeline σ) : Prop where
  newName : q.newName name = p.newName name
  split : ∃ ts us, p.applicable name = ts ++ us ∧ q.applicable name = ts ++ t :: us

variable {names? : Option ClassNames} {before after : List (Transformer σ)} {p q : Pipeline σ}

theorem inserted (happlies : t.appliesTo name ((⟨names?, before ++ after⟩ : Pipeline σ).newName name) = true) :
    Inserted name t ⟨names?, before ++ after⟩ ⟨names?, before ++ t :: after⟩ := by
  let keep : Transformer σ → Bool :=
    fun u => u.appliesTo name ((⟨names?, before ++ after⟩ : Pipeline σ).newName name)
  refine ⟨rfl, before.filter keep, after.filter keep, List.filter_append .., ?_⟩
  show (before ++ t :: after).filter keep = _
  rw [List.filter_append, List.filter_cons, if_pos happlies]

/-- Up to the model, both paths do the same. -/
theorem Inserted.received (hpq : Inserted name t p q) (ht : HandsOn t change)
    (hf : ClassFile.ofBytes bytes = .ok f) (hname : f.className = .ok name) {m : ClassModel} :
    q.received bytes s = .ok m s' ↔ p.received bytes s = .ok m s' := by
  obtain ⟨ts, us, hp, hq⟩ := hpq.split
  rw [received_eq_ok hf hname, received_eq_ok hf hname, hpq.newName, hp, hq, makeStages_insert ht.action,
    readerFlags_insert ht.readerFlags]

/-- Behind the model, the transformer only changes the state. -/
theorem Inserted.transform (hpq : Inserted name t p q) (ht : HandsOn t change)
    (hf : ClassFile.ofBytes bytes = .ok f) (hname : f.className = .ok name) (hsome : p.applicable name ≠ [])
    (hts : ∀ u ∈ p.applicable name, u.needsModel = false) {x : TransformedClass} :
    q.transform bytes s = .ok x s' ↔ ∃ m s₁, p.received bytes s = .ok m s₁ ∧
      p.transform bytes s = .ok x s₁ ∧ change name (q.newName name) m s₁ = .ok m s' := by
  obtain ⟨ts, us, hp, hq⟩ := hpq.split
  have hreader : Pipeline.readerFlags (q.applicable name) = Pipeline.readerFlags (p.applicable name) := by
    rw [hq, hp, readerFlags_insert ht.readerFlags]
  have hwriter : Pipeline.writerFlags (q.applicable name) = Pipeline.writerFlags (p.applicable name) := by
    rw [hq, hp, writerFlags_insert ht.writerFlags]
  rw [transform_model hf hname hq (hp ▸ hts) ht.action, hreader, hwriter]
  constructor
  · intro h
    obtain ⟨m, s₁, m', written, out, hm, hchange, hclass, hout, rfl⟩ := h
    have hm := (hpq.received ht hf hname).mp hm
    obtain ⟨s₂, hsame⟩ := ht.same name (q.newName name) m s₁
    obtain ⟨rfl, rfl⟩ := EStateM.Result.ok.inj (hsame.symm.trans hchange)
    refine ⟨m, s₁, hm, ?_, hchange⟩
    exact (transform_stages hf hname hsome hts).mpr ⟨m, written, out, hm, hclass, hout, rfl⟩
  · intro h
    obtain ⟨m, s₁, hm, hstream, hchange⟩ := h
    obtain ⟨m', written, out, hm', hclass, hout, rfl⟩ := (transform_stages hf hname hsome hts).mp hstream
    obtain ⟨rfl, -⟩ := EStateM.Result.ok.inj (hm.symm.trans hm')
    exact ⟨m, s₁, m, written, out, (hpq.received ht hf hname).mpr hm, hchange, hclass, hout, rfl⟩

/-- **The two paths agree.** A row of stages gives a class exactly if the row with a transformer that hands its
model on does, and the model that this transformer received is written as the bytes of that class. -/
theorem transform_insert (hstages : ∀ u ∈ before ++ after, u.needsModel = false)
    (happlies : ∀ f name, ClassFile.ofBytes bytes = .ok f → f.className = .ok name →
      ∃ u ∈ before ++ after, u.appliesTo name ((⟨names?, before ++ after⟩ : Pipeline σ).newName name) = true)
    (ht : HandsOn t change)
    (htapplies : ∀ f name, ClassFile.ofBytes bytes = .ok f → f.className = .ok name →
      t.appliesTo name ((⟨names?, before ++ after⟩ : Pipeline σ).newName name) = true)
    (s : σ) (x : TransformedClass) :
    ((∃ s', transform ⟨names?, before ++ after⟩ bytes s = .ok x s') ↔
      ∃ s', transform ⟨names?, before ++ t :: after⟩ bytes s = .ok x s') ∧
    ∀ s', transform ⟨names?, before ++ t :: after⟩ bytes s = .ok x s' →
      ∃ m s₁, received ⟨names?, before ++ t :: after⟩ bytes s = .ok m s₁ ∧
        change x.inputName ((⟨names?, before ++ t :: after⟩ : Pipeline σ).newName x.inputName) m s₁ = .ok m s' ∧
        m.toBytes = .ok x.bytes := by
  by_cases hfile : ∃ f name, ClassFile.ofBytes bytes = .ok f ∧ f.className = .ok name
  · obtain ⟨f, name, hf, hname⟩ := hfile
    have hpq := inserted (htapplies f name hf hname)
    have hsome : (⟨names?, before ++ after⟩ : Pipeline σ).applicable name ≠ [] := by
      obtain ⟨u, hu, hkeep⟩ := happlies f name hf hname
      exact List.ne_nil_of_mem (List.mem_filter.mpr ⟨hu, hkeep⟩)
    have hts : ∀ u ∈ (⟨names?, before ++ after⟩ : Pipeline σ).applicable name, u.needsModel = false :=
      fun u hu => hstages u (List.mem_filter.mp hu).1
    refine ⟨⟨fun h => ?_, fun h => ?_⟩, fun s' h => ?_⟩
    · obtain ⟨s₁, hstream⟩ := h
      obtain ⟨m, _, _, hm, -⟩ := (transform_stages hf hname hsome hts).mp hstream
      obtain ⟨s', hchange⟩ := ht.same name ((⟨names?, before ++ after⟩ : Pipeline σ).newName name) m s₁
      exact ⟨s', (hpq.transform ht hf hname hsome hts).mpr ⟨m, s₁, hm, hstream, hchange⟩⟩
    · obtain ⟨s', h⟩ := h
      obtain ⟨m, s₁, -, hstream, -⟩ := (hpq.transform ht hf hname hsome hts).mp h
      exact ⟨s₁, hstream⟩
    · obtain ⟨m, s₁, hm, hstream, hchange⟩ := (hpq.transform ht hf hname hsome hts).mp h
      obtain ⟨m', _, _, hm', -, hout, rfl⟩ := (transform_stages hf hname hsome hts).mp hstream
      obtain ⟨rfl, -⟩ := EStateM.Result.ok.inj (hm.symm.trans hm')
      exact ⟨m, s₁, (hpq.received ht hf hname).mpr hm, hchange, hout⟩
  · -- A file that cannot be read fails on both paths.
    have hnone {p : Pipeline σ} {s' : σ} : p.transform bytes s ≠ .ok x s' := fun h => hfile (exists_file h)
    refine ⟨⟨fun h => ?_, fun h => ?_⟩, fun s' h => (hnone h).elim⟩
    · obtain ⟨s', h⟩ := h
      exact (hnone h).elim
    · obtain ⟨s', h⟩ := h
      exact (hnone h).elim

/-- A class `A` with a field. -/
def fieldBytes : Bytes :=
  [0xCA, 0xFE, 0xBA, 0xBE, 0, 0, 0, 52, 0, 3, 7, 0, 2, 1, 0, 1, 65, 0, 33, 0, 1, 0, 0, 0, 0,
    0, 1, 0, 0, 0, 2, 0, 2, 0, 0, 0, 0, 0, 0]

/-- Counts the fields and makes them public. -/
def counter : Transformer (Nat × Option ClassModel) where
  appliesTo _ _ := true
  readerFlags := .expandFrames
  writerFlags := .none
  action := .stage fun _ _ => pure
    { onField := fun m => do
        modify fun ((n, seen), p) => ((n + 1, seen), p)
        return { m with flags := 1 } }

/-- Keeps the model it received. -/
def recorder : Transformer (Nat × Option ClassModel) where
  appliesTo _ _ := true
  readerFlags := .none
  writerFlags := .none
  action := .model fun _ _ m (n, _) => .ok m (n, some m)

def fieldOutput : TransformedClass :=
  ⟨"A", "A", fieldBytes.set 28 1, true, .expandFrames, .none⟩

theorem transform_insert_recorder :
    (∃ s', transform ⟨none, [counter]⟩ fieldBytes (0, none) = .ok fieldOutput s') ∧
    ∃ s', transform ⟨none, [recorder, counter]⟩ fieldBytes (0, none) = .ok fieldOutput s' ∧
      ∃ m, s'.2 = some m ∧ m.toBytes = .ok fieldOutput.bytes := by
  have hstages : ∀ u ∈ [] ++ [counter], u.needsModel = false := by simp [counter, needsModel]
  have happlies : ∀ f name, ClassFile.ofBytes fieldBytes = .ok f → f.className = .ok name →
      ∃ u ∈ [] ++ [counter], u.appliesTo name (newName ⟨none, [] ++ [counter]⟩ name) = true :=
    fun _ _ _ _ => ⟨counter, by simp, rfl⟩
  have ht : HandsOn recorder fun _ _ m (n, _) => .ok m (n, some m) :=
    ⟨rfl, rfl, rfl, fun _ _ m s => ⟨(s.1, some m), rfl⟩⟩
  have hpaths := transform_insert hstages happlies ht (fun _ _ _ _ => rfl) (0, none) fieldOutput
  have hstream : transform ⟨none, [counter]⟩ fieldBytes (0, none) = .ok fieldOutput _ :=
    Effect.eq_ok_of_outcome (by decide +kernel)
  obtain ⟨s', h⟩ := hpaths.1.mp ⟨_, hstream⟩
  obtain ⟨m, s₁, -, hchange, hout⟩ := hpaths.2 s' h
  obtain ⟨-, rfl⟩ := EStateM.Result.ok.inj hchange
  exact ⟨⟨_, hstream⟩, _, h, m, rfl, hout⟩

end Pipeline

end Relabel
