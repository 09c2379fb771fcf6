import Relabel.Class.Model
import Relabel.Class.Writer
import Relabel.Proofs.Effect

/-!
# What arrives at the end of a pass

The stages of a pass do not know the sink behind them. So a pass that comes through with one sink comes
through with any other that accepts what the first one accepted, and it leaves the same state. In
particular a class that was written can be collected into a model, and the writer wrote that model.
-/

set_option autoImplicit false

namespace Relabel

theorem ClassFile.header_events (f : ClassFile) (flags : ReaderFlags) : (f.events flags).header = f.header := by
  unfold events
  split <;> rfl

theorem ClassFile.pool_events (f : ClassFile) (flags : ReaderFlags) : (f.events flags).pool = f.pool := by
  unfold events
  split <;> rfl

/-- Frames are never touched, so it makes no difference to ask for them. -/
theorem ClassFile.events_expandFrames (f : ClassFile) : f.events .expandFrames = f.events .none := by
  have hskips : ReaderFlags.skipsDebug .expandFrames = ReaderFlags.skipsDebug .none := by decide
  unfold events
  rw [hskips]

theorem Sink.give_eq_ok {σ τ : Type} {event : Effect τ Unit} {t t' : τ} {s s' : σ} :
    (Sink.give event t : Effect σ τ) s = .ok t' s' ↔ event t = .ok () t' ∧ s = s' := by
  unfold Sink.give
  cases event t <;> simp

theorem Sink.after_give {σ τ : Type} (event : Effect τ Unit) (t : τ) (s : σ) :
    (Sink.give event t : Effect σ τ).after s = s := by
  simp only [Effect.after, Sink.give]
  cases event t <;> rfl

/-- A row of one stage. -/
theorem Stage.thread_one {σ α : Type} (event : Stage σ → α → Pass σ α) (stage : Stage σ) (a : α) :
    thread event [stage] a = event stage a :=
  bind_pure _

theorem Pass.pool_eq_ok {σ : Type} {p : Pool} {s s' : σ × Pool} :
    (Pass.pool : Pass σ Pool) s = .ok p s' ↔ s.2 = p ∧ s = s' := by
  change EStateM.Result.ok s.2 s = _ ↔ _
  simp

namespace ClassEvents

variable {σ τ : Type} {events : ClassEvents} {stages : List (Stage σ)} {sink : Sink τ}

theorem deliverItems_cons (stages : List (Stage σ)) (sink : Sink τ) (t : τ) (item : ClassItem)
    (items : List ClassItem) : deliverItems stages sink t (item :: items)
      = deliverItem stages sink t item >>= fun t => deliverItems stages sink t items := by
  funext s
  change _ = EStateM.bind _ _ s
  rw [deliverItems, EStateM.bind]
  cases deliverItem stages sink t item s <;> rfl

/-- A pass comes through if the header, the elements and the end do and reading did not stop early. -/
theorem deliverAll_eq_ok {t t' : τ} {s s' : σ × Pool} :
    events.deliverAll stages sink t s = .ok t' s' ↔
      events.stop? = none ∧ ∃ header s₁ t₁ s₂ t₂,
        Stage.thread Stage.onHeader stages events.header s = .ok header s₁ ∧
        sink.onHeader header t = .ok () t₁ ∧ deliverItems stages sink t₁ events.items s₁ = .ok t₂ s₂ ∧
        Stage.threadEnd stages s₂ = .ok () s' ∧ sink.onEnd s'.2 t₂ = .ok () t' := by
  unfold deliverAll
  constructor
  · intro hd
    obtain ⟨header, s₁, hheader, hd⟩ := Effect.bind_eq_ok.mp hd
    obtain ⟨t₁, s₂, hx, hd⟩ := Effect.bind_eq_ok.mp hd
    obtain ⟨hgive, rfl⟩ := Sink.give_eq_ok.mp hx
    obtain ⟨t₂, s₂, hitems, hd⟩ := Effect.bind_eq_ok.mp hd
    cases hstop : events.stop? with
    | some e =>
      simp only [hstop] at hd
      obtain ⟨x, s₃, hthrow, -⟩ := Effect.bind_eq_ok.mp hd
      cases hthrow
    | none =>
      simp only [hstop] at hd
      obtain ⟨⟨⟩, s₃, hend, hd⟩ := Effect.bind_eq_ok.mp hd
      obtain ⟨p, s₄, hx, hd⟩ := Effect.bind_eq_ok.mp hd
      obtain ⟨rfl, rfl⟩ := Pass.pool_eq_ok.mp hx
      obtain ⟨hlast, rfl⟩ := Sink.give_eq_ok.mp hd
      exact ⟨rfl, header, s₁, t₁, s₂, t₂, hheader, hgive, hitems, hend, hlast⟩
  · rintro ⟨hstop, header, s₁, t₁, s₂, t₂, hheader, hgive, hitems, hend, hlast⟩
    refine Effect.bind_eq_ok.mpr ⟨header, s₁, hheader, ?_⟩
    refine Effect.bind_eq_ok.mpr ⟨t₁, s₁, Sink.give_eq_ok.mpr ⟨hgive, rfl⟩, ?_⟩
    refine Effect.bind_eq_ok.mpr ⟨t₂, s₂, hitems, ?_⟩
    simp only [hstop]
    refine Effect.bind_eq_ok.mpr ⟨(), s', hend, ?_⟩
    refine Effect.bind_eq_ok.mpr ⟨s'.2, s', Pass.pool_eq_ok.mpr ⟨rfl, rfl⟩, ?_⟩
    exact Sink.give_eq_ok.mpr ⟨hlast, rfl⟩

theorem deliver_eq_ok {t t' : τ} {s s' : σ} : events.deliver stages sink t s = .ok t' s' ↔
    ∃ p, events.deliverAll stages sink t (s, events.pool) = .ok t' (s', p) := by
  unfold deliver
  cases events.deliverAll stages sink t (s, events.pool) with
  | ok t₁ x => simp [Prod.ext_iff]
  | error e x => simp

theorem after_deliver (t : τ) (s : σ) : (events.deliver stages sink t).after s
    = ((events.deliverAll stages sink t).after (s, events.pool)).1 := by
  unfold Effect.after deliver
  cases events.deliverAll stages sink t (s, events.pool) <;> rfl

/-- Without stages, elements leave the pool alone. -/
theorem still_of_deliverItems {items : List ClassItem} {t t' : τ} {x x' : σ × Pool}
    (hd : deliverItems [] sink t items x = .ok t' x') : x' = x := by
  induction items generalizing t x with
  | nil => exact (EStateM.Result.ok.inj hd).2.symm
  | cons item items ih =>
    rw [deliverItems_cons] at hd
    obtain ⟨t₁, x₁, hitem, hd⟩ := Effect.bind_eq_ok.mp hd
    obtain rfl : x = x₁ := by
      cases item <;> exact (Sink.give_eq_ok.mp hitem).2
    exact ih hd

/-- Without stages, a sink receives the events as they are. -/
theorem deliver_nil {t t' : τ} {s s' : σ} : events.deliver ([] : List (Stage σ)) sink t s = .ok t' s' ↔
    events.stop? = none ∧ s' = s ∧ ∃ t₁ t₂, sink.onHeader events.header t = .ok () t₁ ∧
      deliverItems [] sink t₁ events.items (s, events.pool) = .ok t₂ (s, events.pool) ∧
      sink.onEnd events.pool t₂ = .ok () t' := by
  rw [deliver_eq_ok]
  constructor
  · rintro ⟨p, hd⟩
    obtain ⟨hstop, header, s₁, t₁, s₂, t₂, hheader, hgive, hitems, hend, hlast⟩ := deliverAll_eq_ok.mp hd
    obtain ⟨rfl, rfl⟩ := Effect.pure_eq_ok.mp hheader
    obtain ⟨-, rfl⟩ := Effect.pure_eq_ok.mp hend
    obtain ⟨rfl, rfl⟩ := Prod.mk.inj (still_of_deliverItems hitems)
    exact ⟨hstop, rfl, t₁, t₂, hgive, hitems, hlast⟩
  · rintro ⟨hstop, rfl, t₁, t₂, hgive, hitems, hlast⟩
    exact ⟨events.pool, deliverAll_eq_ok.mpr
      ⟨hstop, events.header, _, t₁, _, t₂, rfl, hgive, hitems, rfl, hlast⟩⟩

end ClassEvents

/-! ## Two sinks -/

/-- Whatever one sink accepts, another accepts as well, and their states stay in a relation, which may be
another one once both have seen the end. -/
structure Sink.Shadows {τ υ : Type} (R Q : τ → υ → Prop) (a : Sink τ) (b : Sink υ) : Prop where
  onField : ∀ {m t t' u}, R t u → a.onField m t = .ok () t' → ∃ u', b.onField m u = .ok () u' ∧ R t' u'
  onMethod : ∀ {m t t' u}, R t u → a.onMethod m t = .ok () t' → ∃ u', b.onMethod m u = .ok () u' ∧ R t' u'
  onAttribute : ∀ {x t t' u}, R t u → a.onAttribute x t = .ok () t' →
    ∃ u', b.onAttribute x u = .ok () u' ∧ R t' u'
  onEnd : ∀ {p t t' u}, R t u → a.onEnd p t = .ok () t' → ∃ u', b.onEnd p u = .ok () u' ∧ Q t' u'

namespace Sink.Shadows

open ClassEvents

variable {σ τ υ : Type} {R Q : τ → υ → Prop} {a : Sink τ} {b : Sink υ} {stages : List (Stage σ)}

theorem deliverItem (hab : Shadows R Q a b) {t t' : τ} {u : υ} (hR : R t u) {item : ClassItem}
    {s s' : σ × Pool} (hd : deliverItem stages a t item s = .ok t' s') :
    ∃ u', deliverItem stages b u item s = .ok u' s' ∧ R t' u' := by
  cases item with
  | field m =>
    obtain ⟨m', s₁, hm, hd⟩ := Effect.bind_eq_ok.mp hd
    obtain ⟨hgive, rfl⟩ := Sink.give_eq_ok.mp hd
    obtain ⟨u', hu', hR'⟩ := hab.onField hR hgive
    exact ⟨u', Effect.bind_eq_ok.mpr ⟨m', s₁, hm, Sink.give_eq_ok.mpr ⟨hu', rfl⟩⟩, hR'⟩
  | method m =>
    obtain ⟨m', s₁, hm, hd⟩ := Effect.bind_eq_ok.mp hd
    obtain ⟨hgive, rfl⟩ := Sink.give_eq_ok.mp hd
    obtain ⟨u', hu', hR'⟩ := hab.onMethod hR hgive
    exact ⟨u', Effect.bind_eq_ok.mpr ⟨m', s₁, hm, Sink.give_eq_ok.mpr ⟨hu', rfl⟩⟩, hR'⟩
  | attr x =>
    obtain ⟨x', s₁, hx, hd⟩ := Effect.bind_eq_ok.mp hd
    obtain ⟨hgive, rfl⟩ := Sink.give_eq_ok.mp hd
    obtain ⟨u', hu', hR'⟩ := hab.onAttribute hR hgive
    exact ⟨u', Effect.bind_eq_ok.mpr ⟨x', s₁, hx, Sink.give_eq_ok.mpr ⟨hu', rfl⟩⟩, hR'⟩

theorem deliverItems (hab : Shadows R Q a b) {t t' : τ} {u : υ} (hR : R t u) {items : List ClassItem}
    {s s' : σ × Pool} (hd : deliverItems stages a t items s = .ok t' s') :
    ∃ u', deliverItems stages b u items s = .ok u' s' ∧ R t' u' := by
  induction items generalizing t u s with
  | nil =>
    obtain ⟨rfl, rfl⟩ := EStateM.Result.ok.inj hd
    exact ⟨u, rfl, hR⟩
  | cons item items ih =>
    rw [deliverItems_cons] at hd
    obtain ⟨t₁, s₁, hitem, hd⟩ := Effect.bind_eq_ok.mp hd
    obtain ⟨u₁, hu₁, hR₁⟩ := hab.deliverItem hR hitem
    obtain ⟨u', hu', hR'⟩ := ih hR₁ hd
    rw [deliverItems_cons]
    exact ⟨u', Effect.bind_eq_ok.mpr ⟨u₁, s₁, hu₁, hu'⟩, hR'⟩

/-- A pass that comes through with a sink comes through with its shadow, with the same state after it. -/
theorem deliver (hab : Shadows R Q a b) {t t' : τ} {u : υ}
    (hheader : ∀ {header t₁}, a.onHeader header t = .ok () t₁ →
      ∃ u₁, b.onHeader header u = .ok () u₁ ∧ R t₁ u₁)
    {events : ClassEvents} {s s' : σ} (hd : events.deliver stages a t s = .ok t' s') :
    ∃ u', events.deliver stages b u s = .ok u' s' ∧ Q t' u' := by
  obtain ⟨p, hd⟩ := deliver_eq_ok.mp hd
  obtain ⟨hstop, header, s₁, t₁, s₂, t₂, hthread, hgive, hitems, hend, hlast⟩ := deliverAll_eq_ok.mp hd
  -- The stages saw none of the sink, so their part of the pass is the same.
  obtain ⟨u₁, hu₁, hR₁⟩ := hheader hgive
  obtain ⟨u₂, hu₂, hR₂⟩ := hab.deliverItems hR₁ hitems
  obtain ⟨u', hu', hQ⟩ := hab.onEnd hR₂ hlast
  exact ⟨u', deliver_eq_ok.mpr ⟨p, deliverAll_eq_ok.mpr
    ⟨hstop, header, s₁, u₁, s₂, u₂, hthread, hu₁, hu₂, hend, hu'⟩⟩, hQ⟩

end Sink.Shadows

/-! ## Writing and collecting -/

theorem Encoding.sequence_concat {α : Type} (f : α → Encoding) (items : List α) (a : α) :
    sequence f (items ++ [a]) = sequence f items ++ f a := by
  simp [sequence]

/-- A writer holds the members of a model, encoded. -/
structure ClassWriter.Holds (w : ClassWriter) (m : ClassModel) : Prop where
  header : w.header? = some m.header
  fields : Encoding.sequence Member.encode m.fields.toList = ⟨w.fields, none⟩
  fieldCount : w.fieldCount = m.fields.size
  methods : Encoding.sequence Member.encode m.methods.toList = ⟨w.methods, none⟩
  methodCount : w.methodCount = m.methods.size
  attributes : w.attributes = m.attributes

/-- A writer wrote a model. -/
def ClassWriter.Wrote (w : ClassWriter) (m : ClassModel) : Prop :=
  ∃ bytes, w.bytes = .ok bytes ∧ m.toBytes = .ok bytes

/-- One more member behind members that could be encoded. -/
theorem Member.sequence_push {members : Array Member} {bytes : Array UInt8} {m : Member}
    (hmembers : Encoding.sequence encode members.toList = ⟨bytes, none⟩) (hm : m.encode.fault? = none) :
    Encoding.sequence encode (members.push m).toList = ⟨bytes ++ m.encode.bytes, none⟩ := by
  rw [Array.toList_push, Encoding.sequence_concat, hmembers]
  change (⟨bytes ++ m.encode.bytes, m.encode.fault?⟩ : Encoding) = _
  rw [hm]

namespace ClassWriter

theorem onField_eq_ok {f : Member} {w w' : ClassWriter} : onField f w = .ok () w' ↔
    f.encode.fault? = none ∧
      { w with fields := w.fields ++ f.encode.bytes, fieldCount := w.fieldCount + 1 } = w' := by
  unfold onField
  cases hf : f.encode.fault? <;> simp [hf]

theorem onMethod_eq_ok {f : Member} {w w' : ClassWriter} : onMethod f w = .ok () w' ↔
    f.encode.fault? = none ∧
      { w with methods := w.methods ++ f.encode.bytes, methodCount := w.methodCount + 1 } = w' := by
  unfold onMethod
  cases hf : f.encode.fault? <;> simp [hf]

/-- A writer that holds a model writes that model, with the pool it gets at the end. -/
theorem Holds.wrote {w w' : ClassWriter} {m : ClassModel} (hw : w.Holds m) {p : Pool}
    (hp : onEnd p w = .ok () w') : w'.Wrote { m with pool := p } := by
  unfold onEnd at hp
  simp only [hw.header] at hp
  split at hp
  · cases hp
  · next bytes hbytes =>
    split at hp
    · cases hp
    · obtain ⟨-, rfl⟩ := EStateM.Result.ok.inj hp
      refine ⟨bytes, rfl, ?_⟩
      unfold ClassModel.toBytes
      simp only [hw.fields, hw.methods]
      rw [← hw.fieldCount, ← hw.methodCount, ← hw.attributes]
      exact hbytes

/-- A model can be collected wherever a class can be written. -/
theorem shadows_sink : Sink.Shadows Holds Wrote sink ClassModel.sink where
  onField := by
    intro f w w' m hw hf
    obtain ⟨hencode, rfl⟩ := onField_eq_ok.mp hf
    exact ⟨_, rfl, { hw with
      fields := Member.sequence_push hw.fields hencode
      fieldCount := by simp [hw.fieldCount] }⟩
  onMethod := by
    intro f w w' m hw hf
    obtain ⟨hencode, rfl⟩ := onMethod_eq_ok.mp hf
    exact ⟨_, rfl, { hw with
      methods := Member.sequence_push hw.methods hencode
      methodCount := by simp [hw.methodCount] }⟩
  onAttribute := by
    intro x w w' m hw hx
    obtain ⟨-, rfl⟩ := EStateM.Result.ok.inj hx
    exact ⟨_, rfl, { hw with attributes := by simp [hw.attributes] }⟩
  onEnd := by
    intro p w w' m hw hp
    exact ⟨_, rfl, hw.wrote hp⟩

/-- A class that was written can be collected into a model in the same pass, and the model was written. -/
theorem read_of_deliver {σ : Type} {f : ClassFile} {stages : List (Stage σ)} {readerFlags : ReaderFlags}
    {writerFlags : WriterFlags} {w : ClassWriter} {s s' : σ}
    (hd : (f.events readerFlags).deliver stages sink (new writerFlags) s = .ok w s') :
    ∃ m, ClassModel.read f stages readerFlags s = .ok m s' ∧ w.Wrote m := by
  refine shadows_sink.deliver ?_ hd
  intro header w₁ hheader
  obtain ⟨-, rfl⟩ := EStateM.Result.ok.inj hheader
  exact ⟨_, rfl, ⟨rfl, rfl, rfl, rfl, rfl, rfl⟩⟩

end ClassWriter

end Relabel
