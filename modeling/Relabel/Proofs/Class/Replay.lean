import Relabel.Proofs.Bytes.Codec
import Relabel.Proofs.Class.Sink

/-!
# Writing at once or at the end

A writer encodes members as they arrive, a model keeps them. Both see the same events of the same stages, so
a writer in the middle of a pass is a function of the model that would have been collected so far, and
streaming a class into a writer comes to the same as collecting it and writing the model. The two may fail at
different moments: the writer refuses a member when it comes, the model when it is written. What is shown is
that they come through together, with the same result and with the same state of the stages.

The invariant is an equation: the writer is `holding` the model.
-/

set_option autoImplicit false

namespace Relabel

open ClassEvents

/-! ## One element -/

/-- An element on its way through a row of stages. -/
def Stage.threadItem {σ : Type} (stages : List (Stage σ)) : ClassItem → Pass σ ClassItem
  | .field m => .field <$> thread onField stages m
  | .method m => .method <$> thread onMethod stages m
  | .attr a => .attr <$> thread onAttribute stages a

/-- What a sink does with an element. -/
def Sink.onItem {τ : Type} (sink : Sink τ) : ClassItem → Effect τ Unit
  | .field m => sink.onField m
  | .method m => sink.onMethod m
  | .attr a => sink.onAttribute a

/-- The stages come first and do not see the sink. -/
theorem ClassEvents.deliverItem_eq_ok {σ τ : Type} {stages : List (Stage σ)} {sink : Sink τ} {t t' : τ}
    {item : ClassItem} {s s' : σ × Pool} : deliverItem stages sink t item s = .ok t' s' ↔
      ∃ item', Stage.threadItem stages item s = .ok item' s' ∧ sink.onItem item' t = .ok () t' := by
  have hparts {α : Type} {x : Pass σ α} {event : α → Effect τ Unit} {f : α → ClassItem}
      (hf : ∀ a, sink.onItem (f a) = event a) : (x >>= fun a => Sink.give (event a) t) s = .ok t' s' ↔
        ∃ item', (f <$> x) s = .ok item' s' ∧ sink.onItem item' t = .ok () t' := by
    rw [Effect.bind_eq_ok]
    constructor
    · rintro ⟨a, s₁, ha, h⟩
      obtain ⟨hgive, rfl⟩ := Sink.give_eq_ok.mp h
      exact ⟨f a, Effect.map_eq_ok.mpr ⟨a, ha, rfl⟩, by rwa [hf]⟩
    · rintro ⟨item', h, hgive⟩
      obtain ⟨a, ha, rfl⟩ := Effect.map_eq_ok.mp h
      rw [hf] at hgive
      exact ⟨a, s', ha, Sink.give_eq_ok.mpr ⟨hgive, rfl⟩⟩
  cases item with
  | field m => exact hparts fun _ => rfl
  | method m => exact hparts fun _ => rfl
  | attr a => exact hparts fun _ => rfl

/-- An element that a writer takes. -/
def ClassItem.Encodes : ClassItem → Prop
  | .field m | .method m => m.encode.fault? = none
  | .attr _ => True

/-! ## Models -/

namespace ClassModel

/-- All members of a model can be encoded. -/
def Encodes (m : ClassModel) : Prop :=
  (Encoding.sequence Member.encode m.fields.toList).fault? = none ∧
    (Encoding.sequence Member.encode m.methods.toList).fault? = none

/-- A model with one more element. -/
def add (m : ClassModel) : ClassItem → ClassModel
  | .field f => { m with fields := m.fields.push f }
  | .method f => { m with methods := m.methods.push f }
  | .attr a => { m with attributes := m.attributes.push a }

theorem fault?_push {members : Array Member} {f : Member} :
    (Encoding.sequence Member.encode (members.push f).toList).fault? = none ↔
      (Encoding.sequence Member.encode members.toList).fault? = none ∧ f.encode.fault? = none := by
  rw [Array.toList_push, Encoding.sequence_concat, Encoding.fault?_append]

theorem Encodes.of_add {m : ClassModel} {item : ClassItem} (h : (m.add item).Encodes) : m.Encodes := by
  cases item with
  | field f => exact ⟨(fault?_push.mp h.1).1, h.2⟩
  | method f => exact ⟨h.1, (fault?_push.mp h.2).1⟩
  | attr a => exact h

theorem Encodes.add {m : ClassModel} (h : m.Encodes) {item : ClassItem} (hitem : item.Encodes) :
    (m.add item).Encodes := by
  cases item with
  | field f => exact ⟨fault?_push.mpr ⟨h.1, hitem⟩, h.2⟩
  | method f => exact ⟨h.1, fault?_push.mpr ⟨h.2, hitem⟩⟩
  | attr a => exact h

theorem Encodes.foldl_add {m : ClassModel} (h : m.Encodes) {items : List ClassItem}
    (hitems : ∀ item ∈ items, item.Encodes) : (items.foldl ClassModel.add m).Encodes := by
  induction items generalizing m with
  | nil => exact h
  | cons item items ih =>
    exact ih (h.add (hitems item (by simp))) fun other hother => hitems other (by simp [hother])

/-- Only what can be encoded piece by piece can be written. -/
theorem encodes_of_toBytes {m : ClassModel} {bytes : Bytes} (h : m.toBytes = .ok bytes) : m.Encodes := by
  unfold toBytes at h
  dsimp only at h
  split at h
  · cases h
  · cases h
  · next hfields hmethods => exact ⟨hfields, hmethods⟩

theorem toBytes_of_encodes {m : ClassModel} (h : m.Encodes) : m.toBytes
    = (encodeClass m.pool m.header m.fields.size (Encoding.sequence Member.encode m.fields.toList).bytes
        m.methods.size (Encoding.sequence Member.encode m.methods.toList).bytes m.attributes.toList).result := by
  unfold toBytes
  simp only [h.1, h.2]

variable {σ : Type}

theorem onItem_sink (m : ClassModel) (item : ClassItem) : sink.onItem item m = .ok () (m.add item) := by
  cases item <;> rfl

/-- A model only grows, so what could be encoded at the end could be encoded all along. -/
theorem Encodes.of_deliverItems {stages : List (Stage σ)} {m m' : ClassModel} {items : List ClassItem}
    {s s' : σ × Pool} (h : deliverItems stages sink m items s = .ok m' s') (hm' : m'.Encodes) : m.Encodes := by
  induction items generalizing m s with
  | nil =>
    obtain ⟨rfl, -⟩ := EStateM.Result.ok.inj h
    exact hm'
  | cons item items ih =>
    rw [deliverItems_cons] at h
    obtain ⟨m₁, s₁, hitem, h⟩ := Effect.bind_eq_ok.mp h
    obtain ⟨item', -, hadd⟩ := deliverItem_eq_ok.mp hitem
    obtain ⟨-, rfl⟩ := EStateM.Result.ok.inj ((onItem_sink m item').symm.trans hadd)
    exact (ih h).of_add

/-! ## Replaying a model -/

/-- Without stages, a model collects the elements as they are. -/
theorem deliverItems_nil (m : ClassModel) (items : List ClassItem) (x : σ × Pool) :
    deliverItems [] sink m items x = .ok (items.foldl add m) x := by
  induction items generalizing m with
  | nil => rfl
  | cons item items ih =>
    have hitem : deliverItem [] sink m item x = .ok (m.add item) x := by
      cases item <;> rfl
    rw [deliverItems, hitem, List.foldl_cons]
    exact ih _

theorem foldl_add (m : ClassModel) (fields methods : List Member) (attributes : List Attribute) :
    (fields.map ClassItem.field ++ (methods.map ClassItem.method ++ attributes.map ClassItem.attr)).foldl add m
      = { m with
          fields := m.fields ++ fields.toArray
          methods := m.methods ++ methods.toArray
          attributes := m.attributes ++ attributes.toArray } := by
  have hattributes (m : ClassModel) : (attributes.map ClassItem.attr).foldl add m
      = { m with attributes := m.attributes ++ attributes.toArray } := by
    induction attributes generalizing m with
    | nil => simp
    | cons a attributes ih => simp [ih, add]
  have hmethods (m : ClassModel) : (methods.map ClassItem.method).foldl add m
      = { m with methods := m.methods ++ methods.toArray } := by
    induction methods generalizing m with
    | nil => simp
    | cons f methods ih => simp [ih, add]
  have hfields (m : ClassModel) : (fields.map ClassItem.field).foldl add m
      = { m with fields := m.fields ++ fields.toArray } := by
    induction fields generalizing m with
    | nil => simp
    | cons f fields ih => simp [ih, add]
  rw [List.foldl_append, List.foldl_append, hfields, hmethods, hattributes]

/-- A pass without stages collects what the events tell, if they tell all. -/
theorem deliver_nil_sink (events : ClassEvents) (hstop : events.stop? = none) (s : σ) :
    events.deliver [] sink blank s
      = .ok { events.items.foldl add { blank with header := events.header } with pool := events.pool } s :=
  deliver_nil.mpr ⟨hstop, rfl, _, _, rfl, deliverItems_nil _ _ _, rfl⟩

/-- **A model is what its events tell.** -/
theorem deliver_events (m : ClassModel) (s : σ) : m.events.deliver [] sink blank s = .ok m s := by
  rw [deliver_nil_sink _ rfl, events, foldl_add]
  simp [blank]

end ClassModel

/-! ## Writers -/

namespace ClassWriter

/-- The writer in the middle of a pass that would have collected a model so far. -/
def holding (flags : WriterFlags) (m : ClassModel) : ClassWriter where
  flags := flags
  header? := some m.header
  fields := (Encoding.sequence Member.encode m.fields.toList).bytes
  fieldCount := m.fields.size
  methods := (Encoding.sequence Member.encode m.methods.toList).bytes
  methodCount := m.methods.size
  attributes := m.attributes
  name? := none
  output? := none

/-- The writer after a pass that would have collected a model, with the name and the bytes of its class. -/
def finished (flags : WriterFlags) (m : ClassModel) (name : String) (bytes : Bytes) : ClassWriter :=
  { holding flags m with header? := none, name? := some name, output? := some bytes }

variable {flags : WriterFlags} {m : ClassModel}

theorem bytes_push {members : Array Member} {f : Member}
    (h : (Encoding.sequence Member.encode members.toList).fault? = none) :
    (Encoding.sequence Member.encode (members.push f).toList).bytes
      = (Encoding.sequence Member.encode members.toList).bytes ++ f.encode.bytes := by
  rw [Array.toList_push, Encoding.sequence_concat, Encoding.bytes_append h]

/-- The writer takes an element exactly if the model can still be encoded with it. -/
theorem onItem_holding (hm : m.Encodes) (item : ClassItem) {w : ClassWriter} :
    sink.onItem item (holding flags m) = .ok () w ↔ (m.add item).Encodes ∧ w = holding flags (m.add item) := by
  cases item with
  | field f =>
    have hadd : holding flags (m.add (.field f)) = { holding flags m with
        fields := (holding flags m).fields ++ f.encode.bytes
        fieldCount := (holding flags m).fieldCount + 1 } := by
      simp only [holding, ClassModel.add, bytes_push hm.1, Array.size_push]
    change onField f _ = _ ↔ _
    rw [onField_eq_ok, hadd]
    constructor
    · rintro ⟨hf, rfl⟩
      exact ⟨⟨ClassModel.fault?_push.mpr ⟨hm.1, hf⟩, hm.2⟩, rfl⟩
    · rintro ⟨hencodes, rfl⟩
      exact ⟨(ClassModel.fault?_push.mp hencodes.1).2, rfl⟩
  | method f =>
    have hadd : holding flags (m.add (.method f)) = { holding flags m with
        methods := (holding flags m).methods ++ f.encode.bytes
        methodCount := (holding flags m).methodCount + 1 } := by
      simp only [holding, ClassModel.add, bytes_push hm.2, Array.size_push]
    change onMethod f _ = _ ↔ _
    rw [onMethod_eq_ok, hadd]
    constructor
    · rintro ⟨hf, rfl⟩
      exact ⟨⟨hm.1, ClassModel.fault?_push.mpr ⟨hm.2, hf⟩⟩, rfl⟩
    · rintro ⟨hencodes, rfl⟩
      exact ⟨(ClassModel.fault?_push.mp hencodes.2).2, rfl⟩
  | attr a =>
    constructor
    · intro h
      obtain ⟨-, rfl⟩ := EStateM.Result.ok.inj h
      exact ⟨hm, rfl⟩
    · rintro ⟨-, rfl⟩
      rfl

/-- The end is accepted exactly if the model can be written and names its class. -/
theorem onEnd_holding (hm : m.Encodes) (p : Pool) {w : ClassWriter} :
    onEnd p (holding flags m) = .ok () w ↔ ∃ name bytes, { m with pool := p }.className = .ok name ∧
      { m with pool := p }.toBytes = .ok bytes ∧ w = finished flags { m with pool := p } name bytes := by
  have hencodes : { m with pool := p }.Encodes := hm
  rw [ClassModel.toBytes_of_encodes hencodes]
  unfold onEnd
  simp only [holding, ClassModel.className, finished]
  split
  · next fault hfault => simp [hfault]
  · next bytes hbytes =>
    rw [hbytes]
    cases m.header.className p with
    | error fault => simp
    | ok name =>
      constructor
      · intro h
        obtain ⟨-, rfl⟩ := EStateM.Result.ok.inj h
        exact ⟨name, bytes, rfl, rfl, rfl⟩
      · rintro ⟨name', bytes', hname, hbytes, rfl⟩
        obtain rfl := Except.ok.inj hname
        obtain rfl := Except.ok.inj hbytes
        rfl

variable {σ : Type} {stages : List (Stage σ)}

theorem deliverItem_holding (hm : m.Encodes) {item : ClassItem} {w : ClassWriter} {s s' : σ × Pool} :
    deliverItem stages sink (holding flags m) item s = .ok w s' ↔
      ∃ m', deliverItem stages ClassModel.sink m item s = .ok m' s' ∧ m'.Encodes ∧ w = holding flags m' := by
  simp only [deliverItem_eq_ok, onItem_holding hm, ClassModel.onItem_sink, EStateM.Result.ok.injEq, true_and]
  constructor
  · rintro ⟨item', hthread, hencodes, rfl⟩
    exact ⟨m.add item', ⟨item', hthread, rfl⟩, hencodes, rfl⟩
  · rintro ⟨m', ⟨item', hthread, rfl⟩, hencodes, rfl⟩
    exact ⟨item', hthread, hencodes, rfl⟩

theorem deliverItems_holding (hm : m.Encodes) {items : List ClassItem} {w : ClassWriter} {s s' : σ × Pool} :
    deliverItems stages sink (holding flags m) items s = .ok w s' ↔
      ∃ m', deliverItems stages ClassModel.sink m items s = .ok m' s' ∧ m'.Encodes ∧ w = holding flags m' := by
  induction items generalizing m s with
  | nil =>
    constructor
    · intro h
      obtain ⟨rfl, rfl⟩ := EStateM.Result.ok.inj h
      exact ⟨m, rfl, hm, rfl⟩
    · rintro ⟨m', h, -, rfl⟩
      obtain ⟨rfl, rfl⟩ := EStateM.Result.ok.inj h
      rfl
  | cons item items ih =>
    rw [deliverItems_cons, deliverItems_cons]
    constructor
    · intro h
      obtain ⟨w₁, s₁, hitem, h⟩ := Effect.bind_eq_ok.mp h
      obtain ⟨m₁, hfirst, hm₁, rfl⟩ := (deliverItem_holding hm).mp hitem
      obtain ⟨m', hrest, hm', rfl⟩ := (ih hm₁).mp h
      exact ⟨m', Effect.bind_eq_ok.mpr ⟨m₁, s₁, hfirst, hrest⟩, hm', rfl⟩
    · rintro ⟨m', h, hm', rfl⟩
      obtain ⟨m₁, s₁, hitem, h⟩ := Effect.bind_eq_ok.mp h
      -- The model at the end can be encoded, hence already the one in between.
      have hm₁ := hm'.of_deliverItems h
      refine Effect.bind_eq_ok.mpr ⟨holding flags m₁, s₁, (deliverItem_holding hm).mpr ⟨m₁, hitem, hm₁, rfl⟩, ?_⟩
      exact (ih hm₁).mpr ⟨m', h, hm', rfl⟩

/-- Without stages, a writer takes all that can be encoded. -/
theorem deliverItems_nil (flags : WriterFlags) (hm : m.Encodes) {items : List ClassItem}
    (hitems : ∀ item ∈ items, item.Encodes) (x : σ × Pool) : deliverItems [] sink (holding flags m) items x
      = .ok (holding flags (items.foldl ClassModel.add m)) x :=
  (deliverItems_holding hm).mpr ⟨_, ClassModel.deliverItems_nil m items x, hm.foldl_add hitems, rfl⟩

/-- **Streaming a class into a writer is collecting it and writing the model.** The stages of the pass are
left in the same state. -/
theorem deliver_sink {events : ClassEvents} {w : ClassWriter} {s s' : σ} :
    events.deliver stages sink (new flags) s = .ok w s' ↔
      ∃ m name bytes, events.deliver stages ClassModel.sink .blank s = .ok m s' ∧ m.className = .ok name ∧
        m.toBytes = .ok bytes ∧ w = finished flags m name bytes := by
  -- Once the header is there, both start from nothing.
  have hheader (header : Header) : ClassWriter.onHeader header (new flags)
      = .ok () (holding flags { ClassModel.blank with header := header }) := rfl
  have hblank (header : Header) : { ClassModel.blank with header := header }.Encodes := ⟨rfl, rfl⟩
  constructor
  · intro h
    obtain ⟨p, h⟩ := deliver_eq_ok.mp h
    obtain ⟨hstop, header, s₁, w₁, s₂, w₂, hthread, hgive, hitems, hend, hlast⟩ := deliverAll_eq_ok.mp h
    obtain ⟨-, rfl⟩ := EStateM.Result.ok.inj ((hheader header).symm.trans hgive)
    obtain ⟨m, hcollect, hm, rfl⟩ := (deliverItems_holding (hblank header)).mp hitems
    obtain ⟨name, bytes, hname, hbytes, rfl⟩ := (onEnd_holding hm p).mp hlast
    exact ⟨{ m with pool := p }, name, bytes, deliver_eq_ok.mpr ⟨p, deliverAll_eq_ok.mpr
      ⟨hstop, header, s₁, _, s₂, m, hthread, rfl, hcollect, hend, rfl⟩⟩, hname, hbytes, rfl⟩
  · rintro ⟨m, name, bytes, h, hname, hbytes, rfl⟩
    obtain ⟨p, h⟩ := deliver_eq_ok.mp h
    obtain ⟨hstop, header, s₁, m₁, s₂, m₂, hthread, hgive, hitems, hend, hlast⟩ := deliverAll_eq_ok.mp h
    obtain ⟨-, rfl⟩ := EStateM.Result.ok.inj hgive
    obtain ⟨-, rfl⟩ := EStateM.Result.ok.inj hlast
    have hm₂ : { m₂ with pool := p }.Encodes := ClassModel.encodes_of_toBytes hbytes
    refine deliver_eq_ok.mpr ⟨p, deliverAll_eq_ok.mpr ⟨hstop, header, s₁, _, s₂, holding flags m₂, hthread,
      hheader header, ?_, hend, ?_⟩⟩
    · exact (deliverItems_holding (hblank header)).mpr ⟨m₂, hitems, hm₂, rfl⟩
    · exact (onEnd_holding hm₂ p).mpr ⟨name, bytes, hname, hbytes, rfl⟩

end ClassWriter

end Relabel
