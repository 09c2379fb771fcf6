import Relabel.Proofs.Class.Replay

/-!
# What the stages of a pass hand on

Stages pass elements on, and what a later stage sees of a class is what the earlier ones made of it: the
header, then the elements, each with the pool as it is at that moment. A model collects exactly these, with
the pool of the end.

Stages that keep their state in different parts of a larger one do not notice each other. So a row of stages
on one part does to it what it does alone, whatever stands behind it keeps in the other part.
-/

set_option autoImplicit false

namespace Relabel

variable {σ τ υ α β : Type}

/-! ## Parts of a state -/

def Lens.whole (σ : Type) : Lens σ σ := ⟨id, fun s _ => s⟩

/-- A lens on a part of a state: what is written can be read, writing back what was read changes nothing,
and only the last writing counts. -/
structure Lens.Lawful (l : Lens τ σ) : Prop where
  get_set : ∀ s t, l.get (l.set s t) = s
  set_get : ∀ t, l.set (l.get t) t = t
  set_set : ∀ s s' t, l.set s (l.set s' t) = l.set s t

/-- Two lenses on parts that have nothing in common: it does not matter which part is written first. -/
structure Lens.Apart (a : Lens τ σ) (b : Lens τ υ) : Prop where
  left : a.Lawful
  right : b.Lawful
  comm : ∀ s u t, a.set s (b.set u t) = b.set u (a.set s t)

/-- Writing one part does not change what is read of the other. -/
theorem Lens.Apart.get_set {a : Lens τ σ} {b : Lens τ υ} (h : a.Apart b) (u : υ) (t : τ) :
    a.get (b.set u t) = a.get t :=
  calc a.get (b.set u t)
    _ = a.get (b.set u (a.set (a.get t) t)) := by rw [h.left.set_get]
    _ = a.get (a.set (a.get t) (b.set u t)) := by rw [h.comm]
    _ = a.get t := h.left.get_set _ _

/-- The part that holds nothing. -/
def Lens.nothing (τ : Type) : Lens τ Unit := ⟨fun _ => (), fun _ t => t⟩

theorem Lens.apart_whole (τ : Type) : (Lens.nothing τ).Apart (Lens.whole τ) where
  left := ⟨fun _ _ => rfl, fun _ => rfl, fun _ _ _ => rfl⟩
  right := ⟨fun _ _ => rfl, fun _ => rfl, fun _ _ _ => rfl⟩
  comm _ _ _ := rfl

namespace Pass

variable {l : Lens τ σ}

/-- An effect on a part, taken apart. -/
theorem zoom_eq_ok {e : Pass σ α} {a : α} {t : τ × Pool} {t' : τ × Pool} :
    zoom l e t = .ok a t' ↔ ∃ s', e (l.get t.1, t.2) = .ok a (s', t'.2) ∧ t'.1 = l.set s' t.1 := by
  obtain ⟨t, p⟩ := t
  obtain ⟨t', p'⟩ := t'
  rw [zoom]
  cases he : e (l.get t, p) with
  | ok b x =>
    obtain ⟨s₁, p₁⟩ := x
    simp only [EStateM.Result.ok.injEq, Prod.mk.injEq]
    constructor
    · intro h
      obtain ⟨rfl, rfl, rfl⟩ := h
      exact ⟨s₁, ⟨rfl, rfl, rfl⟩, rfl⟩
    · intro h
      obtain ⟨s', ⟨rfl, rfl, rfl⟩, rfl⟩ := h
      exact ⟨rfl, rfl, rfl⟩
  | error err x => simp

theorem zoom_whole (e : Pass σ α) : zoom (Lens.whole σ) e = e := by
  funext s
  simp only [zoom, Lens.whole, id_eq]
  cases e s <;> rfl

theorem zoom_pure (hl : l.Lawful) (a : α) : zoom l (pure a) = pure a := by
  funext t
  show EStateM.Result.ok a (l.set (l.get t.1) t.1, t.2) = .ok a t
  rw [hl.set_get]

/-- A part goes through a chain of effects as it would alone. -/
theorem zoom_bind (hl : l.Lawful) (e : Pass σ α) (f : α → Pass σ β) :
    zoom l (e >>= f) = zoom l e >>= fun a => zoom l (f a) := by
  funext ⟨t, p⟩
  change zoom l (EStateM.bind e f) (t, p) = EStateM.bind (zoom l e) (fun a => zoom l (f a)) (t, p)
  simp only [zoom, EStateM.bind]
  cases he : e (l.get t, p) with
  | error err x => rfl
  | ok a x =>
    simp only [hl.get_set]
    cases f a x with
    | ok b y => simp only [hl.set_set]
    | error err y => simp only [hl.set_set]

theorem zoom_map (hl : l.Lawful) (f : α → β) (e : Pass σ α) : zoom l (f <$> e) = f <$> zoom l e := by
  rw [map_eq_pure_bind, map_eq_pure_bind, zoom_bind hl]
  exact bind_congr fun a => zoom_pure hl (f a)

/-- Two effects on parts that have nothing in common: each does to its part what it does alone, and the
second one finds the pool that the first one left. -/
theorem zoom_bind_zoom_eq_ok {a : Lens τ σ} {b : Lens τ υ} (hab : a.Apart b) {e : Pass σ α}
    {f : α → Pass υ β} {s : σ} {u : υ} {t : τ} {p : Pool} {y : β} {t' : τ × Pool} :
    (zoom a e >>= fun x => zoom b (f x)) (b.set u (a.set s t), p) = .ok y t' ↔
      ∃ x s₁ p₁ u₁, e (s, p) = .ok x (s₁, p₁) ∧ f x (u, p₁) = .ok y (u₁, t'.2) ∧
        t'.1 = b.set u₁ (a.set s₁ t) := by
  have hfirst : a.get (b.set u (a.set s t)) = s := by rw [hab.get_set, hab.left.get_set]
  have hput (s₁ : σ) : a.set s₁ (b.set u (a.set s t)) = b.set u (a.set s₁ t) := by
    rw [hab.comm, hab.left.set_set]
  simp only [Effect.bind_eq_ok, zoom_eq_ok, hfirst, hput]
  constructor
  · intro h
    obtain ⟨x, t₁, ⟨s₁, he, ht₁⟩, u₁, hf, ht'⟩ := h
    rw [ht₁, hab.right.get_set] at hf
    rw [ht₁, hab.right.set_set] at ht'
    exact ⟨x, s₁, t₁.2, u₁, he, hf, ht'⟩
  · intro h
    obtain ⟨x, s₁, p₁, u₁, he, hf, ht'⟩ := h
    refine ⟨x, (b.set u (a.set s₁ t), p₁), ⟨s₁, he, rfl⟩, u₁, ?_, ?_⟩
    · rw [hab.right.get_set]
      exact hf
    · rw [hab.right.set_set]
      exact ht'

end Pass

/-! ## Rows of stages -/

namespace Stage

theorem zoom_whole (stage : Stage σ) : stage.zoom (Lens.whole σ) = stage := by
  simp only [zoom, Pass.zoom_whole]

theorem thread_append (event : Stage σ → α → Pass σ α) (stages others : List (Stage σ)) (a : α) :
    thread event (stages ++ others) a = thread event stages a >>= thread event others := by
  induction stages generalizing a with
  | nil => rw [List.nil_append, thread, pure_bind]
  | cons stage stages ih =>
    rw [List.cons_append, thread, thread, bind_assoc]
    exact bind_congr fun a => ih a

theorem threadEnd_append (stages others : List (Stage σ)) :
    threadEnd (stages ++ others) = threadEnd stages >>= fun _ => threadEnd others := by
  induction stages with
  | nil => rw [List.nil_append, threadEnd, pure_bind]
  | cons stage stages ih =>
    rw [List.cons_append, threadEnd, threadEnd, bind_assoc, ih]

theorem threadItem_append (stages others : List (Stage σ)) (item : ClassItem) :
    threadItem (stages ++ others) item = threadItem stages item >>= threadItem others := by
  cases item <;> simp only [threadItem, thread_append, map_bind, bind_map_left]

variable {l : Lens τ σ} (hl : l.Lawful)

include hl

theorem thread_zoom {event : Stage σ → α → Pass σ α} {event' : Stage τ → α → Pass τ α}
    (hevent : ∀ stage a, event' (stage.zoom l) a = Pass.zoom l (event stage a)) (stages : List (Stage σ)) (a : α) :
    thread event' (stages.map (zoom l)) a = Pass.zoom l (thread event stages a) := by
  induction stages generalizing a with
  | nil => exact (Pass.zoom_pure hl a).symm
  | cons stage stages ih =>
    rw [List.map_cons, thread, thread, Pass.zoom_bind hl, hevent]
    exact bind_congr ih

theorem threadEnd_zoom (stages : List (Stage σ)) :
    threadEnd (stages.map (zoom l)) = Pass.zoom l (threadEnd stages) := by
  induction stages with
  | nil => exact (Pass.zoom_pure hl ()).symm
  | cons stage stages ih =>
    rw [List.map_cons, threadEnd, threadEnd, Pass.zoom_bind hl, ih]
    rfl

theorem threadItem_zoom (stages : List (Stage σ)) (item : ClassItem) :
    threadItem (stages.map (zoom l)) item = Pass.zoom l (threadItem stages item) := by
  cases item with
  | field m => rw [threadItem, threadItem, Pass.zoom_map hl, thread_zoom hl fun _ _ => rfl]
  | method m => rw [threadItem, threadItem, Pass.zoom_map hl, thread_zoom hl fun _ _ => rfl]
  | attr a => rw [threadItem, threadItem, Pass.zoom_map hl, thread_zoom hl fun _ _ => rfl]

omit hl

/-- An element goes through the stages on one part and then through those on the other. -/
theorem threadItem_zoom_append {a : Lens τ σ} {b : Lens τ υ} (hab : a.Apart b) (stages : List (Stage σ))
    (others : List (Stage υ)) (item : ClassItem) :
    threadItem (stages.map (zoom a) ++ others.map (zoom b)) item
      = Pass.zoom a (threadItem stages item) >>= fun item => Pass.zoom b (threadItem others item) := by
  rw [threadItem_append, threadItem_zoom hab.left]
  exact bind_congr fun item => threadItem_zoom hab.right others item

/-- The same for an event, which a zoomed stage has in its part. -/
theorem thread_zoom_append {a : Lens τ σ} {b : Lens τ υ} (hab : a.Apart b) {event : Stage τ → α → Pass τ α}
    {first : Stage σ → α → Pass σ α} {second : Stage υ → α → Pass υ α}
    (hfirst : ∀ stage x, event (stage.zoom a) x = Pass.zoom a (first stage x))
    (hsecond : ∀ stage x, event (stage.zoom b) x = Pass.zoom b (second stage x)) (stages : List (Stage σ))
    (others : List (Stage υ)) (x : α) : thread event (stages.map (zoom a) ++ others.map (zoom b)) x
      = Pass.zoom a (thread first stages x) >>= fun x => Pass.zoom b (thread second others x) := by
  rw [thread_append, thread_zoom hab.left hfirst]
  exact bind_congr fun x => thread_zoom hab.right hsecond others x

theorem threadEnd_zoom_append {a : Lens τ σ} {b : Lens τ υ} (hab : a.Apart b) (stages : List (Stage σ))
    (others : List (Stage υ)) : threadEnd (stages.map (zoom a) ++ others.map (zoom b))
      = Pass.zoom a (threadEnd stages) >>= fun _ => Pass.zoom b (threadEnd others) := by
  rw [threadEnd_append, threadEnd_zoom hab.left, threadEnd_zoom hab.right]

/-! ## What arrives -/

/-- Elements on their way through a row of stages, each with the pool as it is when the element comes out. -/
def arrivals (stages : List (Stage σ)) : List ClassItem → Pass σ (List (ClassItem × Pool))
  | [] => pure []
  | item :: items => do
    let item ← threadItem stages item
    let pool ← Pass.pool
    let rest ← arrivals stages items
    return (item, pool) :: rest

theorem arrivals_zoom {l : Lens τ σ} (hl : l.Lawful) (stages : List (Stage σ)) (items : List ClassItem) :
    arrivals (stages.map (zoom l)) items = Pass.zoom l (arrivals stages items) := by
  have hpool : (Pass.pool : Pass τ Pool) = Pass.zoom l Pass.pool := by
    funext t
    show EStateM.Result.ok t.2 t = .ok t.2 (l.set (l.get t.1) t.1, t.2)
    rw [hl.set_get]
  induction items with
  | nil => exact (Pass.zoom_pure hl []).symm
  | cons item items ih =>
    simp only [arrivals, threadItem_zoom hl, ih, Pass.zoom_bind hl, Pass.zoom_pure hl, ← hpool]

theorem arrivals_nil_eq_ok {stages : List (Stage σ)} {arrived : List (ClassItem × Pool)} {x x' : σ × Pool} :
    arrivals stages [] x = .ok arrived x' ↔ arrived = [] ∧ x' = x := by
  rw [arrivals, Effect.pure_eq_ok, eq_comm, eq_comm (a := x)]

theorem arrivals_cons_eq_ok {stages : List (Stage σ)} {item : ClassItem} {items : List ClassItem}
    {arrived : List (ClassItem × Pool)} {x x' : σ × Pool} :
    arrivals stages (item :: items) x = .ok arrived x' ↔ ∃ item' x₁ rest,
      threadItem stages item x = .ok item' x₁ ∧ arrivals stages items x₁ = .ok rest x' ∧
        arrived = (item', x₁.2) :: rest := by
  rw [arrivals]
  constructor
  · intro h
    obtain ⟨item', x₁, hitem, h⟩ := Effect.bind_eq_ok.mp h
    obtain ⟨p, x₂, hpool, h⟩ := Effect.bind_eq_ok.mp h
    obtain ⟨rfl, rfl⟩ := Pass.pool_eq_ok.mp hpool
    obtain ⟨rest, x₂, hrest, h⟩ := Effect.bind_eq_ok.mp h
    obtain ⟨rfl, rfl⟩ := Effect.pure_eq_ok.mp h
    exact ⟨item', x₁, rest, hitem, hrest, rfl⟩
  · intro h
    obtain ⟨item', x₁, rest, hitem, hrest, rfl⟩ := h
    refine Effect.bind_eq_ok.mpr ⟨item', x₁, hitem, ?_⟩
    refine Effect.bind_eq_ok.mpr ⟨x₁.2, x₁, Pass.pool_eq_ok.mpr ⟨rfl, rfl⟩, ?_⟩
    exact Effect.bind_eq_ok.mpr ⟨rest, x', hrest, rfl⟩

/-- Without stages, everything arrives as it is, in the pool that was there. -/
theorem arrivals_nil_stages (items : List ClassItem) (x : σ × Pool) :
    arrivals [] items x = .ok (items.map fun item => (item, x.2)) x := by
  induction items with
  | nil => rfl
  | cons item items ih =>
    have hitem : threadItem ([] : List (Stage σ)) item x = .ok item x := by
      cases item <;> rfl
    exact arrivals_cons_eq_ok.mpr ⟨item, x, _, hitem, ih, rfl⟩

end Stage

/-- What arrives behind a row of stages that comes through: the header, the elements, each with the pool it
arrived in, and the pool of the end. -/
def ClassEvents.Arrives (events : ClassEvents) (stages : List (Stage σ)) (s : σ) (header : Header)
    (arrived : List (ClassItem × Pool)) (pool : Pool) (s' : σ) : Prop :=
  events.stop? = none ∧ ∃ x₁ x₂, Stage.thread Stage.onHeader stages events.header (s, events.pool) = .ok header x₁ ∧
    Stage.arrivals stages events.items x₁ = .ok arrived x₂ ∧ Stage.threadEnd stages x₂ = .ok () (s', pool)

/-- Stages on a part of a larger state hand on what they hand on alone. -/
theorem ClassEvents.arrives_zoom {l : Lens τ σ} (hl : l.Lawful) {events : ClassEvents} {stages : List (Stage σ)}
    {t t' : τ} {header : Header} {arrived : List (ClassItem × Pool)} {pool : Pool} :
    events.Arrives (stages.map (Stage.zoom l)) t header arrived pool t' ↔
      ∃ s', events.Arrives stages (l.get t) header arrived pool s' ∧ t' = l.set s' t := by
  have hheader : Stage.thread Stage.onHeader (stages.map (Stage.zoom l)) events.header
      = Pass.zoom l (Stage.thread Stage.onHeader stages events.header) :=
    Stage.thread_zoom hl (fun _ _ => rfl) stages events.header
  unfold Arrives
  simp only [hheader, Stage.arrivals_zoom hl, Stage.threadEnd_zoom hl, Pass.zoom_eq_ok]
  constructor
  · intro h
    obtain ⟨hstop, ⟨t₁, p₁⟩, ⟨t₂, p₂⟩, ⟨s₁, hfirst, ht₁⟩, ⟨s₂, hitems, ht₂⟩, s', hend, rfl⟩ := h
    obtain rfl : t₁ = l.set s₁ t := ht₁
    obtain rfl : t₂ = l.set s₂ (l.set s₁ t) := ht₂
    simp only [hl.get_set] at hitems hend
    refine ⟨s', ⟨hstop, (s₁, p₁), (s₂, p₂), hfirst, hitems, hend⟩, ?_⟩
    rw [hl.set_set, hl.set_set]
  · intro h
    obtain ⟨s', ⟨hstop, ⟨s₁, p₁⟩, ⟨s₂, p₂⟩, hfirst, hitems, hend⟩, rfl⟩ := h
    refine ⟨hstop, (l.set s₁ t, p₁), (l.set s₂ t, p₂), ⟨s₁, hfirst, rfl⟩, ⟨s₂, ?_, ?_⟩, s', ?_, ?_⟩
    · rw [hl.get_set]
      exact hitems
    · rw [hl.set_set]
    · rw [hl.get_set]
      exact hend
    · rw [hl.set_set]

/-- What arrives is determined by what the stages find. -/
theorem ClassEvents.Arrives.unique {events : ClassEvents} {stages : List (Stage σ)} {s s₁ s₂ : σ}
    {header₁ header₂ : Header} {arrived₁ arrived₂ : List (ClassItem × Pool)} {pool₁ pool₂ : Pool}
    (h₁ : events.Arrives stages s header₁ arrived₁ pool₁ s₁)
    (h₂ : events.Arrives stages s header₂ arrived₂ pool₂ s₂) :
    header₁ = header₂ ∧ arrived₁ = arrived₂ ∧ pool₁ = pool₂ := by
  obtain ⟨-, x₁, y₁, hheader₁, harrived₁, hend₁⟩ := h₁
  obtain ⟨-, x₂, y₂, hheader₂, harrived₂, hend₂⟩ := h₂
  obtain ⟨rfl, rfl⟩ := EStateM.Result.ok.inj (hheader₁.symm.trans hheader₂)
  obtain ⟨rfl, rfl⟩ := EStateM.Result.ok.inj (harrived₁.symm.trans harrived₂)
  obtain ⟨-, hlast⟩ := EStateM.Result.ok.inj (hend₁.symm.trans hend₂)
  exact ⟨rfl, rfl, (Prod.mk.inj hlast).2⟩

/-- Without stages, the events arrive as they are. -/
theorem ClassEvents.arrives_nil {events : ClassEvents} {s s' : σ} {header : Header}
    {arrived : List (ClassItem × Pool)} {pool : Pool} : events.Arrives [] s header arrived pool s' ↔
      events.stop? = none ∧ header = events.header ∧
        arrived = (events.items.map fun item => (item, events.pool)) ∧ pool = events.pool ∧ s' = s := by
  constructor
  · intro h
    obtain ⟨hstop, x₁, x₂, hheader, harrived, hend⟩ := h
    obtain ⟨rfl, rfl⟩ := Effect.pure_eq_ok.mp hheader
    rw [Stage.arrivals_nil_stages] at harrived
    obtain ⟨rfl, rfl⟩ := EStateM.Result.ok.inj harrived
    obtain ⟨-, hlast⟩ := EStateM.Result.ok.inj hend
    obtain ⟨rfl, rfl⟩ := Prod.mk.inj hlast
    exact ⟨hstop, rfl, rfl, rfl, rfl⟩
  · intro h
    obtain ⟨hstop, rfl, rfl, rfl, rfl⟩ := h
    exact ⟨hstop, _, _, rfl, Stage.arrivals_nil_stages events.items (s', events.pool), rfl⟩

namespace ClassModel

/-- The model of a header, some elements and a pool. -/
def collect (header : Header) (items : List ClassItem) (pool : Pool) : ClassModel :=
  { items.foldl add { blank with header := header } with pool := pool }

theorem collect_events (m : ClassModel) : collect m.header m.events.items m.pool = m := by
  rw [collect, events, foldl_add]
  simp [blank]

theorem header_foldl_add (m : ClassModel) (items : List ClassItem) : (items.foldl add m).header = m.header := by
  induction items generalizing m with
  | nil => rfl
  | cons item items ih =>
    rw [List.foldl_cons, ih]
    cases item <;> rfl

theorem header_collect (header : Header) (items : List ClassItem) (p : Pool) :
    (collect header items p).header = header :=
  header_foldl_add _ items

/-- A model collects what arrives, element by element. -/
theorem deliverItems_sink {stages : List (Stage σ)} {m m' : ClassModel} {items : List ClassItem}
    {x x' : σ × Pool} : ClassEvents.deliverItems stages sink m items x = .ok m' x' ↔
      ∃ arrived, Stage.arrivals stages items x = .ok arrived x' ∧ m' = (arrived.map Prod.fst).foldl add m := by
  induction items generalizing m x with
  | nil =>
    constructor
    · intro h
      obtain ⟨rfl, rfl⟩ := EStateM.Result.ok.inj h
      exact ⟨[], rfl, rfl⟩
    · intro h
      obtain ⟨arrived, h, rfl⟩ := h
      obtain ⟨rfl, rfl⟩ := Stage.arrivals_nil_eq_ok.mp h
      rfl
  | cons item items ih =>
    rw [ClassEvents.deliverItems_cons]
    constructor
    · intro h
      obtain ⟨m₁, x₁, hitem, h⟩ := Effect.bind_eq_ok.mp h
      obtain ⟨item', hthread, hadd⟩ := ClassEvents.deliverItem_eq_ok.mp hitem
      obtain ⟨-, rfl⟩ := EStateM.Result.ok.inj ((onItem_sink m item').symm.trans hadd)
      obtain ⟨rest, hrest, rfl⟩ := ih.mp h
      exact ⟨_, Stage.arrivals_cons_eq_ok.mpr ⟨item', x₁, rest, hthread, hrest, rfl⟩, rfl⟩
    · intro h
      obtain ⟨arrived, h, rfl⟩ := h
      obtain ⟨item', x₁, rest, hthread, hrest, rfl⟩ := Stage.arrivals_cons_eq_ok.mp h
      refine Effect.bind_eq_ok.mpr ⟨m.add item', x₁, ?_, ih.mpr ⟨rest, hrest, rfl⟩⟩
      exact ClassEvents.deliverItem_eq_ok.mpr ⟨item', hthread, onItem_sink m item'⟩

/-- **A model collects what arrives.** -/
theorem deliver_sink_eq_ok {events : ClassEvents} {stages : List (Stage σ)} {m : ClassModel} {s s' : σ} :
    events.deliver stages sink blank s = .ok m s' ↔ ∃ header arrived pool,
      events.Arrives stages s header arrived pool s' ∧ m = collect header (arrived.map Prod.fst) pool := by
  rw [ClassEvents.deliver_eq_ok]
  constructor
  · intro h
    obtain ⟨pool, h⟩ := h
    obtain ⟨hstop, header, x₁, m₁, x₂, m₂, hheader, hgive, hitems, hend, hlast⟩ :=
      ClassEvents.deliverAll_eq_ok.mp h
    obtain ⟨-, rfl⟩ := EStateM.Result.ok.inj hgive
    obtain ⟨-, rfl⟩ := EStateM.Result.ok.inj hlast
    obtain ⟨arrived, harrived, rfl⟩ := deliverItems_sink.mp hitems
    exact ⟨header, arrived, pool, ⟨hstop, x₁, x₂, hheader, harrived, hend⟩, rfl⟩
  · intro h
    obtain ⟨header, arrived, pool, ⟨hstop, x₁, x₂, hheader, harrived, hend⟩, rfl⟩ := h
    refine ⟨pool, ClassEvents.deliverAll_eq_ok.mpr ⟨hstop, header, x₁, _, x₂, _, hheader, rfl, ?_, hend, rfl⟩⟩
    exact deliverItems_sink.mpr ⟨arrived, harrived, rfl⟩

end ClassModel

end Relabel
