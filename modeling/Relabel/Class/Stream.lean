import Relabel.Class.Basic

/-!
# Classes as streams of events

A class is processed in one pass. Its header comes first, then its fields, methods and attributes in
order, then its end. Every event goes through a row of stages, each of which may replace the element and
change the pool, and finally into a sink. The sink receives the pool last, because stages may go on
adding to it until the end.

A `ClassEvents` is all that a source of events has to offer: the elements it could produce and, if it
had to stop, why. What the source can produce does not depend on the stages, so a pass is a fold over
the elements, and a pass over the events of a file or over those of a model is the same function.
-/

set_option autoImplicit false

namespace Relabel

/-- An element of the body of a class. -/
inductive ClassItem where
  | field (member : Member)
  | method (member : Member)
  | attr (data : Attribute)
  deriving BEq

/-- The events of a class: its header and the elements of its body, up to the failure that stopped
them. -/
structure ClassEvents where
  pool : Pool
  header : Header
  items : List ClassItem
  stop? : Option Error

/-- An effect on the shared state of a pass and the pool of the class. -/
abbrev Pass (σ : Type) := Effect (σ × Pool)

/-- The pool as it is now. -/
def Pass.pool {σ : Type} : Pass σ Pool := do
  return (← get).2

/-- An effect on the pool. -/
def Pass.onPool {σ α : Type} (e : Effect Pool α) : Pass σ α :=
  Effect.onSecond e

/-- A stage of a pass. `σ` is the state that all stages of the pass share. Every event gives the element
that the next stage sees. -/
structure Stage (σ : Type) where
  onHeader : Header → Pass σ Header := pure
  onField : Member → Pass σ Member := pure
  onMethod : Member → Pass σ Member := pure
  onAttribute : Attribute → Pass σ Attribute := pure
  onEnd : Pass σ Unit := pure ()

/-- An effect on a part of a larger shared state. -/
def Pass.zoom {τ σ α : Type} (l : Lens τ σ) (e : Pass σ α) : Pass τ α := fun (t, pool) =>
  match e (l.get t, pool) with
  | .ok a (s, pool) => .ok a (l.set s t, pool)
  | .error err (s, pool) => .error err (l.set s t, pool)

/-- A stage on a part of a larger shared state. -/
def Stage.zoom {τ σ : Type} (l : Lens τ σ) (stage : Stage σ) : Stage τ where
  onHeader h := Pass.zoom l (stage.onHeader h)
  onField m := Pass.zoom l (stage.onField m)
  onMethod m := Pass.zoom l (stage.onMethod m)
  onAttribute a := Pass.zoom l (stage.onAttribute a)
  onEnd := Pass.zoom l stage.onEnd

/-- The consumer at the end of a pass. -/
structure Sink (τ : Type) where
  onHeader : Header → Effect τ Unit
  onField : Member → Effect τ Unit
  onMethod : Member → Effect τ Unit
  onAttribute : Attribute → Effect τ Unit
  onEnd : Pool → Effect τ Unit

namespace Stage

variable {σ : Type}

/-- An element on its way through a row of stages. -/
def thread {α : Type} (event : Stage σ → α → Pass σ α) : List (Stage σ) → α → Pass σ α
  | [], a => pure a
  | stage :: stages, a => do
    let a ← event stage a
    thread event stages a

/-- The end of a class on its way through a row of stages. -/
def threadEnd : List (Stage σ) → Pass σ Unit
  | [] => pure ()
  | stage :: stages => do
    stage.onEnd
    threadEnd stages

end Stage

/-- Hands an event to a sink in state `t` and gives its next state. -/
def Sink.give {σ τ : Type} (event : Effect τ Unit) (t : τ) : Effect σ τ := fun s =>
  match event t with
  | .ok () t => .ok t s
  | .error e _ => .error e s

namespace ClassEvents

variable {σ τ : Type}

/-- One element through the stages and into the sink. -/
def deliverItem (stages : List (Stage σ)) (sink : Sink τ) (t : τ) : ClassItem → Pass σ τ
  | .field m => do
    let m ← Stage.thread Stage.onField stages m
    Sink.give (sink.onField m) t
  | .method m => do
    let m ← Stage.thread Stage.onMethod stages m
    Sink.give (sink.onMethod m) t
  | .attr a => do
    let a ← Stage.thread Stage.onAttribute stages a
    Sink.give (sink.onAttribute a) t

/-- Elements through the stages and into the sink, in order. -/
def deliverItems (stages : List (Stage σ)) (sink : Sink τ) (t : τ) : List ClassItem → Pass σ τ
  | [], s => .ok t s
  | item :: items, s =>
    match deliverItem stages sink t item s with
    | .error e s => .error e s
    | .ok t s => deliverItems stages sink t items s

/-- The events after the pool: the header, the elements, the failure that stopped them if there is one,
the end. -/
def deliverAll (events : ClassEvents) (stages : List (Stage σ)) (sink : Sink τ) (t : τ) :
    Pass σ τ := do
  let h ← Stage.thread Stage.onHeader stages events.header
  let t ← Sink.give (sink.onHeader h) t
  let t ← deliverItems stages sink t events.items
  if let some e := events.stop? then throw e
  Stage.threadEnd stages
  Sink.give (sink.onEnd (← Pass.pool)) t

/-- A whole pass over the events of a class, which gives the last state of the sink. -/
def deliver (events : ClassEvents) (stages : List (Stage σ)) (sink : Sink τ) (t : τ) :
    Effect σ τ := fun s =>
  match events.deliverAll stages sink t (s, events.pool) with
  | .ok t (s, _) => .ok t s
  | .error e (s, _) => .error e s

end ClassEvents

end Relabel
