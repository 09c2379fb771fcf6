import Relabel.Class.Model
import Relabel.Class.Writer
import Relabel.Stage.Patch
import Relabel.Stage.Rename

/-!
# Pipelines

A pipeline takes one class after the other through a row of transformers. A transformer says to which
classes it applies, judged by the name of the class and the name it will have, and is either a stage of a
pass or a function on a whole model. If only stages apply, the class is streamed into a writer; if a
model is wanted, the stages run first and the models after them. A class to which nothing applies comes
out as it went in.
-/

set_option autoImplicit false

namespace Relabel

/-- What a transformer does to the class with a given name, which will have a given name. -/
inductive Action (σ : Type) where
  | stage (make : String → String → Effect σ (Stage σ))
  | model (transform : String → String → ClassModel → Effect σ ClassModel)

/-- A transformer of classes that keeps its state in `σ`. -/
structure Transformer (σ : Type) where
  appliesTo : String → String → Bool
  readerFlags : ReaderFlags
  writerFlags : WriterFlags
  action : Action σ

namespace Transformer

variable {τ : Type}

/-- Whether a transformer works on a whole model. -/
def needsModel (t : Transformer τ) : Bool :=
  match t.action with
  | .stage _ => false
  | .model _ => true

/-- Renames every class. -/
def rename (h : Hierarchy) (l : Lens τ Renamer) : Transformer τ where
  appliesTo _ _ := true
  readerFlags := .expandFrames
  writerFlags := .none
  action := .stage fun _ _ => pure ((Renamer.stage h).zoom l)

/-- Changes access in the classes that have a row under their new name. -/
def patch (renames : Renaming) (l : Lens τ Nat) : Transformer τ where
  appliesTo _ newName := (renames.accessRow? newName).isSome
  readerFlags := .expandFrames
  writerFlags := .none
  action := .stage fun _ newName =>
    pure ((Patcher.stage ((renames.accessRow? newName).getD ∅)).zoom l)

/-- The stages that transformers make for a class, behind `acc` backwards. -/
def makeStages (name newName : String) (acc : List (Stage τ)) :
    List (Transformer τ) → Effect τ (List (Stage τ))
  | [] => pure acc.reverse
  | t :: ts =>
    match t.action with
    | .stage make => do
      let stage ← make name newName
      makeStages name newName (stage :: acc) ts
    | .model _ => makeStages name newName acc ts

/-- A model on its way through the transformers that work on models. -/
def transformModel (name newName : String) : List (Transformer τ) → ClassModel → Effect τ ClassModel
  | [], m => pure m
  | t :: ts, m =>
    match t.action with
    | .stage _ => transformModel name newName ts m
    | .model transform => do
      let m ← transform name newName m
      transformModel name newName ts m

end Transformer

/-- A class that went through a pipeline. -/
structure TransformedClass where
  /-- The internal name in the input. -/
  inputName : String
  /-- The internal name in `bytes`. -/
  name : String
  bytes : Bytes
  /-- Whether any transformer applied; if not, `bytes` is the input. -/
  transformed : Bool
  readerFlags : ReaderFlags
  writerFlags : WriterFlags
  deriving DecidableEq

/-- A row of transformers, with the class names that tell how a class will be called. -/
structure Pipeline (σ : Type) where
  names? : Option ClassNames
  transformers : List (Transformer σ)

namespace Pipeline

variable {σ : Type}

/-- The pipeline that changes nothing. -/
def empty : Pipeline σ := ⟨none, []⟩

/-- The name a class will have. -/
def newName (p : Pipeline σ) (name : String) : String :=
  match p.names? with
  | some names => names.map name
  | none => name

/-- Streams a class through stages, and through models if one is wanted, into a writer. -/
def run (f : ClassFile) (name newName : String) (ts : List (Transformer σ)) (readerFlags : ReaderFlags)
    (writerFlags : WriterFlags) : Effect σ ClassWriter := do
  let stages ← Transformer.makeStages name newName [] ts
  let writer := ClassWriter.new writerFlags
  if ts.any Transformer.needsModel then
    let m ← ClassModel.read f stages readerFlags
    let m ← Transformer.transformModel name newName ts m
    m.events.deliver [] ClassWriter.sink writer
  else
    (f.events readerFlags).deliver stages ClassWriter.sink writer

/-- Takes a class through the pipeline. -/
def transform (p : Pipeline σ) (bytes : Bytes) : Effect σ TransformedClass := do
  let f ← ClassFile.ofBytes bytes
  let name ← f.className
  let newName := p.newName name
  let ts := p.transformers.filter fun t => t.appliesTo name newName
  if ts.isEmpty then return ⟨name, name, bytes, false, .none, .none⟩
  let readerFlags := ts.foldl (fun flags t => flags.union t.readerFlags) .none
  let writerFlags := ts.foldl (fun flags t => flags.union t.writerFlags) .none
  let writer ← run f name newName ts readerFlags writerFlags
  match writer.name? with
  | none => throw (.classFile (.nothingWritten name))
  | some written =>
    return ⟨name, written, ← writer.bytes, true, readerFlags, writer.flags⟩

end Pipeline

end Relabel
