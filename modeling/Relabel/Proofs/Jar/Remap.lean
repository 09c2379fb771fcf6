import Relabel.Jar.Remap
import Relabel.Proofs.Class.Codec
import Relabel.Proofs.Pipeline
import Relabel.Proofs.Rename.Class
import Relabel.Proofs.Stage.Patch

/-!
# The name that a class is treated by

Before a class is renamed, the pipeline computes the name it will have, by which it finds the row of access
changes. The name that is written comes another way: the renaming stage redirects the slot of the pool that
names the class, the patching stage runs behind it, and the writer reads the name from the pool that it
encodes. Both ways lead to the same name, which is also the one that a reader finds in the bytes.

A class constant may also name an array. A class whose name looks like one is renamed as an array would be,
so the names are only compared for other classes.
-/

set_option autoImplicit false

namespace Relabel

/-! ## Renaming alone -/

namespace Renamer

variable {bytes : Bytes} {f : ClassFile} {h : Hierarchy} {flags : ReaderFlags} {s s' : Renamer} {m : ClassModel}

/-- Renaming a class redirects its pool, and leaves the header to point where it pointed. -/
theorem header_of_read (hf : ClassFile.ofBytes bytes = .ok f)
    (hr : ClassModel.read f [stage h] flags s = .ok m s') : m.header = f.header := by
  obtain ⟨header, arrived, pool, ⟨-, x₁, -, hheader, -⟩, rfl⟩ := ClassModel.deliver_sink_eq_ok.mp hr
  rw [f.header_events, f.pool_events, Stage.thread_one] at hheader
  rw [ClassModel.header_collect]
  exact (entered_of_onHeader hf hheader).1

/-- The renamed class is called by the image of its name, in a pool that can be written and read again. -/
theorem className_of_read (hf : ClassFile.ofBytes bytes = .ok f)
    (hr : ClassModel.read f [stage h] flags s = .ok m s') {name : String} (hname : f.className = .ok name) :
    m.pool.WellFormed ∧ ∃ newName, h.renames.classes.translateType .toSource name = .ok newName ∧
      m.className = .ok newName := by
  obtain ⟨hentered, -⟩ := modelImage_of_read hf hr
  have hread : s'.asRead.className f.header.thisClass = .ok name := by
    rw [hentered.asRead]
    exact hname
  obtain ⟨newName, htranslate, hnew⟩ := hentered.redirected.className hread
  refine ⟨hentered.wellFormed, newName, htranslate, ?_⟩
  rw [ClassModel.className, header_of_read hf hr]
  exact hnew

end Renamer

/-- A class constant that does not name an array is translated as the name of a class. -/
theorem ClassNames.translateType_of_class {names : ClassNames} {name : String}
    (hname : name.toList.head? ≠ some '[') : names.translateType .toSource name = .ok (names.map name) := by
  rw [translateType, Descriptor.renameType, if_neg hname]
  rfl

/-! ## The stages of a remapping -/

/-- The part of the state that the renaming stage keeps. -/
def RemapState.onRenamer : Lens RemapState Renamer := ⟨RemapState.renamer, fun r s => { s with renamer := r }⟩

/-- The part of the state that the access stage keeps. -/
def RemapState.onPatched : Lens RemapState Nat := ⟨RemapState.patched, fun n s => { s with patched := n }⟩

theorem RemapState.apart : onRenamer.Apart onPatched where
  left := ⟨fun _ _ => rfl, fun _ => rfl, fun _ _ _ => rfl⟩
  right := ⟨fun _ _ => rfl, fun _ => rfl, fun _ _ _ => rfl⟩
  comm _ _ _ := rfl

namespace Pipeline

open RemapState (onRenamer onPatched)

/-- The access stage for the classes of a name: there is one exactly if there is a row for the name. -/
def accessStages (renames : Renaming) (name : String) : List (Stage RemapState) :=
  (renames.accessRow? name).toList.map fun row => (Patcher.stage row).zoom onPatched

/-- The stages that a class meets which will have a name. -/
def remapStages (h : Hierarchy) (newName : String) : List (Stage RemapState) :=
  (Renamer.stage h).zoom onRenamer :: accessStages h.renames newName

variable {h : Hierarchy}

/-- A class is always renamed, and patched if there is a row for the name that it will have. -/
theorem applicable_remapPipeline (h : Hierarchy) (name : String) : (remapPipeline h).applicable name
    = Transformer.rename h onRenamer :: if (h.renames.accessRow? (h.renames.classes.map name)).isSome
        then [Transformer.patch h.renames onPatched] else [] := by
  show [Transformer.rename h onRenamer, Transformer.patch h.renames onPatched].filter
    (fun t => t.appliesTo name (h.renames.classes.map name)) = _
  rw [List.filter_cons, if_pos (show (Transformer.rename h onRenamer).appliesTo _ _ = true from rfl),
    List.filter_cons, List.filter_nil]
  rfl

theorem makeStages_remapPipeline (h : Hierarchy) (name : String) :
    Transformer.makeStages name ((remapPipeline h).newName name) [] ((remapPipeline h).applicable name)
      = pure (remapStages h (h.renames.classes.map name)) := by
  show Transformer.makeStages name (h.renames.classes.map name) [] _ = _
  rw [applicable_remapPipeline]
  cases hrow : h.renames.accessRow? (h.renames.classes.map name) with
  | none =>
    simp only [Option.isSome_none, Bool.false_eq_true, if_false, Transformer.makeStages, Transformer.rename,
      pure_bind, remapStages, accessStages, hrow]
    rfl
  | some row =>
    simp only [Option.isSome_some, if_true, Transformer.makeStages, Transformer.rename, Transformer.patch,
      pure_bind, remapStages, accessStages, hrow]
    rfl

/-- Up to flags, a class comes out as it does when it is only renamed. -/
theorem read_remapStages {f : ClassFile} {newName : String} {flags : ReaderFlags} {m : ClassModel}
    {s s' : RemapState} (hr : ClassModel.read f (remapStages h newName) flags s = .ok m s') :
    ∃ m₀ r, ClassModel.read f [Renamer.stage h] flags s.renamer = .ok m₀ r ∧
      m.withoutFlags = m₀.withoutFlags := by
  unfold remapStages accessStages at hr
  cases hrow : h.renames.accessRow? newName with
  | none =>
    rw [hrow] at hr
    obtain ⟨header, arrived, pool, harrives, rfl⟩ := ClassModel.deliver_sink_eq_ok.mp hr
    have hone : (f.events flags).Arrives ([Renamer.stage h].map (Stage.zoom onRenamer)) s header arrived pool s' :=
      harrives
    obtain ⟨r, halone, -⟩ := (ClassEvents.arrives_zoom RemapState.apart.left).mp hone
    exact ⟨_, r, ClassModel.deliver_sink_eq_ok.mpr ⟨header, arrived, pool, halone, rfl⟩, rfl⟩
  | some row =>
    rw [hrow] at hr
    exact Patcher.withoutFlags_of_deliver RemapState.apart hr

/-! ## The names -/

/-- A class that came through was renamed, and patched as the name says that it will have. Patching moves no name,
so it is called as renaming alone calls it. -/
theorem read_of_transform {bytes : Bytes} {s s' : RemapState} {x : TransformedClass}
    (hx : (remapPipeline h).transform bytes s = .ok x s') :
    ∃ f m, ClassFile.ofBytes bytes = .ok f ∧ f.className = .ok x.inputName ∧
      ClassModel.read f (remapStages h (h.renames.classes.map x.inputName)) x.readerFlags s = .ok m s' ∧
      m.toBytes = .ok x.bytes ∧ h.renames.classes.translateType .toSource x.inputName = .ok x.name ∧
      ∃ f', ClassFile.ofBytes x.bytes = .ok f' ∧ f'.className = .ok x.name := by
  obtain ⟨f, name, hf, hclass⟩ := exists_file hx
  have hsome : (remapPipeline h).applicable name ≠ [] := by
    rw [applicable_remapPipeline]
    exact List.cons_ne_nil _ _
  have hstages : ∀ u ∈ (remapPipeline h).applicable name, u.needsModel = false := by
    intro u hu
    rcases List.mem_cons.mp (List.mem_of_mem_filter hu) with rfl | hu
    · rfl
    · rw [List.mem_singleton.mp hu]
      rfl
  obtain ⟨m, written, out, hreceived, hwritten, hout, rfl⟩ := (transform_stages hf hclass hsome hstages).mp hx
  obtain ⟨stages, s₀, hmake, hread⟩ := (received_eq_ok hf hclass).mp hreceived
  rw [makeStages_remapPipeline] at hmake
  obtain ⟨rfl, rfl⟩ := Effect.pure_eq_ok.mp hmake
  obtain ⟨m₀, r, hrenamed, hsame⟩ := read_remapStages hread
  obtain ⟨hwell, newName, htranslate, hnew⟩ := Renamer.className_of_read hf hrenamed hclass
  have hcalled : m.className = .ok newName := by
    have hblank (m : ClassModel) : m.className = m.withoutFlags.className := rfl
    rw [hblank, hsame, ← hblank, hnew]
  obtain rfl : newName = written := Except.ok.inj (hcalled.symm.trans hwritten)
  have hpool : m.pool.WellFormed := by
    have hblank (m : ClassModel) : m.pool = m.withoutFlags.pool := rfl
    rw [hblank, hsame, ← hblank]
    exact hwell
  obtain ⟨f', hf', -, -, hname', -⟩ := ClassModel.ofBytes_of_toBytes hpool hwritten hout
  exact ⟨f, m, hf, hclass, hread, hout, htranslate, f', hf', hname'⟩

/-- **A class is placed and patched by the name inside its bytes.** For every class that comes through, unless
its name looks like an array: the name it was written under is the image of its name, which is the name that
the pipeline computed before; the bytes are a class file that bears it; and the class was renamed and then
patched with the row that there is for this name, or only renamed if there is none. -/
theorem transform_names {bytes : Bytes} {s s' : RemapState} {x : TransformedClass}
    (hx : (remapPipeline h).transform bytes s = .ok x s') (hname : x.inputName.toList.head? ≠ some '[') :
    x.name = h.renames.classes.map x.inputName ∧ x.name = (remapPipeline h).newName x.inputName ∧
    (∃ f', ClassFile.ofBytes x.bytes = .ok f' ∧ f'.className = .ok x.name) ∧
    (remapPipeline h).applicable x.inputName = (Transformer.rename h onRenamer ::
      if (h.renames.accessRow? x.name).isSome then [Transformer.patch h.renames onPatched] else []) ∧
    ∃ f m, ClassFile.ofBytes bytes = .ok f ∧ f.className = .ok x.inputName ∧
      ClassModel.read f (remapStages h x.name) x.readerFlags s = .ok m s' ∧ m.toBytes = .ok x.bytes := by
  obtain ⟨f, m, hf, hclass, hread, hout, htranslate, hfile⟩ := read_of_transform hx
  have hmap : x.name = h.renames.classes.map x.inputName := by
    rw [ClassNames.translateType_of_class hname] at htranslate
    exact (Except.ok.inj htranslate).symm
  rw [← hmap] at hread
  refine ⟨hmap, hmap, hfile, ?_, f, m, hf, hclass, hread, hout⟩
  rw [applicable_remapPipeline, hmap]

/-- A final class `A` with a private field `a` of type `int`. -/
def movedBytes : Bytes :=
  [0xCA, 0xFE, 0xBA, 0xBE, 0, 0, 0, 52, 0, 5, 7, 0, 2, 1, 0, 1, 65, 1, 0, 1, 97, 1, 0, 1, 73,
    0, 48, 0, 1, 0, 0, 0, 0, 0, 1, 0, 2, 0, 3, 0, 4, 0, 0, 0, 0, 0, 0]

/-- Makes a class public, and its field `a` visible to subclasses. -/
def movedRow : AccessRow :=
  ((∅ : AccessRow).insert "" ⟨.ofAll, true⟩).insert "a" ⟨.ofSubclasses, false⟩

/-- `A` is called `B`, and `B` is patched. -/
def movedHierarchy : Hierarchy where
  renames :=
    { classes := ClassNames.empty.insert "A" "B"
      methods := ∅
      fields := ∅
      access := (∅ : Dict AccessRow).insert "B" movedRow }
  provider := .ofFiles ∅

/-- A public class `B` with a field `a` that subclasses see. -/
def movedOutput : TransformedClass :=
  ⟨"A", "B", [0xCA, 0xFE, 0xBA, 0xBE, 0, 0, 0, 52, 0, 6, 7, 0, 5, 1, 0, 1, 65, 1, 0, 1, 97, 1, 0, 1, 73,
    1, 0, 1, 66, 0, 33, 0, 1, 0, 0, 0, 0, 0, 1, 0, 4, 0, 3, 0, 4, 0, 0, 0, 0, 0, 0], true, .expandFrames, .none⟩

def movedState : RemapState :=
  ((remapPipeline movedHierarchy).transform movedBytes).after ⟨.ofResolver .empty, 0⟩

theorem transform_moved :
    (remapPipeline movedHierarchy).transform movedBytes ⟨.ofResolver .empty, 0⟩ = .ok movedOutput movedState :=
  Effect.eq_ok_of_outcome (by decide +kernel)

/-- The class is found and patched under the name `B`, which is the name in its bytes. -/
theorem transform_names_moved :
    (remapPipeline movedHierarchy).transform movedBytes ⟨.ofResolver .empty, 0⟩ = .ok movedOutput movedState ∧
    movedOutput.inputName.toList.head? ≠ some '[' ∧
    (∃ f', ClassFile.ofBytes movedOutput.bytes = .ok f' ∧ f'.className = .ok "B") ∧
    ∃ f m, ClassFile.ofBytes movedBytes = .ok f ∧ ClassModel.read f (remapStages movedHierarchy "B") .expandFrames
      ⟨.ofResolver .empty, 0⟩ = .ok m movedState ∧ m.toBytes = .ok movedOutput.bytes := by
  have hname : movedOutput.inputName.toList.head? ≠ some '[' := by decide
  obtain ⟨-, -, hfile, -, f, m, hf, -, hread, hout⟩ := transform_names transform_moved hname
  exact ⟨transform_moved, hname, hfile, f, m, hf, hread, hout⟩

end Pipeline

end Relabel
