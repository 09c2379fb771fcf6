import Relabel.Proofs.Rename.Class

/-!
# Enum constants in annotations

A constant of an enum is a field of its class, and a field can be mentioned in two ways. A member reference in the
pool says its class, its name and its descriptor, and gets the name that the resolver gives. A value in an annotation
says the type and the name as two texts. Renaming the annotation changes the type and never looks at the name, so at
every depth of arrays and annotations the mention keeps the old name: it is right exactly if the field keeps its name
as well. A reference to the same field, or the declaration of the field in the same class, is written with the new name.
-/

set_option autoImplicit false

namespace Relabel

/-! ## The enum constants that a class mentions -/

/-- An enum constant in an annotation: the descriptor of its type, and its name. -/
structure EnumConstant where
  type : UInt16
  name : UInt16
  deriving DecidableEq, Repr

/-- It is the constant `constant` of the enum `owner`. -/
structure EnumConstant.Spells (pool : Pool) (c : EnumConstant) (owner constant : String) : Prop where
  type : pool.utf8 c.type = .ok ("L" ++ owner ++ ";")
  name : pool.utf8 c.name = .ok constant

/-- The enum constant that a value is. -/
def ElementValue.enumConstants : ElementValue → List EnumConstant
  | .enum type name => [⟨type, name⟩]
  | _ => []

/-- The enum constants in the values of an element of the body, at every depth. -/
def ClassItem.enumConstants (item : ClassItem) : List EnumConstant :=
  item.within.flatMap fun a => a.info.values.flatMap ElementValue.enumConstants

namespace Renamer

/-! ## Their images -/

/-- An enum constant and its image: its type is renamed, and its name stays. -/
structure EnumImage (names : ClassNames) (read : Pool) (t : Renamer × Pool) (c c' : EnumConstant) : Prop where
  type : TextImage (names.translateField .toSource) read t c.type c'.type
  name : c'.name = c.name

variable {h : Hierarchy} {read : Pool} {t : Renamer × Pool}

theorem ValueImage.enumConstants {names : ClassNames} {v v' : ElementValue} (himage : ValueImage names read t v v') :
    List.Forall₂ (EnumImage names read t) v.enumConstants v'.enumConstants := by
  cases himage with
  | «enum» _ htype => exact .cons ⟨htype, rfl⟩ .nil
  | _ => exact .nil

theorem ItemImage.enumConstants {item item' : ClassItem} (himage : ItemImage h read t item item') :
    List.Forall₂ (EnumImage h.renames.classes read t) item.enumConstants item'.enumConstants :=
  List.rel_flatMap himage.within fun _ _ ha => List.rel_flatMap ha.values fun _ _ hv => hv.enumConstants

/-! ## Mentions and names -/

/-- What becomes of the mention of an enum constant. Its type is renamed and its name stays, so it has the name that
the resolver gives to the field, in whatever state, just if this is the old name. -/
structure EnumStays (h : Hierarchy) (resolver : Resolver) (asRead written : Pool) (c c' : EnumConstant) : Prop where
  name : c'.name = c.name
  spelled : ∀ owner constant, c.Spells asRead owner constant → ∃ type',
    h.renames.classes.translateField .toSource ("L" ++ owner ++ ";") = .ok type' ∧
    written.utf8 c'.type = .ok type' ∧ written.utf8 c'.name = .ok constant
  follows : ∀ owner constant newName, c.Spells asRead owner constant → ∀ r r',
    h.fieldName owner constant ("L" ++ owner ++ ";") r = .ok newName r' →
    (written.utf8 c'.name = .ok newName ↔ newName = constant)
  /-- A reference to the same field has the type of the mention, and the name that the resolver gives. -/
  reference : ∀ owner constant, c.Spells asRead owner constant → ∀ (i o nt : UInt16),
    asRead.slots[i.toNat]? = some (.member .field o nt) →
    asRead.memberRef i = .ok ⟨owner, constant, "L" ++ owner ++ ";"⟩ → ∃ newOwner newName type',
      h.renames.classes.translateType .toSource owner = .ok newOwner ∧
      h.Gives resolver .field owner constant ("L" ++ owner ++ ";") newName ∧
      written.memberRef i = .ok ⟨newOwner, newName, type'⟩ ∧ written.utf8 c'.type = .ok type' ∧
      (written.utf8 c'.name = .ok newName ↔ newName = constant)

/-- A field of the class is called as the resolver calls it. -/
def DeclarationFollows (h : Hierarchy) (resolver : Resolver) (owner : String) (asRead written : Pool)
    (item item' : ClassItem) : Prop :=
  ∀ m name descriptor, item = .field m → asRead.utf8 m.name = .ok name → asRead.utf8 m.descriptor = .ok descriptor →
    ∃ m' newName, item' = .field m' ∧ h.Gives resolver .field owner name descriptor newName ∧
      written.utf8 m'.name = .ok newName

theorem EnumImage.stays (ht : Redirected h t) {c c' : EnumConstant} (himage : EnumImage h.renames.classes t.2 t c c') :
    EnumStays h t.1.resolver t.1.asRead t.2 c c' := by
  have hspelled (owner constant : String) (hc : c.Spells t.1.asRead owner constant) : ∃ type',
      h.renames.classes.translateField .toSource ("L" ++ owner ++ ";") = .ok type' ∧
      t.2.utf8 c'.type = .ok type' ∧ t.2.utf8 c'.name = .ok constant := by
    obtain ⟨text, type', htext, htype, hreplaces⟩ := himage.type
    obtain rfl := Except.ok.inj ((ht.changes.utf8 hc.type).symm.trans htext)
    rw [himage.name]
    exact ⟨type', htype, hreplaces.1, ht.changes.utf8 hc.name⟩
  have hfollows (owner constant newName : String) (hc : c.Spells t.1.asRead owner constant) :
      t.2.utf8 c'.name = .ok newName ↔ newName = constant := by
    obtain ⟨-, -, -, hname⟩ := hspelled owner constant hc
    rw [hname, Except.ok.injEq]
    exact eq_comm
  refine ⟨himage.name, hspelled, fun owner constant newName hc _ _ _ => hfollows owner constant newName hc, ?_⟩
  intro owner constant hc i o nt hslot href
  obtain ⟨type', htype, htype', -⟩ := hspelled owner constant hc
  obtain ⟨m, newOwner, newName, newDescriptor, hm, howner, hgives, hdescriptor, -, hwritten⟩ :=
    ht.poolImage.member i .field o nt hslot
  obtain rfl := Except.ok.inj (href.symm.trans hm)
  obtain rfl := Except.ok.inj (htype.symm.trans hdescriptor)
  exact ⟨newOwner, newName, type', howner, hgives, hwritten, htype', hfollows owner constant newName hc⟩

theorem declarationFollows_of_image (ht : Redirected h t) {item item' : ClassItem}
    (himage : ItemImage h t.2 t item item') :
    DeclarationFollows h t.1.resolver t.1.className t.1.asRead t.2 item item' := by
  intro m name descriptor hitem hname hdescriptor
  subst hitem
  cases himage with
  | @field _ m' hm =>
    obtain ⟨text, type, newName, newDescriptor, htext, htype, hgives, -, hreplaces, -⟩ := hm.names
    obtain rfl := Except.ok.inj ((ht.changes.utf8 hname).symm.trans htext)
    obtain rfl := Except.ok.inj ((ht.changes.utf8 hdescriptor).symm.trans htype)
    exact ⟨m', newName, rfl, hgives, hreplaces.1⟩

/-- **Enum constants in annotations keep their names.** If a class comes through, then its sink receives for each
mention of an enum constant, at every depth, one with the renamed type and the old name. It has the name that the
resolver gives to the field, which is the one that a reference to the field has in the pool and its declaration in the
enum, exactly if this is the old name. -/
theorem enumStays_of_deliverAll {τ : Type} {sink : Sink τ} {bytes : Bytes} {f : ClassFile}
    (hf : ClassFile.ofBytes bytes = .ok f) {flags : ReaderFlags} {x x' : τ} {s : Renamer} {s' : Renamer × Pool}
    (hd : (f.events flags).deliverAll [stage h] sink x (s, f.pool) = .ok x' s') :
    f.className = .ok s'.1.className ∧
    ∃ items, (⟨s'.2, f.header, items, none⟩ : ClassEvents).deliver ([] : List (Stage Unit)) sink x () = .ok x' () ∧
      List.Forall₂ (EnumStays h s'.1.resolver f.pool s'.2)
        ((f.events flags).items.flatMap ClassItem.enumConstants) (items.flatMap ClassItem.enumConstants) ∧
      List.Forall₂ (DeclarationFollows h s'.1.resolver s'.1.className f.pool s'.2) (f.events flags).items items := by
  obtain ⟨-, hentered, -, items, himages, hdeliver⟩ := entered_of_deliverAll hf hd
  rw [← hentered.asRead]
  have henums := List.rel_flatMap himages fun _ _ himage => himage.enumConstants
  refine ⟨hentered.className, items, hdeliver, henums.imp fun _ _ himage => himage.stays hentered.redirected, ?_⟩
  exact himages.imp fun _ _ himage => declarationFollows_of_image hentered.redirected himage

/-! ## A renamed constant -/

/-- An enum `E` with the constant `A`, which has an annotation `T` with the values `v = {@T(v = A)}`. -/
def colorBytes : Bytes :=
  [0xCA, 0xFE, 0xBA, 0xBE, 0, 0, 0, 52, 0, 8, 7, 0, 2, 1, 0, 1, 69, 1, 0, 1, 65, 1, 0, 3, 76, 69, 59,
    1, 0, 25, 82, 117, 110, 116, 105, 109, 101, 86, 105, 115, 105, 98, 108, 101, 65, 110, 110, 111, 116, 97, 116,
    105, 111, 110, 115, 1, 0, 3, 76, 84, 59, 1, 0, 1, 118, 0, 33, 0, 1, 0, 0, 0, 0,
    0, 1, 64, 25, 0, 3, 0, 4, 0, 0, 0, 0, 0, 1, 0, 5, 0, 0, 0, 23,
    0, 1, 0, 6, 0, 1, 0, 7, 91, 0, 1, 64, 0, 6, 0, 1, 0, 7, 101, 0, 4, 0, 3]

def colorFile : ClassFile := (ClassFile.ofBytes colorBytes).toOption.get (by decide +kernel)

theorem ofBytes_color : ClassFile.ofBytes colorBytes = .ok colorFile := Effect.eq_ok_get _

/-- The constant is called `RED`. -/
def colorHierarchy : Hierarchy where
  renames :=
    { classes := .empty
      methods := ∅
      fields := (∅ : Dict MemberRow).insert "E" ((∅ : Dict String).insert "A:LE;" "RED")
      access := ∅ }
  provider := .ofFiles ∅

/-- The enum when it is renamed. -/
def colorEnd : Renamer × Pool :=
  ((colorFile.events .none).deliverAll [stage colorHierarchy] ClassModel.sink .blank).after
    (.ofResolver .empty, colorFile.pool)

/-- The constant is declared with its new name, which the resolver gives, and mentioned with the old one. -/
theorem enumStays_color : (⟨4, 3⟩ : EnumConstant).Spells colorFile.pool "E" "A" ∧
    ∃ (m' : Member) (c' : EnumConstant), DeclarationFollows colorHierarchy colorEnd.1.resolver "E" colorFile.pool
        colorEnd.2 (.field ⟨0x4019, 3, 4, []⟩) (.field m') ∧
      EnumStays colorHierarchy colorEnd.1.resolver colorFile.pool colorEnd.2 ⟨4, 3⟩ c' ∧
      colorEnd.2.utf8 m'.name = .ok "RED" ∧ colorEnd.2.utf8 c'.name = .ok "A" ∧
      colorEnd.2.utf8 c'.name ≠ .ok "RED" := by
  have hspells : (⟨4, 3⟩ : EnumConstant).Spells colorFile.pool "E" "A" := ⟨by decide +kernel, by decide +kernel⟩
  have hred := Effect.eq_ok_of_outcome (e := colorHierarchy.fieldName "E" "A" ("L" ++ "E" ++ ";"))
    (s := colorEnd.1.resolver) (a := "RED") (by decide +kernel)
  obtain ⟨m, hm⟩ : ∃ m, (colorFile.events .none).deliverAll [stage colorHierarchy] ClassModel.sink .blank
      (.ofResolver .empty, colorFile.pool) = .ok m colorEnd := Effect.exists_ok_of_isSome (by decide +kernel)
  obtain ⟨-, items, -, henums, hdeclared⟩ := enumStays_of_deliverAll ofBytes_color hm
  have hmentions : (colorFile.events .none).items.flatMap ClassItem.enumConstants = [⟨4, 3⟩] := by decide +kernel
  have hfields : ∃ rest, (colorFile.events .none).items = .field ⟨0x4019, 3, 4, []⟩ :: rest := ⟨_, rfl⟩
  obtain ⟨rest, hfields⟩ := hfields
  rw [hmentions] at henums
  rw [hfields] at hdeclared
  obtain ⟨c', _, hstays, -, -⟩ := List.forall₂_cons_left_iff.mp henums
  obtain ⟨item', _, hfield, -, -⟩ := List.forall₂_cons_left_iff.mp hdeclared
  obtain ⟨m', newName, rfl, hgives, hname⟩ := hfield ⟨0x4019, 3, 4, []⟩ "A" ("L" ++ "E" ++ ";") rfl
    (by decide +kernel) (by decide +kernel)
  obtain ⟨rfl, -⟩ := EStateM.Result.ok.inj (hred.symm.trans hgives)
  obtain ⟨type', -, -, hkept⟩ := hstays.spelled "E" "A" hspells
  refine ⟨hspells, m', c', hfield, hstays, hname, hkept, ?_⟩
  intro hfollows
  exact absurd ((hstays.follows "E" "A" "RED" hspells _ _ hred).mp hfollows) (by decide)

end Renamer

end Relabel
