import Relabel.Proofs.Type.Descriptor
import Relabel.Proofs.Type.Reading

/-!
# Signatures are printed as they were read

A text that is read as a signature is the spelling of the tree that was read, and no other tree has that spelling.

What renaming does is said of signatures alone. A nested class is renamed by its full name, so what has to
stay the same for a signature to stay are the names of all classes along the way: `classes` lists them.
-/

set_option autoImplicit false

namespace Relabel

namespace Signature

/-- **A signature is printed as it was read.** -/
theorem toString_of_ofString {text : String} {s : Signature} (h : ofString text = .ok s) : s.toString = text :=
  (ofString_eq_ok.mp h).1.2

end Signature

/-! ## Renaming -/

mutual

/-- The full names of the classes of a type. -/
def TypeSignature.classes : TypeSignature → List String
  | .primitive _ => []
  | .variable _ => []
  | .classType name arguments nested =>
    name :: (TypeArgument.optionClasses arguments ++ ClassSegment.listClasses name nested)
  | .array _ element => element.classes

/-- The full names of the classes of a type argument. -/
def TypeArgument.classes : TypeArgument → List String
  | .wildcard => []
  | .bounded _ bound => bound.classes
  | .exact type => type.classes

/-- The full names of the classes of type arguments. -/
def TypeArgument.listClasses : List TypeArgument → List String
  | [] => []
  | a :: rest => a.classes ++ TypeArgument.listClasses rest

/-- The full names of the classes of optional type arguments. -/
def TypeArgument.optionClasses : Option (List TypeArgument) → List String
  | none => []
  | some arguments => TypeArgument.listClasses arguments

/-- The full names of the classes of segments nested in the class with the full name `outer`. -/
def ClassSegment.listClasses (outer : String) : List ClassSegment → List String
  | [] => []
  | ⟨name, arguments⟩ :: rest =>
    (outer ++ "$" ++ name)
      :: (TypeArgument.optionClasses arguments ++ ClassSegment.listClasses (outer ++ "$" ++ name) rest)

end

namespace Signature

/-- The full names of the classes of a signature. -/
def classes (s : Signature) : List String :=
  (s.parameters?.getD []).flatMap (fun p => p.bounds.flatMap fun b => (b.map TypeSignature.classes).getD [])
    ++ match s.body with
      | .method parameters result? throws =>
        parameters.flatMap TypeSignature.classes ++ (result?.map TypeSignature.classes).getD []
          ++ throws.flatMap TypeSignature.classes
      | .types ts => ts.flatMap TypeSignature.classes

end Signature

section

variable {f : String → String}

theorem segmentName_of_fixed {outer name : String} (houter : f outer = outer)
    (hfull : f (outer ++ "$" ++ name) = outer ++ "$" ++ name) :
    segmentName f outer (outer ++ "$" ++ name) = name := by
  have hstrip : Text.stripPrefix? (f outer ++ "$") (f (outer ++ "$" ++ name)) = some name := by
    rw [Text.stripPrefix?_eq_some, houter, hfull]
  simp only [segmentName, hstrip]

mutual

theorem TypeSignature.rename_of_fixed : (t : TypeSignature) → (∀ c ∈ t.classes, f c = c) → t.rename f = t
  | .primitive _, _ => rfl
  | .variable _, _ => rfl
  | .classType name arguments nested, h => by
    have hname : f name = name := h name List.mem_cons_self
    have harguments := TypeArgument.renameOption_of_fixed arguments fun c hc =>
      h c (List.mem_cons_of_mem _ (List.mem_append_left _ hc))
    have hnested := ClassSegment.renameList_of_fixed name nested hname fun c hc =>
      h c (List.mem_cons_of_mem _ (List.mem_append_right _ hc))
    rw [TypeSignature.rename, hname, harguments, hnested]
  | .array _ element, h => congrArg _ (TypeSignature.rename_of_fixed element h)

theorem TypeArgument.rename_of_fixed : (a : TypeArgument) → (∀ c ∈ a.classes, f c = c) → a.rename f = a
  | .wildcard, _ => rfl
  | .bounded _ bound, h => congrArg _ (TypeSignature.rename_of_fixed bound h)
  | .exact type, h => congrArg _ (TypeSignature.rename_of_fixed type h)

theorem TypeArgument.renameList_of_fixed : (as : List TypeArgument) →
    (∀ c ∈ TypeArgument.listClasses as, f c = c) → TypeArgument.renameList f as = as
  | [], _ => rfl
  | a :: rest, h => by
    have ha := TypeArgument.rename_of_fixed a fun c hc => h c (List.mem_append_left _ hc)
    have hrest := TypeArgument.renameList_of_fixed rest fun c hc => h c (List.mem_append_right _ hc)
    rw [TypeArgument.renameList, ha, hrest]

theorem TypeArgument.renameOption_of_fixed : (as? : Option (List TypeArgument)) →
    (∀ c ∈ TypeArgument.optionClasses as?, f c = c) → TypeArgument.renameOption f as? = as?
  | none, _ => rfl
  | some as, h => congrArg some (TypeArgument.renameList_of_fixed as h)

theorem ClassSegment.renameList_of_fixed (outer : String) : (ss : List ClassSegment) → f outer = outer →
    (∀ c ∈ ClassSegment.listClasses outer ss, f c = c) → ClassSegment.renameList f outer ss = ss
  | [], _, _ => rfl
  | ⟨name, arguments⟩ :: rest, houter, h => by
    have hfull : f (outer ++ "$" ++ name) = outer ++ "$" ++ name := h _ List.mem_cons_self
    have harguments := TypeArgument.renameOption_of_fixed arguments fun c hc =>
      h c (List.mem_cons_of_mem _ (List.mem_append_left _ hc))
    have hrest := ClassSegment.renameList_of_fixed _ rest hfull fun c hc =>
      h c (List.mem_cons_of_mem _ (List.mem_append_right _ hc))
    rw [ClassSegment.renameList, segmentName_of_fixed houter hfull, harguments, hrest]

end

theorem map_rename_of_fixed {ts : List TypeSignature} (h : ∀ c ∈ ts.flatMap TypeSignature.classes, f c = c) :
    ts.map (TypeSignature.rename f) = ts := by
  have hone (t : TypeSignature) (ht : t ∈ ts) : t.rename f = id t :=
    t.rename_of_fixed fun c hc => h c (List.mem_flatMap.mpr ⟨t, ht, hc⟩)
  rw [List.map_congr_left hone, List.map_id]

theorem optionMap_rename_of_fixed {t? : Option TypeSignature}
    (h : ∀ c ∈ (t?.map TypeSignature.classes).getD [], f c = c) : t?.map (TypeSignature.rename f) = t? := by
  cases t? with
  | none => rfl
  | some t => exact congrArg some (t.rename_of_fixed h)

theorem TypeParameter.rename_of_fixed {p : TypeParameter}
    (h : ∀ c ∈ p.bounds.flatMap fun b => (b.map TypeSignature.classes).getD [], f c = c) : p.rename f = p := by
  have hone (b : Option TypeSignature) (hb : b ∈ p.bounds) : b.map (TypeSignature.rename f) = id b :=
    optionMap_rename_of_fixed fun c hc => h c (List.mem_flatMap.mpr ⟨b, hb, hc⟩)
  rw [TypeParameter.rename, List.map_congr_left hone, List.map_id]

namespace Signature

theorem rename_of_fixed {s : Signature} (h : ∀ c ∈ s.classes, f c = c) : s.rename f = s := by
  obtain ⟨parameters?, body⟩ := s
  have hparameters : parameters?.map (fun ps => ps.map (·.rename f)) = parameters? := by
    cases parameters? with
    | none => rfl
    | some ps =>
      have hone (p : TypeParameter) (hp : p ∈ ps) : p.rename f = id p :=
        TypeParameter.rename_of_fixed fun c hc => h c (List.mem_append_left _ (List.mem_flatMap.mpr ⟨p, hp, hc⟩))
      rw [Option.map_some, List.map_congr_left hone, List.map_id]
  have hbody : body.rename f = body := by
    have hin (c : String) (hc : c ∈ _) : f c = c := h c (List.mem_append_right _ hc)
    cases body with
    | method parameters result? throws =>
      rw [SignatureBody.rename,
        map_rename_of_fixed fun c hc => hin c (List.mem_append_left _ (List.mem_append_left _ hc)),
        optionMap_rename_of_fixed fun c hc => hin c (List.mem_append_left _ (List.mem_append_right _ hc)),
        map_rename_of_fixed fun c hc => hin c (List.mem_append_right _ hc)]
    | types ts => rw [SignatureBody.rename, map_rename_of_fixed hin]
  rw [rename, hparameters, hbody]

/-- **A signature whose classes keep their names stays as it is.** -/
theorem renameText_of_fixed {text renamed : String} (h : renameText f text = .ok renamed)
    (hfixed : ∀ s, ofString text = .ok s → ∀ c ∈ s.classes, f c = c) : renamed = text := by
  obtain ⟨s, hs, rfl⟩ := Effect.except_map_eq_ok.mp h
  rw [rename_of_fixed (hfixed s hs), toString_of_ofString hs]

/-- The entry of a map is mentioned by its full name. -/
example : (ofString "Ljava/util/Map<TK;TV;>.Entry<TK;TV;>;").toOption.map classes
    = some ["java/util/Map", "java/util/Map$Entry"] := by decide +kernel

end Signature

end

end Relabel
