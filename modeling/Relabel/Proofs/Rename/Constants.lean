import Relabel.Proofs.Rename.Frame

/-!
# Renaming the pool is one substitution

Slots are redirected one after the other, in a pool that grows and that other slots share their names
with. Since the meaning of a slot is always read from the pool as it was found, and a redirected slot
points at names, which no later step touches, the outcome does not depend on the order: every slot ends
up with the image of what it meant before. `ConstantImage` is this relation for one slot, `Redirected`
says it of all of them, and both survive whatever happens to the class afterwards.
-/

set_option autoImplicit false

namespace Relabel

/-- The constants that renaming redirects. -/
def Constant.isReference : Constant → Bool
  | .classRef _ | .member _ _ _ | .methodType _ | .dynamic _ _ | .invokeDynamic _ _ => true
  | _ => false

theorem Constant.isName_of_isReference {c : Constant} (hc : c.isReference = true) : c.isName = false := by
  cases c <;> first | rfl | cases hc

/-- Translates the descriptor of a member. -/
def ClassNames.translateMember (names : ClassNames) (kind : MemberKind) :
    String → Except Error String :=
  match kind with
  | .field => names.translateField .toSource
  | .method | .interfaceMethod => names.translateMethod .toSource

namespace Pool

/-- The usable slots are those with an index. -/
theorem mem_indices {p : Pool} (hsize : p.slots.size < 65536) {i : UInt16} :
    i ∈ p.indices ↔ ∃ c, p.slots[i.toNat]? = some c ∧ c ≠ .unusable := by
  simp only [indices, List.mem_filterMap, Prod.exists, List.mem_zipIdx_iff_getElem?]
  constructor
  · rintro ⟨c, j, hj, hi⟩
    have hlt : j < p.slots.toList.length := (List.getElem?_eq_some_iff.mp hj).1
    split at hi
    · cases hi
    · next hc =>
      obtain rfl := Option.some.inj hi
      refine ⟨c, ?_, hc⟩
      rw [Array.length_toList] at hlt
      have hj' : (UInt16.ofNat j).toNat = j := UInt16.toNat_ofNat_of_lt (Nat.lt_trans hlt hsize)
      rw [hj', ← Array.getElem?_toList]
      exact hj
  · rintro ⟨c, hc, hu⟩
    exact ⟨c, i.toNat, by simpa using hc, by simp [hu]⟩

theorem nodup_indices {p : Pool} (hsize : p.slots.size < 65536) : p.indices.Nodup := by
  refine List.pairwise_filterMap.mpr (List.pairwise_iff_getElem.mpr fun i j hi hj hij => ?_)
  simp only [List.length_zipIdx, Array.length_toList] at hi hj
  simp only [List.getElem_zipIdx, Nat.zero_add]
  intro a ha b hb hab
  split at ha
  · cases ha
  split at hb
  · cases hb
  obtain rfl := Option.some.inj ha
  obtain rfl := Option.some.inj hb
  have hij' := congrArg UInt16.toNat hab
  rw [show (UInt16.ofNat i).toNat = i from UInt16.toNat_ofNat_of_lt (Nat.lt_trans hi hsize),
    show (UInt16.ofNat j).toNat = j from UInt16.toNat_ofNat_of_lt (Nat.lt_trans hj hsize)] at hij'
  omega

end Pool

namespace Renamer

open Pool (Changes)

/-! ## One slot -/

/-- What the constant `c` of slot `i` became. The owner of a member reference is a slot of its own and
is redirected on its own. -/
def ConstantImage (h : Hierarchy) (t : Renamer × Pool) (i : UInt16) : Constant → Constant → Prop
  | .classRef n, c' => ∃ n' text renamed, c' = .classRef n' ∧ t.1.asRead.utf8 n = .ok text ∧
      h.renames.classes.translateType .toSource text = .ok renamed ∧ t.2.utf8 n' = .ok renamed
  | .member kind owner _, c' => ∃ m nt' name descriptor, c' = .member kind owner nt' ∧
      t.1.asRead.memberRef i = .ok m ∧
      h.Gives t.1.resolver kind m.owner m.name m.descriptor name ∧
      h.renames.classes.translateMember kind m.descriptor = .ok descriptor ∧
      t.2.nameAndType nt' = .ok (name, descriptor)
  | .methodType d, c' => ∃ d' text renamed, c' = .methodType d' ∧ t.1.asRead.utf8 d = .ok text ∧
      h.renames.classes.translateMethod .toSource text = .ok renamed ∧ t.2.utf8 d' = .ok renamed
  | .dynamic bootstrap nt, c' => ∃ nt' name descriptor renamed, c' = .dynamic bootstrap nt' ∧
      t.1.asRead.nameAndType nt = .ok (name, descriptor) ∧
      h.renames.classes.translateField .toSource descriptor = .ok renamed ∧
      t.2.nameAndType nt' = .ok (name, renamed)
  | .invokeDynamic bootstrap nt, c' => ∃ nt' name descriptor renamed, c' = .invokeDynamic bootstrap nt' ∧
      t.1.asRead.nameAndType nt = .ok (name, descriptor) ∧
      h.renames.classes.translateMethod .toSource descriptor = .ok renamed ∧
      t.2.nameAndType nt' = .ok (name, renamed)
  | c, c' => c' = c

/-- The constant that a slot is redirected to; absent if the slot stays. -/
def newConstant (h : Hierarchy) (i : UInt16) : Renames (Option Constant) := do
  let asRead ← poolAsRead
  let names := h.renames.classes
  match ← asRead.get i with
  | .classRef name =>
    let text ← asRead.utf8 name
    let renamed ← names.translateType .toSource text
    if renamed ≠ text then
      let n ← Pass.onPool (Pool.internUtf8 renamed)
      return some (.classRef n)
    else return none
  | .member kind owner _ =>
    let m ← asRead.memberRef i
    let nt? ← renamedMember h kind m
    return nt?.map (.member kind owner)
  | .methodType descriptor =>
    let text ← asRead.utf8 descriptor
    let renamed ← names.translateMethod .toSource text
    if renamed ≠ text then
      let d ← Pass.onPool (Pool.internUtf8 renamed)
      return some (.methodType d)
    else return none
  | .dynamic bootstrap nt =>
    let (name, descriptor) ← asRead.nameAndType nt
    let renamed ← names.translateField .toSource descriptor
    if renamed ≠ descriptor then
      let nt ← Pass.onPool (Pool.internNameAndType name renamed)
      return some (.dynamic bootstrap nt)
    else return none
  | .invokeDynamic bootstrap nt =>
    let (name, descriptor) ← asRead.nameAndType nt
    let renamed ← names.translateMethod .toSource descriptor
    if renamed ≠ descriptor then
      let nt ← Pass.onPool (Pool.internNameAndType name renamed)
      return some (.invokeDynamic bootstrap nt)
    else return none
  | _ => return none

/-- Redirects a slot, if there is a constant for it. -/
def redirect (i : UInt16) : Option Constant → Renames Unit
  | some c => Pass.onPool (Pool.set i c)
  | none => pure ()

/-- Redirecting a slot is finding its new constant and then setting it. -/
theorem renameConstant_eq (h : Hierarchy) (i : UInt16) :
    renameConstant h i = newConstant h i >>= redirect i := by
  unfold renameConstant newConstant
  dsimp only
  rw [bind_assoc]
  refine bind_congr fun asRead => ?_
  rw [bind_assoc]
  refine bind_congr fun c => ?_
  cases c with
  | classRef _ | methodType _ | dynamic _ _ | invokeDynamic _ _ =>
    simp only [bind_assoc]
    refine bind_congr fun text => bind_congr fun renamed => ?_
    split
    · rw [bind_assoc]
      rfl
    · rfl
  | member kind owner nt =>
    simp only [bind_assoc, pure_bind]
    refine bind_congr fun m => bind_congr fun nt? => ?_
    cases nt? <;> rfl
  | _ => rfl

variable {h : Hierarchy} {E : Set Nat}

/-- The new constant for one with a text: its text is interned if it changed. -/
theorem leaves_newText (asRead : Pool) (f : String → Except Error String) (make : UInt16 → Constant)
    (n : UInt16) : Leaves h E (do
      let text ← asRead.utf8 n
      let renamed ← f text
      if renamed ≠ text then
        let n ← Pass.onPool (Pool.internUtf8 renamed)
        return some (make n)
      else return none) fun c? t => asRead = t.1.asRead →
        ∃ n' text renamed, c?.getD (make n) = make n' ∧ t.1.asRead.utf8 n = .ok text ∧
          f text = .ok renamed ∧ t.2.utf8 n' = .ok renamed := by
  refine ((Leaves.lift (asRead.utf8 n)).bind fun text => (Leaves.lift (f text)).bind fun renamed =>
    (?_ : Leaves h E _ fun c? t => (c? = none ∧ renamed = text) ∨
      ∃ n, c? = some (make n) ∧ t.2.utf8 n = .ok renamed)).mono ?_
  · by_cases hr : renamed = text
    · simp only [if_neg (not_not.mpr hr)]
      exact (Leaves.pure none).mono fun c? t _ hc => Or.inl ⟨hc, hr⟩
    · simp only [if_pos hr]
      refine ((leaves_internUtf8 renamed).bind fun n => Leaves.pure _).mono ?_
      rintro c? t - ⟨n, hn, hc⟩
      exact Or.inr ⟨n, hc, hn⟩
  · rintro c? t ht ⟨text, htext, renamed, hrenamed, hc⟩ rfl
    obtain ⟨rfl, rfl⟩ | ⟨n', rfl, hn'⟩ := hc
    · exact ⟨n, renamed, renamed, rfl, htext, hrenamed, ht.changes.utf8 htext⟩
    · exact ⟨n', text, renamed, rfl, htext, hrenamed, hn'⟩

/-- The new constant for one with a name and a descriptor: they are interned if the descriptor changed. -/
theorem leaves_newNameAndType (asRead : Pool) (f : String → Except Error String)
    (make : UInt16 → Constant) (nt : UInt16) : Leaves h E (do
      let (name, descriptor) ← asRead.nameAndType nt
      let renamed ← f descriptor
      if renamed ≠ descriptor then
        let nt ← Pass.onPool (Pool.internNameAndType name renamed)
        return some (make nt)
      else return none) fun c? t => asRead = t.1.asRead →
        ∃ nt' name descriptor renamed, c?.getD (make nt) = make nt' ∧
          t.1.asRead.nameAndType nt = .ok (name, descriptor) ∧ f descriptor = .ok renamed ∧
          t.2.nameAndType nt' = .ok (name, renamed) := by
  refine ((Leaves.lift (asRead.nameAndType nt)).bind fun x => (Leaves.lift (f x.2)).bind fun renamed =>
    (?_ : Leaves h E _ fun c? t => (c? = none ∧ renamed = x.2) ∨
      ∃ nt, c? = some (make nt) ∧ t.2.nameAndType nt = .ok (x.1, renamed))).mono ?_
  · by_cases hr : renamed = x.2
    · simp only [if_neg (not_not.mpr hr)]
      exact (Leaves.pure none).mono fun c? t _ hc => Or.inl ⟨hc, hr⟩
    · simp only [if_pos hr]
      refine ((leaves_internNameAndType x.1 renamed).bind fun nt => Leaves.pure _).mono ?_
      rintro c? t - ⟨nt, hnt, hc⟩
      exact Or.inr ⟨nt, hc, hnt⟩
  · rintro c? t ht ⟨⟨name, descriptor⟩, hnt, renamed, hrenamed, hc⟩ rfl
    obtain ⟨rfl, rfl⟩ | ⟨nt', rfl, hnt'⟩ := hc
    · exact ⟨nt, name, renamed, renamed, rfl, hnt, hrenamed, ht.changes.nameAndType hnt⟩
    · exact ⟨nt', name, descriptor, renamed, rfl, hnt, hrenamed, hnt'⟩

theorem leaves_renamedNameAndType (name descriptor newName newDescriptor : String) :
    Leaves h E (renamedNameAndType name descriptor newName newDescriptor) fun nt? t =>
      (nt? = none ∧ newName = name ∧ newDescriptor = descriptor) ∨
        ∃ nt, nt? = some nt ∧ t.2.nameAndType nt = .ok (newName, newDescriptor) := by
  have hintern : Leaves h E (do
      return some (← Pass.onPool (Pool.internNameAndType newName newDescriptor))) fun nt? t =>
        ∃ nt, nt? = some nt ∧ t.2.nameAndType nt = .ok (newName, newDescriptor) := by
    refine ((leaves_internNameAndType newName newDescriptor).bind fun nt => Leaves.pure _).mono ?_
    rintro _ t - ⟨nt, hnt, rfl⟩
    exact ⟨nt, rfl, hnt⟩
  unfold renamedNameAndType
  split
  · next heq => exact (Leaves.pure none).mono fun nt? t _ hnt => Or.inl ⟨hnt, heq⟩
  · split
    · refine ((leaves_count _).bind fun _ => hintern).mono ?_
      rintro nt? t - ⟨-, -, hnt⟩
      exact Or.inr hnt
    · exact hintern.mono fun nt? t _ hnt => Or.inr hnt

theorem leaves_renamedMember (h : Hierarchy) (kind : MemberKind) (m : Pool.MemberRef) :
    Leaves h E (renamedMember h kind m) fun nt? t => ∃ name descriptor,
      h.Gives t.1.resolver kind m.owner m.name m.descriptor name ∧
      h.renames.classes.translateMember kind m.descriptor = .ok descriptor ∧
      ((nt? = none ∧ name = m.name ∧ descriptor = m.descriptor) ∨
        ∃ nt, nt? = some nt ∧ t.2.nameAndType nt = .ok (name, descriptor)) := by
  have heq : renamedMember h kind m = (do
      let newName ← resolve (h.memberName kind m.owner m.name m.descriptor)
      let newDescriptor ← h.renames.classes.translateMember kind m.descriptor
      renamedNameAndType m.name m.descriptor newName newDescriptor) := by
    cases kind <;> rfl
  rw [heq]
  refine ((leaves_memberName h kind m.owner m.name m.descriptor).bind fun name =>
    (Leaves.lift (h.renames.classes.translateMember kind m.descriptor)).bind fun descriptor =>
      leaves_renamedNameAndType m.name m.descriptor name descriptor).mono ?_
  rintro nt? t - ⟨name, hname, descriptor, hdescriptor, hnt⟩
  exact ⟨name, descriptor, hname, hdescriptor, hnt⟩

theorem leaves_newMember (h : Hierarchy) (asRead : Pool) (i : UInt16) (kind : MemberKind)
    (owner nt : UInt16) : Leaves h E (do
      let m ← asRead.memberRef i
      let nt? ← renamedMember h kind m
      return nt?.map (Constant.member kind owner)) fun c? t => asRead = t.1.asRead →
        asRead.slots[i.toNat]? = some (.member kind owner nt) →
        ConstantImage h t i (.member kind owner nt) (c?.getD (.member kind owner nt)) := by
  refine ((Leaves.lift (asRead.memberRef i)).bind fun m => (leaves_renamedMember h kind m).bind fun nt? =>
    Leaves.pure _).mono ?_
  rintro _ t ht ⟨m, hm, nt?, ⟨name, descriptor, hname, hdescriptor, hnt⟩, rfl⟩ rfl hslot
  obtain ⟨rfl, rfl, rfl⟩ | ⟨nt', rfl, hnt'⟩ := hnt
  · -- Nothing changed, so the old name and descriptor are the new ones.
    obtain ⟨kind', owner', nt', hslot', -, hnt'⟩ := Pool.memberRef_eq_ok.mp hm
    rw [hslot] at hslot'
    obtain ⟨-, -, rfl⟩ := Constant.member.inj (Option.some.inj hslot')
    exact ⟨m, nt, m.name, m.descriptor, rfl, hm, hname, hdescriptor, ht.changes.nameAndType hnt'⟩
  · exact ⟨m, nt', name, descriptor, rfl, hm, hname, hdescriptor, hnt'⟩

/-- **One slot.** The new constant of a slot is the image of the constant that was read. -/
theorem leaves_newConstant (h : Hierarchy) (i : UInt16) :
    Leaves h E (newConstant h i) fun c? t => ∃ c, t.1.asRead.slots[i.toNat]? = some c ∧
      ConstantImage h t i c (c?.getD c) ∧ (c? = none ∨ c.isReference = true) := by
  unfold newConstant
  refine (leaves_poolAsRead.bind fun asRead => (Leaves.lift (asRead.get i)).bind fun c =>
    (?_ : Leaves h E _ fun c? t => asRead = t.1.asRead → asRead.slots[i.toNat]? = some c →
      ConstantImage h t i c (c?.getD c) ∧ (c? = none ∨ c.isReference = true))).mono ?_
  · cases c with
    | classRef n =>
      exact (leaves_newText asRead _ .classRef n).mono fun c? t _ hc hr _ => ⟨hc hr, Or.inr rfl⟩
    | methodType d =>
      exact (leaves_newText asRead _ .methodType d).mono fun c? t _ hc hr _ => ⟨hc hr, Or.inr rfl⟩
    | dynamic bootstrap nt =>
      exact (leaves_newNameAndType asRead _ (.dynamic bootstrap) nt).mono fun c? t _ hc hr _ =>
        ⟨hc hr, Or.inr rfl⟩
    | invokeDynamic bootstrap nt =>
      exact (leaves_newNameAndType asRead _ (.invokeDynamic bootstrap) nt).mono fun c? t _ hc hr _ =>
        ⟨hc hr, Or.inr rfl⟩
    | member kind owner nt =>
      exact (leaves_newMember h asRead i kind owner nt).mono fun c? t _ hc hr hs => ⟨hc hr hs, Or.inr rfl⟩
    | _ =>
      refine (Leaves.pure none).mono fun c? t _ hc _ _ => ⟨?_, Or.inl hc⟩
      rw [hc]
      exact rfl
  · rintro c? t - ⟨asRead, rfl, c, hget, himage⟩
    have hslot := (Pool.get_eq_ok.mp hget).1
    exact ⟨c, hslot, himage rfl hslot⟩

/-- What a slot became stays so, since it points at names. -/
theorem ConstantImage.evolves {h : Hierarchy} {D : Set Nat} {s t : Renamer × Pool} {i : UInt16}
    {c c' : Constant} (hc : ConstantImage h s i c c') (he : Evolves h D s t) :
    ConstantImage h t i c c' := by
  cases c with
  | classRef n | methodType n =>
    obtain ⟨n', text, renamed, rfl, htext, hrenamed, hn'⟩ := hc
    exact ⟨n', text, renamed, rfl, he.asRead ▸ htext, hrenamed, he.pool.utf8 hn'⟩
  | member kind owner nt =>
    obtain ⟨m, nt', name, descriptor, rfl, hm, hname, hdescriptor, hnt'⟩ := hc
    exact ⟨m, nt', name, descriptor, rfl, he.asRead ▸ hm,
      hname.grows he.resolver.grows (Set.notMem_empty m.owner), hdescriptor, he.pool.nameAndType hnt'⟩
  | dynamic bootstrap nt | invokeDynamic bootstrap nt =>
    obtain ⟨nt', name, descriptor, renamed, rfl, hnt, hrenamed, hnt'⟩ := hc
    exact ⟨nt', name, descriptor, renamed, rfl, he.asRead ▸ hnt, hrenamed, he.pool.nameAndType hnt'⟩
  | _ => exact hc

theorem ConstantImage.isReference {h : Hierarchy} {t : Renamer × Pool} {i : UInt16} {c c' : Constant}
    (hc : ConstantImage h t i c c') (hr : c.isReference = true) : c'.isReference = true := by
  cases c with
  | classRef _ | methodType _ =>
    obtain ⟨_, _, _, rfl, -⟩ := hc
    rfl
  | member _ _ _ | dynamic _ _ | invokeDynamic _ _ =>
    obtain ⟨_, _, _, _, rfl, -⟩ := hc
    rfl
  | _ => cases hr

/-- Redirecting a slot that was read as a reference, to a reference. -/
theorem evolves_redirect (h : Hierarchy) {s : Renamer × Pool} {i : UInt16} {c c' : Constant} (hs : Ready s)
    (hslot : s.1.asRead.slots[i.toNat]? = some c) (hc : c.isReference = true)
    (hc' : c'.isReference = true) :
    Evolves h {i.toNat} s ((redirect i (some c')).after s) ∧
      ∀ s', redirect i (some c') s = .ok () s' → s'.2.slots[i.toNat]? = some c' := by
  -- The slot may have been redirected before, but a name it never was.
  have hlt : i.toNat < s.1.asRead.slots.size := (Array.getElem?_eq_some_iff.mp hslot).1
  have hlt' : i.toNat < s.2.slots.size := Nat.lt_of_lt_of_le hlt hs.changes.size_le
  have hnow : s.2.slots[i.toNat]? = some s.2.slots[i.toNat] := Array.getElem?_eq_getElem hlt'
  have hnowName : (s.2.slots[i.toNat]).isName = false := by
    refine Bool.eq_false_iff.mpr fun hname => ?_
    have hold := (hs.changes.names _ hlt _ hname).mp hnow
    rw [hslot] at hold
    obtain rfl := Option.some.inj hold
    rw [Constant.isName_of_isReference hc] at hname
    cases hname
  have hindexed := hs.indexed.set i c'
  have hafter : (redirect i (some c')).after s = (s.1, (Pool.set i c').after s.2) :=
    Effect.after_onSecond (Pool.set i c') s
  rw [hafter]
  have hset {q : Pool} (hq : Pool.set i c' s.2 = .ok () q) :=
    Pool.changes_set hnow hnowName (Constant.isName_of_isReference hc') hq
  have husable : c' ≠ .unusable := by
    rintro rfl
    cases hc'
  refine ⟨⟨rfl, rfl, .refl, ?_, fun _ => hindexed, Pool.WellFormed.set husable i s.2⟩, fun s' hs' => ?_⟩
  · cases hq : Pool.set i c' s.2 with
    | ok u q =>
      rw [Effect.after_of_ok hq]
      exact (hset hq).1
    | error e q =>
      rw [Effect.after_of_error hq, Pool.eq_of_set_error hq]
      exact Changes.refl _ _
  · exact (hset (Effect.onSecond_eq_ok.mp hs').1).2

/-- One step changes one slot, also when it fails. -/
theorem evolves_renameConstant (h : Hierarchy) (i : UInt16) {s : Renamer × Pool} (hs : Ready s) :
    Evolves h {i.toNat} s ((renameConstant h i).after s) := by
  obtain ⟨hnew, himage⟩ := leaves_newConstant (E := ∅) h i s hs
  rw [renameConstant_eq]
  cases hc : newConstant h i s with
  | error e s₁ =>
    rw [Effect.after_bind_of_error hc]
    rw [Effect.after_of_error hc] at hnew
    exact hnew.mono (Set.empty_subset _)
  | ok c? s₁ =>
    rw [Effect.after_bind_of_ok hc]
    rw [Effect.after_of_ok hc] at hnew
    obtain ⟨c, hslot, hci, hr⟩ := himage c? s₁ hc s₁ (Evolves.refl ∅ s₁)
    cases c? with
    | none => exact hnew.mono (Set.empty_subset _)
    | some c' =>
      have hr := hr.resolve_left (by simp)
      have hstep := (evolves_redirect h (hs.evolves hnew) hslot hr (hci.isReference hr)).1
      simpa using hnew.trans hstep

/-- **One step.** A slot that is as it was read becomes its image. -/
theorem image_of_renameConstant {h : Hierarchy} {i : UInt16} {s s' : Renamer × Pool} (hs : Ready s)
    (hslot : s.2.slots[i.toNat]? = s.1.asRead.slots[i.toNat]?)
    (hr : renameConstant h i s = .ok () s') :
    ∃ c c', s'.1.asRead.slots[i.toNat]? = some c ∧ s'.2.slots[i.toNat]? = some c' ∧
      ConstantImage h s' i c c' := by
  rw [renameConstant_eq] at hr
  obtain ⟨c?, s₁, hnew, hredirect⟩ := Effect.bind_eq_ok.mp hr
  obtain ⟨hevolves, himage⟩ := leaves_newConstant (E := ∅) h i s hs
  rw [Effect.after_of_ok hnew] at hevolves
  obtain ⟨c, hc, hci, href⟩ := himage c? s₁ hnew s₁ (Evolves.refl ∅ s₁)
  cases c? with
  | none =>
    obtain ⟨-, rfl⟩ := EStateM.Result.ok.inj hredirect
    refine ⟨c, c, hc, hevolves.pool.slot_of_notMem (Set.notMem_empty _) ?_, hci⟩
    rw [hslot, ← hevolves.asRead, hc]
  | some c' =>
    have hci : ConstantImage h s₁ i c c' := hci
    have href := href.resolve_left (by simp)
    obtain ⟨hstep, hset⟩ := evolves_redirect h (hs.evolves hevolves) hc href (hci.isReference href)
    rw [Effect.after_of_ok hredirect] at hstep
    exact ⟨c, c', by rw [hstep.asRead, hc], hset s' hredirect, hci.evolves hstep⟩

/-! ## All slots -/

def places (indices : List UInt16) : Set Nat :=
  { j | ∃ i ∈ indices, i.toNat = j }

theorem toNat_mem_places {indices : List UInt16} {i : UInt16} :
    i.toNat ∈ places indices ↔ i ∈ indices := by
  constructor
  · rintro ⟨j, hj, hji⟩
    rwa [← UInt16.toNat.inj hji]
  · intro hi
    exact ⟨i, hi, rfl⟩

theorem places_cons (i : UInt16) (indices : List UInt16) :
    places (i :: indices) = {i.toNat} ∪ places indices := by
  ext j
  simp only [places, List.mem_cons, exists_eq_or_imp, Set.mem_ofPred_eq, Set.mem_union,
    Set.mem_singleton_iff]
  rw [eq_comm]

/-- A run changes the slots it is for, also when it fails. -/
theorem evolves_renameConstants (h : Hierarchy) (indices : List UInt16) :
    ∀ {s : Renamer × Pool}, Ready s → Evolves h (places indices) s ((renameConstants h indices).after s) := by
  induction indices with
  | nil => exact fun {s} _ => Evolves.refl _ s
  | cons i indices ih =>
    intro s hs
    have hstep := evolves_renameConstant h i hs
    rw [places_cons]
    cases hi : renameConstant h i s with
    | error e s₁ =>
      have hrun : renameConstants h (i :: indices) s = .error e s₁ := by rw [renameConstants, hi]
      rw [Effect.after_of_error hrun]
      rw [Effect.after_of_error hi] at hstep
      exact hstep.mono Set.subset_union_left
    | ok u s₁ =>
      have hrun : (renameConstants h (i :: indices)).after s = (renameConstants h indices).after s₁ := by
        simp only [Effect.after, renameConstants, hi]
      rw [hrun]
      rw [Effect.after_of_ok hi] at hstep
      exact hstep.trans (ih (hs.evolves hstep))

/-- **A run.** Slots that are as they were read all become their images. -/
theorem image_of_renameConstants {h : Hierarchy} {indices : List UInt16} (hnodup : indices.Nodup) :
    ∀ {s s' : Renamer × Pool}, Ready s →
      (∀ i ∈ indices, ∃ c, s.1.asRead.slots[i.toNat]? = some c ∧ s.2.slots[i.toNat]? = some c) →
      renameConstants h indices s = .ok () s' →
      ∀ i ∈ indices, ∃ c c', s'.1.asRead.slots[i.toNat]? = some c ∧ s'.2.slots[i.toNat]? = some c' ∧
        ConstantImage h s' i c c' := by
  induction indices with
  | nil =>
    intro s s' _ _ _ i hi
    cases hi
  | cons i indices ih =>
    intro s s' hs hslots hrun
    obtain ⟨hnotMem, hnodup⟩ := List.nodup_cons.mp hnodup
    cases hi : renameConstant h i s with
    | error e s₁ =>
      rw [renameConstants, hi] at hrun
      cases hrun
    | ok u s₁ =>
      rw [renameConstants, hi] at hrun
      have hstep := evolves_renameConstant h i hs
      rw [Effect.after_of_ok hi] at hstep
      have hrest := evolves_renameConstants h indices (hs.evolves hstep)
      rw [Effect.after_of_ok hrun] at hrest
      intro j hj
      rcases List.mem_cons.mp hj with rfl | hj
      · -- The slot of this step, which the rest of the run does not touch.
        obtain ⟨old, hold, hnow⟩ := hslots j hj
        obtain ⟨c, c', hc, hc', himage⟩ := image_of_renameConstant hs (hnow.trans hold.symm) hi
        have hplace : j.toNat ∉ places indices := fun hmem => hnotMem (toNat_mem_places.mp hmem)
        exact ⟨c, c', by rw [hrest.asRead, hc], hrest.pool.slot_of_notMem hplace hc', himage.evolves hrest⟩
      · -- A later slot, which this step left as it was read, so that the rest of the run starts as promised.
        refine ih hnodup (hs.evolves hstep) (fun k hk => ?_) hrun j hj
        have hki : k.toNat ∉ ({i.toNat} : Set Nat) := by
          rintro hki
          rw [Set.mem_singleton_iff] at hki
          exact hnotMem (UInt16.toNat.inj hki ▸ hk)
        obtain ⟨c, hold, hnow⟩ := hslots k (List.mem_cons_of_mem i hk)
        exact ⟨c, by rw [hstep.asRead, hold], hstep.pool.slot_of_notMem hki hnow⟩

/-- All slots of the pool as it was read became their images, and nothing else was redirected. -/
structure Redirected (h : Hierarchy) (t : Renamer × Pool) : Prop where
  ready : Ready t
  size_lt : t.1.asRead.slots.size < 65536
  changes : Changes (places t.1.asRead.indices) t.1.asRead t.2
  image : ∀ i ∈ t.1.asRead.indices, ∃ c c', t.1.asRead.slots[i.toNat]? = some c ∧
    t.2.slots[i.toNat]? = some c' ∧ ConstantImage h t i c c'

/-- Members and attributes are renamed without redirecting anything, so what the slots became stays. -/
theorem Redirected.evolves {h : Hierarchy} {s t : Renamer × Pool} (hs : Redirected h s)
    (he : Evolves h ∅ s t) : Redirected h t where
  ready := hs.ready.evolves he
  size_lt := by rw [he.asRead]; exact hs.size_lt
  changes := by
    rw [he.asRead]
    exact hs.changes.trans_same (he.pool.mono (Set.empty_subset _))
  image i hi := by
    rw [he.asRead] at hi ⊢
    obtain ⟨c, c', hc, hc', himage⟩ := hs.image i hi
    exact ⟨c, c', hc, he.pool.slot_of_notMem (Set.notMem_empty _) hc', himage.evolves he⟩

/-- A pool that was read, and that a run over all its slots succeeded on. -/
theorem redirected_of_renameConstants {h : Hierarchy} {s : Renamer} {p : Pool} {s' : Renamer × Pool}
    (hindexed : p.Indexed) (hsize : p.slots.size < 65536) (hs : s.asRead = p)
    (hrun : renameConstants h p.indices (s, p) = .ok () s') : Redirected h s' := by
  subst hs
  have hready : Ready (s, s.asRead) := ⟨hindexed, Changes.refl _ _⟩
  have hevolves := evolves_renameConstants h s.asRead.indices hready
  rw [Effect.after_of_ok hrun] at hevolves
  have hread : s'.1.asRead = s.asRead := hevolves.asRead
  refine ⟨hready.evolves hevolves, hread ▸ hsize, ?_, ?_⟩
  · rw [hread]
    exact hevolves.pool
  · rw [hread]
    have himage := image_of_renameConstants (Pool.nodup_indices hsize) hready (fun i hi => ?_) hrun
    · rwa [hread] at himage
    · obtain ⟨c, hc, -⟩ := (Pool.mem_indices hsize).mp hi
      exact ⟨c, hc, hc⟩

/-! ## The pool as a whole -/

/-- What each slot of a pool means after renaming, told by reading both pools. -/
structure PoolImage (h : Hierarchy) (resolver : Resolver) (asRead written : Pool) : Prop where
  /-- Classes are translated. -/
  classRef : ∀ (i n : UInt16), asRead.slots[i.toNat]? = some (.classRef n) → ∃ name newName,
    asRead.className i = .ok name ∧ h.renames.classes.translateType .toSource name = .ok newName ∧
    written.className i = .ok newName
  /-- Members keep their kind, and owner, name and descriptor are those of the member meant before. -/
  member : ∀ (i : UInt16) kind owner nt, asRead.slots[i.toNat]? = some (.member kind owner nt) →
    ∃ m newOwner newName newDescriptor, asRead.memberRef i = .ok m ∧
      h.renames.classes.translateType .toSource m.owner = .ok newOwner ∧
      h.Gives resolver kind m.owner m.name m.descriptor newName ∧
      h.renames.classes.translateMember kind m.descriptor = .ok newDescriptor ∧
      (∃ nt', written.slots[i.toNat]? = some (.member kind owner nt')) ∧
      written.memberRef i = .ok ⟨newOwner, newName, newDescriptor⟩
  methodType : ∀ (i d : UInt16), asRead.slots[i.toNat]? = some (.methodType d) →
    ∃ d' text newText, asRead.utf8 d = .ok text ∧
      h.renames.classes.translateMethod .toSource text = .ok newText ∧
      written.slots[i.toNat]? = some (.methodType d') ∧ written.utf8 d' = .ok newText
  /-- Computed constants keep their bootstrap method and their name. -/
  dynamic : ∀ (i bootstrap nt : UInt16), asRead.slots[i.toNat]? = some (.dynamic bootstrap nt) →
    ∃ nt' name descriptor newDescriptor, asRead.nameAndType nt = .ok (name, descriptor) ∧
      h.renames.classes.translateField .toSource descriptor = .ok newDescriptor ∧
      written.slots[i.toNat]? = some (.dynamic bootstrap nt') ∧
      written.nameAndType nt' = .ok (name, newDescriptor)
  /-- Computed calls keep their bootstrap method and their name. -/
  invokeDynamic : ∀ (i bootstrap nt : UInt16), asRead.slots[i.toNat]? = some (.invokeDynamic bootstrap nt) →
    ∃ nt' name descriptor newDescriptor, asRead.nameAndType nt = .ok (name, descriptor) ∧
      h.renames.classes.translateMethod .toSource descriptor = .ok newDescriptor ∧
      written.slots[i.toNat]? = some (.invokeDynamic bootstrap nt') ∧
      written.nameAndType nt' = .ok (name, newDescriptor)
  /-- All other slots are the same. -/
  other : ∀ (j : Nat) (c : Constant), asRead.slots[j]? = some c → c.isReference = false → written.slots[j]? = some c
  /-- What was added are texts and names with descriptors. -/
  added : ∀ (j : Nat) (c : Constant), asRead.slots.size ≤ j → written.slots[j]? = some c →
    c.isName = true

namespace Redirected

variable {h : Hierarchy} {t : Renamer × Pool}

theorem exists_image (ht : Redirected h t) {i : UInt16} {c : Constant}
    (hc : t.1.asRead.slots[i.toNat]? = some c) (hu : c ≠ .unusable) :
    ∃ c', t.2.slots[i.toNat]? = some c' ∧ ConstantImage h t i c c' := by
  obtain ⟨d, c', hd, hc', himage⟩ := ht.image i ((Pool.mem_indices ht.size_lt).mpr ⟨c, hc, hu⟩)
  rw [hc] at hd
  obtain rfl := Option.some.inj hd
  exact ⟨c', hc', himage⟩

/-- The name of a class is translated, whatever slot it is in. -/
theorem className (ht : Redirected h t) {i : UInt16} {name : String}
    (hname : t.1.asRead.className i = .ok name) : ∃ newName,
      h.renames.classes.translateType .toSource name = .ok newName ∧ t.2.className i = .ok newName := by
  obtain ⟨n, hslot, hn⟩ := Pool.className_eq_ok.mp hname
  obtain ⟨c', hc', n', text, renamed, rfl, htext, hrenamed, hn'⟩ := ht.exists_image hslot (by simp)
  rw [hn] at htext
  obtain rfl := Except.ok.inj htext
  exact ⟨renamed, hrenamed, Pool.className_eq_ok.mpr ⟨n', hc', hn'⟩⟩

theorem slot (ht : Redirected h t) {j : Nat} {c : Constant} (hc : t.1.asRead.slots[j]? = some c)
    (hr : c.isReference = false) : t.2.slots[j]? = some c := by
  by_cases hj : j ∈ places t.1.asRead.indices
  · obtain ⟨i, hi, rfl⟩ := hj
    obtain ⟨d, c', hd, hc', himage⟩ := ht.image i hi
    rw [hc] at hd
    obtain rfl := Option.some.inj hd
    have hsame : c' = c := by
      cases c <;> first | exact himage | cases hr
    rw [hc', hsame]
  · exact ht.changes.slot_of_notMem hj hc

/-- **The pool is one substitution.** -/
theorem poolImage (ht : Redirected h t) : PoolImage h t.1.resolver t.1.asRead t.2 where
  classRef i n hc := by
    obtain ⟨c', hc', n', name, newName, rfl, hname, hnew, hn'⟩ := ht.exists_image hc (by simp)
    exact ⟨name, newName, Pool.className_eq_ok.mpr ⟨n, hc, hname⟩, hnew,
      Pool.className_eq_ok.mpr ⟨n', hc', hn'⟩⟩
  member i kind owner nt hc := by
    obtain ⟨c', hc', m, nt', newName, newDescriptor, rfl, hm, hgives, hdescriptor, hnt'⟩ :=
      ht.exists_image hc (by simp)
    -- The slot keeps its owner; it is the slot of the owner that was redirected.
    obtain ⟨kind', owner', nt₀, hslot, howner, -⟩ := Pool.memberRef_eq_ok.mp hm
    rw [hc] at hslot
    obtain ⟨rfl, rfl, rfl⟩ := Constant.member.inj (Option.some.inj hslot)
    obtain ⟨newOwner, htype, hnewOwner⟩ := ht.className howner
    refine ⟨m, newOwner, newName, newDescriptor, hm, htype, hgives, hdescriptor, ⟨nt', hc'⟩, ?_⟩
    exact Pool.memberRef_eq_ok.mpr ⟨kind, owner, nt', hc', hnewOwner, hnt'⟩
  methodType i d hc := by
    obtain ⟨c', hc', d', text, newText, rfl, htext, hnew, hd'⟩ := ht.exists_image hc (by simp)
    exact ⟨d', text, newText, htext, hnew, hc', hd'⟩
  dynamic i bootstrap nt hc := by
    obtain ⟨c', hc', nt', name, descriptor, renamed, rfl, hnt, hnew, hnt'⟩ :=
      ht.exists_image hc (by simp)
    exact ⟨nt', name, descriptor, renamed, hnt, hnew, hc', hnt'⟩
  invokeDynamic i bootstrap nt hc := by
    obtain ⟨c', hc', nt', name, descriptor, renamed, rfl, hnt, hnew, hnt'⟩ :=
      ht.exists_image hc (by simp)
    exact ⟨nt', name, descriptor, renamed, hnt, hnew, hc', hnt'⟩
  other j c hc hr := ht.slot hc hr
  added := ht.changes.added

end Redirected

end Renamer

end Relabel
