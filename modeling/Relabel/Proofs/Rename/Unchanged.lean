import Relabel.Proofs.Class.Sink
import Relabel.Proofs.Rename.Frame
import Relabel.Proofs.Rename.Mention

/-!
# Classes in which nothing is renamed

If everything that a class mentions is kept, then renaming asks for names and does nothing else: no text is
interned, no slot is redirected, nothing is counted, and the sink receives what was read.

Whether a member keeps its name is asked of the resolver as it is at the end, and until then the resolver
learns. So `Rests` says two things of an effect. Whatever happens, it does to the resolver what asking for
names does; this holds without any condition, and carries an answer on the way to the end. And under a
condition `C`, it changes nothing but the resolver. In a row of effects, the condition of each is what is
known from those before it.
-/

set_option autoImplicit false

namespace Relabel.Renamer

open Mention (AllKept reference)

/-- A state in which a class with a given name and pool is being renamed, and nothing was renamed so far. -/
structure Quiet (className : String) (p : Pool) (s : Renamer × Pool) : Prop where
  className : s.1.className = className
  asRead : s.1.asRead = p
  pool : s.2 = p

/-- From `s` to `t`, nothing but the resolver changed. -/
def Still (s t : Renamer × Pool) : Prop := ∃ r, t = ({ s.1 with resolver := r }, s.2)

theorem Still.refl (s : Renamer × Pool) : Still s s := ⟨s.1.resolver, rfl⟩

theorem Still.trans {s t u : Renamer × Pool} (h₁ : Still s t) (h₂ : Still t u) : Still s u := by
  obtain ⟨r, rfl⟩ := h₁
  obtain ⟨r', rfl⟩ := h₂
  exact ⟨r', rfl⟩

theorem Quiet.still {className : String} {p : Pool} {s t : Renamer × Pool} (hs : Quiet className p s)
    (ht : Still s t) : Quiet className p t := by
  obtain ⟨r, rfl⟩ := ht
  exact ⟨hs.className, hs.asRead, hs.pool⟩

section

variable (h : Hierarchy) (className : String) (p : Pool) (last : Resolver)

/-- The effect asks the resolver for names, and if `C` holds and `last` is the resolver at the end, it does
nothing else and gives a value with `P`. -/
structure Rests {α : Type} (C : Prop) (e : Renames α) (P : α → Prop) : Prop where
  asks : ∀ s, h.Asked s.1.resolver (e.after s).1.resolver
  rests : C → ∀ s a s', Quiet className p s → h.Asked s'.1.resolver last → e s = .ok a s' → P a ∧ Still s s'

end

variable {h : Hierarchy} {className : String} {p : Pool} {last : Resolver} {C : Prop}

namespace Rests

variable {α β : Type} {P : α → Prop} {Q : β → Prop}

/-- What an effect promises may be weakened by its condition. -/
theorem mono {C' : Prop} {P' : α → Prop} {e : Renames α} (hr : Rests h className p last C e P) (hC : C' → C)
    (hP : ∀ a, C' → P a → P' a) : Rests h className p last C' e P' where
  asks := hr.asks
  rests hc s a s' hs hl he := (hr.rests (hC hc) s a s' hs hl he).imp_left (hP a hc)

theorem bind {x : Renames α} {f : α → Renames β} (hx : Rests h className p last C x P)
    (hf : ∀ a, Rests h className p last (C ∧ P a) (f a) Q) : Rests h className p last C (x >>= f) Q where
  asks s := by
    have hfirst := hx.asks s
    cases hxs : x s with
    | error e s₁ =>
      rw [Effect.after_bind_of_error hxs]
      rwa [Effect.after_of_error hxs] at hfirst
    | ok a s₁ =>
      rw [Effect.after_bind_of_ok hxs]
      rw [Effect.after_of_ok hxs] at hfirst
      exact hfirst.trans ((hf a).asks s₁)
  rests hc s b s' hs hl hb := by
    obtain ⟨a, s₁, ha, hb⟩ := Effect.bind_eq_ok.mp hb
    -- What the second effect asks for comes before the end as well.
    have hasked := (hf a).asks s₁
    rw [Effect.after_of_ok hb] at hasked
    obtain ⟨hP, hfirst⟩ := hx.rests hc s a s₁ hs (hasked.trans hl) ha
    obtain ⟨hQ, hsecond⟩ := (hf a).rests ⟨hc, hP⟩ s₁ b s' (hs.still hfirst) hl hb
    exact ⟨hQ, hfirst.trans hsecond⟩

theorem ite {c : Prop} [Decidable c] {x y : Renames α} (hx : Rests h className p last (C ∧ c) x P)
    (hy : Rests h className p last (C ∧ ¬c) y P) : Rests h className p last C (if c then x else y) P := by
  split <;> rename_i hc
  · exact hx.mono (fun h => ⟨h, hc⟩) fun _ _ => id
  · exact hy.mono (fun h => ⟨h, hc⟩) fun _ _ => id

/-- An effect after either of two others, written once for each. -/
theorem ofIte {c : Prop} [Decidable c] {x y : Renames α} {f : α → Renames β}
    (hr : Rests h className p last C ((if c then x else y) >>= f) Q) :
    Rests h className p last C (if c then x >>= f else y >>= f) Q := by
  split <;> rename_i hc
  · rwa [if_pos hc] at hr
  · rwa [if_neg hc] at hr

theorem pure {a : α} (ha : C → P a) : Rests h className p last C (Pure.pure a) P where
  asks _ := .refl
  rests hc s b s' _ _ hb := by
    obtain ⟨rfl, rfl⟩ := Effect.pure_eq_ok.mp hb
    exact ⟨ha hc, .refl s⟩

/-- What is built of something that stays. -/
theorem build {x : Renames α} {a : α} (hx : Rests h className p last C x (· = a)) (make : α → β) :
    Rests h className p last C (x >>= fun b => Pure.pure (make b)) (· = make a) := by
  refine hx.bind fun b => pure ?_
  rintro ⟨-, rfl⟩
  rfl

theorem lift (x : Except Error α) : Rests h className p last C (liftM x) fun a => x = .ok a where
  asks s := by
    rw [Effect.after_lift]
    exact .refl
  rests _ s a s' _ _ ha := by
    obtain ⟨hx, rfl⟩ := Effect.lift_eq_ok.mp ha
    exact ⟨hx, .refl s⟩

theorem mapM {f : α → Renames α} {xs : List α}
    (hf : ∀ a ∈ xs, Rests h className p last C (f a) (· = a)) :
    Rests h className p last C (xs.mapM f) (· = xs) := by
  induction xs with
  | nil => exact pure fun _ => rfl
  | cons a xs ih =>
    rw [List.mapM_cons]
    refine (hf a List.mem_cons_self).bind fun b => ?_
    have hrest := ih fun a' ha' => hf a' (List.mem_cons_of_mem a ha')
    refine (hrest.mono And.left fun _ _ => id).bind fun bs => pure ?_
    rintro ⟨⟨-, rfl⟩, rfl⟩
    rfl

end Rests

/-! ## The parts of renaming -/

theorem rests_pool : Rests h className p last C Pass.pool (· = p) where
  asks _ := .refl
  rests _ s q s' hs _ hq := by
    obtain ⟨rfl, rfl⟩ := EStateM.Result.ok.inj hq
    exact ⟨hs.pool, .refl _⟩

theorem rests_poolAsRead : Rests h className p last C poolAsRead (· = p) where
  asks _ := .refl
  rests _ s q s' hs _ hq := by
    obtain ⟨rfl, rfl⟩ := EStateM.Result.ok.inj hq
    exact ⟨hs.asRead, .refl _⟩

theorem rests_nameAsRead : Rests h className p last C nameAsRead (· = className) where
  asks _ := .refl
  rests _ s name s' hs _ hname := by
    obtain ⟨rfl, rfl⟩ := EStateM.Result.ok.inj hname
    exact ⟨hs.className, .refl _⟩

/-- The pool is only changed where something is renamed. -/
theorem rests_onPool {α : Type} {e : Effect Pool α} {P : α → Prop} (hC : ¬C) :
    Rests h className p last C (Pass.onPool e) P where
  asks s := by
    rw [show (Pass.onPool e : Renames α).after s = (s.1, e.after s.2) from Effect.after_onSecond e s]
    exact .refl
  rests hc := absurd hc hC

/-- Counts are only changed where something is renamed. -/
theorem rests_count {f : RenameStats → RenameStats} {P : Unit → Prop} (hC : ¬C) :
    Rests h className p last C (count f) P where
  asks _ := .refl
  rests hc := absurd hc hC

theorem rests_memberName (kind : MemberKind) {owner name descriptor : String}
    (hkept : C → (Mention.member kind owner name descriptor).Kept h last) :
    Rests h className p last C (resolve (h.memberName kind owner name descriptor)) (· = name) where
  asks s := by
    rw [after_resolve]
    exact Hierarchy.Asked.refl.ask kind owner name descriptor
  rests hc s newName s' _ hl hn := by
    obtain ⟨r, hr, rfl⟩ := resolve_eq_ok.mp hn
    have hgives := (Hierarchy.gives_of_memberName hr).grows hl.grows (Set.notMem_empty owner)
    exact ⟨hkept hc newName hgives, r, rfl⟩

/-- An index stays unless its text changed. -/
theorem rests_keep {renamed text : String} {i : UInt16} (hsame : C → renamed = text) :
    Rests h className p last C (if renamed = text then Pure.pure i else Pass.onPool (Pool.internUtf8 renamed))
      (· = i) :=
  .ite (.pure fun _ => rfl) (rests_onPool fun hc => hc.2 (hsame hc.1))

/-- An index whose text does not change stays. -/
theorem rests_renameUtf8 {f : String → Except Error String} {i : UInt16}
    (hf : C → ∀ text renamed, p.utf8 i = .ok text → f text = .ok renamed → renamed = text) :
    Rests h className p last C (renameUtf8 f i) (· = i) := by
  unfold renameUtf8
  refine rests_pool.bind fun q => (Rests.lift (q.utf8 i)).bind fun text =>
    (Rests.lift (f text)).bind fun renamed => rests_keep ?_
  rintro ⟨⟨⟨hc, rfl⟩, htext⟩, hrenamed⟩
  exact hf hc text renamed htext hrenamed

/-- An index whose text mentions kept classes stays. -/
theorem rests_renameSpelled (spelling : Spelling) {i : UInt16}
    (hkept : C → AllKept h last (p.spelled spelling i)) :
    Rests h className p last C (renameUtf8 (spelling.translate h.renames.classes) i) (· = i) := by
  refine rests_renameUtf8 fun hc text renamed htext hrenamed => ?_
  exact Spelling.translate_of_fixed _ hrenamed ((hkept hc).of_read htext _ List.mem_cons_self)

/-! ## The pool -/

theorem rests_renamedNameAndType {name descriptor newName newDescriptor : String}
    (hsame : C → newName = name ∧ newDescriptor = descriptor) :
    Rests h className p last C (renamedNameAndType name descriptor newName newDescriptor) (· = none) := by
  have hintern (hno : ¬C) : Rests h className p last C (do
      return some (← Pass.onPool (Pool.internNameAndType newName newDescriptor))) (· = none) :=
    (rests_onPool (P := fun _ => False) hno).bind fun _ => .pure fun hc => hc.2.elim
  unfold renamedNameAndType
  split
  · exact .pure fun _ => rfl
  · next hne =>
    have hno : ¬C := fun hc => hne (hsame hc)
    split
    · exact (rests_count (P := fun _ => True) hno).bind fun _ => (hintern hno).mono And.left fun _ _ => id
    · exact hintern hno

theorem rests_renamedMember {kind : MemberKind} {m : Pool.MemberRef}
    (hkept : C → AllKept h last (reference kind m.owner m.name m.descriptor)) :
    Rests h className p last C (renamedMember h kind m) (· = none) := by
  have heq : renamedMember h kind m = (do
      let newName ← resolve (h.memberName kind m.owner m.name m.descriptor)
      let newDescriptor ← (Spelling.ofKind kind).translate h.renames.classes m.descriptor
      renamedNameAndType m.name m.descriptor newName newDescriptor) := by
    cases kind <;> rfl
  rw [heq]
  refine (rests_memberName kind fun hc => (hkept hc).member).bind fun newName =>
    (Rests.lift _).bind fun newDescriptor => rests_renamedNameAndType ?_
  rintro ⟨⟨hc, hname⟩, hdescriptor⟩
  exact ⟨hname, Spelling.translate_of_fixed _ hdescriptor (hkept hc).type⟩

/-- A slot is only set if what it stands for changed. -/
theorem rests_redirect {renamed text : String} (hsame : C → renamed = text) (e : Effect Pool UInt16) (i : UInt16)
    (make : UInt16 → Constant) : Rests h className p last C (do
      if renamed ≠ text then
        let n ← Pass.onPool e
        Pass.onPool (Pool.set i (make n))) fun _ => True := by
  refine Rests.ite ?_ (.pure fun _ => trivial)
  exact (rests_onPool (P := fun _ => True) fun hc => hc.2 (hsame hc.1)).bind fun _ =>
    rests_onPool fun hc => hc.1.2 (hsame hc.1.1)

theorem rests_redirectText {asRead : Pool} (spelling : Spelling) (make : UInt16 → Constant) {n i : UInt16}
    (hkept : C → AllKept h last (asRead.spelled spelling n)) : Rests h className p last C (do
      let text ← asRead.utf8 n
      let renamed ← spelling.translate h.renames.classes text
      if renamed ≠ text then
        let n ← Pass.onPool (Pool.internUtf8 renamed)
        Pass.onPool (Pool.set i (make n))) fun _ => True := by
  refine (Rests.lift (asRead.utf8 n)).bind fun text => (Rests.lift _).bind fun renamed =>
    rests_redirect ?_ _ i make
  rintro ⟨⟨hc, htext⟩, hrenamed⟩
  exact Spelling.translate_of_fixed _ hrenamed ((hkept hc).of_read htext _ List.mem_cons_self)

theorem rests_redirectType {asRead : Pool} (spelling : Spelling) (make : UInt16 → Constant) {nt i : UInt16}
    (hkept : C → AllKept h last (asRead.spelledType spelling nt)) : Rests h className p last C (do
      let (name, descriptor) ← asRead.nameAndType nt
      let renamed ← spelling.translate h.renames.classes descriptor
      if renamed ≠ descriptor then
        let nt ← Pass.onPool (Pool.internNameAndType name renamed)
        Pass.onPool (Pool.set i (make nt))) fun _ => True := by
  refine (Rests.lift (asRead.nameAndType nt)).bind fun x => (Rests.lift _).bind fun renamed =>
    rests_redirect ?_ _ i make
  rintro ⟨⟨hc, hx⟩, hrenamed⟩
  exact Spelling.translate_of_fixed _ hrenamed ((hkept hc).of_read hx _ List.mem_cons_self)

/-- **One slot.** -/
theorem rests_renameConstant {i : UInt16} (hkept : C → AllKept h last (p.mentionsAt i)) :
    Rests h className p last C (renameConstant h i) fun _ => True := by
  unfold renameConstant
  refine rests_poolAsRead.bind fun asRead => (Rests.lift (asRead.get i)).bind fun c => ?_
  have hc : (C ∧ asRead = p) ∧ asRead.get i = .ok c → AllKept h last (asRead.constantMentions i c) := by
    rintro ⟨⟨hc, rfl⟩, hget⟩
    exact (hkept hc).of_read hget
  cases c with
  | classRef n => exact rests_redirectText .type .classRef hc
  | methodType d => exact rests_redirectText .method .methodType hc
  | dynamic bootstrap nt => exact rests_redirectType .field (.dynamic bootstrap) hc
  | invokeDynamic bootstrap nt =>
    exact rests_redirectType .method (.invokeDynamic bootstrap) hc
  | member kind owner nt =>
    refine (Rests.lift (asRead.memberRef i)).bind fun m => ?_
    refine (rests_renamedMember fun hm => (hc hm.1).of_read hm.2).bind fun nt? => ?_
    cases nt? with
    | none => exact .pure fun _ => trivial
    | some nt => exact rests_onPool fun hm => nomatch hm.2
  | _ => exact .pure fun _ => trivial

/-- **A run over slots.** -/
theorem rests_renameConstants {indices : List UInt16}
    (hkept : C → AllKept h last (indices.flatMap p.mentionsAt)) :
    Rests h className p last C (renameConstants h indices) fun _ => True := by
  induction indices with
  | nil => exact .pure fun _ => trivial
  | cons i indices ih =>
    have heq : renameConstants h (i :: indices) = renameConstant h i >>= fun _ => renameConstants h indices := by
      funext s
      change _ = EStateM.bind _ _ s
      rw [renameConstants, EStateM.bind]
      cases renameConstant h i s <;> rfl
    rw [List.flatMap_cons] at hkept
    rw [heq]
    refine (rests_renameConstant fun hc => (hkept hc).left).bind fun _ => ?_
    exact (ih fun hc => (hkept hc).right).mono And.left fun _ _ => id

/-! ## Annotations -/

mutual

theorem rests_renameAnnotationInfo : ∀ (a : AnnotationInfo) {C : Prop}, (C → AllKept h last (a.mentions p)) →
    Rests h className p last C (renameAnnotationInfo h.renames.classes a) (· = a)
  | ⟨type, elements⟩, C, hkept => by
    rw [AnnotationInfo.mentions] at hkept
    rw [renameAnnotationInfo]
    refine (rests_renameSpelled .field fun hc => (hkept hc).left).bind fun type' =>
      (rests_renameNamedValues [] elements fun hc => (hkept hc.1).right).bind fun elements' =>
        .pure ?_
    rintro ⟨⟨-, rfl⟩, rfl⟩
    rfl

theorem rests_renameValue : ∀ (v : ElementValue) {C : Prop}, (C → AllKept h last (v.mentions p)) →
    Rests h className p last C (renameValue h.renames.classes v) (· = v)
  | .const tag index, C, _ => by
    rw [renameValue]
    exact .pure fun _ => rfl
  | .enum type name, C, hkept => by
    rw [ElementValue.mentions] at hkept
    rw [renameValue]
    exact (rests_renameSpelled .field hkept).build fun type => ElementValue.enum type name
  | .classLiteral descriptor, C, hkept => by
    rw [ElementValue.mentions] at hkept
    rw [renameValue]
    exact (rests_renameSpelled .literal hkept).build ElementValue.classLiteral
  | .nested value, C, hkept => by
    rw [ElementValue.mentions] at hkept
    rw [renameValue]
    exact (rests_renameAnnotationInfo value hkept).build ElementValue.nested
  | .array values, C, hkept => by
    rw [ElementValue.mentions] at hkept
    rw [renameValue]
    exact (rests_renameValues [] values hkept).build ElementValue.array

theorem rests_renameNamedValues (acc : List (UInt16 × ElementValue)) :
    ∀ (vs : List (UInt16 × ElementValue)) {C : Prop}, (C → AllKept h last (ElementValue.mentionsNamed p vs)) →
      Rests h className p last C (renameNamedValues h.renames.classes acc vs) (· = acc.reverse ++ vs)
  | [], C, _ => by
    rw [renameNamedValues]
    exact .pure fun _ => (List.append_nil _).symm
  | (name, value) :: rest, C, hkept => by
    rw [ElementValue.mentionsNamed] at hkept
    rw [renameNamedValues]
    refine (rests_renameValue value fun hc => (hkept hc).left).bind fun value' => ?_
    refine (rests_renameNamedValues ((name, value') :: acc) rest fun hc => (hkept hc.1).right).mono id ?_
    rintro _ ⟨-, rfl⟩ rfl
    simp

theorem rests_renameValues (acc : List ElementValue) :
    ∀ (vs : List ElementValue) {C : Prop}, (C → AllKept h last (ElementValue.mentionsList p vs)) →
      Rests h className p last C (renameValues h.renames.classes acc vs) (· = acc.reverse ++ vs)
  | [], C, _ => by
    rw [renameValues]
    exact .pure fun _ => (List.append_nil _).symm
  | value :: rest, C, hkept => by
    rw [ElementValue.mentionsList] at hkept
    rw [renameValues]
    refine (rests_renameValue value fun hc => (hkept hc).left).bind fun value' => ?_
    refine (rests_renameValues (value' :: acc) rest fun hc => (hkept hc.1).right).mono id ?_
    rintro _ ⟨-, rfl⟩ rfl
    simp

end

/-! ## Single entries -/

/-- A class that keeps its name keeps its simple name. -/
theorem innerSimpleName_self (name inner : String) : innerSimpleName name name inner = inner := if_pos rfl

theorem rests_renameInnerClass (c : InnerClass) :
    Rests h className p last C (renameInnerClass c) (· = c) := by
  unfold renameInnerClass
  refine Rests.ite (.pure fun _ => rfl) ?_
  refine rests_poolAsRead.bind fun q => (Rests.lift (q.className c.innerClass)).bind fun asRead =>
    rests_pool.bind fun q' => (Rests.lift (q'.className c.innerClass)).bind fun renamed =>
      (rests_renameUtf8 ?_).build fun innerName => { c with innerName }
  rintro ⟨⟨⟨⟨-, rfl⟩, hread⟩, rfl⟩, hrenamed⟩ inner inner' - hinner
  obtain rfl := Except.ok.inj (hread.symm.trans hrenamed)
  exact (Except.ok.inj hinner).symm.trans (innerSimpleName_self asRead inner)

theorem rests_renameEnclosingMethod {owner method : UInt16}
    (hkept : C → AllKept h last (enclosingMentions p owner method)) :
    Rests h className p last C (renameEnclosingMethod h owner method) (· = method) := by
  unfold enclosingMentions at hkept
  unfold renameEnclosingMethod
  split
  · exact .pure fun _ => rfl
  · next hne =>
    rw [if_neg hne] at hkept
    refine rests_poolAsRead.bind fun q => (Rests.lift (q.className owner)).bind fun ownerName =>
      rests_pool.bind fun q' => (Rests.lift (q'.nameAndType method)).bind fun x => ?_
    have hall : (((C ∧ q = p) ∧ q.className owner = .ok ownerName) ∧ q' = p) ∧ q'.nameAndType method = .ok x →
        AllKept h last (reference .method ownerName x.1 x.2) := by
      rintro ⟨⟨⟨⟨hc, rfl⟩, howner⟩, rfl⟩, hx⟩
      exact ((hkept hc).of_read howner).of_read hx
    refine (rests_memberName .method fun hc => (hall hc).member).bind fun newName =>
      (Rests.lift _).bind fun newDescriptor => .ite (.pure fun _ => rfl) (rests_onPool ?_)
    rintro ⟨⟨⟨hc, hname⟩, hdescriptor⟩, hno⟩
    exact hno ⟨hname, Spelling.translate_of_fixed .method hdescriptor (hall hc).type⟩

theorem rests_renameVariables {name : UInt16} {slots : List LocalVariable}
    (hkept : C → AllKept h last (Mention.ofRead (p.utf8 name) fun table =>
      slots.flatMap fun v => p.spelled (LocalVariable.spelling table) v.descriptor)) :
    Rests h className p last C (renameVariables h.renames.classes name slots) (· = slots) := by
  unfold renameVariables
  refine rests_pool.bind fun q => (Rests.lift (q.utf8 name)).bind fun table => Rests.mapM fun v hv => ?_
  have htranslate : (if table = localVariableTypeTableName then h.renames.classes.translateSignature .toSource
      else h.renames.classes.translateField .toSource)
        = (LocalVariable.spelling table).translate h.renames.classes := by
    unfold LocalVariable.spelling
    split <;> rfl
  rw [htranslate]
  refine (rests_renameSpelled _ ?_).build fun descriptor => { v with descriptor }
  rintro ⟨⟨hc, rfl⟩, htable⟩
  exact ((hkept hc).of_read htable).of_flatMap hv

theorem rests_renameTypeAnnotationInfo {a : TypeAnnotationInfo} (hkept : C → AllKept h last (a.info.mentions p)) :
    Rests h className p last C (renameTypeAnnotationInfo h.renames.classes a) (· = a) := by
  unfold renameTypeAnnotationInfo
  exact (rests_renameAnnotationInfo a.info hkept).build fun info => { a with info }

theorem rests_renameComponentName {name descriptor : UInt16} (hkept : C → AllKept h last
    (Mention.ofRead (p.utf8 name) fun n => Mention.ofRead (p.utf8 descriptor) fun d =>
      [.member .field className n d])) :
    Rests h className p last C (renameComponentName h name descriptor) (· = name) := by
  unfold renameComponentName
  refine rests_pool.bind fun q => (Rests.lift (q.utf8 name)).bind fun n => rests_pool.bind fun q' =>
    (Rests.lift (q'.utf8 descriptor)).bind fun d => rests_nameAsRead.bind fun owner =>
      (rests_memberName .field ?_).bind fun newName => rests_keep ?_
  · rintro ⟨⟨⟨⟨⟨hc, rfl⟩, hn⟩, rfl⟩, hd⟩, rfl⟩
    exact ((hkept hc).of_read hn).of_read hd _ List.mem_cons_self
  · rintro ⟨-, hname⟩
    exact hname

/-! ## Attributes -/

mutual

theorem rests_renameAttribute : ∀ (a : Attribute) {C : Prop}, (C → AllKept h last (a.mentions p className)) →
    Rests h className p last C (renameAttribute h a) (· = a)
  | ⟨name, info⟩, C, hkept => by
    rw [Attribute.mentions] at hkept
    rw [renameAttribute]
    exact (rests_renameInfo name info hkept).build (Attribute.mk name)

theorem rests_renameInfo (name : UInt16) : ∀ (info : AttributeInfo) {C : Prop},
    (C → AllKept h last (info.mentions p className name)) →
    Rests h className p last C (renameInfo h name info) (· = info)
  | .code maxStack maxLocals instructions handlers attributes, C, hkept => by
    rw [AttributeInfo.mentions] at hkept
    rw [renameInfo]
    exact (rests_renameAttributes [] attributes hkept).build
      (AttributeInfo.code maxStack maxLocals instructions handlers)
  | .signature index, C, hkept => by
    rw [AttributeInfo.mentions] at hkept
    rw [renameInfo]
    exact (rests_renameSpelled .signature hkept).build AttributeInfo.signature
  | .innerClasses classes, C, _ => by
    rw [renameInfo]
    exact (Rests.mapM fun c _ => rests_renameInnerClass c).build AttributeInfo.innerClasses
  | .enclosingMethod owner method, C, hkept => by
    rw [AttributeInfo.mentions] at hkept
    rw [renameInfo]
    exact (rests_renameEnclosingMethod hkept).build (AttributeInfo.enclosingMethod owner)
  | .localVariables slots, C, hkept => by
    rw [AttributeInfo.mentions] at hkept
    rw [renameInfo]
    exact (rests_renameVariables hkept).build AttributeInfo.localVariables
  | .annotations annotations, C, hkept => by
    rw [AttributeInfo.mentions] at hkept
    rw [renameInfo]
    exact (Rests.mapM fun a ha => rests_renameAnnotationInfo a fun hc => (hkept hc).of_flatMap ha).build
      AttributeInfo.annotations
  | .parameterAnnotations parameters, C, hkept => by
    rw [AttributeInfo.mentions] at hkept
    rw [renameInfo]
    exact (Rests.mapM fun annotations hannotations => Rests.mapM fun a ha =>
      rests_renameAnnotationInfo a fun hc => ((hkept hc).of_flatMap hannotations).of_flatMap ha).build
        AttributeInfo.parameterAnnotations
  | .typeAnnotations annotations, C, hkept => by
    rw [AttributeInfo.mentions] at hkept
    rw [renameInfo]
    exact (Rests.mapM fun a ha => rests_renameTypeAnnotationInfo fun hc => (hkept hc).of_flatMap ha).build
      AttributeInfo.typeAnnotations
  | .annotationDefault value, C, hkept => by
    rw [AttributeInfo.mentions] at hkept
    rw [renameInfo]
    exact (rests_renameValue value hkept).build AttributeInfo.annotationDefault
  | .record components, C, hkept => by
    rw [AttributeInfo.mentions] at hkept
    rw [renameInfo]
    exact (rests_renameComponents [] components hkept).build AttributeInfo.record
  | .raw bytes, C, _ => by
    rw [renameInfo]
    exact .pure fun _ => rfl

theorem rests_renameComponent : ∀ (c : RecordComponent) {C : Prop},
    (C → AllKept h last (c.mentions p className)) → Rests h className p last C (renameComponent h c) (· = c)
  | ⟨name, descriptor, attributes⟩, C, hkept => by
    rw [RecordComponent.mentions] at hkept
    rw [renameComponent]
    refine (rests_renameComponentName fun hc => (hkept hc).left).bind fun name' => ?_
    refine (rests_renameSpelled .field fun hc => (hkept hc.1).right.left).bind fun descriptor' =>
      (rests_renameAttributes [] attributes fun hc => (hkept hc.1.1).right.right).bind fun attributes' => .pure ?_
    rintro ⟨⟨⟨-, rfl⟩, rfl⟩, rfl⟩
    rfl

theorem rests_renameAttributes (acc : List Attribute) : ∀ (as : List Attribute) {C : Prop},
    (C → AllKept h last (Attribute.mentionsList p className as)) →
    Rests h className p last C (renameAttributes h acc as) (· = acc.reverse ++ as)
  | [], C, _ => by
    rw [renameAttributes]
    exact .pure fun _ => (List.append_nil _).symm
  | a :: rest, C, hkept => by
    rw [Attribute.mentionsList] at hkept
    rw [renameAttributes]
    refine (rests_renameAttribute a fun hc => (hkept hc).left).bind fun a' => ?_
    refine (rests_renameAttributes (a' :: acc) rest fun hc => (hkept hc.1).right).mono id ?_
    rintro _ ⟨-, rfl⟩ rfl
    simp

theorem rests_renameComponents (acc : List RecordComponent) : ∀ (cs : List RecordComponent) {C : Prop},
    (C → AllKept h last (RecordComponent.mentionsList p className cs)) →
    Rests h className p last C (renameComponents h acc cs) (· = acc.reverse ++ cs)
  | [], C, _ => by
    rw [renameComponents]
    exact .pure fun _ => (List.append_nil _).symm
  | c :: rest, C, hkept => by
    rw [RecordComponent.mentionsList] at hkept
    rw [renameComponents]
    refine (rests_renameComponent c fun hc => (hkept hc).left).bind fun c' => ?_
    refine (rests_renameComponents (c' :: acc) rest fun hc => (hkept hc.1).right).mono id ?_
    rintro _ ⟨-, rfl⟩ rfl
    simp

end

/-! ## Members and the body -/

theorem rests_renamedDeclaration {kind : MemberKind} {name descriptor : String}
    (hkept : C → AllKept h last (reference kind className name descriptor)) :
    Rests h className p last C (renamedDeclaration h kind name descriptor) (· = (name, descriptor)) := by
  have heq : renamedDeclaration h kind name descriptor = (do
      let owner ← nameAsRead
      let newName ← resolve (h.memberName kind owner name descriptor)
      return (newName, ← (Spelling.ofKind kind).translate h.renames.classes descriptor)) := by
    cases kind <;> rfl
  rw [heq]
  refine rests_nameAsRead.bind fun owner => (rests_memberName kind ?_).bind fun newName =>
    (Rests.lift _).bind fun newDescriptor => .pure ?_
  · rintro ⟨hc, rfl⟩
    exact (hkept hc).member
  · rintro ⟨⟨⟨hc, rfl⟩, rfl⟩, hdescriptor⟩
    rw [Spelling.translate_of_fixed _ hdescriptor (hkept hc).type]

theorem rests_renameMember {kind : MemberKind} {m : Member}
    (hkept : C → AllKept h last (m.mentions p className kind)) :
    Rests h className p last C (renameMember h kind m) (· = (m, false)) := by
  unfold renameMember
  refine rests_pool.bind fun q => (Rests.lift (m.nameIn q)).bind fun name =>
    (Rests.lift (m.descriptorIn q)).bind fun descriptor => (rests_renamedDeclaration ?_).bind fun x =>
      .ofIte ((rests_keep (i := m.name) ?_).bind fun nameIndex =>
        .ofIte ((rests_keep (i := m.descriptor) ?_).bind fun descriptorIndex =>
          (rests_renameAttributes [] m.attributes ?_).bind fun attributes => .pure ?_))
  · rintro ⟨⟨⟨hc, rfl⟩, hname⟩, hdescriptor⟩
    exact ((hkept hc).left.of_read hname).of_read hdescriptor
  · rintro ⟨-, rfl⟩
    rfl
  · rintro ⟨⟨-, rfl⟩, -⟩
    rfl
  · intro hc
    exact (hkept hc.1.1.1.1.1.1).right
  · rintro ⟨⟨⟨⟨-, rfl⟩, rfl⟩, rfl⟩, rfl⟩
    simp

theorem rests_counted {m : Member} {x : Member × Bool} {f : RenameStats → RenameStats} (hx : C → x = (m, false)) :
    Rests h className p last C (do
      if x.2 then count f
      return x.1) (· = m) := by
  refine Rests.ite ((rests_count (P := fun _ => False) ?_).bind fun _ => .pure fun hc => hc.2.elim) (.pure ?_)
  · rintro ⟨hc, hrenamed⟩
    rw [hx hc] at hrenamed
    cases hrenamed
  · rintro ⟨hc, -⟩
    rw [hx hc]

theorem rests_onField {m : Member} (hkept : C → AllKept h last (m.mentions p className .field)) :
    Rests h className p last C (onField h m) (· = m) := by
  unfold onField
  exact (rests_renameMember hkept).bind fun x => rests_counted And.right

theorem rests_onMethod {m : Member} (hkept : C → AllKept h last (m.mentions p className .method)) :
    Rests h className p last C (onMethod h m) (· = m) := by
  unfold onMethod
  exact (rests_renameMember hkept).bind fun x => rests_counted And.right

section Delivery

open ClassEvents

variable {τ : Type} (sink : Sink τ)

theorem rests_give {event : Effect τ Unit} {t : τ} :
    Rests h className p last C (Sink.give event t) fun t' => event t = .ok () t' where
  asks s := by
    rw [Sink.after_give]
    exact .refl
  rests _ s t' s' _ _ ht := by
    obtain ⟨hevent, rfl⟩ := Sink.give_eq_ok.mp ht
    exact ⟨hevent, .refl s⟩

/-- The sink receives an element as if no stage stood before it. -/
theorem rests_deliverItem {t : τ} {item : ClassItem} (hkept : C → AllKept h last (item.mentions p className)) :
    Rests h className p last C (deliverItem [stage h] sink t item) fun t' =>
      ∀ x : Unit × Pool, deliverItem [] sink t item x = .ok t' x := by
  cases item with
  | field m =>
    rw [deliverItem, Stage.thread_one]
    refine (rests_onField hkept).bind fun m' => rests_give.mono id ?_
    rintro t' ⟨-, rfl⟩ ht' x
    exact Sink.give_eq_ok.mpr ⟨ht', rfl⟩
  | method m =>
    rw [deliverItem, Stage.thread_one]
    refine (rests_onMethod hkept).bind fun m' => rests_give.mono id ?_
    rintro t' ⟨-, rfl⟩ ht' x
    exact Sink.give_eq_ok.mpr ⟨ht', rfl⟩
  | attr a =>
    rw [deliverItem, Stage.thread_one]
    refine (rests_renameAttribute a hkept).bind fun a' => rests_give.mono id ?_
    rintro t' ⟨-, rfl⟩ ht' x
    exact Sink.give_eq_ok.mpr ⟨ht', rfl⟩

theorem rests_deliverItems {items : List ClassItem} {C : Prop}
    (hkept : C → AllKept h last (items.flatMap (ClassItem.mentions p className))) {t : τ} :
    Rests h className p last C (deliverItems [stage h] sink t items) fun t' =>
      ∀ x : Unit × Pool, deliverItems [] sink t items x = .ok t' x := by
  induction items generalizing t C with
  | nil => exact .pure fun _ _ => rfl
  | cons item items ih =>
    rw [List.flatMap_cons] at hkept
    rw [deliverItems_cons]
    refine (rests_deliverItem sink fun hc => (hkept hc).left).bind fun t₁ => ?_
    refine (ih fun hc => (hkept hc.1).right).mono id ?_
    rintro t' ⟨-, hfirst⟩ hrest x
    rw [deliverItems, hfirst]
    exact hrest x

end Delivery

end Relabel.Renamer
