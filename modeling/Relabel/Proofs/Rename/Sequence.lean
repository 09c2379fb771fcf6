import Relabel.Pipeline
import Relabel.Proofs.Class.Arrivals
import Relabel.Proofs.Hierarchy.Inheritance
import Relabel.Proofs.Rename.Class
import Relabel.Proofs.Type.Descriptor

/-!
# Classes renamed one after the other

The classes of a sequence share one resolver. A class registers itself, builds its own tables again and
leaves all others alone, so what a class was given by a resolver is what every later class is given. What
an earlier class was given depends on the provider: it saw the tables of a class that had not come by yet.
-/

set_option autoImplicit false

namespace Relabel

namespace Renamer

variable {h : Hierarchy}

/-! ## What a class does to the resolver -/

/-- What a class can do to the resolver: nothing if it cannot be registered, and otherwise it is registered
and then asks for names. -/
def Sees (h : Hierarchy) (f : ClassFile) (r r' : Resolver) : Prop :=
  r' = r ∨ ∃ name parents, f.className = .ok name ∧ f.parents = .ok parents ∧
    h.Asked ((h.register name parents).after r) r'

/-- A class leaves the tables of all other classes alone. -/
theorem Sees.grows {f : ClassFile} {r r' : Resolver} (hs : Sees h f r r') {name : String}
    (hname : f.className = .ok name) : Resolver.Grows {name} r r' := by
  obtain rfl | ⟨name', parents, hname', -, hasked⟩ := hs
  · exact Resolver.Grows.refl _ _
  · rw [hname] at hname'
    obtain rfl := Except.ok.inj hname'
    exact (h.grows_register name parents r).trans_same (hasked.grows.mono (Set.empty_subset _))

/-- A class keeps the invariant of the resolver if its header says what the hierarchy says. -/
theorem Sees.settled {A : Ancestry} {F S : Set String} (hf : h.provider.Follows A F S) {f : ClassFile}
    {r r' : Resolver} (hs : Sees h f r r') (hr : h.Settled A F S r)
    (hS : ∀ name parents, f.className = .ok name → f.parents = .ok parents → name ∈ S →
      name ∉ F ∧ A.parents[name]? = some parents) : h.Settled A F S r' := by
  obtain rfl | ⟨name, parents, hname, hparents, hasked⟩ := hs
  · exact hr
  · exact (hr.register hf (hS name parents hname hparents)).asked hf hasked

theorem Sees.asked {f : ClassFile} {r r' : Resolver} {name : String} {parents : List String}
    (hname : f.className = .ok name) (hparents : f.parents = .ok parents)
    (ha : h.Asked ((h.register name parents).after r) r') : Sees h f r r' :=
  Or.inr ⟨name, parents, hname, hparents, ha⟩

/-- The last part of a header changes nothing but counts. -/
theorem leaves_headerEnd (header : Header) (className : String) : Leaves h ∅ (do
    let newName ← header.className (← Pass.pool)
    if newName ≠ className then count fun s => { s with classes := s.classes + 1 }
    return header) fun _ _ => True := by
  refine (leaves_pool.bind fun q => (Leaves.lift (header.className q)).bind fun newName =>
    (?_ : Leaves h ∅ _ fun _ _ => True)).mono fun _ _ _ _ => trivial
  split
  · exact ((leaves_count _).bind fun _ => Leaves.pure header).mono fun _ _ _ _ => trivial
  · exact (Leaves.pure header).mono fun _ _ _ _ => trivial

theorem sees_onHeader {f : ClassFile} (hindexed : f.pool.Indexed) (s : Renamer) :
    Sees h f s.resolver ((onHeader h f.header).after (s, f.pool)).1.resolver := by
  unfold onHeader
  rw [Effect.after_bind_of_ok (show (Pass.pool : Renames Pool) (s, f.pool) = .ok f.pool (s, f.pool) from rfl)]
  cases hname : f.header.className f.pool with
  | error e =>
    rw [Effect.after_bind_of_error (Effect.lift_error (s, f.pool))]
    exact Or.inl rfl
  | ok name =>
    rw [Effect.after_bind_of_ok (Effect.lift_eq_ok.mpr ⟨rfl, rfl⟩)]
    cases hparents : f.header.parents f.pool with
    | error e =>
      rw [Effect.after_bind_of_error (Effect.lift_error (s, f.pool))]
      exact Or.inl rfl
    | ok parents =>
      rw [Effect.after_bind_of_ok (Effect.lift_eq_ok.mpr ⟨rfl, rfl⟩)]
      cases hregister : h.register name parents s.resolver with
      | error e r =>
        have hresolve : resolve (h.register name parents) (s, f.pool)
            = .error e ({ s with resolver := r }, f.pool) := by
          simp only [resolve, Effect.onFirst, hregister]
        rw [Effect.after_bind_of_error hresolve]
        refine Sees.asked hname hparents ?_
        rw [Effect.after_of_error hregister]
        exact .refl
      | ok u r =>
        rw [Effect.after_bind_of_ok (resolve_eq_ok.mpr ⟨r, hregister, rfl⟩),
          Effect.after_bind_of_ok (show remember name ({ s with resolver := r }, f.pool)
            = .ok () ({ s with resolver := r, className := name, asRead := f.pool }, f.pool) from rfl)]
        -- From here on the class is registered, and all that follows asks for names.
        have hready : Ready ({ s with resolver := r, className := name, asRead := f.pool }, f.pool) :=
          ⟨hindexed, Pool.Changes.refl _ _⟩
        have hrun := evolves_renameConstants h f.pool.indices hready
        refine Sees.asked hname hparents ?_
        rw [Effect.after_of_ok hregister]
        cases hconstants : renameConstants h f.pool.indices
            ({ s with resolver := r, className := name, asRead := f.pool }, f.pool) with
        | error e s₁ =>
          rw [Effect.after_bind_of_error hconstants]
          rw [Effect.after_of_error hconstants] at hrun
          exact hrun.resolver
        | ok v s₁ =>
          rw [Effect.after_bind_of_ok hconstants]
          rw [Effect.after_of_ok hconstants] at hrun
          exact hrun.resolver.trans (leaves_headerEnd f.header name s₁ (hready.evolves hrun)).1.resolver

/-- What follows a header redirects nothing and only asks for names. -/
theorem leaves_body {τ : Type} (header : Header) (events : ClassEvents) (sink : Sink τ) (t : τ) :
    Leaves h ∅ (do
      let t ← Sink.give (sink.onHeader header) t
      let t ← ClassEvents.deliverItems [stage h] sink t events.items
      if let some e := events.stop? then throw e
      Stage.threadEnd [stage h]
      Sink.give (sink.onEnd (← Pass.pool)) t) fun _ _ => True := by
  have hend (t : τ) : Leaves h ∅ (do
      Stage.threadEnd [stage h]
      Sink.give (sink.onEnd (← Pass.pool)) t) fun _ _ => True :=
    (((Leaves.pure ()).bind fun _ => Leaves.pure ()).bind fun _ => leaves_pool.bind fun p =>
      leaves_give (sink.onEnd p) t).mono fun _ _ _ _ => trivial
  refine ((leaves_give (sink.onHeader header) t).bind fun t =>
    (leaves_deliverItems h sink events.items t).bind fun t =>
      (?_ : Leaves h ∅ _ fun _ _ => True)).mono fun _ _ _ _ => trivial
  cases events.stop? with
  | none => exact hend t
  | some e => exact ((Leaves.throw e).bind fun _ => hend t).mono fun _ _ _ _ => trivial

theorem sees_deliverAll {τ : Type} {bytes : Bytes} {f : ClassFile} (hf : ClassFile.ofBytes bytes = .ok f)
    (flags : ReaderFlags) (sink : Sink τ) (t : τ) (s : Renamer) :
    Sees h f s.resolver (((f.events flags).deliverAll [stage h] sink t).after (s, f.pool)).1.resolver := by
  have hsees := sees_onHeader (h := h) (ClassFile.indexed_of_ofBytes hf).1 s
  have hheader : Stage.thread Stage.onHeader [stage h] (f.events flags).header = onHeader h f.header := by
    rw [f.header_events flags, Stage.thread_one]
    rfl
  unfold ClassEvents.deliverAll
  rw [hheader]
  cases hh : onHeader h f.header (s, f.pool) with
  | error e s₁ =>
    rw [Effect.after_of_error hh] at hsees
    rw [Effect.after_bind_of_error hh]
    exact hsees
  | ok header s₁ =>
    rw [Effect.after_bind_of_ok hh]
    obtain ⟨-, hentered⟩ := entered_of_onHeader hf hh
    obtain ⟨parents, hparents, hasked⟩ := hentered.registered
    exact Sees.asked hentered.className hparents
      (hasked.trans (leaves_body header _ sink t s₁ hentered.redirected.ready).1.resolver)

end Renamer

/-! ## The pipeline that renames -/

namespace Pipeline

/-- The pipeline with the renaming stage alone. -/
def renamer (names? : Option ClassNames) (h : Hierarchy) : Pipeline Renamer :=
  ⟨names?, [Transformer.rename h (Lens.whole Renamer)]⟩

variable {names? : Option ClassNames} {h : Hierarchy}

theorem run_rename (f : ClassFile) (name newName : String) (readerFlags : ReaderFlags)
    (writerFlags : WriterFlags) :
    run f name newName [Transformer.rename h (Lens.whole Renamer)] readerFlags writerFlags
      = (f.events readerFlags).deliver [Renamer.stage h] ClassWriter.sink (.new writerFlags) := by
  have hstages : Transformer.makeStages name newName [] [Transformer.rename h (Lens.whole Renamer)]
      = pure [Renamer.stage h] := by
    simp only [Transformer.makeStages, Transformer.rename, pure_bind, Stage.zoom_whole, List.reverse_cons,
      List.reverse_nil, List.nil_append]
  unfold run
  rw [hstages, pure_bind]
  rfl

/-- What a pipeline gives for a class once a writer received it. -/
def finish (name : String) (w : ClassWriter) : Effect Renamer TransformedClass :=
  match w.name? with
  | none => throw (.classFile (.nothingWritten name))
  | some written => return ⟨name, written, ← w.bytes, true, .expandFrames, w.flags⟩

theorem finish_eq_ok {name : String} {w : ClassWriter} {s s' : Renamer} {out : TransformedClass}
    (hf : finish name w s = .ok out s') : w.bytes = .ok out.bytes ∧ s = s' := by
  unfold finish at hf
  cases hwritten : w.name? with
  | none =>
    simp only [hwritten] at hf
    cases hf
  | some written =>
    simp only [hwritten] at hf
    obtain ⟨bytes, s₁, hx, hf⟩ := Effect.bind_eq_ok.mp hf
    obtain ⟨hbytes, rfl⟩ := Effect.lift_eq_ok.mp hx
    obtain ⟨rfl, rfl⟩ := Effect.pure_eq_ok.mp hf
    exact ⟨hbytes, rfl⟩

theorem after_finish (name : String) (w : ClassWriter) (s : Renamer) : (finish name w).after s = s := by
  unfold finish
  cases w.name? with
  | none => rfl
  | some written => exact (Effect.after_bind_of_still (fun _ _ => rfl) s).trans (Effect.after_lift _ s)

/-- What the renaming pipeline does to a class. -/
theorem transform_renamer (bytes : Bytes) : (renamer names? h).transform bytes = (do
    let f ← ClassFile.ofBytes bytes
    let name ← f.className
    let w ← (f.events .expandFrames).deliver [Renamer.stage h] ClassWriter.sink (.new .none)
    finish name w) := by
  unfold transform
  refine bind_congr fun f => bind_congr fun name => ?_
  have hts : ((renamer names? h).transformers.filter fun t =>
      t.appliesTo name ((renamer names? h).newName name)) = [Transformer.rename h (Lens.whole Renamer)] := rfl
  have hreader : ReaderFlags.none.union (Transformer.rename h (Lens.whole Renamer)).readerFlags
      = .expandFrames := by
    change ReaderFlags.none.union .expandFrames = .expandFrames
    decide
  have hwriter : WriterFlags.none.union (Transformer.rename h (Lens.whole Renamer)).writerFlags
      = .none := by
    change WriterFlags.none.union .none = .none
    decide
  simp only [hts, List.isEmpty_cons, Bool.false_eq_true, if_false, List.foldl_cons, List.foldl_nil, hreader,
    hwriter, run_rename]
  rfl

theorem deliver_of_transform {bytes : Bytes} {s s' : Renamer} {out : TransformedClass}
    (ht : (renamer names? h).transform bytes s = .ok out s') :
    ∃ f w, ClassFile.ofBytes bytes = .ok f ∧
      (f.events .expandFrames).deliver [Renamer.stage h] ClassWriter.sink (.new .none) s = .ok w s' ∧
      w.bytes = .ok out.bytes := by
  rw [transform_renamer] at ht
  obtain ⟨f, s₁, hx, ht⟩ := Effect.bind_eq_ok.mp ht
  obtain ⟨hf, rfl⟩ := Effect.lift_eq_ok.mp hx
  obtain ⟨name, s₁, hx, ht⟩ := Effect.bind_eq_ok.mp ht
  obtain ⟨-, rfl⟩ := Effect.lift_eq_ok.mp hx
  obtain ⟨w, s₁, hw, ht⟩ := Effect.bind_eq_ok.mp ht
  obtain ⟨hbytes, rfl⟩ := finish_eq_ok ht
  exact ⟨f, w, hf, hw, hbytes⟩

theorem after_transform_of_error {bytes : Bytes} {e : Error} (hf : ClassFile.ofBytes bytes = .error e)
    (s : Renamer) : ((renamer names? h).transform bytes).after s = s := by
  rw [transform_renamer, hf, Effect.after_bind_of_error (Effect.lift_error s)]

theorem sees_transform {bytes : Bytes} {f : ClassFile} (hf : ClassFile.ofBytes bytes = .ok f) (s : Renamer) :
    Renamer.Sees h f s.resolver (((renamer names? h).transform bytes).after s).resolver := by
  obtain ⟨-, name, hname⟩ := ClassFile.ofBytes_eq_ok hf
  rw [transform_renamer, hf, Effect.after_bind_of_ok (Effect.lift_eq_ok.mpr ⟨rfl, rfl⟩), hname,
    Effect.after_bind_of_ok (Effect.lift_eq_ok.mpr ⟨rfl, rfl⟩), Effect.after_bind_of_still (after_finish name),
    ClassEvents.after_deliver, f.pool_events]
  exact Renamer.sees_deliverAll hf .expandFrames ClassWriter.sink (.new .none) s

/-! ## Sequences -/

/-- The state before the class at a place of a sequence. Classes that failed left their traces. -/
def before {σ : Type} (p : Pipeline σ) (classes : List Bytes) (s : σ) (i : Nat) : σ :=
  (classes.take i).foldl (fun s bytes => (p.transform bytes).after s) s

theorem before_succ {σ : Type} (p : Pipeline σ) {classes : List Bytes} (s : σ) {i : Nat} {bytes : Bytes}
    (hi : classes[i]? = some bytes) :
    p.before classes s (i + 1) = (p.transform bytes).after (p.before classes s i) := by
  unfold before
  rw [List.take_add_one, hi, List.foldl_append]
  rfl

theorem before_succ_of_none {σ : Type} (p : Pipeline σ) {classes : List Bytes} (s : σ) {i : Nat}
    (hi : classes[i]? = none) : p.before classes s (i + 1) = p.before classes s i := by
  unfold before
  rw [List.take_add_one, hi, Option.toList_none, List.append_nil]

/-- A name that was given for a member is given ever after, until its owner comes by. -/
theorem gives_before {classes : List Bytes} {s : Renamer} {i k : Nat} (hik : i ≤ k) {kind : MemberKind}
    {owner n d n' : String}
    (hg : h.Gives ((renamer names? h).before classes s i).resolver kind owner n d n')
    (hother : ∀ j bytes f, i ≤ j → j < k → classes[j]? = some bytes → ClassFile.ofBytes bytes = .ok f →
      f.className ≠ .ok owner) :
    h.Gives ((renamer names? h).before classes s k).resolver kind owner n d n' := by
  -- Every class on the way leaves the tables of the owner alone, whether or not it comes through.
  induction k, hik using Nat.le_induction with
  | base => exact hg
  | succ k hik ih =>
    have hk := ih fun j bytes f hij hjk => hother j bytes f hij (Nat.lt_succ_of_lt hjk)
    cases hc : classes[k]? with
    | none =>
      rw [before_succ_of_none _ s hc]
      exact hk
    | some bytes =>
      rw [before_succ _ s hc]
      cases hf : ClassFile.ofBytes bytes with
      | error e =>
        rw [after_transform_of_error hf]
        exact hk
      | ok f =>
        obtain ⟨-, name, hname⟩ := ClassFile.ofBytes_eq_ok hf
        refine hk.grows ((sees_transform hf _).grows hname) ?_
        rintro rfl
        exact hother k bytes f hik (Nat.lt_succ_self k) hc hf hname

/-- The first classes of a sequence have the supertypes that a hierarchy gives them. -/
def HeadersAgree (classes : List Bytes) (A : Ancestry) (F S : Set String) (k : Nat) : Prop :=
  ∀ (j : Nat) (bytes : Bytes) (f : ClassFile) (name : String) (parents : List String), j < k →
    classes[j]? = some bytes → ClassFile.ofBytes bytes = .ok f → f.className = .ok name →
    f.parents = .ok parents → name ∈ S → name ∉ F ∧ A.parents[name]? = some parents

theorem HeadersAgree.mono {classes : List Bytes} {A : Ancestry} {F S : Set String} {k l : Nat}
    (hl : HeadersAgree classes A F S l) (hkl : k ≤ l) : HeadersAgree classes A F S k :=
  fun j bytes f name parents hj => hl j bytes f name parents (Nat.lt_of_lt_of_le hj hkl)

/-- The invariant of the resolver along a sequence. -/
theorem settled_before {A : Ancestry} {F S : Set String} (hf : h.provider.Follows A F S)
    {classes : List Bytes} {k : Nat} (hheaders : HeadersAgree classes A F S k) :
    h.Settled A F S ((renamer names? h).before classes (.ofResolver .empty) k).resolver := by
  induction k with
  | zero => exact Hierarchy.settled_empty
  | succ k ih =>
    have hk := ih (hheaders.mono (Nat.le_succ k))
    cases hc : classes[k]? with
    | none =>
      rw [before_succ_of_none _ _ hc]
      exact hk
    | some bytes =>
      rw [before_succ _ _ hc]
      cases hfile : ClassFile.ofBytes bytes with
      | error e =>
        rw [after_transform_of_error hfile]
        exact hk
      | ok f =>
        refine (sees_transform hfile _).settled hf hk fun name parents => ?_
        exact hheaders k bytes f name parents (Nat.lt_succ_self k) hc hfile

end Pipeline

/-! ## Declarations and references -/

/-- Fields and methods are told apart by their descriptors. -/
theorem ClassNames.head?_of_translateMember {names : ClassNames} {kind : MemberKind} {d d' : String}
    (hd : names.translateMember kind d = .ok d') : d.toList.head? = some '(' ↔ kind ≠ .field := by
  cases kind with
  | field =>
    obtain ⟨t, ⟨rfl, ht⟩, -⟩ := Descriptor.renameField_eq_ok.mp hd
    exact iff_of_false (FieldType.head?_toString ht) fun hne => hne rfl
  | method | interfaceMethod =>
    obtain ⟨t, ⟨rfl, -⟩, -⟩ := Descriptor.renameMethod_eq_ok.mp hd
    exact iff_of_true t.head?_toString (by simp)

/-- A class has one kind of member for a descriptor, so a reference with the descriptor of a declaration
asks for the same name. -/
theorem Hierarchy.Gives.of_descriptor {h : Hierarchy} {r : Resolver} {kind kind' : MemberKind}
    {o n d n' d₁ d₂ : String} (hg : h.Gives r kind' o n d n')
    (h₁ : h.renames.classes.translateMember kind d = .ok d₁)
    (h₂ : h.renames.classes.translateMember kind' d = .ok d₂) : h.Gives r kind o n d n' := by
  have hkinds := (ClassNames.head?_of_translateMember h₁).symm.trans (ClassNames.head?_of_translateMember h₂)
  cases kind <;> cases kind' <;> first | exact hg | simp at hkinds

/-- The member at a place of a model, with its name and its descriptor. -/
inductive ClassModel.Declares (m : ClassModel) (j : Nat) : MemberKind → String → String → Prop where
  | field {f : Member} {name descriptor : String} : m.fields[j]? = some f →
      f.nameIn m.pool = .ok name → f.descriptorIn m.pool = .ok descriptor →
      Declares m j .field name descriptor
  | method {f : Member} {name descriptor : String} : m.methods[j]? = some f →
      f.nameIn m.pool = .ok name → f.descriptorIn m.pool = .ok descriptor →
      Declares m j .method name descriptor

/-- The member at a place. -/
def ClassModel.member? (m : ClassModel) (j : Nat) : MemberKind → Option Member
  | .field => m.fields[j]?
  | .method => m.methods[j]?
  | .interfaceMethod => none

theorem ClassModel.declares_iff {m : ClassModel} {j : Nat} {kind : MemberKind} {name descriptor : String} :
    m.Declares j kind name descriptor ↔ (m.member? j kind).any (fun f => f.nameIn m.pool = .ok name ∧
      f.descriptorIn m.pool = .ok descriptor) = true := by
  simp only [Option.any_eq_true, decide_eq_true_eq]
  constructor
  · rintro (⟨hf, hn, hd⟩ | ⟨hf, hn, hd⟩) <;> exact ⟨_, hf, hn, hd⟩
  · cases kind with
    | field =>
      rintro ⟨f, hf, hn, hd⟩
      exact .field hf hn hd
    | method =>
      rintro ⟨f, hf, hn, hd⟩
      exact .method hf hn hd
    | interfaceMethod =>
      rintro ⟨f, hf, -⟩
      cases hf

instance (m : ClassModel) (j : Nat) (kind : MemberKind) (name descriptor : String) :
    Decidable (m.Declares j kind name descriptor) :=
  decidable_of_iff' _ ClassModel.declares_iff

namespace Renamer

theorem MemberImage.gives {h : Hierarchy} {kind : MemberKind} {t : Renamer × Pool} {m m' : Member}
    (hm : MemberImage h kind t.2 t m m') (hchanges : Pool.Changes Set.univ t.1.asRead t.2) {n d n' : String}
    (hn : t.1.asRead.utf8 m.name = .ok n) (hd : t.1.asRead.utf8 m.descriptor = .ok d)
    (hn' : t.2.utf8 m'.name = .ok n') :
    h.Gives t.1.resolver kind t.1.className n d n' ∧
      ∃ d', h.renames.classes.translateMember kind d = .ok d' := by
  obtain ⟨name, descriptor, newName, newDescriptor, hname, hdescriptor, hgives, htranslate, hreplaces, -⟩ :=
    hm.names
  obtain rfl : n = name := Except.ok.inj ((hchanges.utf8 hn).symm.trans hname)
  obtain rfl : d = descriptor := Except.ok.inj ((hchanges.utf8 hd).symm.trans hdescriptor)
  obtain rfl : n' = newName := Except.ok.inj (hn'.symm.trans hreplaces.1)
  exact ⟨hgives, newDescriptor, htranslate⟩

/-- What a declared member is called is what the resolver calls it in its class. -/
theorem gives_of_declares {h : Hierarchy} {f : ClassFile} {r : Resolver} {s : Renamer} {m m' : ClassModel}
    (hs : Entered h f r (s, m'.pool)) (hpool : m.pool = f.pool) (hm : ModelImage h m'.pool (s, m'.pool) m m')
    {j : Nat} {kind : MemberKind} {n d n' d' : String} (hread : m.Declares j kind n d)
    (hwritten : m'.Declares j kind n' d') :
    h.Gives s.resolver kind s.className n d n' ∧
      ∃ d', h.renames.classes.translateMember kind d = .ok d' := by
  have himage {R : Member → Member → Prop} {fs fs' : Array Member} {f f' : Member}
      (hfs : List.Forall₂ R fs.toList fs'.toList) (hf : fs[j]? = some f) (hf' : fs'[j]? = some f') :
      R f f' := by
    obtain ⟨hlt, rfl⟩ := Array.getElem?_eq_some_iff.mp hf
    obtain ⟨hlt', rfl⟩ := Array.getElem?_eq_some_iff.mp hf'
    exact hfs.get hlt hlt'
  have hchanges := hs.redirected.ready.changes
  have hasRead : m.pool = s.asRead := hpool.trans hs.asRead.symm
  cases hread with
  | field hf hn hd =>
    rw [hasRead] at hn hd
    cases hwritten with
    | field hf' hn' _ => exact (himage hm.fields hf hf').gives hchanges hn hd hn'
  | method hf hn hd =>
    rw [hasRead] at hn hd
    cases hwritten with
    | method hf' hn' _ => exact (himage hm.methods hf hf').gives hchanges hn hd hn'

/-- What a reference is called is what the resolver calls the member it meant. -/
theorem gives_of_memberRef {h : Hierarchy} {f : ClassFile} {r : Resolver} {t : Renamer × Pool}
    (ht : Entered h f r t) {i : UInt16} {m : Pool.MemberRef} (hm : f.pool.memberRef i = .ok m) :
    ∃ kind m', t.2.memberRef i = .ok m' ∧
      h.Gives t.1.resolver kind m.owner m.name m.descriptor m'.name ∧
      h.renames.classes.translateMember kind m.descriptor = .ok m'.descriptor := by
  obtain ⟨kind, owner, nt, hslot, -, -⟩ := Pool.memberRef_eq_ok.mp hm
  obtain ⟨m₀, newOwner, newName, newDescriptor, hm₀, -, hgives, htranslate, -, hwritten⟩ :=
    ht.poolImage.member i kind owner nt hslot
  rw [hm] at hm₀
  obtain rfl := Except.ok.inj hm₀
  exact ⟨kind, _, hwritten, hgives, htranslate⟩

/-- A class collected into a model behind the renaming stage. -/
def model (h : Hierarchy) (bytes : Bytes) : Effect Renamer ClassModel := do
  let f ← ClassFile.ofBytes bytes
  ClassModel.read f [stage h] .expandFrames

end Renamer

def Ancestry.empty : Ancestry where
  parents := ∅
  acyclic name hcycle := by
    obtain ⟨p, hfirst, -⟩ := Relation.TransGen.head'_iff.mp hcycle
    simp [Extends] at hfirst

/-- A provider that does not have a class follows the hierarchy without classes there. -/
theorem ClassProvider.follows_empty {p : ClassProvider} {name : String} (hp : p.parents? name = .ok none) :
    p.Follows .empty ∅ {name} where
  closed o _ q hq := by simp [Ancestry.parentsOf, Ancestry.empty] at hq
  fails _ _ ho := absurd ho (Set.notMem_empty _)
  answers o ho _ := by
    rw [Set.mem_singleton_iff.mp ho, hp]
    simp [Ancestry.empty]

theorem Hierarchy.nameIn_empty (h : Hierarchy) (kind : MemberKind) (owner n d : String) :
    h.nameIn .empty kind owner n d = n := by
  rw [nameIn, entry_of_unknown (by simp [Ancestry.empty])]
  split <;> rfl

namespace Pipeline

/-- A class that came through is a model whose image was written. -/
theorem models_of_transform {names? : Option ClassNames} {h : Hierarchy} {bytes : Bytes} {s s' : Renamer}
    {out : TransformedClass} (ht : (renamer names? h).transform bytes s = .ok out s') :
    ∃ m m' f, ClassModel.parse bytes = .ok m ∧ Renamer.model h bytes s = .ok m' s' ∧
      m'.toBytes = .ok out.bytes ∧ ClassFile.ofBytes bytes = .ok f ∧ m.pool = f.pool ∧
      m.header = f.header ∧ Renamer.Entered h f s.resolver (s', m'.pool) ∧
      Renamer.ModelImage h m'.pool (s', m'.pool) m m' := by
  obtain ⟨f, w, hf, hw, hbytes⟩ := deliver_of_transform ht
  obtain ⟨m', hread, bytes', hbytes', htoBytes⟩ := ClassWriter.read_of_deliver hw
  obtain ⟨hentered, m, hm, hpool, hheader, himage⟩ := Renamer.modelImage_of_read hf hread
  obtain rfl := Except.ok.inj (hbytes.symm.trans hbytes')
  refine ⟨m, m', f, ?_, ?_, htoBytes, hf, hpool, hheader, hentered, himage⟩
  · have hplain : ClassModel.read f ([] : List (Stage Unit)) .none () = .ok m () := by
      unfold ClassModel.read at hm ⊢
      rw [← f.events_expandFrames]
      exact hm
    simp only [ClassModel.parse, hf, bind, Except.bind, Effect.outcome, hplain]
  · exact Effect.bind_eq_ok.mpr ⟨f, s, Effect.lift_eq_ok.mpr ⟨hf, rfl⟩, hread⟩

/-- **References and declarations.** In a sequence of classes with different names, each of which is
renamed with what the resolver knows by then, a reference to a member that some class declares is written

* with the name of the declaration, if the class with the reference does not come before the one with the
  declaration;
* with the name it had, if it comes before and the provider does not have the declaring class;
* with the name by the hierarchy that the provider shows of the declaring class and the classes above it,
  if no header so far says otherwise;
* with the name of the declaration in any order, if no header up to the declaration says otherwise. -/
theorem reference_of_declaration {names? : Option ClassNames} {h : Hierarchy} {classes : List Bytes}
    (hdistinct : ∀ (i j : Nat) (x y : Bytes) (f g : ClassFile), i ≠ j → classes[i]? = some x →
      classes[j]? = some y → ClassFile.ofBytes x = .ok f → ClassFile.ofBytes y = .ok g →
      f.className ≠ g.className)
    {a b : Nat} {bytesA bytesB : Bytes} (ha : classes[a]? = some bytesA) (hb : classes[b]? = some bytesB)
    {outA outB : TransformedClass} {sA sB : Renamer}
    (hA : (renamer names? h).transform bytesA ((renamer names? h).before classes (.ofResolver .empty) a)
      = .ok outA sA)
    (hB : (renamer names? h).transform bytesB ((renamer names? h).before classes (.ofResolver .empty) b)
      = .ok outB sB) :
    ∃ (A B A' B' : ClassModel) (owner : String),
      ClassModel.parse bytesA = .ok A ∧ ClassModel.parse bytesB = .ok B ∧ B.className = .ok owner ∧
      Renamer.model h bytesA ((renamer names? h).before classes (.ofResolver .empty) a) = .ok A' sA ∧
      Renamer.model h bytesB ((renamer names? h).before classes (.ofResolver .empty) b) = .ok B' sB ∧
      A'.toBytes = .ok outA.bytes ∧ B'.toBytes = .ok outB.bytes ∧
      ∀ (j : Nat) (kind : MemberKind) (n d n' d' : String) (i : UInt16), B.Declares j kind n d →
        B'.Declares j kind n' d' → A.pool.memberRef i = .ok ⟨owner, n, d⟩ →
        ∃ m, A'.pool.memberRef i = .ok m ∧
          (b ≤ a → m.name = n') ∧
          (a < b → h.provider.parents? owner = .ok none → m.name = n) ∧
          (∀ (H : Ancestry) (F S : Set String), h.provider.Follows H F S → owner ∈ S →
            HeadersAgree classes H F S (a + 1) → m.name = h.nameIn H kind owner n d) ∧
          (∀ (H : Ancestry) (F S : Set String), h.provider.Follows H F S → owner ∈ S →
            HeadersAgree classes H F S (b + 1) → m.name = n') := by
  obtain ⟨A, A', fA, hparseA, hmodelA, hbytesA, hfA, hpoolA, -, henteredA, -⟩ := models_of_transform hA
  obtain ⟨B, B', fB, hparseB, hmodelB, hbytesB, hfB, hpoolB, hheaderB, henteredB, himageB⟩ :=
    models_of_transform hB
  have hbeforeA : (renamer names? h).before classes (.ofResolver .empty) (a + 1) = sA := by
    rw [before_succ _ _ ha, Effect.after_of_ok hA]
  have hbeforeB : (renamer names? h).before classes (.ofResolver .empty) (b + 1) = sB := by
    rw [before_succ _ _ hb, Effect.after_of_ok hB]
  have hname : B.className = .ok sB.className := by
    rw [ClassModel.className, hheaderB, hpoolB]
    exact henteredB.className
  refine ⟨A, B, A', B', sB.className, hparseA, hparseB, hname, hmodelA, hmodelB, hbytesA, hbytesB, ?_⟩
  intro j kind n d n' d' i hread hwritten href
  rw [hpoolA] at href
  obtain ⟨hdeclared, d₁, hd₁⟩ := Renamer.gives_of_declares henteredB hpoolB himageB hread hwritten
  obtain ⟨kind', m, hm, hgives, hd₂⟩ := Renamer.gives_of_memberRef henteredA href
  have hreferred : h.Gives sA.resolver kind sB.className n d m.name := hgives.of_descriptor hd₁ hd₂
  -- No other class of the sequence has the name of the declaring one.
  have hother (k : Nat) (bytes : Bytes) (f : ClassFile) (hk : k ≠ b) (hc : classes[k]? = some bytes)
      (hf : ClassFile.ofBytes bytes = .ok f) : f.className ≠ .ok sB.className := by
    rw [← henteredB.className]
    exact hdistinct k b bytes bytesB f fB hk hc hb hf hfB
  have hlater (hba : b ≤ a) : m.name = n' := by
    have hgiven : h.Gives sA.resolver kind sB.className n d n' := by
      rw [← hbeforeA]
      refine gives_before (Nat.succ_le_succ hba) ?_ fun k bytes f hbk _ => hother k bytes f (by omega)
      rw [hbeforeB]
      exact hdeclared
    exact hreferred.unique hgiven
  have hnamed (H : Ancestry) (F S : Set String) (hf : h.provider.Follows H F S) (howner : sB.className ∈ S)
      (hheaders : HeadersAgree classes H F S (a + 1)) : m.name = h.nameIn H kind sB.className n d := by
    have hsettled : h.Settled H F S sA.resolver := by
      rw [← hbeforeA]
      exact settled_before hf hheaders
    exact hsettled.name_of_gives howner hreferred
  refine ⟨m, hm, hlater, fun hab hnone => ?_, hnamed, fun H F S hf howner hheaders => ?_⟩
  · -- A provider without the class follows the empty hierarchy, in which no member has another name.
    rw [hnamed .empty ∅ {sB.className} (ClassProvider.follows_empty hnone) (Set.mem_singleton _)]
    · exact h.nameIn_empty kind sB.className n d
    · intro k bytes f name parents hk hc hf hname _ hmem
      rw [Set.mem_singleton_iff.mp hmem] at hname
      exact absurd hname (hother k bytes f (by omega) hc hf)
  · rcases Nat.lt_or_ge a b with hab | hba
    · -- Both names are given by the same hierarchy.
      have hsettled : h.Settled H F S sB.resolver := by
        rw [← hbeforeB]
        exact settled_before hf hheaders
      rw [hnamed H F S hf howner (hheaders.mono (by omega)), hsettled.name_of_gives howner hdeclared]
    · exact hlater hba

/-- A class `A` with a reference to the method `m` of `B`. -/
def callerBytes : Bytes :=
  [0xCA, 0xFE, 0xBA, 0xBE, 0, 0, 0, 52, 0, 9, 7, 0, 2, 1, 0, 1, 65, 7, 0, 4, 1, 0, 1, 66, 10, 0, 3, 0, 6,
    12, 0, 7, 0, 8, 1, 0, 1, 109, 1, 0, 3, 40, 41, 86, 0, 33, 0, 1, 0, 0, 0, 0, 0, 0, 0, 0, 0, 0]

/-- A class `B` with a method `m`. -/
def calleeBytes : Bytes :=
  [0xCA, 0xFE, 0xBA, 0xBE, 0, 0, 0, 52, 0, 5, 7, 0, 2, 1, 0, 1, 66, 1, 0, 1, 109, 1, 0, 3, 40, 41, 86,
    0, 33, 0, 1, 0, 0, 0, 0, 0, 0, 0, 1, 0, 0, 0, 3, 0, 4, 0, 0, 0, 0]

/-- The method `m` of `B` is called `n`, and the provider has no classes. -/
def callHierarchy : Hierarchy where
  renames :=
    { classes := .empty
      methods := (∅ : Dict MemberRow).insert "B" ((∅ : Dict String).insert "m()V" "n")
      fields := ∅
      access := ∅ }
  provider := .ofFiles ∅

def callerState : Renamer :=
  ((renamer none callHierarchy).transform callerBytes).after (.ofResolver .empty)

theorem transform_caller : (renamer none callHierarchy).transform callerBytes (.ofResolver .empty)
    = .ok ⟨"A", "A", callerBytes, true, .expandFrames, .none⟩ callerState :=
  Effect.eq_ok_of_outcome (by decide +kernel)

/-- A class `B` with a method `n`. -/
def calleeWritten : Bytes :=
  [0xCA, 0xFE, 0xBA, 0xBE, 0, 0, 0, 52, 0, 6, 7, 0, 2, 1, 0, 1, 66, 1, 0, 1, 109, 1, 0, 3, 40, 41, 86,
    1, 0, 1, 110, 0, 33, 0, 1, 0, 0, 0, 0, 0, 0, 0, 1, 0, 0, 0, 5, 0, 4, 0, 0, 0, 0]

def calleeState : Renamer :=
  ((renamer none callHierarchy).transform calleeBytes).after callerState

theorem transform_callee : (renamer none callHierarchy).transform calleeBytes callerState
    = .ok ⟨"B", "B", calleeWritten, true, .expandFrames, .none⟩ calleeState :=
  Effect.eq_ok_of_outcome (by decide +kernel)

theorem calls_distinct (i j : Nat) (x y : Bytes) (f g : ClassFile) (hij : i ≠ j)
    (hx : [callerBytes, calleeBytes][i]? = some x) (hy : [callerBytes, calleeBytes][j]? = some y)
    (hf : ClassFile.ofBytes x = .ok f) (hg : ClassFile.ofBytes y = .ok g) : f.className ≠ g.className := by
  have hcaller {f : ClassFile} (hf : ClassFile.ofBytes callerBytes = .ok f) : f.className = .ok "A" := by
    have hname : (ClassFile.ofBytes callerBytes).bind ClassFile.className = .ok "A" := rfl
    rw [hf] at hname
    exact hname
  have hcallee {f : ClassFile} (hf : ClassFile.ofBytes calleeBytes = .ok f) : f.className = .ok "B" := by
    have hname : (ClassFile.ofBytes calleeBytes).bind ClassFile.className = .ok "B" := rfl
    rw [hf] at hname
    exact hname
  match i, j with
  | 0, 0 | 1, 1 => exact absurd rfl hij
  | 0, 1 =>
    obtain rfl := Option.some.inj hx
    obtain rfl := Option.some.inj hy
    rw [hcaller hf, hcallee hg]
    simp
  | 1, 0 =>
    obtain rfl := Option.some.inj hx
    obtain rfl := Option.some.inj hy
    rw [hcallee hf, hcaller hg]
    simp
  | _ + 2, _ => simp at hx
  | _, _ + 2 => simp at hy

/-- The callee is written with the method `n`, but the caller, which came first, still calls `m`. -/
theorem reference_of_call : ∃ A' B' : ClassModel,
    A'.toBytes = .ok callerBytes ∧ B'.toBytes = .ok calleeWritten ∧
      B'.Declares 0 .method "n" "()V" ∧ ∃ m, A'.pool.memberRef 5 = .ok m ∧ m.name = "m" := by
  obtain ⟨A, B, A', B', owner, hparseA, hparseB, hname, -, hmodelB, hbytesA, hbytesB, hall⟩ :=
    reference_of_declaration calls_distinct (a := 0) (b := 1) rfl rfl transform_caller transform_callee
  -- Reading and renaming are functions, so the models of the theorem are the ones that are computed.
  have hcaller : (ClassModel.parse callerBytes).toOption.any (fun A => A.pool.memberRef 5 = .ok ⟨"B", "m", "()V"⟩)
      = true := by decide +kernel
  have hcallee : (ClassModel.parse calleeBytes).toOption.any
      (fun B => B.className = .ok "B" ∧ B.Declares 0 .method "m" "()V") = true := by decide +kernel
  obtain ⟨B₁, hB₁, hwritten⟩ : ∃ B', Renamer.model callHierarchy calleeBytes callerState
      = .ok B' ((Renamer.model callHierarchy calleeBytes).after callerState) ∧ B'.Declares 0 .method "n" "()V" :=
    Effect.exists_of_outcome (by decide +kernel)
  obtain ⟨rfl, -⟩ := EStateM.Result.ok.inj (hB₁.symm.trans hmodelB)
  rw [hparseA] at hcaller
  rw [hparseB] at hcallee
  obtain ⟨howner, hread⟩ := of_decide_eq_true hcallee
  obtain rfl := Except.ok.inj (howner.symm.trans hname)
  obtain ⟨m, hm, -, hbefore, -⟩ :=
    hall 0 .method "m" "()V" "n" "()V" 5 hread hwritten (of_decide_eq_true hcaller)
  exact ⟨A', B₁, hbytesA, hbytesB, hwritten, m, hm, hbefore Nat.one_pos rfl⟩

end Pipeline

end Relabel
