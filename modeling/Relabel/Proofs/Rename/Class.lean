import Relabel.Proofs.Class.Sink
import Relabel.Proofs.Rename.Symbols

/-!
# Renaming a class

A pass over a class renames the pool when the header arrives and the members and attributes after it. The
header makes every slot of the pool stand for its image; what follows only adds names; so at the end,
when the sink receives the pool, all that was said about the pool and about each element holds at once.
-/

set_option autoImplicit false

namespace Relabel

theorem ClassFile.decode_of_ofBytes {bytes : Bytes} {f : ClassFile} (hf : ofBytes bytes = .ok f) :
    ∃ c c', Pool.decode c = .ok (f.pool, c') := by
  obtain ⟨hd, -⟩ := ofBytes_eq_ok hf
  obtain ⟨magic, c₁, -, hd⟩ := Decoder.bind_eq_ok.mp hd
  split at hd
  · exact absurd hd (by simp [Decoder.fail, bind, StateT.bind, Except.bind])
  obtain ⟨minor, c₃, -, hd⟩ := Decoder.bind_eq_ok.mp hd
  obtain ⟨major, c₄, -, hd⟩ := Decoder.bind_eq_ok.mp hd
  obtain ⟨p, c₅, hp, hd⟩ := Decoder.bind_eq_ok.mp hd
  obtain ⟨flags, c₆, -, hd⟩ := Decoder.bind_eq_ok.mp hd
  obtain ⟨this, c₇, -, hd⟩ := Decoder.bind_eq_ok.mp hd
  obtain ⟨super, c₈, -, hd⟩ := Decoder.bind_eq_ok.mp hd
  obtain ⟨interfaces, c₉, -, hd⟩ := Decoder.bind_eq_ok.mp hd
  obtain ⟨hd, -⟩ := Decoder.pure_eq_ok.mp hd
  rw [← (Prod.mk.inj hd).1]
  exact ⟨c₄, c₅, hp⟩

/-- The pool of a class that was read has a right index and fits into sixteen bits. -/
theorem ClassFile.indexed_of_ofBytes {bytes : Bytes} {f : ClassFile} (hf : ofBytes bytes = .ok f) :
    f.pool.Indexed ∧ f.pool.slots.size < 65536 := by
  obtain ⟨c, c', hp⟩ := decode_of_ofBytes hf
  exact Pool.indexed_decode hp

theorem ClassFile.wellFormed_of_ofBytes {bytes : Bytes} {f : ClassFile} (hf : ofBytes bytes = .ok f) :
    f.pool.WellFormed := by
  obtain ⟨c, c', hp⟩ := decode_of_ofBytes hf
  exact (Pool.between_of_decode hp).1

/-- The attributes of an element of the body, at every depth. -/
def ClassItem.within : ClassItem → List Attribute
  | .field m | .method m => m.attributes.flatMap Attribute.within
  | .attr a => a.within

namespace Renamer

open Pool (Changes)

/-! ## Members -/

/-- A member of the class and its image: it is called as the resolver calls it in the class at hand. -/
structure MemberImage (h : Hierarchy) (kind : MemberKind) (read : Pool) (t : Renamer × Pool) (m m' : Member) :
    Prop where
  flags : m'.flags = m.flags
  names : ∃ name descriptor newName newDescriptor,
    read.utf8 m.name = .ok name ∧ read.utf8 m.descriptor = .ok descriptor ∧
    h.Gives t.1.resolver kind t.1.className name descriptor newName ∧
    h.renames.classes.translateMember kind descriptor = .ok newDescriptor ∧
    Replaces t m.name name m'.name newName ∧
    Replaces t m.descriptor descriptor m'.descriptor newDescriptor
  attributes : List.Forall₂ (AttributeImage h read t) m.attributes m'.attributes

variable {h : Hierarchy} {E : Set Nat}

theorem leaves_renamedDeclaration (h : Hierarchy) (kind : MemberKind) (name descriptor : String) :
    Leaves h E (renamedDeclaration h kind name descriptor) fun x t =>
      h.Gives t.1.resolver kind t.1.className name descriptor x.1 ∧
      h.renames.classes.translateMember kind descriptor = .ok x.2 := by
  have heq : renamedDeclaration h kind name descriptor = (do
      let owner ← nameAsRead
      let newName ← resolve (h.memberName kind owner name descriptor)
      return (newName, ← h.renames.classes.translateMember kind descriptor)) := by
    cases kind <;> rfl
  rw [heq]
  refine (leaves_nameAsRead.bind fun owner => (leaves_memberName h kind owner name descriptor).bind
    fun newName => (Leaves.lift (h.renames.classes.translateMember kind descriptor)).bind
      fun newDescriptor => Leaves.pure _).mono ?_
  rintro _ t - ⟨owner, rfl, newName, hgives, newDescriptor, hdescriptor, rfl⟩
  exact ⟨hgives, hdescriptor⟩

theorem leaves_renameMember (h : Hierarchy) (kind : MemberKind) (m : Member) :
    Leaves h ∅ (renameMember h kind m) fun x t => MemberImage h kind t.2 t m x.1 := by
  unfold renameMember
  refine (leaves_pool.bind fun p => (Leaves.lift (m.nameIn p)).bindOf fun name _ hname =>
    (Leaves.lift (m.descriptorIn p)).bindOf fun descriptor _ hdescriptor =>
      (leaves_renamedDeclaration h kind name descriptor).bind fun x =>
        .ofIte ((leaves_replace hname x.1).bind fun nameIndex =>
          .ofIte ((leaves_replace hdescriptor x.2).bind fun descriptorIndex =>
            (leaves_renameAttributes h [] m.attributes).bind fun attributes => Leaves.pure _))).mono ?_
  rintro _ t - ⟨p, hpt, name, hname, descriptor, hdescriptor, ⟨newName, newDescriptor⟩,
    ⟨hgives, htranslate⟩, nameIndex, hn, descriptorIndex, hd, _, ⟨attributes, rfl, hattributes⟩, rfl⟩
  exact ⟨rfl, ⟨name, descriptor, newName, newDescriptor, hpt.utf8 hname, hpt.utf8 hdescriptor, hgives, htranslate,
    hn hpt, hd hpt⟩, hattributes⟩

/-- Counting what was renamed does not change it. -/
theorem leaves_counted {α : Type} (renamed : Bool) (f : RenameStats → RenameStats) (a : α) :
    Leaves h E (do
      if renamed then count f
      return a) fun b _ => b = a := by
  split
  · refine ((leaves_count f).bind fun _ => Leaves.pure a).mono ?_
    rintro b t - ⟨-, -, hb⟩
    exact hb
  · exact Leaves.pure a

theorem leaves_onField (h : Hierarchy) (m : Member) :
    Leaves h ∅ (onField h m) fun m' t => MemberImage h .field t.2 t m m' := by
  unfold onField
  refine ((leaves_renameMember h .field m).bind fun x => leaves_counted x.2 _ x.1).mono ?_
  rintro _ t - ⟨x, hx, rfl⟩
  exact hx

theorem leaves_onMethod (h : Hierarchy) (m : Member) :
    Leaves h ∅ (onMethod h m) fun m' t => MemberImage h .method t.2 t m m' := by
  unfold onMethod
  refine ((leaves_renameMember h .method m).bind fun x => leaves_counted x.2 _ x.1).mono ?_
  rintro _ t - ⟨x, hx, rfl⟩
  exact hx

/-- An element of the body and its image, which is an element of the same kind. -/
inductive ItemImage (h : Hierarchy) (read : Pool) (t : Renamer × Pool) : ClassItem → ClassItem → Prop
  | field {m m' : Member} : MemberImage h .field read t m m' → ItemImage h read t (.field m) (.field m')
  | method {m m' : Member} : MemberImage h .method read t m m' → ItemImage h read t (.method m) (.method m')
  | attr {a a' : Attribute} : AttributeImage h read t a a' → ItemImage h read t (.attr a) (.attr a')

section

variable {kind : MemberKind} {p q : Pool} {t : Renamer × Pool}

theorem MemberImage.carry {m m' : Member} (hm : ∀ x ∈ m.symbols, x.Carries p q)
    (himage : MemberImage h kind p t m m') : MemberImage h kind q t m m' := by
  obtain ⟨hname, hm⟩ := List.forall_mem_cons.mp hm
  obtain ⟨hdescriptor, hm⟩ := List.forall_mem_cons.mp hm
  obtain ⟨name, descriptor, newName, newDescriptor, hn, hd, hrest⟩ := himage.names
  refine ⟨himage.flags, ⟨name, descriptor, newName, newDescriptor, hname name hn, hdescriptor descriptor hd, hrest⟩, ?_⟩
  have hm := List.forall_mem_flatMap.mp hm
  exact forall₂_imp_of_mem (fun a ha _ himage => himage.carry (hm a ha)) himage.attributes

theorem MemberImage.resolves {m m' : Member} (himage : MemberImage h kind p t m m') :
    ∀ x ∈ m.symbols, x.Resolves p := by
  obtain ⟨name, descriptor, _, _, hname, hdescriptor, -⟩ := himage.names
  refine List.forall_mem_cons.mpr ⟨⟨name, hname⟩, List.forall_mem_cons.mpr ⟨⟨descriptor, hdescriptor⟩, ?_⟩⟩
  exact List.forall_mem_flatMap.mpr (forall_mem_of_forall₂ (fun _ _ => AttributeImage.resolves) himage.attributes)

theorem ItemImage.carry {item item' : ClassItem} (hi : ∀ x ∈ item.symbols, x.Carries p q)
    (himage : ItemImage h p t item item') : ItemImage h q t item item' := by
  cases himage with
  | field hm => exact .field (hm.carry hi)
  | method hm => exact .method (hm.carry hi)
  | attr ha => exact .attr (ha.carry hi)

theorem ItemImage.resolves {item item' : ClassItem} (himage : ItemImage h p t item item') :
    ∀ x ∈ item.symbols, x.Resolves p := by
  cases himage with
  | field hm => exact hm.resolves
  | method hm => exact hm.resolves
  | attr ha => exact ha.resolves

theorem ItemImage.within {item item' : ClassItem} (himage : ItemImage h p t item item') :
    List.Forall₂ (AttributeImage h p t) item.within item'.within := by
  cases himage with
  | field hm => exact List.rel_flatMap hm.attributes AttributeImage.within
  | method hm => exact List.rel_flatMap hm.attributes AttributeImage.within
  | attr ha => exact ha.within

end

/-- What is written for an element: its image. The class as read says of what exactly if all symbols resolve there,
and a symbol that does not points past the end of the pool. -/
structure ItemWritten (h : Hierarchy) (asRead : Pool) (t : Renamer × Pool) (item item' : ClassItem) : Prop where
  image : ItemImage h t.2 t item item'
  imageAsRead : ItemImage h asRead t item item' ↔ ∀ x ∈ item.symbols, x.Resolves asRead
  dangling : ∀ x ∈ item.symbols, ¬x.Resolves asRead ↔ x.PointsPast asRead

theorem ItemImage.written {asRead : Pool} {t : Renamer × Pool} {D : Set Nat} (ht : Changes D asRead t.2)
    {item item' : ClassItem} (himage : ItemImage h t.2 t item item') : ItemWritten h asRead t item item' where
  image := himage
  imageAsRead := ⟨ItemImage.resolves, fun hi => himage.carry fun x hx => Symbol.carries_back ht (hi x hx)⟩
  dangling x hx := ⟨(Symbol.resolves_or_pointsPast ht (himage.resolves x hx)).resolve_left,
    Symbol.not_resolves_of_pointsPast⟩

/-! ## The body -/

section Delivery

variable {τ : Type}

theorem leaves_give (event : Effect τ Unit) (t : τ) :
    Leaves h E (Sink.give event t) fun t' _ => event t = .ok () t' := by
  intro s _
  rw [Sink.after_give]
  exact ⟨Evolves.refl ∅ s, fun t' s' hs' u _ => (Sink.give_eq_ok.mp hs').1⟩

open ClassEvents

variable (h) (sink : Sink τ)

/-- A sink receives the image of an element, as if it came without a stage before it. -/
theorem leaves_deliverItem (t : τ) (item : ClassItem) :
    Leaves h ∅ (deliverItem [stage h] sink t item) fun t' u => ∃ item', ItemImage h u.2 u item item' ∧
      ∀ x : Unit × Pool, deliverItem [] sink t item' x = .ok t' x := by
  cases item with
  | field m =>
    have heq : deliverItem [stage h] sink t (.field m) = onField h m >>= fun m' =>
        Sink.give (sink.onField m') t := by
      rw [deliverItem, Stage.thread_one]
      rfl
    rw [heq]
    refine ((leaves_onField h m).bind fun m' => leaves_give (sink.onField m') t).mono ?_
    rintro t' u - ⟨m', hm, ht'⟩
    refine ⟨.field m', ItemImage.field hm, fun x => ?_⟩
    exact Sink.give_eq_ok.mpr ⟨ht', rfl⟩
  | method m =>
    have heq : deliverItem [stage h] sink t (.method m) = onMethod h m >>= fun m' =>
        Sink.give (sink.onMethod m') t := by
      rw [deliverItem, Stage.thread_one]
      rfl
    rw [heq]
    refine ((leaves_onMethod h m).bind fun m' => leaves_give (sink.onMethod m') t).mono ?_
    rintro t' u - ⟨m', hm, ht'⟩
    refine ⟨.method m', ItemImage.method hm, fun x => ?_⟩
    exact Sink.give_eq_ok.mpr ⟨ht', rfl⟩
  | attr a =>
    have heq : deliverItem [stage h] sink t (.attr a) = renameAttribute h a >>= fun a' =>
        Sink.give (sink.onAttribute a') t := by
      rw [deliverItem, Stage.thread_one]
      rfl
    rw [heq]
    refine ((leaves_renameAttribute h a).bind fun a' => leaves_give (sink.onAttribute a') t).mono ?_
    rintro t' u - ⟨a', ha, ht'⟩
    refine ⟨.attr a', ItemImage.attr ha, fun x => ?_⟩
    exact Sink.give_eq_ok.mpr ⟨ht', rfl⟩

theorem leaves_deliverItems (items : List ClassItem) : ∀ t : τ,
    Leaves h ∅ (deliverItems [stage h] sink t items) fun t' u => ∃ items',
      List.Forall₂ (ItemImage h u.2 u) items items' ∧
      ∀ x : Unit × Pool, deliverItems [] sink t items' x = .ok t' x := by
  induction items with
  | nil =>
    intro t
    refine (Leaves.pure t).mono ?_
    rintro _ u - rfl
    exact ⟨[], List.Forall₂.nil, fun x => rfl⟩
  | cons item items ih =>
    intro t
    rw [deliverItems_cons]
    refine ((leaves_deliverItem h sink t item).bind ih).mono ?_
    rintro t' u - ⟨t₁, ⟨item', hitem, hone⟩, items', hitems, hrest⟩
    refine ⟨item' :: items', List.Forall₂.cons hitem hitems, fun x => ?_⟩
    rw [deliverItems, hone]
    exact hrest x

end Delivery

/-! ## The header -/

/-- What a header that came through did: the class was registered and remembered, and all slots of the
pool were redirected. -/
theorem onHeader_eq_ok {h : Hierarchy} {header header' : Header} {s : Renamer} {p : Pool}
    {s' : Renamer × Pool} (hh : onHeader h header (s, p) = .ok header' s') :
    header' = header ∧ ∃ name parents r s₁, header.className p = .ok name ∧
      header.parents p = .ok parents ∧ h.register name parents s.resolver = .ok () r ∧
      renameConstants h p.indices ({ s with resolver := r, className := name, asRead := p }, p)
        = .ok () s₁ ∧ Evolves h ∅ s₁ s' := by
  unfold onHeader at hh
  obtain ⟨q, s₁, hq, hh⟩ := Effect.bind_eq_ok.mp hh
  have hq : EStateM.Result.ok p (s, p) = .ok q s₁ := hq
  obtain ⟨rfl, rfl⟩ := EStateM.Result.ok.inj hq
  obtain ⟨name, s₁, hx, hh⟩ := Effect.bind_eq_ok.mp hh
  obtain ⟨hname, rfl⟩ := Effect.lift_eq_ok.mp hx
  obtain ⟨parents, s₁, hx, hh⟩ := Effect.bind_eq_ok.mp hh
  obtain ⟨hparents, rfl⟩ := Effect.lift_eq_ok.mp hx
  obtain ⟨⟨⟩, s₁, hx, hh⟩ := Effect.bind_eq_ok.mp hh
  obtain ⟨r, hregister, rfl⟩ := resolve_eq_ok.mp hx
  obtain ⟨⟨⟩, s₁, hx, hh⟩ := Effect.bind_eq_ok.mp hh
  obtain ⟨-, rfl⟩ := EStateM.Result.ok.inj hx
  obtain ⟨⟨⟩, s₁, hrun, hh⟩ := Effect.bind_eq_ok.mp hh
  obtain ⟨q, s₂, hq, hh⟩ := Effect.bind_eq_ok.mp hh
  have hq : EStateM.Result.ok s₁.2 s₁ = .ok q s₂ := hq
  obtain ⟨rfl, rfl⟩ := EStateM.Result.ok.inj hq
  obtain ⟨newName, s₂, hx, hh⟩ := Effect.bind_eq_ok.mp hh
  obtain ⟨-, rfl⟩ := Effect.lift_eq_ok.mp hx
  split at hh
  · obtain ⟨⟨⟩, s₂, hx, hh⟩ := Effect.bind_eq_ok.mp hh
    obtain ⟨-, rfl⟩ := EStateM.Result.ok.inj hx
    obtain ⟨rfl, rfl⟩ := Effect.pure_eq_ok.mp hh
    exact ⟨rfl, name, parents, r, s₁, hname, hparents, hregister, hrun,
      ⟨rfl, rfl, .refl, Changes.refl ∅ _, id, id⟩⟩
  · obtain ⟨rfl, rfl⟩ := Effect.pure_eq_ok.mp hh
    exact ⟨rfl, name, parents, r, s₁, hname, hparents, hregister, hrun, Evolves.refl ∅ s₁⟩

/-- What holds after the header of a class that was read: all of its slots are redirected, and the resolver
knows the class and was then asked for names. -/
structure Entered (h : Hierarchy) (f : ClassFile) (r : Resolver) (t : Renamer × Pool) : Prop where
  redirected : Redirected h t
  asRead : t.1.asRead = f.pool
  className : f.className = .ok t.1.className
  wellFormed : t.2.WellFormed
  registered : ∃ parents, f.parents = .ok parents ∧
    h.Asked ((h.register t.1.className parents).after r) t.1.resolver

theorem Entered.evolves {h : Hierarchy} {f : ClassFile} {r : Resolver} {t u : Renamer × Pool}
    (ht : Entered h f r t) (he : Evolves h ∅ t u) : Entered h f r u where
  redirected := ht.redirected.evolves he
  asRead := he.asRead.trans ht.asRead
  className := by
    rw [he.className]
    exact ht.className
  wellFormed := he.wellFormed ht.wellFormed
  registered := by
    obtain ⟨parents, hparents, hasked⟩ := ht.registered
    rw [he.className]
    exact ⟨parents, hparents, hasked.trans he.resolver⟩

theorem entered_of_onHeader {bytes : Bytes} {f : ClassFile} (hf : ClassFile.ofBytes bytes = .ok f)
    {h : Hierarchy} {header' : Header} {s : Renamer} {s' : Renamer × Pool}
    (hh : onHeader h f.header (s, f.pool) = .ok header' s') :
    header' = f.header ∧ Entered h f s.resolver s' := by
  obtain ⟨hindexed, hsize⟩ := ClassFile.indexed_of_ofBytes hf
  obtain ⟨rfl, name, parents, r, s₁, hname, hparents, hregister, hrun, hevolves⟩ := onHeader_eq_ok hh
  have hstart : Ready ({ s with resolver := r, className := name, asRead := f.pool }, f.pool) :=
    ⟨hindexed, Changes.refl _ _⟩
  have hfirst := evolves_renameConstants h f.pool.indices hstart
  rw [Effect.after_of_ok hrun] at hfirst
  have hclass : s₁.1.className = name := hfirst.className
  refine ⟨rfl, Entered.evolves ⟨redirected_of_renameConstants hindexed hsize rfl hrun, hfirst.asRead, ?_,
    hfirst.wellFormed (ClassFile.wellFormed_of_ofBytes hf), ?_⟩ hevolves⟩
  · rw [hclass]
    exact hname
  · rw [hclass]
    refine ⟨parents, hparents, ?_⟩
    rw [Effect.after_of_ok hregister]
    exact hfirst.resolver

/-! ## The pass -/

section Pass

variable {τ : Type} {h : Hierarchy} {sink : Sink τ}

theorem deliverAll_eq_ok {events : ClassEvents} {t t' : τ} {s s' : Renamer × Pool}
    (hd : events.deliverAll [stage h] sink t s = .ok t' s') :
    events.stop? = none ∧ ∃ header s₁ t₁ t₂, onHeader h events.header s = .ok header s₁ ∧
      sink.onHeader header t = .ok () t₁ ∧
      ClassEvents.deliverItems [stage h] sink t₁ events.items s₁ = .ok t₂ s' ∧
      sink.onEnd s'.2 t₂ = .ok () t' := by
  obtain ⟨hstop, header, s₁, t₁, s₂, t₂, hheader, hgive, hitems, hend, hlast⟩ :=
    ClassEvents.deliverAll_eq_ok.mp hd
  rw [Stage.thread_one] at hheader
  have hend : EStateM.Result.ok () s₂ = .ok () s' := hend
  obtain ⟨-, rfl⟩ := EStateM.Result.ok.inj hend
  exact ⟨hstop, header, s₁, t₁, t₂, hheader, hgive, hitems, hlast⟩

theorem entered_of_deliverAll {bytes : Bytes} {f : ClassFile} (hf : ClassFile.ofBytes bytes = .ok f)
    {flags : ReaderFlags} {t t' : τ} {s : Renamer} {s' : Renamer × Pool}
    (hd : (f.events flags).deliverAll [stage h] sink t (s, f.pool) = .ok t' s') :
    (f.events flags).stop? = none ∧ Entered h f s.resolver s' ∧ (∃ t₁, sink.onEnd s'.2 t₁ = .ok () t') ∧
      ∃ items, List.Forall₂ (ItemImage h s'.2 s') (f.events flags).items items ∧
        (⟨s'.2, f.header, items, none⟩ : ClassEvents).deliver ([] : List (Stage Unit)) sink t ()
          = .ok t' () := by
  obtain ⟨hstop, header, s₁, t₁, t₂, hheader, hgive, hitems, hend⟩ := deliverAll_eq_ok hd
  rw [f.header_events flags] at hheader
  obtain ⟨rfl, hentered⟩ := entered_of_onHeader hf hheader
  obtain ⟨hevolves, himages⟩ := leaves_deliverItems h sink (f.events flags).items t₁ s₁
    hentered.redirected.ready
  rw [Effect.after_of_ok hitems] at hevolves
  obtain ⟨items, hforall, hdeliver⟩ := himages t₂ s' hitems s' (Evolves.refl ∅ s')
  exact ⟨hstop, hentered.evolves hevolves, ⟨t₂, hend⟩, items, hforall,
    ClassEvents.deliver_nil.mpr ⟨rfl, rfl, t₁, t₂, hgive, hdeliver ((), s'.2), hend⟩⟩

theorem Entered.poolImage {f : ClassFile} {r : Resolver} {t : Renamer × Pool} (ht : Entered h f r t) :
    PoolImage h t.1.resolver f.pool t.2 := by
  rw [← ht.asRead]
  exact ht.redirected.poolImage

/-- A model and its image, apart from the pool and the header. -/
structure ModelImage (h : Hierarchy) (read : Pool) (t : Renamer × Pool) (m m' : ClassModel) : Prop where
  fields : List.Forall₂ (MemberImage h .field read t) m.fields.toList m'.fields.toList
  methods : List.Forall₂ (MemberImage h .method read t) m.methods.toList m'.methods.toList
  attributes : List.Forall₂ (AttributeImage h read t) m.attributes.toList m'.attributes.toList

open ClassEvents in
theorem ModelImage.deliverItem {read : Pool} {t : Renamer × Pool} {m m' : ClassModel}
    (hm : ModelImage h read t m m') {item item' : ClassItem} (hi : ItemImage h read t item item') (x x' : Unit × Pool) :
    ∃ n n', deliverItem [] ClassModel.sink m item x = .ok n x ∧
      deliverItem [] ClassModel.sink m' item' x' = .ok n' x' ∧ n.header = m.header ∧
      ModelImage h read t n n' := by
  have hpush {α : Type} {R : α → α → Prop} {xs ys : Array α} {a b : α}
      (hxs : List.Forall₂ R xs.toList ys.toList) (hab : R a b) :
      List.Forall₂ R (xs.push a).toList (ys.push b).toList := by
    rw [Array.toList_push, Array.toList_push]
    exact List.rel_append hxs (.cons hab .nil)
  cases hi with
  | field hf => exact ⟨_, _, rfl, rfl, rfl, { hm with fields := hpush hm.fields hf }⟩
  | method hf => exact ⟨_, _, rfl, rfl, rfl, { hm with methods := hpush hm.methods hf }⟩
  | attr ha => exact ⟨_, _, rfl, rfl, rfl, { hm with attributes := hpush hm.attributes ha }⟩

open ClassEvents in
theorem ModelImage.deliverItems {read : Pool} {t : Renamer × Pool} {items items' : List ClassItem}
    (hitems : List.Forall₂ (ItemImage h read t) items items') {m m' : ClassModel} (hm : ModelImage h read t m m')
    (x x' : Unit × Pool) :
    ∃ n n', deliverItems [] ClassModel.sink m items x = .ok n x ∧
      deliverItems [] ClassModel.sink m' items' x' = .ok n' x' ∧ n.header = m.header ∧
      ModelImage h read t n n' := by
  induction hitems generalizing m m' with
  | nil => exact ⟨m, m', rfl, rfl, rfl, hm⟩
  | cons hi hitems ih =>
    obtain ⟨m₁, m₁', hfirst, hfirst', hheader, hm₁⟩ := hm.deliverItem hi x x'
    obtain ⟨n, n', hrest, hrest', hheaders, hn⟩ := ih hm₁
    refine ⟨n, n', ?_, ?_, hheaders.trans hheader, hn⟩
    · rw [deliverItems_cons]
      exact Effect.bind_eq_ok.mpr ⟨m₁, x, hfirst, hrest⟩
    · rw [deliverItems_cons]
      exact Effect.bind_eq_ok.mpr ⟨m₁', x', hfirst', hrest'⟩

/-- A class that can be collected when it is renamed can be collected as it is, and one model is the image
of the other. -/
theorem modelImage_of_read {bytes : Bytes} {f : ClassFile} (hf : ClassFile.ofBytes bytes = .ok f)
    {flags : ReaderFlags} {s s' : Renamer} {m' : ClassModel}
    (hr : ClassModel.read f [stage h] flags s = .ok m' s') :
    Entered h f s.resolver (s', m'.pool) ∧ ∃ m, ClassModel.read f [] flags () = .ok m () ∧
      m.pool = f.pool ∧ m.header = f.header ∧ ModelImage h m'.pool (s', m'.pool) m m' := by
  obtain ⟨p, hd⟩ := ClassEvents.deliver_eq_ok.mp hr
  rw [f.pool_events] at hd
  obtain ⟨hstop, hentered, -, items', himages, hdeliver⟩ := entered_of_deliverAll hf hd
  obtain ⟨-, -, m₁, m₂, hheader, hitems', hend⟩ := ClassEvents.deliver_nil.mp hdeliver
  obtain ⟨-, rfl⟩ := EStateM.Result.ok.inj hheader
  obtain ⟨-, rfl⟩ := EStateM.Result.ok.inj hend
  -- Both models are collected from the header on, one from the elements and one from their images.
  have hblank : ModelImage h p (s', p) { ClassModel.blank with header := f.header }
      { ClassModel.blank with header := f.header } := ⟨.nil, .nil, .nil⟩
  obtain ⟨n, n', hn, hn', hheaders, hm⟩ := hblank.deliverItems himages ((), f.pool) ((), p)
  obtain ⟨rfl, -⟩ := EStateM.Result.ok.inj (hitems'.symm.trans hn')
  refine ⟨hentered, { n with pool := f.pool }, ?_, rfl, hheaders, hm.fields, hm.methods, hm.attributes⟩
  refine ClassEvents.deliver_nil.mpr
    ⟨hstop, rfl, { ClassModel.blank with header := f.header }, n, ?_, ?_, ?_⟩
  · rw [f.header_events]
    rfl
  · rw [f.pool_events]
    exact hn
  · rw [f.pool_events]
    rfl

/-- **The pool of a renamed class.** Once the header came through, every slot of the pool stands for the
image of what it stood for when the class was read, and this stays so whatever elements follow, in
particular in the pool that a sink receives at the end. -/
theorem poolImage_of_onHeader {bytes : Bytes} {f : ClassFile} (hf : ClassFile.ofBytes bytes = .ok f)
    {h : Hierarchy} {header : Header} {s : Renamer} {s' : Renamer × Pool}
    (hh : onHeader h f.header (s, f.pool) = .ok header s') :
    PoolImage h s'.1.resolver f.pool s'.2 ∧
    (∀ {τ : Type} (sink : Sink τ) (t : τ) (items : List ClassItem) (u : Renamer × Pool),
      (ClassEvents.deliverItems [stage h] sink t items).after s' = u →
      PoolImage h u.1.resolver f.pool u.2) ∧
    (∀ {τ : Type} (sink : Sink τ) (flags : ReaderFlags) (t t' : τ) (u : Renamer × Pool),
      (f.events flags).deliverAll [stage h] sink t (s, f.pool) = .ok t' u →
      PoolImage h u.1.resolver f.pool u.2 ∧ ∃ t₁, sink.onEnd u.2 t₁ = .ok () t') := by
  obtain ⟨-, hentered⟩ := entered_of_onHeader hf hh
  refine ⟨hentered.poolImage, ?_, ?_⟩
  · rintro τ sink t items u rfl
    exact (hentered.evolves (leaves_deliverItems h sink items t s' hentered.redirected.ready).1).poolImage
  · intro τ sink flags t t' u hd
    obtain ⟨-, hentered, hend, -⟩ := entered_of_deliverAll hf hd
    exact ⟨hentered.poolImage, hend⟩

/-- A record `A` with a field `a` of type `A`, a component `a` that is annotated with `A(a = {A.class})`, a method
`m` that has a local variable `a`, and references to the field and to the method. -/
def sampleBytes : Bytes :=
  [0xCA, 0xFE, 0xBA, 0xBE, 0, 0, 0, 52, 0, 16, 7, 0, 2, 1, 0, 1, 65, 1, 0, 1, 97, 1, 0, 3, 76, 65, 59, 9, 0, 1,
    0, 6, 12, 0, 3, 0, 4, 10, 0, 1, 0, 8, 12, 0, 9, 0, 10, 1, 0, 1, 109, 1, 0, 3, 40, 41, 86, 1, 0, 4, 67, 111,
    100, 101, 1, 0, 18, 76, 111, 99, 97, 108, 86, 97, 114, 105, 97, 98, 108, 101, 84, 97, 98, 108, 101, 1, 0, 6,
    82, 101, 99, 111, 114, 100, 1, 0, 9, 83, 105, 103, 110, 97, 116, 117, 114, 101, 1, 0, 25, 82, 117, 110, 116,
    105, 109, 101, 86, 105, 115, 105, 98, 108, 101, 65, 110, 110, 111, 116, 97, 116, 105, 111, 110, 115, 0, 33, 0,
    1, 0, 0, 0, 0, 0, 1, 0, 0, 0, 3, 0, 4, 0, 0, 0, 1, 0, 0, 0, 9, 0, 10, 0, 1, 0, 11, 0, 0, 0, 31, 0, 1, 0, 1, 0,
    0, 0, 1, 177, 0, 0, 0, 1, 0, 12, 0, 0, 0, 12, 0, 1, 0, 0, 0, 1, 0, 3, 0, 4, 0, 0, 0, 1, 0, 13, 0, 0, 0, 36, 0,
    1, 0, 3, 0, 4, 0, 2, 0, 14, 0, 0, 0, 2, 0, 4, 0, 15, 0, 0, 0, 14, 0, 1, 0, 4, 0, 1, 0, 3, 91, 0, 1, 99, 0, 4]

def sampleFile : ClassFile := (ClassFile.ofBytes sampleBytes).toOption.get (by decide +kernel)

theorem ofBytes_sample : ClassFile.ofBytes sampleBytes = .ok sampleFile := Effect.eq_ok_get _

/-- `A` is called `B`, its field `a` is called `b`, and its method `m` is called `n`. -/
def sampleHierarchy : Hierarchy where
  renames :=
    { classes := ClassNames.empty.insert "A" "B"
      methods := (∅ : Dict MemberRow).insert "A" ((∅ : Dict String).insert "m()V" "n")
      fields := (∅ : Dict MemberRow).insert "A" ((∅ : Dict String).insert "a:LA;" "b")
      access := ∅ }
  provider := .ofFiles ∅

/-- The renamed sample after its header. -/
def sampleEntered : Renamer × Pool :=
  (onHeader sampleHierarchy sampleFile.header).after (.ofResolver .empty, sampleFile.pool)

/-- In the renamed sample, the class and its members are mentioned by their new names. -/
theorem poolImage_sample :
    PoolImage sampleHierarchy sampleEntered.1.resolver sampleFile.pool sampleEntered.2 ∧
      sampleEntered.2.className 1 = .ok "B" ∧
      sampleEntered.2.memberRef 5 = .ok ⟨"B", "b", "LB;"⟩ ∧ sampleEntered.2.memberRef 7 = .ok ⟨"B", "n", "()V"⟩ := by
  obtain ⟨header, hheader, -⟩ : ∃ header, onHeader sampleHierarchy sampleFile.header
      (.ofResolver .empty, sampleFile.pool) = .ok header sampleEntered ∧ header = sampleFile.header :=
    Effect.exists_of_outcome (by decide +kernel)
  exact ⟨(poolImage_of_onHeader ofBytes_sample hheader).1, by decide +kernel⟩

/-- **The body of a renamed class.** If a class comes through, then its sink receives the header as it was
and the image of each field, method and attribute, in order, and at the end a pool in which all of them are
images. Each is the image of what the class as read says, exactly if all of its symbols resolve there. A symbol
that does not resolve points past the end of the pool as read, and is renamed from whatever was added there. -/
theorem itemImages_of_deliverAll {bytes : Bytes} {f : ClassFile} (hf : ClassFile.ofBytes bytes = .ok f)
    {flags : ReaderFlags} {t t' : τ} {s : Renamer} {s' : Renamer × Pool}
    (hd : (f.events flags).deliverAll [stage h] sink t (s, f.pool) = .ok t' s') :
    (f.events flags).stop? = none ∧ s'.1.asRead = f.pool ∧ f.className = .ok s'.1.className ∧
      ∃ items, List.Forall₂ (ItemWritten h f.pool s') (f.events flags).items items ∧
        (⟨s'.2, f.header, items, none⟩ : ClassEvents).deliver ([] : List (Stage Unit)) sink t ()
          = .ok t' () := by
  obtain ⟨hstop, hentered, -, items, himages, hdeliver⟩ := entered_of_deliverAll hf hd
  have hchanges := hentered.redirected.ready.changes
  rw [hentered.asRead] at hchanges
  exact ⟨hstop, hentered.asRead, hentered.className, items, himages.imp fun _ _ himage => himage.written hchanges,
    hdeliver⟩

/-- The sample when it is renamed. -/
def sampleEnd : Renamer × Pool :=
  ((sampleFile.events .none).deliverAll [stage sampleHierarchy] ClassModel.sink .blank).after
    (.ofResolver .empty, sampleFile.pool)

/-- A class `A` with a field of type `int`, the name of which points past the end of the pool. -/
def danglingBytes : Bytes :=
  [0xCA, 0xFE, 0xBA, 0xBE, 0, 0, 0, 52, 0, 5, 7, 0, 2, 1, 0, 1, 65, 1, 0, 1, 97, 1, 0, 1, 73, 0, 33, 0, 1, 0, 0,
    0, 0, 0, 1, 0, 0, 0, 5, 0, 4, 0, 0, 0, 0, 0, 0]

def danglingFile : ClassFile := (ClassFile.ofBytes danglingBytes).toOption.get (by decide +kernel)

theorem ofBytes_dangling : ClassFile.ofBytes danglingBytes = .ok danglingFile := Effect.eq_ok_get _

/-- That class when it is renamed. -/
def danglingEnd : Renamer × Pool :=
  ((danglingFile.events .none).deliverAll [stage sampleHierarchy] ClassModel.sink .blank).after
    (.ofResolver .empty, danglingFile.pool)

/-- In the sample, every element is the image of what it was. The field without a name comes through as well, is
not the image of anything, and is called like the class, whose new name was the first text that was added. -/
theorem itemImages_sample :
    (∃ m items, List.Forall₂ (ItemImage sampleHierarchy sampleFile.pool sampleEnd) (sampleFile.events .none).items items ∧
      (⟨sampleEnd.2, sampleFile.header, items, none⟩ : ClassEvents).deliver ([] : List (Stage Unit)) ClassModel.sink
        .blank () = .ok m () ∧
      m.fields.toList.flatMap Member.symbols = [.text 17, .text 18] ∧
      m.methods.toList.flatMap Member.symbols = [.text 20, .text 10, .text 12, .text 18] ∧
      m.attributes.toList.flatMap Attribute.symbols = [.text 17, .text 18, .text 18, .text 18, .text 18] ∧
      [17, 18, 20].map sampleEnd.2.utf8 = [.ok "b", .ok "LB;", .ok "n"]) ∧
    ∃ m items, List.Forall₂ (ItemWritten sampleHierarchy danglingFile.pool danglingEnd) (danglingFile.events .none).items
        items ∧
      ¬List.Forall₂ (ItemImage sampleHierarchy danglingFile.pool danglingEnd) (danglingFile.events .none).items items ∧
      (⟨danglingEnd.2, danglingFile.header, items, none⟩ : ClassEvents).deliver ([] : List (Stage Unit)) ClassModel.sink
        .blank () = .ok m () ∧
      m.fields.toList.flatMap Member.symbols = [.text 5, .text 4] ∧
      danglingFile.pool.slots.size = 5 ∧ danglingEnd.2.utf8 5 = .ok "B" := by
  constructor
  · obtain ⟨m, hm, hsymbols⟩ : ∃ m, (sampleFile.events .none).deliverAll [stage sampleHierarchy] ClassModel.sink .blank
        (.ofResolver .empty, sampleFile.pool) = .ok m sampleEnd ∧
          m.fields.toList.flatMap Member.symbols = [.text 17, .text 18] ∧
          m.methods.toList.flatMap Member.symbols = [.text 20, .text 10, .text 12, .text 18] ∧
          m.attributes.toList.flatMap Attribute.symbols = [.text 17, .text 18, .text 18, .text 18, .text 18] :=
      Effect.exists_of_outcome (by decide +kernel)
    obtain ⟨-, -, -, items, hitems, hdeliver⟩ := itemImages_of_deliverAll ofBytes_sample hm
    have hresolve : ∀ item ∈ (sampleFile.events .none).items, ∀ x ∈ item.symbols, x.Resolves sampleFile.pool := by
      decide +kernel
    have himages := forall₂_imp_of_mem (fun item hi _ hw => hw.imageAsRead.mpr (hresolve item hi)) hitems
    exact ⟨m, items, himages, hdeliver, hsymbols.1, hsymbols.2.1, hsymbols.2.2, by decide +kernel⟩
  · obtain ⟨m, hm, hsymbols⟩ : ∃ m, (danglingFile.events .none).deliverAll [stage sampleHierarchy] ClassModel.sink
        .blank (.ofResolver .empty, danglingFile.pool) = .ok m danglingEnd ∧
          m.fields.toList.flatMap Member.symbols = [.text 5, .text 4] :=
      Effect.exists_of_outcome (by decide +kernel)
    obtain ⟨-, -, -, items, hitems, hdeliver⟩ := itemImages_of_deliverAll ofBytes_dangling hm
    have hdangles : ¬∀ item ∈ (danglingFile.events .none).items, ∀ x ∈ item.symbols, x.Resolves danglingFile.pool := by
      decide +kernel
    refine ⟨m, items, hitems, fun himages => ?_, hdeliver, hsymbols, by decide +kernel⟩
    exact hdangles (forall_mem_of_forall₂ (fun _ _ => ItemImage.resolves) himages)

end Pass

end Renamer

end Relabel
