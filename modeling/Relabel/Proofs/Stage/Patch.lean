import Mathlib.Data.List.Forall2
import Relabel.Proofs.Class.Arrivals
import Relabel.Stage.Patch

/-!
# What patching does to a class

A patched word has the bits of the new visibility in place of the old ones, loses its final bit if it should,
and is otherwise as it was. The stage looks declarations up by the names they have where it stands, which it
reads from the pool of that moment. It changes neither the pool nor anything but flags, and a declaration
that its row does not address comes through as it is. So behind any row of stages that keep their state
elsewhere, a model collects what it would have collected without the patches, up to the words of the
declarations that were addressed.
-/

set_option autoImplicit false

namespace Relabel

/-! ## Words -/

theorem or_and_distrib (a b mask : UInt16) : (a ||| b) &&& mask = (a &&& mask) ||| (b &&& mask) := by
  rw [← UInt16.toBitVec_inj]
  simp only [UInt16.toBitVec_and, UInt16.toBitVec_or, BitVec.and_or_distrib_right]

/-- A word is known by its visibility, its final bit and the rest. -/
theorem eq_of_parts {a b : UInt16} (hvisibility : a &&& 0x0007 = b &&& 0x0007)
    (hfinal : a &&& 0x0010 = b &&& 0x0010) (hrest : a &&& 0xFFE8 = b &&& 0xFFE8) : a = b := by
  have hparts (w : UInt16) : w = (w &&& 0x0007) ||| (w &&& 0x0010) ||| (w &&& 0xFFE8) := by
    have hall : (0x0007 ||| 0x0010 ||| 0xFFE8 : UInt16) = -1 := by decide
    calc w
      _ = (0x0007 ||| 0x0010 ||| 0xFFE8) &&& w := by rw [hall, UInt16.and_comm, UInt16.and_neg_one]
      _ = _ := by simp only [or_and_distrib, UInt16.and_comm w]
  rw [hparts a, hparts b, hvisibility, hfinal, hrest]

namespace AccessChange

/-- What a change makes of a word: it puts its visibility in place of the old one, clears the final bit or
leaves it, and leaves all other bits. -/
structure Changes (c : AccessChange) (old new : UInt16) : Prop where
  visibility : new &&& 0x0007 = c.visibility.flags
  final : new &&& 0x0010 = if c.removeFinal then 0 else old &&& 0x0010
  rest : new &&& 0xFFE8 = old &&& 0xFFE8

/-- Through a mask, a changed word shows what is kept of the old word and what is kept of the visibility. -/
theorem apply_and (c : AccessChange) (old mask : UInt16) : c.apply old &&& mask
    = (old &&& (~~~visibilityMask &&& if c.removeFinal then ~~~finalMask &&& mask else mask))
      ||| (c.visibility.flags &&& if c.removeFinal then ~~~finalMask &&& mask else mask) := by
  cases hfinal : c.removeFinal <;>
    simp only [apply, hfinal, Bool.false_eq_true, if_false, if_true, or_and_distrib, UInt16.and_assoc]

theorem changes_apply (c : AccessChange) (old : UInt16) : c.Changes old (c.apply old) where
  visibility := by
    have hkept : (if c.removeFinal then ~~~finalMask &&& 0x0007 else 0x0007 : UInt16) = 0x0007 := by
      cases c.removeFinal <;> decide
    have hmask : ~~~visibilityMask &&& 0x0007 = 0 := by decide
    have hflags : c.visibility.flags &&& 0x0007 = c.visibility.flags := by
      cases c.visibility <;> decide
    rw [apply_and, hkept, hmask, hflags, UInt16.and_zero, UInt16.zero_or]
  final := by
    have hmask : ~~~visibilityMask &&& 0x0010 = 0x0010 := by decide
    have hgone : ~~~finalMask &&& 0x0010 = 0 := by decide
    have hflags : c.visibility.flags &&& 0x0010 = 0 := by
      cases c.visibility <;> decide
    rw [apply_and]
    cases c.removeFinal with
    | true => simp only [if_true, hgone, UInt16.and_zero, UInt16.or_zero]
    | false => simp only [Bool.false_eq_true, if_false, hmask, hflags, UInt16.or_zero]
  rest := by
    have hkept : (if c.removeFinal then ~~~finalMask &&& 0xFFE8 else 0xFFE8 : UInt16) = 0xFFE8 := by
      cases c.removeFinal <;> decide
    have hmask : ~~~visibilityMask &&& 0xFFE8 = 0xFFE8 := by decide
    have hflags : c.visibility.flags &&& 0xFFE8 = 0 := by
      cases c.visibility <;> decide
    rw [apply_and, hkept, hmask, hflags, UInt16.or_zero]

/-- The three parts say all of a changed word. -/
theorem changes_iff {c : AccessChange} {old new : UInt16} : c.Changes old new ↔ new = c.apply old := by
  constructor
  · intro h
    have happly := c.changes_apply old
    apply eq_of_parts
    · exact h.visibility.trans happly.visibility.symm
    · exact h.final.trans happly.final.symm
    · exact h.rest.trans happly.rest.symm
  · rintro rfl
    exact c.changes_apply old

/-- A changed word is not changed again. -/
theorem Changes.again {c : AccessChange} {old new : UInt16} (h : c.Changes old new) : c.Changes new new where
  visibility := h.visibility
  final := by
    have hfinal := h.final
    cases hremove : c.removeFinal with
    | true =>
      rw [hremove] at hfinal
      exact hfinal
    | false => rfl
  rest := rfl

/-- A word that a change was asked for, or that nothing was asked for. -/
def Follows : Option AccessChange → UInt16 → UInt16 → Prop
  | none, old, new => new = old
  | some c, old, new => c.Changes old new

theorem Follows.again {change? : Option AccessChange} {old new : UInt16} (h : Follows change? old new) :
    Follows change? new new := by
  cases change? with
  | none => exact rfl
  | some c => exact Changes.again h

end AccessChange

/-! ## Everything but flags -/

def Member.withoutFlags (m : Member) : Member := { m with flags := 0 }

def ClassItem.withoutFlags : ClassItem → ClassItem
  | .field m => .field m.withoutFlags
  | .method m => .method m.withoutFlags
  | .attr a => .attr a

/-- A model with all words of flags blanked: what is left is everything else. -/
def ClassModel.withoutFlags (m : ClassModel) : ClassModel :=
  { m with
    header := { m.header with flags := 0 }
    fields := m.fields.map Member.withoutFlags
    methods := m.methods.map Member.withoutFlags }

namespace ClassModel

theorem withoutFlags_add (m : ClassModel) (item : ClassItem) :
    (m.add item).withoutFlags = m.withoutFlags.add item.withoutFlags := by
  cases item <;> simp [add, withoutFlags, ClassItem.withoutFlags]

theorem withoutFlags_foldl_add (m : ClassModel) (items : List ClassItem) :
    (items.foldl add m).withoutFlags = (items.map ClassItem.withoutFlags).foldl add m.withoutFlags := by
  induction items generalizing m with
  | nil => rfl
  | cons item items ih => rw [List.foldl_cons, ih, withoutFlags_add, List.map_cons, List.foldl_cons]

/-- Models of the same header and the same elements, up to flags, are the same up to flags. -/
theorem withoutFlags_collect {header : Header} {flags : UInt16} {items items' : List ClassItem} (p : Pool)
    (hitems : items.map ClassItem.withoutFlags = items'.map ClassItem.withoutFlags) :
    (collect { header with flags } items p).withoutFlags = (collect header items' p).withoutFlags := by
  have hpool (m : ClassModel) : { m with pool := p }.withoutFlags = { m.withoutFlags with pool := p } := rfl
  rw [collect, collect, hpool, hpool, withoutFlags_foldl_add, withoutFlags_foldl_add, hitems]
  rfl

theorem mem_events_add {m : ClassModel} {item item' : ClassItem} (h : item' ∈ (m.add item).events.items) :
    item' ∈ m.events.items ∨ item' = item := by
  cases item <;> simp [add, events] at h ⊢ <;> grind

theorem mem_events_foldl_add {m : ClassModel} {items : List ClassItem} {item : ClassItem}
    (h : item ∈ (items.foldl add m).events.items) : item ∈ m.events.items ∨ item ∈ items := by
  induction items generalizing m with
  | nil => exact Or.inl h
  | cons first items ih =>
    rcases ih h with h | h
    · rcases mem_events_add h with h | rfl
      · exact Or.inl h
      · exact Or.inr (List.mem_cons_self ..)
    · exact Or.inr (List.mem_cons_of_mem _ h)

/-- The events of a model tell nothing that was not collected. -/
theorem mem_events_collect {header : Header} {items : List ClassItem} {p : Pool} {item : ClassItem}
    (h : item ∈ (collect header items p).events.items) : item ∈ items := by
  rcases mem_events_foldl_add h with h | h
  · exact absurd h (by simp [events, blank])
  · exact h

end ClassModel

/-! ## The stage -/

namespace Patcher

open AccessChange (Follows)

/-- What patching makes of an element that arrives in a pool, with the change that the row has for it. A field
is looked up by its name and descriptor or else by its name, a method by its name and descriptor. -/
inductive Patched (row : AccessRow) : ClassItem × Pool → Option AccessChange × ClassItem → Prop
  | field {m : Member} {p : Pool} {name descriptor : String} {flags : UInt16} :
      m.nameIn p = .ok name → m.descriptorIn p = .ok descriptor →
      Follows (row[name ++ descriptor]?.or row[name]?) m.flags flags →
      Patched row (.field m, p) (row[name ++ descriptor]?.or row[name]?, .field { m with flags })
  | method {m : Member} {p : Pool} {name descriptor : String} {flags : UInt16} :
      m.nameIn p = .ok name → m.descriptorIn p = .ok descriptor →
      Follows row[name ++ descriptor]? m.flags flags →
      Patched row (.method m, p) (row[name ++ descriptor]?, .method { m with flags })
  | attr {a : Attribute} {p : Pool} : Patched row (.attr a, p) (none, .attr a)

/-- How many of some declarations the row had a change for. -/
def addressed (changes : List (Option AccessChange)) : Nat :=
  changes.countP Option.isSome

theorem addressed_cons (change? : Option AccessChange) (changes : List (Option AccessChange)) :
    addressed (change? :: changes) = addressed [change?] + addressed changes := by
  cases change? <;> simp [addressed, Nat.add_comm]

variable {row : AccessRow}

theorem Patched.withoutFlags {item : ClassItem × Pool} {patched : Option AccessChange × ClassItem}
    (h : Patched row item patched) : patched.2.withoutFlags = item.1.withoutFlags := by
  cases h <;> rfl

/-- What was patched is not patched again, wherever it has the same name. -/
theorem Patched.again {item : ClassItem × Pool} {patched : Option AccessChange × ClassItem}
    (h : Patched row item patched) {p : Pool} (hp : ∀ i text, item.2.utf8 i = .ok text → p.utf8 i = .ok text) :
    Patched row (patched.2, p) patched := by
  cases h with
  | field hname hdescriptor hflags =>
    exact Patched.field (hp _ _ hname) (hp _ _ hdescriptor) hflags.again
  | method hname hdescriptor hflags =>
    exact Patched.method (hp _ _ hname) (hp _ _ hdescriptor) hflags.again
  | attr => exact Patched.attr

/-- Changing a word is what the first key that the row has asks for, and only that is counted. -/
theorem patch_eq_ok {keys : List String} {old new : UInt16} {n : Nat} {p : Pool} {x : Nat × Pool} :
    patch row keys old (n, p) = .ok new x ↔ Follows (keys.findSome? fun key => row[key]?) old new ∧
      x = (n + addressed [keys.findSome? fun key => row[key]?], p) := by
  unfold patch
  cases hkey : keys.findSome? fun key => row[key]? with
  | none =>
    rw [Effect.pure_eq_ok, eq_comm (a := old), eq_comm (b := x)]
    rfl
  | some c =>
    change EStateM.Result.ok (c.apply old) (n + 1, p) = _ ↔ _
    rw [EStateM.Result.ok.injEq, eq_comm (b := new), eq_comm (b := x), Follows, AccessChange.changes_iff]
    rfl

theorem onHeader_eq_ok {header header' : Header} {n : Nat} {p : Pool} {x : Nat × Pool} :
    (stage row).onHeader header (n, p) = .ok header' x ↔ ∃ flags, Follows row[""]? header.flags flags ∧
      header' = { header with flags } ∧ x = (n + addressed [row[""]?], p) := by
  have hkeys : ([""].findSome? fun key => row[key]?) = row[""]? := by
    cases h : row[""]? <;> simp [h]
  simp only [stage, Effect.bind_eq_ok, patch_eq_ok, hkeys, Effect.pure_eq_ok]
  constructor
  · intro h
    obtain ⟨flags, x, ⟨hflags, rfl⟩, rfl, rfl⟩ := h
    exact ⟨flags, hflags, rfl, rfl⟩
  · intro h
    obtain ⟨flags, hflags, rfl, rfl⟩ := h
    exact ⟨flags, _, ⟨hflags, rfl⟩, rfl, rfl⟩

/-- A member is looked up by keys made of the name and the descriptor that it has in the pool. -/
theorem member_eq_ok {keys : String → String → List String} {m m' : Member} {n : Nat} {p : Pool}
    {x : Nat × Pool} : (do
      let pool ← Pass.pool
      let name ← m.nameIn pool
      let descriptor ← m.descriptorIn pool
      return { m with flags := ← patch row (keys name descriptor) m.flags } : Pass Nat Member) (n, p) = .ok m' x ↔
        ∃ name descriptor flags, m.nameIn p = .ok name ∧ m.descriptorIn p = .ok descriptor ∧
          Follows ((keys name descriptor).findSome? fun key => row[key]?) m.flags flags ∧
          m' = { m with flags } ∧ x = (n + addressed [(keys name descriptor).findSome? fun key => row[key]?], p) := by
  constructor
  · intro h
    obtain ⟨q, x₁, hpool, h⟩ := Effect.bind_eq_ok.mp h
    obtain ⟨rfl, rfl⟩ := Pass.pool_eq_ok.mp hpool
    obtain ⟨name, x₁, hx, h⟩ := Effect.bind_eq_ok.mp h
    obtain ⟨hname, rfl⟩ := Effect.lift_eq_ok.mp hx
    obtain ⟨descriptor, x₁, hx, h⟩ := Effect.bind_eq_ok.mp h
    obtain ⟨hdescriptor, rfl⟩ := Effect.lift_eq_ok.mp hx
    obtain ⟨flags, x₁, hx, h⟩ := Effect.bind_eq_ok.mp h
    obtain ⟨hflags, rfl⟩ := patch_eq_ok.mp hx
    obtain ⟨rfl, rfl⟩ := Effect.pure_eq_ok.mp h
    exact ⟨name, descriptor, flags, hname, hdescriptor, hflags, rfl, rfl⟩
  · intro h
    obtain ⟨name, descriptor, flags, hname, hdescriptor, hflags, rfl, rfl⟩ := h
    refine Effect.bind_eq_ok.mpr ⟨p, (n, p), Pass.pool_eq_ok.mpr ⟨rfl, rfl⟩, ?_⟩
    refine Effect.bind_eq_ok.mpr ⟨name, (n, p), Effect.lift_eq_ok.mpr ⟨hname, rfl⟩, ?_⟩
    refine Effect.bind_eq_ok.mpr ⟨descriptor, (n, p), Effect.lift_eq_ok.mpr ⟨hdescriptor, rfl⟩, ?_⟩
    exact Effect.bind_eq_ok.mpr ⟨flags, _, patch_eq_ok.mpr ⟨hflags, rfl⟩, rfl⟩

theorem onField_eq_ok {m m' : Member} {n : Nat} {p : Pool} {x : Nat × Pool} :
    (stage row).onField m (n, p) = .ok m' x ↔ ∃ name descriptor flags, m.nameIn p = .ok name ∧
      m.descriptorIn p = .ok descriptor ∧ Follows (row[name ++ descriptor]?.or row[name]?) m.flags flags ∧
      m' = { m with flags } ∧ x = (n + addressed [row[name ++ descriptor]?.or row[name]?], p) := by
  have hkeys (key name : String) : ([key, name].findSome? fun key => row[key]?) = row[key]?.or row[name]? := by
    cases h : row[key]? <;> cases h' : row[name]? <;> simp [h, h']
  have h := @member_eq_ok row (fun name descriptor => [name ++ descriptor, name]) m m' n p x
  simp only [hkeys] at h
  exact h

theorem onMethod_eq_ok {m m' : Member} {n : Nat} {p : Pool} {x : Nat × Pool} :
    (stage row).onMethod m (n, p) = .ok m' x ↔ ∃ name descriptor flags, m.nameIn p = .ok name ∧
      m.descriptorIn p = .ok descriptor ∧ Follows row[name ++ descriptor]? m.flags flags ∧
      m' = { m with flags } ∧ x = (n + addressed [row[name ++ descriptor]?], p) := by
  have hkeys (key : String) : ([key].findSome? fun key => row[key]?) = row[key]? := by
    cases h : row[key]? <;> simp [h]
  have h := @member_eq_ok row (fun name descriptor => [name ++ descriptor]) m m' n p x
  simp only [hkeys] at h
  exact h

/-- **One element.** It comes out patched, is counted if the row had a change for it, and leaves the pool
alone. -/
theorem threadItem_eq_ok {item item' : ClassItem} {n : Nat} {p : Pool} {x : Nat × Pool} :
    Stage.threadItem [stage row] item (n, p) = .ok item' x ↔
      ∃ change?, Patched row (item, p) (change?, item') ∧ x = (n + addressed [change?], p) := by
  cases item with
  | field m =>
    rw [Stage.threadItem, Stage.thread_one, Effect.map_eq_ok]
    constructor
    · intro h
      obtain ⟨m', hm, rfl⟩ := h
      obtain ⟨name, descriptor, flags, hname, hdescriptor, hflags, rfl, rfl⟩ := onField_eq_ok.mp hm
      exact ⟨_, Patched.field hname hdescriptor hflags, rfl⟩
    · intro h
      obtain ⟨change?, hpatched, rfl⟩ := h
      cases hpatched with
      | field hname hdescriptor hflags =>
        exact ⟨_, onField_eq_ok.mpr ⟨_, _, _, hname, hdescriptor, hflags, rfl, rfl⟩, rfl⟩
  | method m =>
    rw [Stage.threadItem, Stage.thread_one, Effect.map_eq_ok]
    constructor
    · intro h
      obtain ⟨m', hm, rfl⟩ := h
      obtain ⟨name, descriptor, flags, hname, hdescriptor, hflags, rfl, rfl⟩ := onMethod_eq_ok.mp hm
      exact ⟨_, Patched.method hname hdescriptor hflags, rfl⟩
    · intro h
      obtain ⟨change?, hpatched, rfl⟩ := h
      cases hpatched with
      | method hname hdescriptor hflags =>
        exact ⟨_, onMethod_eq_ok.mpr ⟨_, _, _, hname, hdescriptor, hflags, rfl, rfl⟩, rfl⟩
  | attr a =>
    rw [Stage.threadItem, Stage.thread_one, Effect.map_eq_ok]
    constructor
    · intro h
      obtain ⟨a', ha, rfl⟩ := h
      obtain ⟨rfl, rfl⟩ := Effect.pure_eq_ok.mp ha
      exact ⟨none, Patched.attr, rfl⟩
    · intro h
      obtain ⟨change?, hpatched, rfl⟩ := h
      cases hpatched with
      | attr => exact ⟨a, rfl, rfl⟩

/-! ## The whole pass -/

open ClassEvents

variable {σ τ : Type} {a : Lens τ σ} {b : Lens τ Nat} {before : List (Stage σ)}

/-- The elements that arrive behind other stages come out patched, one after the other. -/
theorem deliverItems_eq_ok (hab : a.Apart b) {items : List ClassItem} {m m' : ClassModel} {s : σ} {n : Nat}
    {t : τ} {p : Pool} {x : τ × Pool} :
    deliverItems (before.map (Stage.zoom a) ++ [stage row].map (Stage.zoom b)) ClassModel.sink m items
        (b.set n (a.set s t), p) = .ok m' x ↔
      ∃ arrived s' patched, Stage.arrivals before items (s, p) = .ok arrived (s', x.2) ∧
        List.Forall₂ (Patched row) arrived patched ∧ m' = (patched.map Prod.snd).foldl ClassModel.add m ∧
        x.1 = b.set (n + addressed (patched.map Prod.fst)) (a.set s' t) := by
  induction items generalizing m s n p with
  | nil =>
    constructor
    · intro h
      obtain ⟨rfl, rfl⟩ := EStateM.Result.ok.inj h
      exact ⟨[], s, [], rfl, List.Forall₂.nil, rfl, rfl⟩
    · intro h
      obtain ⟨arrived, s', patched, harrived, hpatched, rfl, hx⟩ := h
      obtain ⟨rfl, hs⟩ := Stage.arrivals_nil_eq_ok.mp harrived
      obtain ⟨rfl, hp⟩ := Prod.mk.inj hs
      cases hpatched
      obtain ⟨t', p'⟩ := x
      obtain rfl : p' = p := hp
      obtain rfl : t' = b.set n (a.set s' t) := hx
      rfl
  | cons item items ih =>
    rw [deliverItems_cons, Effect.bind_eq_ok]
    -- The stage reads names in the pool that the element arrives in, and leaves that pool to the next element.
    simp only [deliverItem_eq_ok, Stage.threadItem_zoom_append hab, Pass.zoom_bind_zoom_eq_ok hab,
      threadItem_eq_ok, ClassModel.onItem_sink, EStateM.Result.ok.injEq, true_and]
    constructor
    · intro h
      obtain ⟨m₁, x₁, ⟨item₂, ⟨item₁, s₁, p₁, n₁, hitem, ⟨change?, hpatched, hn⟩, hx₁⟩, rfl⟩, h⟩ := h
      obtain ⟨t₁, q₁⟩ := x₁
      obtain ⟨rfl, rfl⟩ := Prod.mk.inj hn
      obtain rfl : t₁ = _ := hx₁
      obtain ⟨arrived, s', patched, harrived, hrest, rfl, hx⟩ := ih.mp h
      refine ⟨(item₁, q₁) :: arrived, s', (change?, item₂) :: patched, ?_, hrest.cons hpatched, rfl, ?_⟩
      · exact Stage.arrivals_cons_eq_ok.mpr ⟨item₁, _, arrived, hitem, harrived, rfl⟩
      · rw [hx, List.map_cons, addressed_cons change? (patched.map Prod.fst), Nat.add_assoc]
    · intro h
      obtain ⟨_, s', _, harrived, hpatched, rfl, hx⟩ := h
      obtain ⟨item₁, ⟨s₁, p₁⟩, arrived, hitem, harrivedRest, rfl⟩ := Stage.arrivals_cons_eq_ok.mp harrived
      cases hpatched with
      | @cons _ first _ patched hfirst hrest =>
        obtain ⟨change?, item₂⟩ := first
        rw [List.map_cons, addressed_cons change? (patched.map Prod.fst), ← Nat.add_assoc] at hx
        refine ⟨_, (b.set (n + addressed [change?]) (a.set s₁ t), p₁), ⟨item₂, ⟨item₁, s₁, p₁, _, hitem,
          ⟨change?, hfirst, rfl⟩, rfl⟩, rfl⟩, ?_⟩
        exact ih.mpr ⟨arrived, s', patched, harrivedRest, hrest, rfl, hx⟩

theorem threadHeader_eq_ok (hab : a.Apart b) {header header' : Header} {s : σ} {n : Nat} {t : τ} {p : Pool}
    {x : τ × Pool} : Stage.thread Stage.onHeader (before.map (Stage.zoom a) ++ [stage row].map (Stage.zoom b))
        header (b.set n (a.set s t), p) = .ok header' x ↔
      ∃ header₁ s₁ flags, Stage.thread Stage.onHeader before header (s, p) = .ok header₁ (s₁, x.2) ∧
        Follows row[""]? header₁.flags flags ∧ header' = { header₁ with flags } ∧
        x.1 = b.set (n + addressed [row[""]?]) (a.set s₁ t) := by
  rw [Stage.thread_zoom_append hab (fun _ _ => rfl) (fun _ _ => rfl), Pass.zoom_bind_zoom_eq_ok hab]
  simp only [Stage.thread_one, onHeader_eq_ok]
  obtain ⟨t', p'⟩ := x
  constructor
  · intro h
    obtain ⟨header₁, s₁, p₁, n₁, hthread, ⟨flags, hflags, rfl, hn⟩, hx⟩ := h
    obtain ⟨rfl, rfl⟩ := Prod.mk.inj hn
    exact ⟨header₁, s₁, flags, hthread, hflags, rfl, hx⟩
  · intro h
    obtain ⟨header₁, s₁, flags, hthread, hflags, rfl, hx⟩ := h
    exact ⟨header₁, s₁, p', _, hthread, ⟨flags, hflags, rfl, rfl⟩, hx⟩

theorem threadEnd_eq_ok (hab : a.Apart b) {s : σ} {n : Nat} {t : τ} {p : Pool} {x : τ × Pool} :
    Stage.threadEnd (before.map (Stage.zoom a) ++ [stage row].map (Stage.zoom b)) (b.set n (a.set s t), p)
        = .ok () x ↔
      ∃ s₁, Stage.threadEnd before (s, p) = .ok () (s₁, x.2) ∧ x.1 = b.set n (a.set s₁ t) := by
  have hone : Stage.threadEnd [stage row] = pure () := rfl
  rw [Stage.threadEnd_zoom_append hab, Pass.zoom_bind_zoom_eq_ok hab]
  simp only [hone, Effect.pure_eq_ok]
  obtain ⟨t', p'⟩ := x
  constructor
  · intro h
    obtain ⟨_, s₁, p₁, n₁, hend, ⟨-, hn⟩, hx⟩ := h
    obtain ⟨rfl, rfl⟩ := Prod.mk.inj hn
    exact ⟨s₁, hend, hx⟩
  · intro h
    obtain ⟨s₁, hend, hx⟩ := h
    exact ⟨(), s₁, p', n, hend, ⟨trivial, rfl⟩, hx⟩

/-- **A whole class.** Behind other stages a model collects what arrives there, patched; the other stages leave
their part of the state as they do alone, and the count has grown by the declarations that were addressed. -/
theorem deliver_eq_ok (hab : a.Apart b) {events : ClassEvents} {m' : ClassModel} {t t' : τ} :
    events.deliver (before.map (Stage.zoom a) ++ [(stage row).zoom b]) ClassModel.sink .blank t = .ok m' t' ↔
      ∃ header arrived pool s' flags patched, events.Arrives before (a.get t) header arrived pool s' ∧
        Follows row[""]? header.flags flags ∧ List.Forall₂ (Patched row) arrived patched ∧
        m' = .collect { header with flags } (patched.map Prod.snd) pool ∧
        t' = b.set (b.get t + addressed (row[""]? :: patched.map Prod.fst)) (a.set s' t) := by
  -- Every state of the pass is the first one with both parts written, and so is the first one itself.
  have hstart : b.set (b.get t) (a.set (a.get t) t) = t := by rw [hab.left.set_get, hab.right.set_get]
  change events.deliver (before.map (Stage.zoom a) ++ [stage row].map (Stage.zoom b)) _ _ _ = _ ↔ _
  rw [ClassEvents.deliver_eq_ok]
  constructor
  · intro h
    obtain ⟨pool, h⟩ := h
    obtain ⟨hstop, header', ⟨t₁, p₁⟩, m₁, ⟨t₂, p₂⟩, m₂, hheader, hgive, hitems, hend, hlast⟩ :=
      deliverAll_eq_ok.mp h
    obtain ⟨-, rfl⟩ := EStateM.Result.ok.inj hgive
    obtain ⟨-, rfl⟩ := EStateM.Result.ok.inj hlast
    rw [← hstart] at hheader
    obtain ⟨header, s₁, flags, hfirst, hflags, rfl, rfl⟩ := (threadHeader_eq_ok hab).mp hheader
    obtain ⟨arrived, s₂, patched, harrived, hpatched, rfl, rfl⟩ := (deliverItems_eq_ok hab).mp hitems
    obtain ⟨s', hafter, rfl⟩ := (threadEnd_eq_ok hab).mp hend
    refine ⟨header, arrived, pool, s', flags, patched, ⟨hstop, _, _, hfirst, harrived, hafter⟩, hflags, hpatched,
      rfl, ?_⟩
    rw [addressed_cons _ (patched.map Prod.fst), Nat.add_assoc]
  · intro h
    obtain ⟨header, arrived, pool, s', flags, patched, ⟨hstop, ⟨s₁, p₁⟩, ⟨s₂, p₂⟩, hheader, harrived, hend⟩,
      hflags, hpatched, rfl, rfl⟩ := h
    have hthread : Stage.thread Stage.onHeader (before.map (Stage.zoom a) ++ [stage row].map (Stage.zoom b))
        events.header (b.set (b.get t) (a.set (a.get t) t), events.pool)
          = .ok { header with flags } (b.set (b.get t + addressed [row[""]?]) (a.set s₁ t), p₁) :=
      (threadHeader_eq_ok hab).mpr ⟨header, s₁, flags, hheader, hflags, rfl, rfl⟩
    rw [hstart] at hthread
    rw [addressed_cons _ (patched.map Prod.fst), ← Nat.add_assoc]
    refine ⟨pool, deliverAll_eq_ok.mpr ⟨hstop, _, _, _,
      (b.set (b.get t + addressed [row[""]?] + addressed (patched.map Prod.fst)) (a.set s₂ t), p₂), _,
      hthread, rfl, ?_, ?_, rfl⟩⟩
    · exact (deliverItems_eq_ok hab).mpr ⟨arrived, s₂, patched, harrived, hpatched, rfl, rfl⟩
    · exact (threadEnd_eq_ok hab).mpr ⟨s', hend, rfl⟩

/-- Without other stages, everything is patched as it is told. -/
theorem deliver_alone_eq_ok {events : ClassEvents} {m' : ClassModel} {n n' : Nat} :
    events.deliver [stage row] ClassModel.sink .blank n = .ok m' n' ↔ events.stop? = none ∧ ∃ flags patched,
      Follows row[""]? events.header.flags flags ∧
      List.Forall₂ (Patched row) (events.items.map fun item => (item, events.pool)) patched ∧
      m' = .collect { events.header with flags } (patched.map Prod.snd) events.pool ∧
      n' = n + addressed (row[""]? :: patched.map Prod.fst) := by
  have hrow : [stage row]
      = ([] : List (Stage Unit)).map (Stage.zoom (.nothing Nat)) ++ [(stage row).zoom (.whole Nat)] := by
    rw [Stage.zoom_whole]
    rfl
  rw [hrow, deliver_eq_ok (Lens.apart_whole Nat)]
  constructor
  · intro h
    obtain ⟨header, arrived, pool, s', flags, patched, harrives, hflags, hpatched, rfl, hn⟩ := h
    obtain ⟨hstop, rfl, rfl, rfl, rfl⟩ := arrives_nil.mp harrives
    exact ⟨hstop, flags, patched, hflags, hpatched, rfl, hn⟩
  · intro h
    obtain ⟨hstop, flags, patched, hflags, hpatched, rfl, hn⟩ := h
    exact ⟨events.header, _, events.pool, (), flags, patched, arrives_nil.mpr ⟨hstop, rfl, rfl, rfl, rfl⟩, hflags,
      hpatched, rfl, hn⟩

/-- Elements none of which is changed come out as they are. -/
theorem exists_patched {items : List ClassItem} {pool : Pool}
    (hitems : ∀ item ∈ items, ∃ change?, Patched row (item, pool) (change?, item)) :
    ∃ patched, List.Forall₂ (Patched row) (items.map fun item => (item, pool)) patched ∧
      patched.map Prod.snd = items := by
  induction items with
  | nil => exact ⟨[], List.Forall₂.nil, rfl⟩
  | cons item items ih =>
    obtain ⟨change?, hitem⟩ := hitems item (List.mem_cons_self ..)
    obtain ⟨patched, hpatched, hsame⟩ := ih fun other hother => hitems other (List.mem_cons_of_mem _ hother)
    exact ⟨(change?, item) :: patched, hpatched.cons hitem, by rw [List.map_cons, hsame]⟩

theorem forall_again {arrived : List (ClassItem × Pool)} {patched : List (Option AccessChange × ClassItem)}
    (hpatched : List.Forall₂ (Patched row) arrived patched) {pool : Pool}
    (hnames : ∀ x ∈ arrived, ∀ i text, x.2.utf8 i = .ok text → pool.utf8 i = .ok text) :
    ∀ y ∈ patched, Patched row (y.2, pool) y := by
  induction hpatched with
  | nil => simp
  | cons hfirst hrest ih =>
    intro y hy
    rcases List.mem_cons.mp hy with rfl | hy
    · exact hfirst.again (hnames _ (List.mem_cons_self ..))
    · exact ih (fun x hx => hnames x (List.mem_cons_of_mem _ hx)) y hy

/-- A model that was patched, under names that its pool still has, is not changed by patching it again. -/
theorem deliver_again {arrived : List (ClassItem × Pool)} {patched : List (Option AccessChange × ClassItem)}
    {header : Header} {flags : UInt16} {m : ClassModel} (hflags : Follows row[""]? header.flags flags)
    (hpatched : List.Forall₂ (Patched row) arrived patched)
    (hnames : ∀ x ∈ arrived, ∀ i text, x.2.utf8 i = .ok text → m.pool.utf8 i = .ok text)
    (hm : m = .collect { header with flags } (patched.map Prod.snd) m.pool) (n : Nat) :
    ∃ n', m.events.deliver [stage row] ClassModel.sink .blank n = .ok m n' := by
  have hheader : m.header = { header with flags } := by
    rw [hm, ClassModel.header_collect]
  -- The events of the model come in another order, but each of them was patched once.
  have hitems : ∀ item ∈ m.events.items, ∃ change?, Patched row (item, m.pool) (change?, item) := by
    intro item hitem
    rw [hm] at hitem
    obtain ⟨⟨change?, item⟩, hmem, rfl⟩ := List.mem_map.mp (ClassModel.mem_events_collect hitem)
    exact ⟨change?, forall_again hpatched hnames _ hmem⟩
  obtain ⟨again, hagain, hsame⟩ := exists_patched hitems
  refine ⟨_, deliver_alone_eq_ok.mpr ⟨rfl, m.header.flags, again, ?_, hagain, ?_, rfl⟩⟩
  · change Follows row[""]? m.header.flags m.header.flags
    rw [hheader]
    exact hflags.again
  · rw [hsame]
    exact m.collect_events.symm

theorem Patched.map_withoutFlags {arrived : List (ClassItem × Pool)}
    {patched : List (Option AccessChange × ClassItem)} (hpatched : List.Forall₂ (Patched row) arrived patched) :
    (patched.map Prod.snd).map ClassItem.withoutFlags = (arrived.map Prod.fst).map ClassItem.withoutFlags := by
  induction hpatched with
  | nil => rfl
  | cons hfirst hrest ih =>
    simp only [List.map_cons]
    rw [hfirst.withoutFlags, ih]

/-- With all words blanked, a model collected behind the stage is the one collected before it. -/
theorem withoutFlags_of_deliver (hab : a.Apart b) {events : ClassEvents} {m' : ClassModel} {t t' : τ}
    (h : events.deliver (before.map (Stage.zoom a) ++ [(stage row).zoom b]) ClassModel.sink .blank t = .ok m' t') :
    ∃ m s', events.deliver before ClassModel.sink .blank (a.get t) = .ok m s' ∧ m'.withoutFlags = m.withoutFlags := by
  obtain ⟨header, arrived, pool, s', flags, patched, harrives, -, hpatched, rfl, -⟩ := (deliver_eq_ok hab).mp h
  refine ⟨_, s', ClassModel.deliver_sink_eq_ok.mpr ⟨header, arrived, pool, harrives, rfl⟩, ?_⟩
  exact ClassModel.withoutFlags_collect pool (Patched.map_withoutFlags hpatched)

/-- **The access stage changes the words that its row addresses, and nothing else.** It stands behind other
stages that keep their state elsewhere. A model collected behind it is the model collected before it, which
holds what arrives there, except that the word of the class follows the empty key and the words of the members
follow the keys made of the names that they have in the pool they arrive with; the count grows by the
declarations for which the row had a change. With all words blanked, the two models are equal. Patching a model
again changes nothing if its members are still called what they were called when they were patched, which they
are if no other stage was there. -/
theorem patches_addressed (hab : a.Apart b) (row : AccessRow) (before : List (Stage σ)) (events : ClassEvents)
    (t : τ) :
    (∀ m' t', events.deliver (before.map (Stage.zoom a) ++ [(stage row).zoom b]) ClassModel.sink .blank t
        = .ok m' t' ↔
      ∃ header arrived pool s' flags patched, events.Arrives before (a.get t) header arrived pool s' ∧
        events.deliver before ClassModel.sink .blank (a.get t)
          = .ok (.collect header (arrived.map Prod.fst) pool) s' ∧
        Follows row[""]? header.flags flags ∧ List.Forall₂ (Patched row) arrived patched ∧
        m' = .collect { header with flags } (patched.map Prod.snd) pool ∧
        t' = b.set (b.get t + addressed (row[""]? :: patched.map Prod.fst)) (a.set s' t)) ∧
    (∀ m' t', events.deliver (before.map (Stage.zoom a) ++ [(stage row).zoom b]) ClassModel.sink .blank t
        = .ok m' t' →
      ∃ m s', events.deliver before ClassModel.sink .blank (a.get t) = .ok m s' ∧
        m'.withoutFlags = m.withoutFlags) ∧
    (∀ m' t' header arrived pool s',
      events.deliver (before.map (Stage.zoom a) ++ [(stage row).zoom b]) ClassModel.sink .blank t = .ok m' t' →
      events.Arrives before (a.get t) header arrived pool s' →
      (∀ x ∈ arrived, ∀ i text, x.2.utf8 i = .ok text → pool.utf8 i = .ok text) →
      ∀ n, ∃ n', m'.events.deliver [stage row] ClassModel.sink .blank n = .ok m' n') ∧
    ∀ m' n n', events.deliver [stage row] ClassModel.sink .blank n = .ok m' n' →
      ∃ n'', m'.events.deliver [stage row] ClassModel.sink .blank n' = .ok m' n'' := by
  refine ⟨fun m' t' => ⟨fun h => ?_, fun h => ?_⟩, fun m' t' h => ?_, ?_, fun m' n n' h => ?_⟩
  · obtain ⟨header, arrived, pool, s', flags, patched, harrives, hrest⟩ := (deliver_eq_ok hab).mp h
    exact ⟨header, arrived, pool, s', flags, patched, harrives,
      ClassModel.deliver_sink_eq_ok.mpr ⟨header, arrived, pool, harrives, rfl⟩, hrest⟩
  · obtain ⟨header, arrived, pool, s', flags, patched, harrives, -, hrest⟩ := h
    exact (deliver_eq_ok hab).mpr ⟨header, arrived, pool, s', flags, patched, harrives, hrest⟩
  · exact withoutFlags_of_deliver hab h
  · intro m' t' header arrived pool s' h harrives hnames n
    obtain ⟨header₁, arrived₁, pool₁, s₁, flags, patched, harrives₁, hflags, hpatched, rfl, -⟩ :=
      (deliver_eq_ok hab).mp h
    obtain ⟨rfl, rfl, rfl⟩ := harrives.unique harrives₁
    exact deliver_again hflags hpatched hnames rfl n
  · obtain ⟨-, flags, patched, hflags, hpatched, rfl, -⟩ := deliver_alone_eq_ok.mp h
    refine deliver_again hflags hpatched ?_ rfl n'
    intro x hx i text htext
    obtain ⟨item, -, rfl⟩ := List.mem_map.mp hx
    exact htext

/-- A class `A` with a final private field `a`, whose pool also has the name `b`. -/
def finalField : ClassModel :=
  ⟨((((Pool.empty.append (.classRef 2)).append (.utf8 [65])).append (.utf8 [97])).append (.utf8 [98])).append
      (.utf8 [73]),
    ⟨0, 52, 0x0030, 1, 0, []⟩, #[⟨0x0012, 3, 5, []⟩], #[], #[]⟩

/-- Calls every field `b` and counts the fields. -/
def callsFieldsB : Stage Nat where
  onField m := fun (n, pool) => .ok { m with name := 4 } (n + 1, pool)

/-- Makes the class public, and a field `b` visible to subclasses. -/
def publicRow : AccessRow :=
  ((∅ : AccessRow).insert "" ⟨.ofAll, true⟩).insert "b" ⟨.ofSubclasses, true⟩

theorem patches_addressed_finalField :
    let a : Lens (Nat × Nat) Nat := ⟨Prod.fst, fun s t => (s, t.2)⟩
    let b : Lens (Nat × Nat) Nat := ⟨Prod.snd, fun n t => (t.1, n)⟩
    let patched : ClassModel := { finalField with
      header := { finalField.header with flags := 0x0021 }
      fields := #[⟨0x0004, 4, 5, []⟩] }
    a.Apart b ∧
    finalField.events.deliver [callsFieldsB.zoom a, (stage publicRow).zoom b] ClassModel.sink .blank (0, 0)
      = .ok patched (1, 2) ∧
    (∃ m s', finalField.events.deliver [callsFieldsB] ClassModel.sink .blank 0 = .ok m s' ∧
      patched.withoutFlags = m.withoutFlags) ∧
    ∃ n, patched.events.deliver [stage publicRow] ClassModel.sink .blank 2 = .ok patched n := by
  intro a b patched
  have hab : a.Apart b :=
    ⟨⟨fun _ _ => rfl, fun _ => rfl, fun _ _ _ => rfl⟩, ⟨fun _ _ => rfl, fun _ => rfl, fun _ _ _ => rfl⟩,
      fun _ _ _ => rfl⟩
  have hpass : finalField.events.deliver [callsFieldsB.zoom a, (stage publicRow).zoom b] ClassModel.sink .blank (0, 0)
      = .ok patched (1, 2) := rfl
  have harrives : finalField.events.Arrives [callsFieldsB] 0 finalField.header
      [(.field ⟨0x0012, 4, 5, []⟩, finalField.pool)] finalField.pool 1 :=
    ⟨rfl, (0, finalField.pool), (1, finalField.pool), rfl, rfl, rfl⟩
  obtain ⟨-, hframe, hagain, -⟩ := patches_addressed hab publicRow [callsFieldsB] finalField.events (0, 0)
  refine ⟨hab, hpass, hframe patched (1, 2) hpass, hagain patched (1, 2) _ _ _ _ hpass harrives ?_ 2⟩
  intro x hx i text htext
  rw [List.mem_singleton.mp hx] at htext
  exact htext

end Patcher

end Relabel
