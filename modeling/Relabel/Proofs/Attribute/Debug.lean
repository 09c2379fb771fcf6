import Mathlib.Data.List.ReduceOption
import Relabel.Proofs.Attribute.Codec

/-!
# Attributes without those for debuggers

A reader can be asked to leave out the attributes that only serve debuggers. It does so while it reads, before
the body of such an attribute is looked at, and at every depth. What it should come to is said here without a
reader: `strip` deletes these attributes from what was read in full. Wherever attributes can be read in full, the
reader that leaves them out reads the same bytes and gives what is left of them.

What is left can be written again. Counts and lengths are recomputed on the way up, and since a list only loses
elements and a body only loses bytes, each of them still has room where the old one had.
-/

set_option autoImplicit false

namespace Relabel

open Decoder Encoding

/-! ## Deleting debug attributes -/

/-- An attribute that only serves debuggers, by its name in a pool. -/
def Attribute.isDebug (p : Pool) (a : Attribute) : Bool :=
  match a.nameIn p with
  | .ok text => debugAttributes.contains text
  | .error _ => false

mutual

/-- An attribute without the debug attributes inside it. -/
def Attribute.strip (p : Pool) : Attribute → Attribute
  | ⟨name, info⟩ => ⟨name, info.strip p⟩

/-- Only code and the components of a record have attributes inside them. -/
def AttributeInfo.strip (p : Pool) : AttributeInfo → AttributeInfo
  | .code maxStack maxLocals instructions handlers attributes =>
    .code maxStack maxLocals instructions handlers (Attribute.stripList p attributes)
  | .record components => .record (RecordComponent.stripList p components)
  | .signature index => .signature index
  | .innerClasses classes => .innerClasses classes
  | .enclosingMethod owner method => .enclosingMethod owner method
  | .localVariables slots => .localVariables slots
  | .annotations annotations => .annotations annotations
  | .parameterAnnotations parameters => .parameterAnnotations parameters
  | .typeAnnotations annotations => .typeAnnotations annotations
  | .annotationDefault value => .annotationDefault value
  | .raw bytes => .raw bytes

/-- A record component without the debug attributes inside it. -/
def RecordComponent.strip (p : Pool) : RecordComponent → RecordComponent
  | ⟨name, descriptor, attributes⟩ => ⟨name, descriptor, Attribute.stripList p attributes⟩

/-- A list of attributes without debug attributes. -/
def Attribute.stripList (p : Pool) : List Attribute → List Attribute
  | [] => []
  | a :: rest => if a.isDebug p then Attribute.stripList p rest else a.strip p :: Attribute.stripList p rest

/-- Record components without debug attributes; none of the components goes. -/
def RecordComponent.stripList (p : Pool) : List RecordComponent → List RecordComponent
  | [] => []
  | r :: rest => r.strip p :: RecordComponent.stripList p rest

end

variable {p : Pool}

theorem Attribute.isDebug_strip (a : Attribute) : (a.strip p).isDebug p = a.isDebug p := by
  obtain ⟨name, info⟩ := a
  rfl

theorem Attribute.stripList_eq (attributes : List Attribute) :
    stripList p attributes = (attributes.filter fun a => !a.isDebug p).map (strip p) := by
  induction attributes with
  | nil => rfl
  | cons a rest ih =>
    rw [stripList, List.filter_cons]
    cases a.isDebug p with
    | true => simpa using ih
    | false => simpa using ih

theorem Attribute.mem_stripList {a : Attribute} {attributes : List Attribute} :
    a ∈ stripList p attributes ↔ ∃ b ∈ attributes, b.isDebug p = false ∧ b.strip p = a := by
  simp only [stripList_eq, List.mem_map, List.mem_filter, Bool.not_eq_true', and_assoc]

theorem Attribute.length_stripList_le (attributes : List Attribute) :
    (stripList p attributes).length ≤ attributes.length := by
  rw [stripList_eq, List.length_map]
  exact List.length_filter_le _ _

theorem RecordComponent.stripList_eq (components : List RecordComponent) :
    stripList p components = components.map (strip p) := by
  induction components with
  | nil => rfl
  | cons r rest ih => rw [stripList, ih, List.map_cons]

mutual

/-- What is left has nothing more to delete. -/
theorem Attribute.strip_strip : ∀ a : Attribute, (a.strip p).strip p = a.strip p
  | ⟨name, info⟩ => by rw [Attribute.strip, Attribute.strip, AttributeInfo.strip_strip info]

theorem AttributeInfo.strip_strip : ∀ info : AttributeInfo, (info.strip p).strip p = info.strip p
  | .code maxStack maxLocals instructions handlers attributes => by
    rw [AttributeInfo.strip, AttributeInfo.strip, Attribute.stripList_stripList attributes]
  | .record components => by
    rw [AttributeInfo.strip, AttributeInfo.strip, RecordComponent.stripList_stripList components]
  | .signature _ | .innerClasses _ | .enclosingMethod _ _ | .localVariables _ | .annotations _
  | .parameterAnnotations _ | .typeAnnotations _ | .annotationDefault _ | .raw _ => by
    simp only [AttributeInfo.strip]

theorem RecordComponent.strip_strip : ∀ r : RecordComponent, (r.strip p).strip p = r.strip p
  | ⟨name, descriptor, attributes⟩ => by
    rw [RecordComponent.strip, RecordComponent.strip, Attribute.stripList_stripList attributes]

theorem Attribute.stripList_stripList : ∀ attributes : List Attribute,
    Attribute.stripList p (Attribute.stripList p attributes) = Attribute.stripList p attributes
  | [] => rfl
  | a :: rest => by
    rw [Attribute.stripList]
    by_cases ha : a.isDebug p = true
    · rw [if_pos ha, Attribute.stripList_stripList rest]
    · rw [if_neg ha, Attribute.stripList, Attribute.isDebug_strip, if_neg ha, Attribute.strip_strip a,
        Attribute.stripList_stripList rest]

theorem RecordComponent.stripList_stripList : ∀ components : List RecordComponent,
    RecordComponent.stripList p (RecordComponent.stripList p components) = RecordComponent.stripList p components
  | [] => rfl
  | r :: rest => by
    rw [RecordComponent.stripList, RecordComponent.stripList, RecordComponent.strip_strip r,
      RecordComponent.stripList_stripList rest]

end

/-! ## What is left is what it was read as -/

mutual

theorem Attribute.WellKinded.strip : ∀ {a : Attribute}, a.WellKinded p → (a.strip p).WellKinded p
  | _, .mk htext hinfo => by
    rw [Attribute.strip]
    exact .mk htext hinfo.strip

theorem AttributeInfo.WellKinded.strip : ∀ {kind : AttributeKind} {info : AttributeInfo},
    info.WellKinded p kind → (info.strip p).WellKinded p kind
  | _, _, .code hattributes => by
    rw [AttributeInfo.strip]
    refine .code fun a ha => ?_
    obtain ⟨b, hb, -, rfl⟩ := Attribute.mem_stripList.mp ha
    exact (hattributes b hb).strip
  | _, _, .record hcomponents => by
    rw [AttributeInfo.strip, RecordComponent.stripList_eq]
    refine .record fun r hr => ?_
    obtain ⟨r', hr', rfl⟩ := List.mem_map.mp hr
    exact (hcomponents r' hr').strip
  | _, _, .signature => .signature
  | _, _, .innerClasses => .innerClasses
  | _, _, .enclosingMethod => .enclosingMethod
  | _, _, .localVariables => .localVariables
  | _, _, .annotations hkind => .annotations hkind
  | _, _, .parameterAnnotations hkind => .parameterAnnotations hkind
  | _, _, .typeAnnotations hkind => .typeAnnotations hkind
  | _, _, .annotationDefault hkind => .annotationDefault hkind
  | _, _, .raw => .raw

theorem RecordComponent.WellKinded.strip : ∀ {r : RecordComponent}, r.WellKinded p → (r.strip p).WellKinded p
  | _, .mk hattributes => by
    rw [RecordComponent.strip]
    refine .mk fun a ha => ?_
    obtain ⟨b, hb, -, rfl⟩ := Attribute.mem_stripList.mp ha
    exact (hattributes b hb).strip

end

/-! ## Leaving out while reading -/

namespace Decoder

variable {α β γ δ : Type}

/-- Where the first reader succeeds, the second takes the same bytes and gives an image of what the first gives. -/
def Maps (g : α → β) (d : Decoder α) (d' : Decoder β) : Prop :=
  ∀ c a c', d c = .ok (a, c') → d' c = .ok (g a, c')

theorem maps_pure {g : α → β} {a : α} {b : β} (h : g a = b) : Maps g (pure a) (pure b) := by
  intro c a' c' ha
  obtain ⟨rfl, rfl⟩ := pure_eq_ok.mp ha
  exact pure_eq_ok.mpr ⟨h.symm, rfl⟩

theorem Maps.bind {g : α → β} {h : γ → δ} {d : Decoder α} {d' : Decoder β} {k : α → Decoder γ}
    {k' : β → Decoder δ} (hd : Maps g d d') (hk : ∀ a, Maps h (k a) (k' (g a))) : Maps h (d >>= k) (d' >>= k') := by
  intro c b c' hb
  obtain ⟨a, c₁, ha, hb⟩ := bind_eq_ok.mp hb
  exact bind_eq_ok.mpr ⟨g a, c₁, hd c a c₁ ha, hk a c₁ b c' hb⟩

/-- Two readers that start alike. -/
theorem maps_bind {h : γ → δ} (d : Decoder α) {k : α → Decoder γ} {k' : α → Decoder δ}
    (hk : ∀ a, Maps h (k a) (k' a)) : Maps h (d >>= k) (d >>= k') :=
  Maps.bind (g := id) (fun _ _ _ ha => ha) hk

theorem Maps.times {g : α → β} {d : Decoder α} {d' : Decoder β} (hd : Maps g d d') (n : Nat) :
    Maps (List.map g) (Decoder.times n d) (Decoder.times n d') := by
  intro c xs c' h
  induction n generalizing c xs with
  | zero =>
    obtain ⟨rfl, rfl⟩ := times_zero_eq_ok.mp h
    rfl
  | succ n ih =>
    obtain ⟨a, c₁, ys, rfl, ha, hys⟩ := times_succ_eq_ok.mp h
    exact times_succ_eq_ok.mpr ⟨g a, c₁, ys.map g, rfl, hd c a c₁ ha, ih c₁ ys hys⟩

theorem Maps.counted {g : α → β} {d : Decoder α} {d' : Decoder β} (hd : Maps g d d') :
    Maps (List.map g) (Decoder.counted d) (Decoder.counted d') :=
  maps_bind u16 fun k => hd.times k.toNat

end Decoder

section

variable {nested nested' : Decoder (List Attribute)}

/-- Data of every kind are read from the same bytes, whatever is left out inside them. -/
theorem AttributeInfo.maps_decodeWith (h : Maps (Attribute.stripList p) nested nested') (size : Nat)
    (kind : AttributeKind) :
    Maps (AttributeInfo.strip p) (decodeWith nested size kind) (decodeWith nested' size kind) := by
  cases kind with
  | code =>
    refine maps_bind _ fun _ => maps_bind _ fun _ => maps_bind _ fun _ => maps_bind _ fun _ => maps_bind _ fun _ => ?_
    exact h.bind fun _ => maps_pure rfl
  | record =>
    have hcomponent : Maps (RecordComponent.strip p)
        (do let name ← u16; let descriptor ← u16; let attributes ← nested
            return (⟨name, descriptor, attributes⟩ : RecordComponent))
        (do let name ← u16; let descriptor ← u16; let attributes ← nested'
            return (⟨name, descriptor, attributes⟩ : RecordComponent)) :=
      maps_bind _ fun _ => maps_bind _ fun _ => h.bind fun _ => maps_pure rfl
    refine hcomponent.counted.bind fun components => maps_pure ?_
    rw [AttributeInfo.strip, RecordComponent.stripList_eq]
  | enclosingMethod | parameterAnnotations => exact maps_bind _ fun _ => maps_bind _ fun _ => maps_pure rfl
  | signature | innerClasses | localVariables | annotations | typeAnnotations | annotationDefault | raw =>
    exact maps_bind _ fun _ => maps_pure rfl

theorem AttributeInfo.decodeBody_strip (h : Maps (Attribute.stripList p) nested nested') {name : String}
    {body : Bytes} {info : AttributeInfo} (hinfo : decodeBody nested name body = .ok info) :
    decodeBody nested' name body = .ok (info.strip p) := by
  unfold decodeBody at hinfo ⊢
  cases hread : decodeWith nested body.length (AttributeKind.ofName name) (Cursor.start body) with
  | error e => simp [hread] at hinfo
  | ok r =>
    obtain ⟨info', c⟩ := r
    simp only [hread] at hinfo
    simp only [maps_decodeWith h body.length (AttributeKind.ofName name) _ _ _ hread]
    split at hinfo
    · next hrest =>
      obtain rfl := Except.ok.inj hinfo
      rw [if_pos hrest]
    · cases hinfo

/-- What becomes of an attribute: it goes, or it stays without what goes inside it. -/
def Attribute.keep? (p : Pool) (a : Attribute) : Option Attribute :=
  if a.isDebug p then none else some (a.strip p)

/-- The body of a debug attribute is taken, but not looked at. -/
theorem Attribute.maps_decodeWith (h : Maps (stripList p) nested nested') :
    Maps (Option.bind · (keep? p)) (decodeWith p false nested) (decodeWith p true nested') := by
  refine maps_bind _ fun name => maps_bind _ fun length => maps_bind _ fun body => ?_
  intro c a? c' ha
  obtain ⟨text, c₁, hlift, ha⟩ := bind_eq_ok.mp ha
  obtain ⟨htext, rfl⟩ := lift_eq_ok.mp hlift
  rw [Bool.false_and, if_neg Bool.false_ne_true] at ha
  obtain ⟨info, rfl, hlift⟩ := return_eq_ok.mp ha
  obtain ⟨hinfo, rfl⟩ := lift_eq_ok.mp hlift
  have hdebug : isDebug p ⟨name, info⟩ = debugAttributes.contains text := by
    unfold isDebug nameIn
    rw [htext]
  refine bind_eq_ok.mpr ⟨text, c, lift_eq_ok.mpr ⟨htext, rfl⟩, ?_⟩
  change _ = Except.ok (keep? p ⟨name, info⟩, c)
  rw [Bool.true_and, keep?, hdebug]
  split
  · rfl
  · exact return_eq_ok.mpr ⟨_, rfl, lift_eq_ok.mpr ⟨AttributeInfo.decodeBody_strip h hinfo, rfl⟩⟩

theorem Attribute.reduceOption_keep? (options : List (Option Attribute)) :
    (options.map (Option.bind · (keep? p))).reduceOption = stripList p options.reduceOption := by
  induction options with
  | nil => rfl
  | cons a? options ih =>
    cases a? with
    | none => rw [List.map_cons, Option.bind_none, List.reduceOption_cons_of_none, List.reduceOption_cons_of_none, ih]
    | some a =>
      rw [List.map_cons, Option.bind_some, List.reduceOption_cons_of_some, stripList, keep?]
      split
      · rw [List.reduceOption_cons_of_none, ih]
      · rw [List.reduceOption_cons_of_some, ih]

/-- **Attributes that can be read in full can be read without those for debuggers**, from the same bytes. -/
theorem Attribute.maps_decodeList (p : Pool) (fuel : Nat) :
    Maps (stripList p) (decodeList p false fuel) (decodeList p true fuel) := by
  induction fuel with
  | zero => exact maps_bind _ fun _ => maps_bind _ fun _ => maps_pure rfl
  | succ fuel ih => exact (maps_decodeWith ih).counted.bind fun options => maps_pure (reduceOption_keep? options).symm

end

/-! ## Room for what is left -/

namespace Encoding

/-- Wherever one encoding can be written, another one can be, and in no more bytes. -/
def Within (small large : Encoding) : Prop :=
  large.fault? = none → small.fault? = none ∧ small.bytes.size ≤ large.bytes.size

theorem Within.refl (e : Encoding) : e.Within e := fun h => ⟨h, Nat.le_refl _⟩

theorem Within.append {a a' b b' : Encoding} (ha : a'.Within a) (hb : b'.Within b) : (a' ++ b').Within (a ++ b) := by
  intro h
  obtain ⟨hafault, hbfault⟩ := fault?_append.mp h
  obtain ⟨ha', hasize⟩ := ha hafault
  obtain ⟨hb', hbsize⟩ := hb hbfault
  refine ⟨fault?_append.mpr ⟨ha', hb'⟩, ?_⟩
  rw [bytes_append ha', bytes_append hafault, Array.size_append, Array.size_append]
  exact Nat.add_le_add hasize hbsize

/-- What stands in front can go altogether. -/
theorem Within.drop {a b b' : Encoding} (hb : b'.Within b) : b'.Within (a ++ b) := by
  intro h
  obtain ⟨hafault, hbfault⟩ := fault?_append.mp h
  obtain ⟨hb', hsize⟩ := hb hbfault
  refine ⟨hb', ?_⟩
  rw [bytes_append hafault, Array.size_append]
  exact Nat.le_trans hsize (Nat.le_add_left _ _)

theorem within_count (what : Counted) {n n' : Nat} (h : n' ≤ n) : (count what n').Within (count what n) := by
  intro hfault
  unfold count at hfault ⊢
  split at hfault
  · next hn =>
    rw [if_pos (Nat.le_trans h hn), if_pos hn]
    exact ⟨rfl, Nat.le_refl 2⟩
  · cases hfault

theorem within_length (what : Sized) {n n' : Nat} (h : n' ≤ n) : (length what n').Within (length what n) := by
  intro hfault
  unfold length at hfault ⊢
  split at hfault
  · next hn =>
    rw [if_pos (Nat.le_trans h hn), if_pos hn]
    exact ⟨rfl, Nat.le_refl 4⟩
  · cases hfault

/-- Elements that each stay or shrink. -/
theorem within_sequence_map {α : Type} {e : α → Encoding} {g : α → α} (h : ∀ a, (e (g a)).Within (e a))
    (items : List α) : (sequence e (items.map g)).Within (sequence e items) := by
  induction items with
  | nil => exact .refl _
  | cons a items ih =>
    rw [List.map_cons, sequence_cons, sequence_cons]
    exact (h a).append ih

theorem within_counted_map {α : Type} {e : α → Encoding} {g : α → α} (h : ∀ a, (e (g a)).Within (e a))
    (what : Counted) (items : List α) : (counted what e (items.map g)).Within (counted what e items) := by
  unfold counted
  rw [List.length_map]
  exact (Within.refl _).append (within_sequence_map h items)

/-- An attribute around a smaller body. -/
theorem Within.around {body body' : Encoding} (h : body'.Within body) (name : UInt16) :
    (Attribute.encodeAround name body').Within (Attribute.encodeAround name body) := by
  intro hfault
  unfold Attribute.encodeAround at hfault ⊢
  cases hbody : body.fault? with
  | some fault => simp [hbody] at hfault
  | none =>
    obtain ⟨hbody', hsize⟩ := h hbody
    simp only [hbody] at hfault
    simp only [hbody']
    exact ((Within.refl _).append (within_length _ hsize)).append h hfault

end Encoding

mutual

theorem Attribute.within_strip : ∀ a : Attribute, (a.strip p).encode.Within a.encode
  | ⟨name, info⟩ => by
    rw [Attribute.strip, Attribute.encode, Attribute.encode]
    exact (AttributeInfo.within_strip info).around name

theorem AttributeInfo.within_strip : ∀ info : AttributeInfo, (info.strip p).encode.Within info.encode
  | .code maxStack maxLocals instructions handlers attributes => by
    rw [AttributeInfo.strip, AttributeInfo.encode, AttributeInfo.encode, Attribute.encodeItems_eq,
      Attribute.encodeItems_eq, empty_append, empty_append]
    exact ((Within.refl _).append (within_count _ (Attribute.length_stripList_le attributes))).append
      (Attribute.within_stripList attributes)
  | .record components => by
    rw [AttributeInfo.strip, AttributeInfo.encode, AttributeInfo.encode, RecordComponent.encodeItems_eq,
      RecordComponent.encodeItems_eq, empty_append, empty_append]
    refine (within_count _ (Nat.le_of_eq ?_)).append (RecordComponent.within_stripList components)
    rw [RecordComponent.stripList_eq, List.length_map]
  | .signature _ | .innerClasses _ | .enclosingMethod _ _ | .localVariables _ | .annotations _
  | .parameterAnnotations _ | .typeAnnotations _ | .annotationDefault _ | .raw _ => .refl _

theorem RecordComponent.within_strip : ∀ r : RecordComponent, (r.strip p).encode.Within r.encode
  | ⟨name, descriptor, attributes⟩ => by
    rw [RecordComponent.strip, RecordComponent.encode, RecordComponent.encode, Attribute.encodeItems_eq,
      Attribute.encodeItems_eq, empty_append, empty_append]
    exact ((Within.refl _).append (within_count _ (Attribute.length_stripList_le attributes))).append
      (Attribute.within_stripList attributes)

theorem Attribute.within_stripList : ∀ attributes : List Attribute,
    (sequence Attribute.encode (Attribute.stripList p attributes)).Within (sequence Attribute.encode attributes)
  | [] => .refl _
  | a :: rest => by
    rw [Attribute.stripList, sequence_cons]
    split
    · exact (Attribute.within_stripList rest).drop
    · rw [sequence_cons]
      exact (Attribute.within_strip a).append (Attribute.within_stripList rest)

theorem RecordComponent.within_stripList : ∀ components : List RecordComponent,
    (sequence RecordComponent.encode (RecordComponent.stripList p components)).Within
      (sequence RecordComponent.encode components)
  | [] => .refl _
  | r :: rest => by
    rw [RecordComponent.stripList, sequence_cons, sequence_cons]
    exact (RecordComponent.within_strip r).append (RecordComponent.within_stripList rest)

end

/-- **What is left of a list of attributes can be written** if the list can be. -/
theorem Attribute.within_encodeList (attributes : List Attribute) :
    (encodeList (stripList p attributes)).Within (encodeList attributes) := by
  rw [encodeList_eq, encodeList_eq]
  exact (within_count _ (length_stripList_le attributes)).append (within_stripList attributes)

end Relabel
