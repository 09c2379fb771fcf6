import Relabel.Proofs.Class.RoundTrip

/-!
# What a writer wrote

A writer takes events in any order, and whoever sends them may go on after one that failed. Headers and attributes
are kept until an end comes, but members are encoded on arrival, into bytes and a count beside them. A member that
cannot be encoded is refused; by then it has been counted, and its bytes up to the fault are with those of the other
members. So what the writer wrote is the header that came last, the pool of the end and the members and attributes that
were accepted, but only if no member was refused before: the count of a refused member stays, and no file has the same
bytes with another count.
-/

set_option autoImplicit false

namespace Relabel

open Encoding

/-! ## Events -/

/-- What a writer can receive. -/
inductive WriterEvent where
  | header (h : Header)
  | field (f : Member)
  | method (f : Member)
  | attr (a : Attribute)
  | finish (p : Pool)

namespace WriterEvent

/-- What the writer does with an event. -/
def effect : WriterEvent → Effect ClassWriter Unit
  | .header h => ClassWriter.onHeader h
  | .field f => ClassWriter.onField f
  | .method f => ClassWriter.onMethod f
  | .attr a => ClassWriter.onAttribute a
  | .finish p => ClassWriter.onEnd p

/-- The writer after an event, whether or not it was accepted. -/
def run (w : ClassWriter) (e : WriterEvent) : ClassWriter := e.effect.after w

def header? : WriterEvent → Option Header
  | .header h => some h
  | _ => none

def field? : WriterEvent → Option Member
  | .field f => some f
  | _ => none

def method? : WriterEvent → Option Member
  | .method f => some f
  | _ => none

def attr? : WriterEvent → Option Attribute
  | .attr a => some a
  | _ => none

/-- A member that cannot be encoded. -/
def Refused (e : WriterEvent) : Prop :=
  ∃ f : Member, (e = .field f ∨ e = .method f) ∧ f.encode.fault? ≠ none

/-- Apart from ends, the events that fail are those of members that cannot be encoded, whenever they arrive. -/
theorem refused_iff {e : WriterEvent} (he : ∀ p, e ≠ .finish p) (w : ClassWriter) :
    e.Refused ↔ ∃ err w', e.effect w = .error err w' := by
  have hmember {f : Member} (hf : e = .field f ∨ e = .method f) : e.Refused ↔ f.encode.fault? ≠ none := by
    constructor
    · intro h
      obtain ⟨g, hg, hfault⟩ := h
      obtain rfl | rfl := hf
      · simp only [field.injEq, reduceCtorEq, or_false] at hg
        rwa [hg]
      · simp only [method.injEq, reduceCtorEq, false_or] at hg
        rwa [hg]
    · intro h
      exact ⟨f, hf, h⟩
  have hother (hfield : ∀ f, e ≠ .field f) (hmethod : ∀ f, e ≠ .method f) : ¬e.Refused := by
    intro h
    obtain ⟨f, hf | hf, -⟩ := h
    · exact hfield f hf
    · exact hmethod f hf
  cases e with
  | field f =>
    rw [hmember (Or.inl rfl), effect, ClassWriter.onField]
    cases f.encode.fault? <;> simp
  | method f =>
    rw [hmember (Or.inr rfl), effect, ClassWriter.onMethod]
    cases f.encode.fault? <;> simp
  | header h => exact iff_of_false (hother (by simp) (by simp)) (by rintro ⟨err, w', h⟩; cases h)
  | attr a => exact iff_of_false (hother (by simp) (by simp)) (by rintro ⟨err, w', h⟩; cases h)
  | finish p => exact absurd rfl (he p)

end WriterEvent

/-- The members that can be encoded. -/
def Member.encodable (fs : List Member) : List Member :=
  fs.filter fun f => f.encode.fault? = none

/-- The bytes of members one after the other, of each up to its fault. -/
def Member.bytesOf (fs : List Member) : Bytes :=
  fs.flatMap fun f => f.encode.bytes.toList

/-! ## What an event does to the writer -/

/-- An end uses the header up. If it fails, it changes nothing else. -/
theorem ClassWriter.onEnd_cases (p : Pool) (w : ClassWriter) :
    (∃ err, onEnd p w = .error err { w with header? := none }) ∨
    ∃ h name bytes, w.header? = some h ∧ h.className p = .ok name ∧
      (encodeClass p h w.fieldCount w.fields w.methodCount w.methods w.attributes.toList).result = .ok bytes ∧
      onEnd p w = .ok () { w with header? := none, name? := some name, output? := some bytes } := by
  obtain ⟨flags, header?, fields, fieldCount, methods, methodCount, attributes, name?, output?⟩ := w
  cases header? with
  | none => exact Or.inl ⟨_, rfl⟩
  | some h =>
    cases hresult : (encodeClass p h fieldCount fields methodCount methods attributes.toList).result with
    | error fault => exact Or.inl ⟨fault, by simp only [onEnd, hresult]⟩
    | ok bytes =>
      cases hname : h.className p with
      | error fault => exact Or.inl ⟨fault, by simp only [onEnd, hresult, hname]⟩
      | ok name => exact Or.inr ⟨h, name, bytes, rfl, hname, hresult, by simp only [onEnd, hresult, hname]⟩

namespace WriterEvent

variable (w : ClassWriter)

@[simp] theorem run_header (h : Header) : (header h).run w = { w with header? := some h } := rfl

@[simp] theorem run_attr (a : Attribute) : (attr a).run w = { w with attributes := w.attributes.push a } := rfl

@[simp] theorem run_field (f : Member) : (field f).run w
    = { w with fields := w.fields ++ f.encode.bytes, fieldCount := w.fieldCount + 1 } := by
  unfold run Effect.after effect ClassWriter.onField
  cases hf : f.encode.fault? <;> simp only [hf]

@[simp] theorem run_method (f : Member) : (method f).run w
    = { w with methods := w.methods ++ f.encode.bytes, methodCount := w.methodCount + 1 } := by
  unfold run Effect.after effect ClassWriter.onMethod
  cases hf : f.encode.fault? <;> simp only [hf]

theorem run_finish (p : Pool) : ∃ name? output?,
    (finish p).run w = { w with header? := none, name? := name?, output? := output? } := by
  obtain ⟨err, h⟩ | ⟨header, name, bytes, -, -, -, h⟩ := ClassWriter.onEnd_cases p w
  · exact ⟨w.name?, w.output?, Effect.after_of_error h⟩
  · exact ⟨some name, some bytes, Effect.after_of_ok h⟩

theorem fields_run (e : WriterEvent) :
    (e.run w).fields.toList = w.fields.toList ++ Member.bytesOf e.field?.toList := by
  cases e with
  | field f => simp [field?, Member.bytesOf]
  | finish p =>
    obtain ⟨name?, output?, h⟩ := run_finish w p
    simp [h, field?, Member.bytesOf]
  | header _ | method _ | attr _ => simp [field?, Member.bytesOf]

theorem fieldCount_run (e : WriterEvent) : (e.run w).fieldCount = w.fieldCount + e.field?.toList.length := by
  cases e with
  | finish p =>
    obtain ⟨name?, output?, h⟩ := run_finish w p
    simp [h, field?]
  | header _ | field _ | method _ | attr _ => simp [field?]

theorem methods_run (e : WriterEvent) :
    (e.run w).methods.toList = w.methods.toList ++ Member.bytesOf e.method?.toList := by
  cases e with
  | method f => simp [method?, Member.bytesOf]
  | finish p =>
    obtain ⟨name?, output?, h⟩ := run_finish w p
    simp [h, method?, Member.bytesOf]
  | header _ | field _ | attr _ => simp [method?, Member.bytesOf]

theorem methodCount_run (e : WriterEvent) : (e.run w).methodCount = w.methodCount + e.method?.toList.length := by
  cases e with
  | finish p =>
    obtain ⟨name?, output?, h⟩ := run_finish w p
    simp [h, method?]
  | header _ | field _ | method _ | attr _ => simp [method?]

theorem attributes_run (e : WriterEvent) : (e.run w).attributes.toList = w.attributes.toList ++ e.attr?.toList := by
  cases e with
  | finish p =>
    obtain ⟨name?, output?, h⟩ := run_finish w p
    simp [h, attr?]
  | header _ | field _ | method _ | attr _ => simp [attr?]

/-- The writer has a header only from the last event that brought one. -/
theorem header_run {e : WriterEvent} {h : Header} (hrun : (e.run w).header? = some h) :
    e.header? = some h ∨ (e.header? = none ∧ w.header? = some h) := by
  cases e with
  | header h' => exact Or.inl hrun
  | finish p =>
    obtain ⟨name?, output?, hfinish⟩ := run_finish w p
    rw [hfinish] at hrun
    cases hrun
  | field f =>
    rw [run_field] at hrun
    exact Or.inr ⟨rfl, hrun⟩
  | method f =>
    rw [run_method] at hrun
    exact Or.inr ⟨rfl, hrun⟩
  | attr a => exact Or.inr ⟨rfl, hrun⟩

end WriterEvent

/-! ## Buffers and counts -/

open WriterEvent

/-- The writer holds all that it received: of members that were refused, what could be encoded. -/
structure ClassWriter.Received (w : ClassWriter) (events : List WriterEvent) : Prop where
  fields : w.fields.toList = Member.bytesOf (events.filterMap field?)
  fieldCount : w.fieldCount = (events.filterMap field?).length
  methods : w.methods.toList = Member.bytesOf (events.filterMap method?)
  methodCount : w.methodCount = (events.filterMap method?).length
  attributes : w.attributes.toList = events.filterMap attr?
  header : ∀ h, w.header? = some h → (events.filterMap WriterEvent.header?).getLast? = some h

namespace ClassWriter

theorem received_new (flags : WriterFlags) : (new flags).Received [] :=
  ⟨rfl, rfl, rfl, rfl, rfl, fun _ h => nomatch h⟩

/-- **One event.** -/
theorem Received.run {w : ClassWriter} {events : List WriterEvent} (hw : w.Received events) (e : WriterEvent) :
    (e.run w).Received (events ++ [e]) := by
  have hconcat {α : Type} (part? : WriterEvent → Option α) :
      (events ++ [e]).filterMap part? = events.filterMap part? ++ (part? e).toList := List.filterMap_append
  refine ⟨?_, ?_, ?_, ?_, ?_, ?_⟩ <;> rw [hconcat]
  · rw [fields_run, hw.fields]
    exact List.flatMap_append.symm
  · rw [fieldCount_run, hw.fieldCount, List.length_append]
  · rw [methods_run, hw.methods]
    exact List.flatMap_append.symm
  · rw [methodCount_run, hw.methodCount, List.length_append]
  · rw [attributes_run, hw.attributes]
  · intro h hrun
    obtain hnew | ⟨hnone, hold⟩ := header_run w hrun
    · simp [hnew]
    · simp [hnone, hw.header h hold]

/-- **Any events.** -/
theorem received_foldl (flags : WriterFlags) (events : List WriterEvent) :
    (events.foldl WriterEvent.run (new flags)).Received events := by
  induction events using List.reverseRecOn with
  | nil => exact received_new flags
  | append_singleton events e ih =>
    rw [List.foldl_concat]
    exact ih.run e

/-! ## The last end -/

/-- The writer accepted an end with the pool `p` after the events `before`. -/
def EndsAfter (flags : WriterFlags) (events before : List WriterEvent) (p : Pool) : Prop :=
  (∃ after, events = before ++ .finish p :: after) ∧
    ∃ w, onEnd p (before.foldl WriterEvent.run (new flags)) = .ok () w

/-- An end was accepted if it was accepted before or came last. -/
theorem endsAfter_concat {flags : WriterFlags} {events before : List WriterEvent} {e : WriterEvent} {p : Pool} :
    EndsAfter flags (events ++ [e]) before p ↔ EndsAfter flags events before p ∨
      (before = events ∧ e = .finish p ∧ ∃ w, onEnd p (events.foldl WriterEvent.run (new flags)) = .ok () w) := by
  constructor
  · intro h
    obtain ⟨⟨after, hsplit⟩, hend⟩ := h
    obtain rfl | ⟨init, last, rfl⟩ := List.eq_nil_or_concat after
    · obtain ⟨rfl, hlast⟩ := List.append_inj' hsplit rfl
      exact Or.inr ⟨rfl, List.singleton_inj.mp hlast, hend⟩
    · rw [List.concat_eq_append, ← List.cons_append, ← List.append_assoc] at hsplit
      exact Or.inl ⟨⟨init, (List.append_inj' hsplit rfl).1⟩, hend⟩
  · intro h
    obtain ⟨⟨after, hsplit⟩, hend⟩ | ⟨rfl, rfl, hend⟩ := h
    · exact ⟨⟨after ++ [e], by rw [hsplit, List.append_assoc, List.cons_append]⟩, hend⟩
    · exact ⟨⟨[], rfl⟩, hend⟩

/-- Only an end that is accepted changes what was written. -/
theorem output_run (e : WriterEvent) (w : ClassWriter) :
    (∃ p w', e = .finish p ∧ onEnd p w = .ok () w' ∧ e.run w = w') ∨
    ((∀ p w', e = .finish p → onEnd p w ≠ .ok () w') ∧
      (e.run w).name? = w.name? ∧ (e.run w).output? = w.output?) := by
  cases e with
  | finish p =>
    obtain ⟨err, h⟩ | ⟨header, name, bytes, -, -, -, h⟩ := onEnd_cases p w
    · refine Or.inr ⟨?_, ?_, ?_⟩
      · intro q w' hq hok
        obtain rfl := WriterEvent.finish.inj hq
        rw [h] at hok
        cases hok
      · rw [WriterEvent.run, effect, Effect.after_of_error h]
      · rw [WriterEvent.run, effect, Effect.after_of_error h]
    · exact Or.inl ⟨p, _, rfl, h, Effect.after_of_ok h⟩
  | header _ | field _ | method _ | attr _ => exact Or.inr ⟨by simp, by simp, by simp⟩

/-- **What was written is what the last end that was accepted wrote.** -/
theorem output_foldl (flags : WriterFlags) (events : List WriterEvent) :
    ((events.foldl WriterEvent.run (new flags)).name? = none ∧
      (events.foldl WriterEvent.run (new flags)).output? = none ∧ ∀ before p, ¬EndsAfter flags events before p) ∨
    ∃ before p w, EndsAfter flags events before p ∧
      (∀ before' p', EndsAfter flags events before' p' → before'.length ≤ before.length) ∧
      onEnd p (before.foldl WriterEvent.run (new flags)) = .ok () w ∧
      (events.foldl WriterEvent.run (new flags)).name? = w.name? ∧
      (events.foldl WriterEvent.run (new flags)).output? = w.output? := by
  induction events using List.reverseRecOn with
  | nil =>
    refine Or.inl ⟨rfl, rfl, ?_⟩
    intro before p h
    obtain ⟨⟨after, hsplit⟩, -⟩ := h
    simp at hsplit
  | append_singleton events e ih =>
    rw [List.foldl_concat]
    obtain ⟨p, w, rfl, hend, hrun⟩ | ⟨hnone, hname, houtput⟩ :=
      output_run e (events.foldl WriterEvent.run (new flags))
    · refine Or.inr ⟨events, p, w, endsAfter_concat.mpr (Or.inr ⟨rfl, rfl, w, hend⟩), ?_, hend, ?_, ?_⟩
      · intro before' p' h
        obtain ⟨⟨after, hsplit⟩, -⟩ | ⟨rfl, -, -⟩ := endsAfter_concat.mp h
        · simp [hsplit]
        · exact Nat.le_refl _
      · rw [hrun]
      · rw [hrun]
    · have hends (before : List WriterEvent) (p : Pool) :
          EndsAfter flags (events ++ [e]) before p ↔ EndsAfter flags events before p := by
        rw [endsAfter_concat]
        refine or_iff_left ?_
        intro h
        obtain ⟨-, he, w, hend⟩ := h
        exact hnone p w he hend
      simp only [hends, hname, houtput]
      exact ih

end ClassWriter

/-! ## Members that were refused -/

namespace Encoding

theorem append_left_cancel {a b c : Encoding} (ha : a.fault? = none) (h : a ++ b = a ++ c) : b = c := by
  obtain ⟨bytes, rfl⟩ := exists_ofBytes ha
  obtain ⟨x, fault?⟩ := b
  obtain ⟨y, fault?'⟩ := c
  have h : (⟨bytes.toArray ++ x, fault?⟩ : Encoding) = ⟨bytes.toArray ++ y, fault?'⟩ := h
  obtain ⟨hbytes, hfault⟩ := Encoding.mk.inj h
  rw [Array.append_right_inj] at hbytes
  rw [hbytes, hfault]

theorem fault?_count {what : Counted} {n : Nat} : (count what n).fault? = none ↔ n ≤ 65535 := by
  unfold count
  by_cases hn : n ≤ 65535
  · simp [hn, u16, ofBytes]
  · simp [hn, refuse]

/-- What follows a count cannot make up for another count. -/
theorem count_inj {what : Counted} {n k : Nat} {b c : Encoding} (hn : n ≤ 65535) (hk : k ≤ 65535)
    (h : count what n ++ b = count what k ++ c) : n = k := by
  rw [count, count, if_pos hn, if_pos hk] at h
  have hbytes := congrArg (fun e => e.bytes.toList) h
  simp only [u16, bytes_append (show (ofBytes _).fault? = none from rfl), Array.toList_append] at hbytes
  have hspell := (List.append_inj hbytes rfl).1
  have hvalue := congrArg Bytes.toNatBE hspell
  simp only [ofBytes, List.toList_toArray, Bytes.toNatBE_ofUInt16] at hvalue
  rwa [UInt16.toNat_ofNat_of_lt' (by simp only [UInt16.size]; omega),
    UInt16.toNat_ofNat_of_lt' (by simp only [UInt16.size]; omega)] at hvalue

theorem sequence_of_faultless {α : Type} {f : α → Encoding} {items : List α}
    (hitems : ∀ a ∈ items, (f a).fault? = none) :
    sequence f items = ofBytes (items.flatMap fun a => (f a).bytes.toList) := by
  induction items with
  | nil => rfl
  | cons a items ih =>
    obtain ⟨bytes, hbytes⟩ := exists_ofBytes (hitems a List.mem_cons_self)
    rw [sequence_cons, ih fun b hb => hitems b (List.mem_cons_of_mem a hb), hbytes, ofBytes_append,
      List.flatMap_cons, hbytes]
    simp [ofBytes]

end Encoding

theorem encodeClass_eq (p : Pool) (h : Header) (fieldCount : Nat) (fields : Array UInt8) (methodCount : Nat)
    (methods : Array UInt8) (attributes : List Attribute) :
    encodeClass p h fieldCount fields methodCount methods attributes = h.encode p ++ (count .fields fieldCount
      ++ (⟨fields, none⟩ ++ (count .methods methodCount ++ (⟨methods, none⟩ ++ Attribute.encodeList attributes)))) := by
  simp only [encodeClass, Header.encode, append_assoc]

/-- Members that can all be encoded are their bytes. -/
theorem Member.sequence_encodable (fs : List Member) :
    sequence encode (encodable fs) = ofBytes (bytesOf (encodable fs)) :=
  sequence_of_faultless fun f hf => by simpa [encodable] using (List.mem_filter.mp hf).2

theorem Member.encodable_eq_self {fs : List Member} : encodable fs = fs ↔ ∀ f ∈ fs, f.encode.fault? = none := by
  simp [encodable]

theorem Member.encodable_eq_iff_length {fs : List Member} : encodable fs = fs ↔ (encodable fs).length = fs.length := by
  rw [encodable_eq_self, encodable, List.length_filter_eq_length_iff]
  simp

theorem Member.length_encodable_le (fs : List Member) : (encodable fs).length ≤ fs.length :=
  List.length_filter_le _ fs

/-- Around the same head and the same attributes, the members that can be encoded make a file if all of them with
their counts do, and it is the same file just if all can be encoded. -/
theorem toBytes_encodable {p : Pool} {h : Header} {fields methods : List Member} {attributes : List Attribute}
    {bytes : Bytes} (hbytes : (encodeClass p h fields.length (Member.bytesOf fields).toArray methods.length
      (Member.bytesOf methods).toArray attributes).result = .ok bytes) :
    ∃ accepted, (⟨p, h, (Member.encodable fields).toArray, (Member.encodable methods).toArray,
        attributes.toArray⟩ : ClassModel).toBytes = .ok accepted ∧
      (bytes = accepted ↔ Member.encodable fields = fields ∧ Member.encodable methods = methods) := by
  rw [encodeClass_eq, result_eq_ok] at hbytes
  have hfault := congrArg Encoding.fault? hbytes
  simp only [ofBytes, fault?_append, fault?_count] at hfault
  obtain ⟨hhead, hfields, -, hmethods, -, hattributes⟩ := hfault
  have hfields' := Nat.le_trans (Member.length_encodable_le fields) hfields
  have hmethods' := Nat.le_trans (Member.length_encodable_le methods) hmethods
  have hbody : h.encode p ++ (⟨p, h, (Member.encodable fields).toArray, (Member.encodable methods).toArray,
      attributes.toArray⟩ : ClassModel).encodeBody = h.encode p ++ (count .fields (Member.encodable fields).length
        ++ (ofBytes (Member.bytesOf (Member.encodable fields)) ++ (count .methods (Member.encodable methods).length
          ++ (ofBytes (Member.bytesOf (Member.encodable methods)) ++ Attribute.encodeList attributes)))) := by
    simp only [ClassModel.encodeBody, Encoding.counted, append_assoc, Member.sequence_encodable]
  obtain ⟨accepted, haccepted⟩ := exists_ofBytes (e := h.encode p ++ (⟨p, h, (Member.encodable fields).toArray,
    (Member.encodable methods).toArray, attributes.toArray⟩ : ClassModel).encodeBody) (by
      rw [hbody]
      simp only [ofBytes, fault?_append, fault?_count]
      exact ⟨hhead, hfields', trivial, hmethods', trivial, hattributes⟩)
  refine ⟨accepted, ClassModel.toBytes_eq_ok.mpr haccepted, ?_⟩
  rw [hbody] at haccepted
  constructor
  · intro hsame
    rw [← hsame, ← hbytes] at haccepted
    -- The counts of the fields are at one place in both files, and so are, if all fields are there, those of the methods.
    have hafter := append_left_cancel hhead haccepted
    have hfieldsAll := Member.encodable_eq_iff_length.mpr (count_inj hfields' hfields hafter)
    rw [hfieldsAll] at hafter
    have hafter := append_left_cancel rfl (append_left_cancel (fault?_count.mpr hfields) hafter)
    exact ⟨hfieldsAll, Member.encodable_eq_iff_length.mpr (count_inj hmethods' hmethods hafter)⟩
  · intro hall
    rw [hall.1, hall.2] at haccepted
    have hsame : ofBytes bytes = ofBytes accepted := hbytes.symm.trans haccepted
    simpa [ofBytes] using hsame

theorem WriterEvent.encodable_eq_iff {events : List WriterEvent} :
    (Member.encodable (events.filterMap field?) = events.filterMap field? ∧
      Member.encodable (events.filterMap method?) = events.filterMap method?) ↔ ∀ e ∈ events, ¬e.Refused := by
  simp only [Member.encodable_eq_self, List.mem_filterMap]
  constructor
  · intro h e he hrefused
    obtain ⟨f, rfl | rfl, hfault⟩ := hrefused
    · exact hfault (h.1 f ⟨_, he, rfl⟩)
    · exact hfault (h.2 f ⟨_, he, rfl⟩)
  · intro h
    constructor
    · intro f hf
      obtain ⟨e, he, hfield⟩ := hf
      by_contra hfault
      cases e <;> cases hfield
      exact h _ he ⟨f, Or.inl rfl, hfault⟩
    · intro f hf
      obtain ⟨e, he, hmethod⟩ := hf
      by_contra hfault
      cases e <;> cases hmethod
      exact h _ he ⟨f, Or.inr rfl, hfault⟩

/-! ## The whole -/

/-- The class with a header, a pool, and the members and attributes that were accepted. -/
def ClassModel.accepted (p : Pool) (h : Header) (events : List WriterEvent) : ClassModel where
  pool := p
  header := h
  fields := (Member.encodable (events.filterMap field?)).toArray
  methods := (Member.encodable (events.filterMap method?)).toArray
  attributes := (events.filterMap attr?).toArray

namespace ClassWriter

/-- What the writer wrote at an end with the pool `p` after the events `before`: `bytes`, where it should have written
`accepted`. -/
structure WroteAfter (before : List WriterEvent) (p : Pool) (h : Header) (name : String) (bytes accepted : Bytes) :
    Prop where
  /-- The header is the one that came last. -/
  header : (before.filterMap WriterEvent.header?).getLast? = some h
  className : h.className p = .ok name
  /-- All that arrived is in the file, and was counted. -/
  arrived : (encodeClass p h (before.filterMap field?).length (Member.bytesOf (before.filterMap field?)).toArray
    (before.filterMap method?).length (Member.bytesOf (before.filterMap method?)).toArray
    (before.filterMap attr?)).result = .ok bytes
  /-- What was accepted can be written. -/
  writable : (ClassModel.accepted p h before).toBytes = .ok accepted
  /-- And it was written just if no member was refused. -/
  same : bytes = accepted ↔ ∀ e ∈ before, ¬e.Refused
  /-- It is read back, if its attributes are what their names announce. -/
  decoded : p.WellFormed → (ClassModel.accepted p h before).WellKinded → ∃ q, q.slots = p.slots ∧
    ClassModel.parse accepted = .ok { ClassModel.accepted p h before with pool := q }

theorem wroteAfter_of_onEnd {flags : WriterFlags} {before : List WriterEvent} {p : Pool} {w : ClassWriter}
    (hend : onEnd p (before.foldl WriterEvent.run (new flags)) = .ok () w) : ∃ h name bytes accepted,
      w.name? = some name ∧ w.output? = some bytes ∧ WroteAfter before p h name bytes accepted := by
  have hreceived := received_foldl flags before
  obtain ⟨err, h⟩ | ⟨h, name, bytes, hheader, hname, hbytes, hok⟩ := onEnd_cases p (before.foldl run (new flags))
  · rw [h] at hend
    cases hend
  · obtain ⟨-, rfl⟩ := EStateM.Result.ok.inj (hend.symm.trans hok)
    have hname' : (ClassModel.accepted p h before).className = .ok name := hname
    rw [hreceived.fieldCount, hreceived.methodCount, hreceived.attributes,
      ← (before.foldl run (new flags)).fields.toArray_toList, hreceived.fields,
      ← (before.foldl run (new flags)).methods.toArray_toList, hreceived.methods] at hbytes
    obtain ⟨accepted, haccepted, hsame⟩ := toBytes_encodable hbytes
    refine ⟨h, name, bytes, accepted, rfl, rfl, hreceived.header h hheader, hname, hbytes, haccepted,
      hsame.trans WriterEvent.encodable_eq_iff, ?_⟩
    intro hp hkind
    obtain ⟨q, hparse, hslots⟩ := ClassModel.parse_of_toBytes hp hname' hkind haccepted
    exact ⟨q, hslots, hparse⟩

/-- **A writer writes the events that it accepted, unless it refused a member.** After any events, whether or not they
were accepted, the name and the bytes are those of the last end that was accepted, or there are none. The bytes are
those of the class with the header that came last, the pool of the end and the members and attributes that were
accepted, just if no member that came before the end was refused: a refused member stays counted, and its bytes up to
the fault stay where they are. -/
theorem wroteAfter_of_events (flags : WriterFlags) (events : List WriterEvent) :
    (∀ e ∈ events, (∀ p, e ≠ .finish p) → ∀ w, e.Refused ↔ ∃ err w', e.effect w = .error err w') ∧
    (((events.foldl WriterEvent.run (new flags)).name? = none ∧
      (events.foldl WriterEvent.run (new flags)).output? = none ∧ ∀ before p, ¬EndsAfter flags events before p) ∨
    ∃ before p h name bytes accepted, EndsAfter flags events before p ∧
      (∀ before' p', EndsAfter flags events before' p' → before'.length ≤ before.length) ∧
      (events.foldl WriterEvent.run (new flags)).name? = some name ∧
      (events.foldl WriterEvent.run (new flags)).output? = some bytes ∧
      WroteAfter before p h name bytes accepted) := by
  refine ⟨fun e _ he w => refused_iff he w, ?_⟩
  obtain hnone | ⟨before, p, w, hends, hlast, hend, hname, houtput⟩ := output_foldl flags events
  · exact Or.inl hnone
  · obtain ⟨h, name, bytes, accepted, hname', houtput', hwrote⟩ := wroteAfter_of_onEnd hend
    exact Or.inr ⟨before, p, h, name, bytes, accepted, hends, hlast, hname.trans hname', houtput.trans houtput',
      hwrote⟩


/-- A field with annotations on more parameters than an attribute can count. -/
def crowdedField : Member :=
  ⟨1, 1, 1, [⟨1, .parameterAnnotations (List.replicate 256 [])⟩]⟩

/-- The pool of a class that has only its name. -/
def namePool : Pool := ⟨#[.unusable, .utf8 [65], .classRef 1], ∅⟩

/-- The header of such a class. -/
def nameHeader : Header := ⟨0, 52, 33, 2, 0, []⟩

def crowdedEvents : List WriterEvent := [.header nameHeader, .field crowdedField, .finish namePool]

/-- The file of a class whose only field was refused is not that of the class without fields. -/
theorem wroteAfter_crowded : (∀ w, ∃ err w', (WriterEvent.field crowdedField).effect w = .error err w') ∧
    ∃ bytes accepted, (crowdedEvents.foldl WriterEvent.run (new .none)).output? = some bytes ∧
      (⟨namePool, nameHeader, #[], #[], #[]⟩ : ClassModel).toBytes = .ok accepted ∧ bytes ≠ accepted := by
  have hfault : crowdedField.encode.fault? ≠ none := by decide +kernel
  have hrefused : (WriterEvent.field crowdedField).Refused := ⟨crowdedField, Or.inl rfl, hfault⟩
  obtain ⟨hfails, ⟨hnone, -⟩ | ⟨before, p, h, name, bytes, accepted, ⟨⟨after, hsplit⟩, -⟩, -, -, houtput, hwrote⟩⟩ :=
    wroteAfter_of_events .none crowdedEvents
  · have hname : (crowdedEvents.foldl WriterEvent.run (new .none)).name? = some "A" := by decide +kernel
    rw [hname] at hnone
    cases hnone
  · obtain ⟨rfl, rfl, -⟩ : before = [.header nameHeader, .field crowdedField] ∧ p = namePool ∧ after = [] := by
      simpa [crowdedEvents, List.cons_eq_append_iff] using hsplit
    obtain rfl : nameHeader = h := Option.some.inj hwrote.header
    have hnoMembers : ClassModel.accepted namePool nameHeader [.header nameHeader, .field crowdedField]
        = ⟨namePool, nameHeader, #[], #[], #[]⟩ := by
      simp [ClassModel.accepted, Member.encodable, field?, method?, attr?, hfault]
    refine ⟨fun w => (hfails _ (by simp [crowdedEvents]) (by simp) w).mp hrefused, bytes, accepted, houtput, ?_, ?_⟩
    · rw [← hnoMembers, hwrote.writable]
    · intro hsame
      exact hwrote.same.mp hsame _ (by simp) hrefused
end ClassWriter

end Relabel
