import Relabel.Proofs.Class.Codec

/-!
# Reading and writing classes undo each other

From the two halves of the codec: a file is written back byte for byte, and a model is read back part by part.
-/

set_option autoImplicit false

namespace Relabel

open ClassEvents Encoding

/-! ## From bytes to bytes -/

/-- Without stages, a pass over events that stopped fails with what stopped them, if the sink takes what came
before. -/
theorem ClassEvents.deliver_of_stop {σ τ : Type} {events : ClassEvents} {sink : Sink τ} {t t₁ t₂ : τ} {s : σ}
    {e : Error} (hstop : events.stop? = some e) (hheader : sink.onHeader events.header t = .ok () t₁)
    (hitems : deliverItems [] sink t₁ events.items (s, events.pool) = .ok t₂ (s, events.pool)) :
    events.deliver ([] : List (Stage σ)) sink t s = .error e s := by
  have hthread : Stage.thread Stage.onHeader ([] : List (Stage σ)) events.header (s, events.pool)
      = .ok events.header (s, events.pool) := rfl
  have hall : events.deliverAll ([] : List (Stage σ)) sink t (s, events.pool) = .error e (s, events.pool) := by
    unfold deliverAll
    rw [Effect.bind_of_ok hthread, Effect.bind_of_ok (Sink.give_eq_ok.mpr ⟨hheader, rfl⟩),
      Effect.bind_of_ok hitems, hstop]
    rfl
  unfold deliver
  rw [hall]

namespace ClassFile

variable {bytes : Bytes} {f : ClassFile}

/-- The model of a file is written as the file. -/
theorem toBytes_of_events (hf : ofBytes bytes = .ok f) {m : ClassModel} (hm : f.events .none = m.events)
    {c : Cursor} (hnil : c.rest = []) (hbody : m.encodeBody.Between f.body c) : m.toBytes = .ok bytes := by
  obtain ⟨hhead, -⟩ := ofBytes_eq_ok hf
  have hpool : m.pool = f.pool := by rw [← pool_events f .none, hm, ClassModel.events]
  have hheader : m.header = f.header := by rw [← header_events f .none, hm, ClassModel.events]
  obtain ⟨-, hhead⟩ := head_of_decodeHead hhead
  rw [← hpool, ← hheader] at hhead
  have hall := between_append.mpr ⟨f.body, hhead, hbody⟩
  exact ClassModel.toBytes_eq_ok.mpr (result_eq_ok.mp (hall.result_of_nil hnil))

/-- **A file that can be read is written back as it is**, by a writer and through a model. If it cannot be
read to its end, both fail with what stopped the reader: what was read before can always be written. -/
theorem writes_back (hf : ofBytes bytes = .ok f) {σ : Type} (flags : WriterFlags) (s : σ) :
    ((f.events .none).stop? = none →
      (∃ w, (f.events .none).deliver [] ClassWriter.sink (.new flags) s = .ok w s ∧ w.bytes = .ok bytes) ∧
      ∃ m, ClassModel.parse bytes = .ok m ∧ m.toBytes = .ok bytes) ∧
    ∀ e, (f.events .none).stop? = some e →
      (f.events .none).deliver [] ClassWriter.sink (.new flags) s = .error e s ∧
        ClassModel.parse bytes = .error e := by
  constructor
  · intro hstop
    obtain ⟨m, hm, -, c, hnil, hbody⟩ := exists_model hstop
    have hbytes := toBytes_of_events hf hm hnil hbody
    obtain ⟨-, name, hname⟩ := ofBytes_eq_ok hf
    have hmname : m.className = .ok name := by
      rw [← hname, ClassFile.className, ← pool_events f .none, ← header_events f .none, hm]
      rfl
    refine ⟨⟨ClassWriter.finished flags m name bytes, ?_, rfl⟩, m, ClassModel.parse_of_events hf hm, hbytes⟩
    rw [hm]
    exact ClassWriter.deliver_sink.mpr ⟨m, name, bytes, m.deliver_events s, hmname, hbytes, rfl⟩
  · intro e hstop
    constructor
    · -- The elements that were handed on before the failure can all be encoded.
      have hstart : { ClassModel.blank with header := (f.events .none).header }.Encodes := ⟨rfl, rfl⟩
      exact deliver_of_stop hstop rfl (ClassWriter.deliverItems_nil flags hstart (items_encode f) _)
    · have hread := deliver_of_stop (s := ()) (t := ClassModel.blank) hstop rfl
        (ClassModel.deliverItems_nil _ _ _)
      unfold ClassModel.parse
      rw [hf]
      simp only [bind, Except.bind, ClassModel.read, Effect.outcome, hread]

/-- A class with a wide constant, code that holds an attribute, and an annotation value that holds values. -/
def nestedBytes : Bytes :=
  [0xCA, 0xFE, 0xBA, 0xBE, 0, 0, 0, 52, 0, 10, 7, 0, 2, 1, 0, 1, 65, 5, 0, 0, 0, 0, 0, 0, 0, 1, 1, 0, 1, 109,
    1, 0, 3, 40, 41, 86, 1, 0, 4, 67, 111, 100, 101, 1, 0, 1, 120,
    1, 0, 17, 65, 110, 110, 111, 116, 97, 116, 105, 111, 110, 68, 101, 102, 97, 117, 108, 116,
    0, 33, 0, 1, 0, 0, 0, 1, 0, 1, 0, 0, 0, 1, 0, 1, 0, 5, 0, 6, 0, 2,
    0, 7, 0, 0, 0, 29, 0, 0, 0, 1, 0, 0, 0, 1, 177, 0, 1, 0, 0, 0, 1, 0, 0, 0, 0, 0, 1, 0, 8, 0, 0, 0, 2, 1, 2,
    0, 9, 0, 0, 0, 11, 91, 0, 2, 74, 0, 3, 64, 0, 6, 0, 0, 0, 1, 0, 8, 0, 0, 0, 0]

def nestedModel : ClassModel where
  pool := [Constant.classRef 2, .utf8 [65], .long 1, .utf8 [109], .utf8 [40, 41, 86], .utf8 [67, 111, 100, 101],
    .utf8 [120], .utf8 [65, 110, 110, 111, 116, 97, 116, 105, 111, 110, 68, 101, 102, 97, 117, 108, 116]].foldl
      .append .empty
  header := ⟨0, 52, 33, 1, 0, [1]⟩
  fields := #[]
  methods := #[⟨1, 5, 6, [⟨7, .code 0 1 [177] [⟨0, 1, 0, 0⟩] [⟨8, .raw [1, 2]⟩]⟩,
    ⟨9, .annotationDefault (.array [.const 74 3, .nested ⟨6, []⟩])⟩]⟩]
  attributes := #[⟨8, .raw []⟩]

def nestedFile : ClassFile :=
  ⟨nestedBytes, nestedModel.pool, nestedModel.header, ⟨nestedBytes.drop 77, 77⟩⟩

theorem ofBytes_nested : ofBytes nestedBytes = .ok nestedFile := rfl

theorem events_nested : nestedFile.events .none = nestedModel.events := rfl

theorem writes_back_nested : ofBytes nestedBytes = .ok nestedFile ∧ (nestedFile.events .none).stop? = none ∧
    (∃ w, (nestedFile.events .none).deliver [] ClassWriter.sink (.new .none) () = .ok w () ∧
      w.bytes = .ok nestedBytes) ∧
    ∃ m, ClassModel.parse nestedBytes = .ok m ∧ m.toBytes = .ok nestedBytes := by
  have hstop : (nestedFile.events .none).stop? = none := by
    rw [events_nested]
    rfl
  exact ⟨ofBytes_nested, hstop, (writes_back ofBytes_nested .none ()).1 hstop⟩

end ClassFile

/-! ## From models to models -/

section

variable {p q : Pool}

mutual

/-- What the attributes of a class are called depends on the texts in the pool alone. -/
theorem Attribute.WellKinded.congr (h : q.utf8 = p.utf8) : ∀ {a : Attribute}, a.WellKinded p → a.WellKinded q
  | _, .mk htext hinfo => .mk (h ▸ htext) (hinfo.congr h)

theorem AttributeInfo.WellKinded.congr (h : q.utf8 = p.utf8) : ∀ {kind : AttributeKind} {info : AttributeInfo},
    info.WellKinded p kind → info.WellKinded q kind
  | _, _, .code hattributes => .code fun a ha => (hattributes a ha).congr h
  | _, _, .signature => .signature
  | _, _, .innerClasses => .innerClasses
  | _, _, .enclosingMethod => .enclosingMethod
  | _, _, .localVariables => .localVariables
  | _, _, .annotations hkind => .annotations hkind
  | _, _, .parameterAnnotations hkind => .parameterAnnotations hkind
  | _, _, .typeAnnotations hkind => .typeAnnotations hkind
  | _, _, .annotationDefault hkind => .annotationDefault hkind
  | _, _, .record hcomponents => .record fun r hr => (hcomponents r hr).congr h
  | _, _, .raw => .raw

theorem RecordComponent.WellKinded.congr (h : q.utf8 = p.utf8) :
    ∀ {r : RecordComponent}, r.WellKinded p → r.WellKinded q
  | _, .mk hattributes => .mk fun a ha => (hattributes a ha).congr h

end

end

/-! ### The equality test -/

mutual

theorem AnnotationInfo.beq_refl : ∀ a : AnnotationInfo, a.beq a = true
  | ⟨type, elements⟩ => by simp [AnnotationInfo.beq, ElementValue.beqNamed_refl elements]

theorem ElementValue.beq_refl : ∀ v : ElementValue, v.beq v = true
  | .const tag index => by simp [ElementValue.beq]
  | .enum type name => by simp [ElementValue.beq]
  | .classLiteral descriptor => by simp [ElementValue.beq]
  | .nested value => by simp [ElementValue.beq, AnnotationInfo.beq_refl value]
  | .array values => by simp [ElementValue.beq, ElementValue.beqList_refl values]

theorem ElementValue.beqNamed_refl : ∀ es : List (UInt16 × ElementValue), ElementValue.beqNamed es es = true
  | [] => by simp [ElementValue.beqNamed]
  | (n, v) :: es => by simp [ElementValue.beqNamed, ElementValue.beq_refl v, ElementValue.beqNamed_refl es]

theorem ElementValue.beqList_refl : ∀ vs : List ElementValue, ElementValue.beqList vs vs = true
  | [] => by simp [ElementValue.beqList]
  | v :: vs => by simp [ElementValue.beqList, ElementValue.beq_refl v, ElementValue.beqList_refl vs]

end

instance : ReflBEq AnnotationInfo := ⟨AnnotationInfo.beq_refl _⟩

instance : ReflBEq ElementValue := ⟨ElementValue.beq_refl _⟩

instance : ReflBEq TypeAnnotationInfo where
  rfl {a} := by
    obtain ⟨targetType, targetInfo, typePath, info⟩ := a
    show (targetType == targetType && (targetInfo == targetInfo && (typePath == typePath && info == info))) = true
    simp

mutual

theorem Attribute.beq_refl : ∀ a : Attribute, a.beq a = true
  | ⟨name, info⟩ => by simp [Attribute.beq, AttributeInfo.beq_refl info]

theorem AttributeInfo.beq_refl : ∀ info : AttributeInfo, info.beq info = true
  | .code maxStack maxLocals instructions handlers attributes => by
    simp [AttributeInfo.beq, Attribute.beqList_refl attributes]
  | .signature _ => by simp [AttributeInfo.beq]
  | .innerClasses _ => by simp [AttributeInfo.beq]
  | .enclosingMethod _ _ => by simp [AttributeInfo.beq]
  | .localVariables _ => by simp [AttributeInfo.beq]
  | .annotations _ => by simp [AttributeInfo.beq]
  | .parameterAnnotations _ => by simp [AttributeInfo.beq]
  | .typeAnnotations _ => by simp [AttributeInfo.beq]
  | .annotationDefault _ => by simp [AttributeInfo.beq]
  | .record components => by simp [AttributeInfo.beq, RecordComponent.beqList_refl components]
  | .raw _ => by simp [AttributeInfo.beq]

theorem RecordComponent.beq_refl : ∀ r : RecordComponent, r.beq r = true
  | ⟨name, descriptor, attributes⟩ => by simp [RecordComponent.beq, Attribute.beqList_refl attributes]

theorem Attribute.beqList_refl : ∀ as : List Attribute, Attribute.beqList as as = true
  | [] => by simp [Attribute.beqList]
  | a :: as => by simp [Attribute.beqList, Attribute.beq_refl a, Attribute.beqList_refl as]

theorem RecordComponent.beqList_refl : ∀ rs : List RecordComponent, RecordComponent.beqList rs rs = true
  | [] => by simp [RecordComponent.beqList]
  | r :: rs => by simp [RecordComponent.beqList, RecordComponent.beq_refl r, RecordComponent.beqList_refl rs]

end

instance : ReflBEq Attribute := ⟨Attribute.beq_refl _⟩

instance : ReflBEq Member where
  rfl {f} := by
    obtain ⟨flags, name, descriptor, attributes⟩ := f
    show (flags == flags && (name == name && (descriptor == descriptor && attributes == attributes))) = true
    simp

namespace ClassModel

/-- Pools are compared by their slots. -/
theorem beq_of_slots {m : ClassModel} {q : Pool} (h : q.slots = m.pool.slots) :
    ({ m with pool := q } == m) = true := by
  obtain ⟨p, header, fields, methods, attributes⟩ := m
  have hpool : (q == p) = true := by
    show (q.slots == p.slots) = true
    simp [show q.slots = p.slots from h]
  show (q == p && (header == header && (fields == fields && (methods == methods && attributes == attributes))))
    = true
  simp [hpool]

/-- A model whose pool is exchanged for one with the same slots is as it was. -/
theorem WellKinded.congr {m : ClassModel} (hm : m.WellKinded) {q : Pool} (h : q.slots = m.pool.slots) :
    { m with pool := q }.WellKinded := by
  have hutf8 := Pool.utf8_congr h
  refine ⟨fun f hf a ha => ?_, fun f hf a ha => ?_, fun a ha => ?_⟩
  · exact (hm.fields f hf a ha).congr hutf8
  · exact (hm.methods f hf a ha).congr hutf8
  · exact (hm.attributes a ha).congr hutf8

/-- What a model is written as is read as the model, up to the index of the pool. -/
theorem parse_of_toBytes {m : ClassModel} {name : String} {bytes : Bytes} (hpool : m.pool.WellFormed)
    (hname : m.className = .ok name) (hkind : m.WellKinded) (hbytes : m.toBytes = .ok bytes) :
    ∃ q, parse bytes = .ok { m with pool := q } ∧ q.slots = m.pool.slots := by
  -- The file is a head and a body, and the body starts where the head ends.
  have hall : (m.header.encode m.pool ++ m.encodeBody).Between (.start bytes) ⟨[], bytes.length⟩ := by
    rw [toBytes_eq_ok.mp hbytes, between_ofBytes]
    simp [Cursor.start]
  obtain ⟨body, hhead, hbody⟩ := between_append.mp hall
  obtain ⟨q, hq, hslots⟩ := ClassFile.decodeHead_of_head hpool hhead
  have hf : ClassFile.ofBytes bytes = .ok ⟨bytes, q, m.header, body⟩ := by
    have hqname : m.header.className q = .ok name := by
      rw [← hname, className, Header.className, Header.className, Pool.className_congr hslots]
    unfold ClassFile.ofBytes
    simp only [hq, hqname]
  have hevents : ClassFile.events ⟨bytes, q, m.header, body⟩ .none = { m with pool := q }.events :=
    ClassFile.events_eq rfl rfl (hkind.congr hslots) rfl hbody
  exact ⟨q, parse_of_events hf hevents, hslots⟩

/-- **A model that can be written is read back.** Only the index of the pool may be another: it keeps the first
of equal constants when a pool is read, and need not when one is built. -/
theorem parse_toBytes {m : ClassModel} {name : String} {bytes : Bytes} (hpool : m.pool.Reachable)
    (hname : m.className = .ok name) (hkind : m.WellKinded) (hbytes : m.toBytes = .ok bytes) :
    ∃ m', parse bytes = .ok m' ∧ (m' == m) = true ∧ m'.pool.slots = m.pool.slots ∧ m'.header = m.header ∧
      m'.fields = m.fields ∧ m'.methods = m.methods ∧ m'.attributes = m.attributes := by
  obtain ⟨q, hparse, hslots⟩ := parse_of_toBytes hpool.wellFormed hname hkind hbytes
  exact ⟨{ m with pool := q }, hparse, beq_of_slots hslots, hslots, rfl, rfl, rfl, rfl⟩

open ClassFile in
theorem parse_toBytes_nested : nestedModel.pool.Reachable ∧ nestedModel.className = .ok "A" ∧
    nestedModel.WellKinded ∧ nestedModel.toBytes = .ok nestedBytes ∧
    ∃ m', parse nestedBytes = .ok m' ∧ (m' == nestedModel) = true ∧ m'.pool.slots = nestedModel.pool.slots ∧
      m'.header = nestedModel.header ∧ m'.fields = nestedModel.fields ∧ m'.methods = nestedModel.methods ∧
      m'.attributes = nestedModel.attributes := by
  have hread : Pool.decode ⟨nestedBytes.drop 8, 8⟩ = .ok (nestedModel.pool, ⟨nestedBytes.drop 67, 67⟩) := rfl
  have hpool : nestedModel.pool.Reachable := .read hread
  have hname : nestedModel.className = .ok "A" := rfl
  obtain ⟨m, hm, hkind, c, hnil, hbody⟩ := exists_model (f := nestedFile) rfl
  obtain rfl : nestedModel = m := Except.ok.inj
    ((parse_of_events ofBytes_nested events_nested).symm.trans (parse_of_events ofBytes_nested hm))
  have hbytes := toBytes_of_events ofBytes_nested hm hnil hbody
  exact ⟨hpool, hname, hkind, hbytes, parse_toBytes hpool hname hkind hbytes⟩

end ClassModel

end Relabel
