import Relabel.Attribute.Decode
import Relabel.Attribute.Encode
import Relabel.Proofs.Bytes.Codec

/-!
# Attributes as bytes and back

Bytes do not say what they are. A reader learns it from the name of an attribute, from the tag of an
annotation value and from the target of a type annotation, and an attribute can only be read back if its
data are of the kind that these announce. `WellKinded` says so, at every depth, and it says no more: it is
exactly what reading promises of its result, and exactly what makes writing readable.

Nesting is bounded in the readers by a number of levels. Each level takes bytes of its own, so as many
levels as there are bytes are never too few, and the induction below is on that number: the levels inside
see fewer bytes than the one around them.
-/

set_option autoImplicit false

namespace Relabel

open Decoder Encoding

/-! ## What can be read back

The readers decide by a tag or a name, while the trees that they give have one constructor for each outcome. Most of
`WellKinded` therefore only follows the constructors. Where it does say something, two readings would be possible:
the tag of a constant must not be that of another kind of value, the bytes of a target must be as many as its kind
has, and the name of an attribute must be that of the data it comes with. -/

mutual

/-- Annotations whose constant values have the tags of constants. -/
inductive AnnotationInfo.WellKinded : AnnotationInfo → Prop where
  | mk {type : UInt16} {elements : List (UInt16 × ElementValue)} :
      (∀ e ∈ elements, ElementValue.WellKinded e.2) → AnnotationInfo.WellKinded ⟨type, elements⟩

inductive ElementValue.WellKinded : ElementValue → Prop where
  | const {tag : UInt8} {index : UInt16} : ElementValue.constTags.contains tag = true →
      ElementValue.WellKinded (.const tag index)
  | enum {type name : UInt16} : ElementValue.WellKinded (.enum type name)
  | classLiteral {descriptor : UInt16} : ElementValue.WellKinded (.classLiteral descriptor)
  | nested {value : AnnotationInfo} : AnnotationInfo.WellKinded value →
      ElementValue.WellKinded (.nested value)
  | array {values : List ElementValue} : (∀ v ∈ values, ElementValue.WellKinded v) →
      ElementValue.WellKinded (.array values)

end

namespace TypeAnnotationInfo

/-- The data of a target are as long as its kind requires; a table of ranges starts with its own count. -/
def TargetFits (target : UInt8) (info : Bytes) : Prop :=
  if target = 0x00 ∨ target = 0x01 ∨ target = 0x16 then info.length = 1
  else if (0x10 ≤ target ∧ target ≤ 0x12) ∨ target = 0x17 ∨ (0x42 ≤ target ∧ target ≤ 0x46) then
    info.length = 2
  else if 0x13 ≤ target ∧ target ≤ 0x15 then info.length = 0
  else if 0x47 ≤ target ∧ target ≤ 0x4B then info.length = 3
  else if target = 0x40 ∨ target = 0x41 then
    ∃ (entries : UInt16) (table : Bytes),
      info = Bytes.ofUInt16 entries ++ table ∧ table.length = entries.toNat * 6
  else False

/-- A path has two bytes for each of the steps that its first byte counts. -/
def PathFits (path : Bytes) : Prop :=
  ∃ (steps : UInt8) (rest : Bytes), path = steps :: rest ∧ rest.length = steps.toNat * 2

structure WellKinded (a : TypeAnnotationInfo) : Prop where
  target : TargetFits a.targetType a.targetInfo
  path : PathFits a.typePath
  info : a.info.WellKinded

end TypeAnnotationInfo

mutual

/-- Attributes whose data are of the kind that their name stands for, at every depth. -/
inductive Attribute.WellKinded (p : Pool) : Attribute → Prop where
  | mk {name : UInt16} {text : String} {info : AttributeInfo} : p.utf8 name = .ok text →
      AttributeInfo.WellKinded p (AttributeKind.ofName text) info → Attribute.WellKinded p ⟨name, info⟩

inductive AttributeInfo.WellKinded (p : Pool) : AttributeKind → AttributeInfo → Prop where
  | code {maxStack maxLocals : UInt16} {instructions : Bytes} {handlers : List ExceptionHandler}
      {attributes : List Attribute} : (∀ a ∈ attributes, Attribute.WellKinded p a) →
      AttributeInfo.WellKinded p .code (.code maxStack maxLocals instructions handlers attributes)
  | signature {index : UInt16} : AttributeInfo.WellKinded p .signature (.signature index)
  | innerClasses {classes : List InnerClass} :
      AttributeInfo.WellKinded p .innerClasses (.innerClasses classes)
  | enclosingMethod {owner method : UInt16} :
      AttributeInfo.WellKinded p .enclosingMethod (.enclosingMethod owner method)
  | localVariables {slots : List LocalVariable} :
      AttributeInfo.WellKinded p .localVariables (.localVariables slots)
  | annotations {annotations : List AnnotationInfo} : (∀ a ∈ annotations, a.WellKinded) →
      AttributeInfo.WellKinded p .annotations (.annotations annotations)
  | parameterAnnotations {parameters : List (List AnnotationInfo)} :
      (∀ annotations ∈ parameters, ∀ a ∈ annotations, a.WellKinded) →
      AttributeInfo.WellKinded p .parameterAnnotations (.parameterAnnotations parameters)
  | typeAnnotations {annotations : List TypeAnnotationInfo} : (∀ a ∈ annotations, a.WellKinded) →
      AttributeInfo.WellKinded p .typeAnnotations (.typeAnnotations annotations)
  | annotationDefault {value : ElementValue} : value.WellKinded →
      AttributeInfo.WellKinded p .annotationDefault (.annotationDefault value)
  | record {components : List RecordComponent} : (∀ r ∈ components, RecordComponent.WellKinded p r) →
      AttributeInfo.WellKinded p .record (.record components)
  | raw {bytes : Bytes} : AttributeInfo.WellKinded p .raw (.raw bytes)

inductive RecordComponent.WellKinded (p : Pool) : RecordComponent → Prop where
  | mk {name descriptor : UInt16} {attributes : List Attribute} :
      (∀ a ∈ attributes, Attribute.WellKinded p a) →
      RecordComponent.WellKinded p ⟨name, descriptor, attributes⟩

end

/-! ## Encoders as sequences

The encoders pass on what they have written so far, and are recursive through lists of their own. For the induction
below an encoding has to be a concatenation whose parts are the encodings of the parts, which is what these
equations say. -/

namespace ElementValue

theorem encodeNamed_eq (elements : List (UInt16 × ElementValue)) (acc : Encoding) :
    encodeNamed acc elements = acc ++ Encoding.sequence (fun e => .u16 e.1 ++ e.2.encode) elements := by
  induction elements generalizing acc with
  | nil => simp [encodeNamed]
  | cons e elements ih => rw [encodeNamed, ih, sequence_cons, append_assoc]

theorem encodeList_eq (values : List ElementValue) (acc : Encoding) :
    encodeList acc values = acc ++ Encoding.sequence encode values := by
  induction values generalizing acc with
  | nil => simp [encodeList]
  | cons v values ih => rw [encodeList, ih, sequence_cons, append_assoc]

theorem encode_const (tag : UInt8) (index : UInt16) :
    encode (.const tag index) = Encoding.u8 tag ++ Encoding.u16 index := by
  rw [encode, Encoding.u8, Encoding.u16, ofBytes_append]
  rfl

theorem encode_enum (type name : UInt16) :
    encode (.enum type name) = Encoding.u8 0x65 ++ (Encoding.u16 type ++ Encoding.u16 name) := by
  rw [encode, Encoding.u8, Encoding.u16, Encoding.u16, ofBytes_append, ofBytes_append]
  rfl

theorem encode_classLiteral (descriptor : UInt16) :
    encode (.classLiteral descriptor) = Encoding.u8 0x63 ++ Encoding.u16 descriptor := by
  rw [encode, Encoding.u8, Encoding.u16, ofBytes_append]
  rfl

theorem encode_array (values : List ElementValue) :
    encode (.array values) = Encoding.u8 0x5b ++ Encoding.counted .arrayElements encode values := by
  rw [ElementValue.encode, encodeList_eq, empty_append, append_assoc, Encoding.counted]

theorem exists_tag (v : ElementValue) : ∃ tag e, v.encode = Encoding.u8 tag ++ e := by
  cases v with
  | const tag index => exact ⟨_, _, encode_const tag index⟩
  | enum type name => exact ⟨_, _, encode_enum type name⟩
  | classLiteral descriptor => exact ⟨_, _, encode_classLiteral descriptor⟩
  | nested value => exact ⟨_, _, by rw [encode]⟩
  | array values => exact ⟨_, _, encode_array values⟩

end ElementValue

theorem AnnotationInfo.encode_eq (a : AnnotationInfo) : a.encode = Encoding.u16 a.type
    ++ Encoding.counted .annotationElements (fun e => .u16 e.1 ++ e.2.encode) a.elements := by
  obtain ⟨type, elements⟩ := a
  rw [encode, ElementValue.encodeNamed_eq, empty_append, append_assoc, Encoding.counted]

theorem Attribute.encodeItems_eq (attributes : List Attribute) (acc : Encoding) :
    encodeItems acc attributes = acc ++ Encoding.sequence encode attributes := by
  induction attributes generalizing acc with
  | nil => simp [encodeItems]
  | cons a attributes ih => rw [encodeItems, ih, sequence_cons, append_assoc]

theorem Attribute.encodeList_eq (attributes : List Attribute) :
    encodeList attributes = Encoding.counted .attributes encode attributes := by
  rw [encodeList, encodeItems_eq, empty_append, Encoding.counted]

theorem RecordComponent.encodeItems_eq (components : List RecordComponent) (acc : Encoding) :
    encodeItems acc components = acc ++ Encoding.sequence encode components := by
  induction components generalizing acc with
  | nil => simp [encodeItems]
  | cons r components ih => rw [encodeItems, ih, sequence_cons, append_assoc]

theorem RecordComponent.encode_eq (r : RecordComponent) : r.encode
    = Encoding.u16 r.name ++ (Encoding.u16 r.descriptor ++ Attribute.encodeList r.attributes) := by
  obtain ⟨name, descriptor, attributes⟩ := r
  rw [encode, Attribute.encodeList, append_assoc, append_assoc]

/-! ## Tables of indices

Entries of fixed length can be read at any bound, since nothing in them is nested. -/

theorem ExceptionHandler.reads_decode (n : Nat) : Reads n (fun _ => True) encode decode := by
  intro c h c' _
  rw [true_and, decode, quadruple_eq_ok]
  constructor
  · rintro ⟨_, _, _, _, rfl, hbetween⟩
    exact hbetween
  · exact fun hbetween => ⟨_, _, _, _, rfl, hbetween⟩

theorem InnerClass.reads_decode (n : Nat) : Reads n (fun _ => True) encode decode := by
  intro c h c' _
  rw [true_and, decode, quadruple_eq_ok]
  constructor
  · rintro ⟨_, _, _, _, rfl, hbetween⟩
    exact hbetween
  · exact fun hbetween => ⟨_, _, _, _, rfl, hbetween⟩

theorem LocalVariable.reads_decode (n : Nat) : Reads n (fun _ => True) encode decode := by
  intro c v c' _
  have hencode : v.encode = Encoding.u16 v.startPc ++ (Encoding.u16 v.length ++ Encoding.u16 v.name
      ++ Encoding.u16 v.descriptor ++ Encoding.u16 v.index) := by
    simp only [encode, append_assoc]
  rw [true_and, decode, bind_eq_ok, hencode, between_append]
  constructor
  · rintro ⟨_, c₁, hstart, h⟩
    obtain ⟨_, _, _, _, rfl, hbetween⟩ := quadruple_eq_ok.mp h
    exact ⟨c₁, u16_eq_ok.mp hstart, hbetween⟩
  · rintro ⟨c₁, hstart, hbetween⟩
    exact ⟨_, c₁, u16_eq_ok.mpr hstart, quadruple_eq_ok.mpr ⟨_, _, _, _, rfl, hbetween⟩⟩

/-! ## Annotations -/

/-- What is left behind a tag is one byte less. -/
theorem length_of_u8 {tag : UInt8} {n : Nat} {c c' : Cursor} (h : (Encoding.u8 tag).Between c c')
    (hc : c.rest.length ≤ n + 1) : c'.rest.length ≤ n := by
  have hlen := h.length_eq
  rw [List.length_singleton] at hlen
  omega

/-- Annotations are read if their values are. The bound on the values is that on the annotation: what stands in
front of them only shortens what is left. -/
theorem AnnotationInfo.reads_decodeWith {n : Nat} {value : Decoder ElementValue}
    (hvalue : Reads n ElementValue.WellKinded ElementValue.encode value) :
    Reads n WellKinded encode (decodeWith value) := by
  have helement : Reads n (fun e : UInt16 × ElementValue => e.2.WellKinded)
      (fun e => Encoding.u16 e.1 ++ e.2.encode) (do let name ← u16; let v ← value; return (name, v)) := by
    intro c e c' hc
    rw [bind_eq_ok, between_append]
    constructor
    · rintro ⟨name, c₁, hname, h⟩
      obtain ⟨v, rfl, hv⟩ := return_eq_ok.mp h
      have hname := u16_eq_ok.mp hname
      obtain ⟨hkind, hv⟩ := (hvalue _ _ _ (Nat.le_trans hname.length_le hc)).mp hv
      exact ⟨hkind, c₁, hname, hv⟩
    · rintro ⟨hkind, c₁, hname, hv⟩
      refine ⟨e.1, c₁, u16_eq_ok.mpr hname, return_eq_ok.mpr ⟨e.2, rfl, ?_⟩⟩
      exact (hvalue _ _ _ (Nat.le_trans hname.length_le hc)).mpr ⟨hkind, hv⟩
  intro c a c' hc
  rw [decodeWith, bind_eq_ok, encode_eq, between_append]
  constructor
  · rintro ⟨type, c₁, htype, h⟩
    obtain ⟨elements, rfl, helements⟩ := return_eq_ok.mp h
    have htype := u16_eq_ok.mp htype
    obtain ⟨hkind, helements⟩ := (helement.counted .annotationElements _ _ _
      (Nat.le_trans htype.length_le hc)).mp helements
    exact ⟨.mk hkind, c₁, htype, helements⟩
  · rintro ⟨hkind, c₁, htype, helements⟩
    cases hkind with
    | mk hkind =>
      refine ⟨_, c₁, u16_eq_ok.mpr htype, return_eq_ok.mpr ⟨_, rfl, ?_⟩⟩
      exact (helement.counted .annotationElements _ _ _
        (Nat.le_trans htype.length_le hc)).mpr ⟨hkind, helements⟩

/-- **Annotation values are read as they are written**, if there are as many levels as bytes. The induction is on
the levels, and the tag is the byte that pays for the one that is used up. Reading decides by the tag, in the order
of the reader, and writing by the constructor, so the two directions split into different cases. -/
theorem ElementValue.reads_decode (n : Nat) : Reads n WellKinded encode (decode n) := by
  induction n with
  | zero =>
    -- Nothing is left to be read, and every value takes at least its tag.
    intro c v c' hc
    rw [decode, bind_eq_ok]
    constructor
    · rintro ⟨tag, c₁, -, h⟩
      simp [Decoder.fail] at h
    · rintro ⟨-, hbetween⟩
      obtain ⟨tag, e, he⟩ := exists_tag v
      rw [he, between_append] at hbetween
      obtain ⟨c₁, htag, -⟩ := hbetween
      have hlen := htag.length_eq
      rw [List.length_singleton] at hlen
      omega
  | succ n ih =>
    intro c v c' hc
    rw [decode, bind_eq_ok]
    constructor
    · -- The tests of the reader, one after the other; what comes out has the constructor of the test that held.
      rintro ⟨tag, c₁, htag, h⟩
      have htag := u8_eq_ok.mp htag
      have hc₁ := length_of_u8 htag hc
      split at h
      · next hconst =>
        obtain ⟨i, rfl, hi⟩ := return_eq_ok.mp h
        refine ⟨.const hconst, ?_⟩
        rw [encode_const, between_append]
        exact ⟨c₁, htag, u16_eq_ok.mp hi⟩
      split at h
      · next he =>
        subst he
        obtain ⟨type, name, rfl, hboth⟩ := pair_eq_ok.mp h
        refine ⟨.enum, ?_⟩
        rw [encode_enum, between_append]
        exact ⟨c₁, htag, hboth⟩
      split at h
      · next hclass =>
        subst hclass
        obtain ⟨i, rfl, hi⟩ := return_eq_ok.mp h
        refine ⟨.classLiteral, ?_⟩
        rw [encode_classLiteral, between_append]
        exact ⟨c₁, htag, u16_eq_ok.mp hi⟩
      split at h
      · next hnested =>
        subst hnested
        obtain ⟨a, rfl, ha⟩ := return_eq_ok.mp h
        obtain ⟨hkind, ha⟩ := (AnnotationInfo.reads_decodeWith ih _ _ _ hc₁).mp ha
        refine ⟨.nested hkind, ?_⟩
        rw [encode, between_append]
        exact ⟨c₁, htag, ha⟩
      split at h
      · next harray =>
        subst harray
        obtain ⟨values, rfl, hvalues⟩ := return_eq_ok.mp h
        obtain ⟨hkind, hvalues⟩ := (ih.counted .arrayElements _ _ _ hc₁).mp hvalues
        refine ⟨.array hkind, ?_⟩
        rw [encode_array, between_append]
        exact ⟨c₁, htag, hvalues⟩
      · simp [Decoder.fail] at h
    · -- The tags that are written are literals, so which test of the reader holds is a computation. Only the tag
      -- of a constant is not, and there it is what `WellKinded` says.
      rintro ⟨hkind, hbetween⟩
      cases hkind with
      | @const tag index hconst =>
        rw [encode_const, between_append] at hbetween
        obtain ⟨c₁, htag, hi⟩ := hbetween
        refine ⟨tag, c₁, u8_eq_ok.mpr htag, ?_⟩
        rw [if_pos hconst]
        exact return_eq_ok.mpr ⟨index, rfl, u16_eq_ok.mpr hi⟩
      | @enum type name =>
        rw [encode_enum, between_append] at hbetween
        obtain ⟨c₁, htag, hboth⟩ := hbetween
        exact ⟨0x65, c₁, u8_eq_ok.mpr htag, pair_eq_ok.mpr ⟨type, name, rfl, hboth⟩⟩
      | @classLiteral i =>
        rw [encode_classLiteral, between_append] at hbetween
        obtain ⟨c₁, htag, hi⟩ := hbetween
        exact ⟨0x63, c₁, u8_eq_ok.mpr htag, return_eq_ok.mpr ⟨i, rfl, u16_eq_ok.mpr hi⟩⟩
      | @nested a hkind =>
        rw [encode, between_append] at hbetween
        obtain ⟨c₁, htag, ha⟩ := hbetween
        have ha := (AnnotationInfo.reads_decodeWith ih _ _ _ (length_of_u8 htag hc)).mpr ⟨hkind, ha⟩
        exact ⟨0x40, c₁, u8_eq_ok.mpr htag, return_eq_ok.mpr ⟨a, rfl, ha⟩⟩
      | @array values hkind =>
        rw [encode_array, between_append] at hbetween
        obtain ⟨c₁, htag, hvalues⟩ := hbetween
        have hvalues := (ih.counted .arrayElements _ _ _ (length_of_u8 htag hc)).mpr ⟨hkind, hvalues⟩
        exact ⟨0x5b, c₁, u8_eq_ok.mpr htag, return_eq_ok.mpr ⟨values, rfl, hvalues⟩⟩

theorem AnnotationInfo.reads_decode (n : Nat) : Reads n WellKinded encode (decode n) :=
  reads_decodeWith (ElementValue.reads_decode n)

namespace TypeAnnotationInfo

/-- The data of a target, by the same tests as `TargetFits`, so each branch of the reader meets its own clause. -/
theorem decodeTarget_eq_ok {target : UInt8} {info : Bytes} {c c' : Cursor} :
    decodeTarget target c = .ok (info, c') ↔ TargetFits target info ∧ (ofBytes info).Between c c' := by
  unfold decodeTarget TargetFits
  split
  · exact take_eq_ok
  split
  · exact take_eq_ok
  split
  · rw [pure_eq_ok, List.length_eq_zero_iff]
    constructor
    · rintro ⟨rfl, rfl⟩
      exact ⟨rfl, between_empty.mpr rfl⟩
    · rintro ⟨rfl, hbetween⟩
      exact ⟨rfl, between_empty.mp hbetween⟩
  split
  · exact take_eq_ok
  split
  · -- A table is read by its count, which is kept as the first two of its bytes.
    rw [bind_eq_ok]
    constructor
    · rintro ⟨entries, c₁, hentries, h⟩
      obtain ⟨table, rfl, htable⟩ := return_eq_ok.mp h
      obtain ⟨hlen, htable⟩ := take_eq_ok.mp htable
      refine ⟨⟨entries, table, rfl, hlen⟩, ?_⟩
      rw [← ofBytes_append, between_append]
      exact ⟨c₁, u16_eq_ok.mp hentries, htable⟩
    · rintro ⟨⟨entries, table, rfl, hlen⟩, hbetween⟩
      rw [← ofBytes_append, between_append] at hbetween
      obtain ⟨c₁, hentries, htable⟩ := hbetween
      exact ⟨entries, c₁, u16_eq_ok.mpr hentries,
        return_eq_ok.mpr ⟨table, rfl, take_eq_ok.mpr ⟨hlen, htable⟩⟩⟩
  · simp [Decoder.fail]

theorem decodePath_eq_ok {path : Bytes} {c c' : Cursor} :
    decodePath c = .ok (path, c') ↔ PathFits path ∧ (ofBytes path).Between c c' := by
  have hcons (steps : UInt8) (rest : Bytes) : ofBytes (steps :: rest) = Encoding.u8 steps ++ ofBytes rest :=
    (ofBytes_append [steps] rest).symm
  rw [decodePath, bind_eq_ok]
  constructor
  · rintro ⟨steps, c₁, hsteps, h⟩
    obtain ⟨rest, rfl, hrest⟩ := return_eq_ok.mp h
    obtain ⟨hlen, hrest⟩ := take_eq_ok.mp hrest
    refine ⟨⟨steps, rest, rfl, hlen⟩, ?_⟩
    rw [hcons, between_append]
    exact ⟨c₁, u8_eq_ok.mp hsteps, hrest⟩
  · rintro ⟨⟨steps, rest, rfl, hlen⟩, hbetween⟩
    rw [hcons, between_append] at hbetween
    obtain ⟨c₁, hsteps, hrest⟩ := hbetween
    exact ⟨steps, c₁, u8_eq_ok.mpr hsteps,
      return_eq_ok.mpr ⟨rest, rfl, take_eq_ok.mpr ⟨hlen, hrest⟩⟩⟩

theorem reads_decode (n : Nat) : Reads n WellKinded encode (decode n) := by
  intro c a c' hc
  rw [decode, encode, append_assoc, append_assoc, bind_eq_ok, between_append]
  constructor
  · rintro ⟨target, c₁, htarget, h⟩
    obtain ⟨info, c₂, hinfo, h⟩ := bind_eq_ok.mp h
    obtain ⟨path, c₃, hpath, h⟩ := bind_eq_ok.mp h
    obtain ⟨value, rfl, hvalue⟩ := return_eq_ok.mp h
    have htarget := u8_eq_ok.mp htarget
    obtain ⟨hfits, hinfo⟩ := decodeTarget_eq_ok.mp hinfo
    obtain ⟨hsteps, hpath⟩ := decodePath_eq_ok.mp hpath
    have hc₃ : c₃.rest.length ≤ n := by
      have h₁ := htarget.length_le
      have h₂ := hinfo.length_le
      have h₃ := hpath.length_le
      omega
    obtain ⟨hkind, hvalue⟩ := (AnnotationInfo.reads_decode n _ _ _ hc₃).mp hvalue
    refine ⟨⟨hfits, hsteps, hkind⟩, c₁, htarget, ?_⟩
    exact between_append.mpr ⟨c₂, hinfo, between_append.mpr ⟨c₃, hpath, hvalue⟩⟩
  · rintro ⟨⟨hfits, hsteps, hkind⟩, c₁, htarget, hrest⟩
    obtain ⟨c₂, hinfo, hrest⟩ := between_append.mp hrest
    obtain ⟨c₃, hpath, hvalue⟩ := between_append.mp hrest
    have hc₃ : c₃.rest.length ≤ n := by
      have h₁ := htarget.length_le
      have h₂ := hinfo.length_le
      have h₃ := hpath.length_le
      omega
    refine ⟨a.targetType, c₁, u8_eq_ok.mpr htarget, ?_⟩
    refine bind_eq_ok.mpr ⟨a.targetInfo, c₂, decodeTarget_eq_ok.mpr ⟨hfits, hinfo⟩, ?_⟩
    refine bind_eq_ok.mpr ⟨a.typePath, c₃, decodePath_eq_ok.mpr ⟨hsteps, hpath⟩, ?_⟩
    exact return_eq_ok.mpr ⟨a.info, rfl, (AnnotationInfo.reads_decode n _ _ _ hc₃).mpr ⟨hkind, hvalue⟩⟩

end TypeAnnotationInfo

/-! ## Attributes

Two bounds are at work from here on. `n` is how deep attributes may still be nested, and `nested` is the reader for
the attributes inside at that depth, so everything is first said of an arbitrary `nested` that reads well. `size` is
for annotation values, which have their own recursion: in the body of an attribute it starts over. -/

/-- The parameters are counted by one byte, and more than that cannot be written. -/
theorem between_encodeParameters {parameters : List (List AnnotationInfo)} {c c' : Cursor} :
    (AnnotationInfo.encodeParameters parameters).Between c c' ↔ ∃ k : UInt8, k.toNat = parameters.length ∧
      (Encoding.u8 k ++ Encoding.sequence AnnotationInfo.encodeList parameters).Between c c' := by
  unfold AnnotationInfo.encodeParameters
  split
  · next hlen =>
    have hk : (UInt8.ofNat parameters.length).toNat = parameters.length := UInt8.toNat_ofNat_of_lt' (by
      simp only [UInt8.size]
      omega)
    constructor
    · exact fun h => ⟨_, hk, h⟩
    · rintro ⟨k, hlen, h⟩
      rwa [← hlen, UInt8.ofNat_toNat]
  · next hlen =>
    simp only [not_between_refuse, false_iff, not_exists]
    rintro k ⟨hk, -⟩
    have := k.toNat_lt
    omega

namespace AttributeInfo

variable {p : Pool} {n size : Nat} {nested : Decoder (List Attribute)}

theorem reads_component (hnested : Reads n (∀ a ∈ ·, Attribute.WellKinded p a) Attribute.encodeList nested) :
    Reads n (RecordComponent.WellKinded p) RecordComponent.encode (do
      let name ← u16
      let descriptor ← u16
      let attributes ← nested
      return (⟨name, descriptor, attributes⟩ : RecordComponent)) := by
  intro c r c' hc
  rw [RecordComponent.encode_eq, bind_eq_ok, between_append]
  constructor
  · rintro ⟨name, c₁, hname, h⟩
    obtain ⟨descriptor, c₂, hdescriptor, h⟩ := bind_eq_ok.mp h
    obtain ⟨attributes, rfl, hattributes⟩ := return_eq_ok.mp h
    have hname := u16_eq_ok.mp hname
    have hdescriptor := u16_eq_ok.mp hdescriptor
    obtain ⟨hkind, hattributes⟩ := (hnested _ _ _
      (Nat.le_trans hdescriptor.length_le (Nat.le_trans hname.length_le hc))).mp hattributes
    exact ⟨.mk hkind, c₁, hname, between_append.mpr ⟨c₂, hdescriptor, hattributes⟩⟩
  · rintro ⟨hkind, c₁, hname, h⟩
    obtain ⟨c₂, hdescriptor, hattributes⟩ := between_append.mp h
    cases hkind with
    | mk hkind =>
      refine ⟨_, c₁, u16_eq_ok.mpr hname, bind_eq_ok.mpr ⟨_, c₂, u16_eq_ok.mpr hdescriptor, ?_⟩⟩
      refine return_eq_ok.mpr ⟨_, rfl, (hnested _ _ _ ?_).mpr ⟨hkind, hattributes⟩⟩
      exact Nat.le_trans hdescriptor.length_le (Nat.le_trans hname.length_le hc)

/-- Code has most parts of all attributes: two numbers, the instructions with their length in front, the handlers,
and attributes of its own. `c₁` to `c₅` are the places between them. -/
theorem code_eq_ok (hnested : Reads n (∀ a ∈ ·, Attribute.WellKinded p a) Attribute.encodeList nested)
    {info : AttributeInfo} {c c' : Cursor} (hc : c.rest.length ≤ n) :
    decodeWith nested size .code c = .ok (info, c') ↔ info.WellKinded p .code ∧ info.encode.Between c c' := by
  have hencode (maxStack maxLocals : UInt16) (instructions : Bytes) (handlers : List ExceptionHandler)
      (attributes : List Attribute) : encode (.code maxStack maxLocals instructions handlers attributes)
        = Encoding.u16 maxStack ++ (Encoding.u16 maxLocals ++ (Encoding.length .codeArray instructions.length
          ++ (ofBytes instructions ++ (Encoding.counted .exceptionHandlers ExceptionHandler.encode handlers
            ++ Attribute.encodeList attributes)))) := by
    simp only [encode, Attribute.encodeList, append_assoc]
  rw [decodeWith, bind_eq_ok]
  constructor
  · rintro ⟨maxStack, c₁, hstack, h⟩
    obtain ⟨maxLocals, c₂, hlocals, h⟩ := bind_eq_ok.mp h
    obtain ⟨length, c₃, hlength, h⟩ := bind_eq_ok.mp h
    obtain ⟨instructions, c₄, hinstructions, h⟩ := bind_eq_ok.mp h
    obtain ⟨handlers, c₅, hhandlers, h⟩ := bind_eq_ok.mp h
    obtain ⟨attributes, rfl, hattributes⟩ := return_eq_ok.mp h
    have hstack := u16_eq_ok.mp hstack
    have hlocals := u16_eq_ok.mp hlocals
    have hlength := u32_eq_ok.mp hlength
    obtain ⟨hlen, hinstructions⟩ := take_eq_ok.mp hinstructions
    -- Every part before the handlers shortens what is left, so the bound still holds where they start.
    have hc₄ : c₄.rest.length ≤ n := Nat.le_trans hinstructions.length_le (Nat.le_trans hlength.length_le
      (Nat.le_trans hlocals.length_le (Nat.le_trans hstack.length_le hc)))
    obtain ⟨-, hhandlers⟩ :=
      ((ExceptionHandler.reads_decode n).counted .exceptionHandlers _ _ _ hc₄).mp hhandlers
    obtain ⟨hkind, hattributes⟩ := (hnested _ _ _ (Nat.le_trans hhandlers.length_le hc₄)).mp hattributes
    refine ⟨.code hkind, ?_⟩
    rw [hencode]
    refine between_append.mpr ⟨c₁, hstack, between_append.mpr ⟨c₂, hlocals, ?_⟩⟩
    refine between_append.mpr ⟨c₃, between_length.mpr ⟨length, hlen.symm, hlength⟩, ?_⟩
    exact between_append.mpr ⟨c₄, hinstructions, between_append.mpr ⟨c₅, hhandlers, hattributes⟩⟩
  · rintro ⟨hkind, h⟩
    cases hkind with
    | code hkind =>
      rw [hencode] at h
      obtain ⟨c₁, hstack, h⟩ := between_append.mp h
      obtain ⟨c₂, hlocals, h⟩ := between_append.mp h
      obtain ⟨c₃, hlength, h⟩ := between_append.mp h
      obtain ⟨length, hlen, hlength⟩ := between_length.mp hlength
      obtain ⟨c₄, hinstructions, h⟩ := between_append.mp h
      obtain ⟨c₅, hhandlers, hattributes⟩ := between_append.mp h
      have hc₄ : c₄.rest.length ≤ n := Nat.le_trans hinstructions.length_le (Nat.le_trans hlength.length_le
        (Nat.le_trans hlocals.length_le (Nat.le_trans hstack.length_le hc)))
      refine ⟨_, c₁, u16_eq_ok.mpr hstack, bind_eq_ok.mpr ⟨_, c₂, u16_eq_ok.mpr hlocals, ?_⟩⟩
      refine bind_eq_ok.mpr ⟨_, c₃, u32_eq_ok.mpr hlength, ?_⟩
      refine bind_eq_ok.mpr ⟨_, c₄, take_eq_ok.mpr ⟨hlen.symm, hinstructions⟩, ?_⟩
      refine bind_eq_ok.mpr ⟨_, c₅, ?_, return_eq_ok.mpr ⟨_, rfl, ?_⟩⟩
      · exact ((ExceptionHandler.reads_decode n).counted .exceptionHandlers _ _ _ hc₄).mpr
          ⟨by simp, hhandlers⟩
      · exact (hnested _ _ _ (Nat.le_trans hhandlers.length_le hc₄)).mpr ⟨hkind, hattributes⟩

/-- Data that are one part, which their kind determines. Most kinds are such: they differ in the reader of
the part, in the constructor that is put around it, and in what `WellKinded` asks of the part. -/
theorem part_eq_ok {α : Type} {P : α → Prop} {e : α → Encoding} {d : Decoder α} (hd : Reads n P e d)
    {kind : AttributeKind} {f : α → AttributeInfo} (hencode : ∀ a, (f a).encode = e a)
    (hkind : ∀ info, WellKinded p kind info ↔ ∃ a, f a = info ∧ P a) {info : AttributeInfo} {c c' : Cursor}
    (hc : c.rest.length ≤ n) : (do return f (← d) : Decoder AttributeInfo) c = .ok (info, c') ↔
      info.WellKinded p kind ∧ info.encode.Between c c' := by
  rw [return_eq_ok, hkind]
  constructor
  · rintro ⟨a, rfl, ha⟩
    obtain ⟨hP, hbetween⟩ := (hd _ _ _ hc).mp ha
    exact ⟨⟨a, rfl, hP⟩, (hencode a).symm ▸ hbetween⟩
  · rintro ⟨⟨a, rfl, hP⟩, hbetween⟩
    rw [hencode] at hbetween
    exact ⟨a, rfl, (hd _ _ _ hc).mpr ⟨hP, hbetween⟩⟩

/-- Every kind of data but raw bytes is read as it is written. Raw bytes are as many as there are, so what
they are written as does not end where they do. -/
theorem decodeWith_eq_ok
    (hnested : Reads n (∀ a ∈ ·, Attribute.WellKinded p a) Attribute.encodeList nested) {kind : AttributeKind}
    (hraw : kind ≠ .raw) {info : AttributeInfo} {c c' : Cursor} (hc : c.rest.length ≤ n)
    (hsize : c.rest.length ≤ size) :
    decodeWith nested size kind c = .ok (info, c') ↔ info.WellKinded p kind ∧ info.encode.Between c c' := by
  cases kind with
  | raw => exact absurd rfl hraw
  | code => exact code_eq_ok hnested hc
  | signature =>
    refine part_eq_ok (reads_u16 n) (fun i => by rw [encode]) (fun info => ?_) hc
    constructor
    · rintro ⟨⟩
      exact ⟨_, rfl, trivial⟩
    · rintro ⟨i, rfl, -⟩
      exact .signature
  | innerClasses =>
    refine part_eq_ok ((InnerClass.reads_decode n).counted .innerClasses) (fun i => by rw [encode])
      (fun info => ?_) hc
    constructor
    · rintro ⟨⟩
      exact ⟨_, rfl, by simp⟩
    · rintro ⟨classes, rfl, -⟩
      exact .innerClasses
  | enclosingMethod =>
    rw [decodeWith, pair_eq_ok]
    constructor
    · rintro ⟨owner, method, rfl, hbetween⟩
      exact ⟨.enclosingMethod, by rwa [encode]⟩
    · rintro ⟨⟨⟩, hbetween⟩
      rw [encode] at hbetween
      exact ⟨_, _, rfl, hbetween⟩
  | localVariables =>
    refine part_eq_ok ((LocalVariable.reads_decode n).counted .localVariables) (fun i => by rw [encode])
      (fun info => ?_) hc
    constructor
    · rintro ⟨⟩
      exact ⟨_, rfl, by simp⟩
    · rintro ⟨slots, rfl, -⟩
      exact .localVariables
  | annotations =>
    refine part_eq_ok ((AnnotationInfo.reads_decode size).counted .annotations)
      (fun i => by rw [encode, AnnotationInfo.encodeList]) (fun info => ?_) hsize
    constructor
    · rintro ⟨⟩
      exact ⟨_, rfl, by assumption⟩
    · rintro ⟨annotations, rfl, hkind⟩
      exact .annotations hkind
  | parameterAnnotations =>
    have hannotations := (AnnotationInfo.reads_decode size).counted .annotations
    rw [decodeWith, bind_eq_ok]
    constructor
    · rintro ⟨k, c₁, hk, h⟩
      obtain ⟨parameters, rfl, hparameters⟩ := return_eq_ok.mp h
      have hk := u8_eq_ok.mp hk
      obtain ⟨hlen, hkind, hparameters⟩ :=
        (times_eq_ok hannotations (Nat.le_trans hk.length_le hsize)).mp hparameters
      refine ⟨.parameterAnnotations hkind, ?_⟩
      rw [encode, between_encodeParameters]
      exact ⟨k, hlen.symm, between_append.mpr ⟨c₁, hk, hparameters⟩⟩
    · rintro ⟨⟨⟩, hbetween⟩
      next parameters hkind =>
      rw [encode, between_encodeParameters] at hbetween
      obtain ⟨k, hlen, hbetween⟩ := hbetween
      obtain ⟨c₁, hk, hparameters⟩ := between_append.mp hbetween
      refine ⟨k, c₁, u8_eq_ok.mpr hk, return_eq_ok.mpr ⟨parameters, rfl, ?_⟩⟩
      exact (times_eq_ok hannotations (Nat.le_trans hk.length_le hsize)).mpr
        ⟨hlen.symm, hkind, hparameters⟩
  | typeAnnotations =>
    refine part_eq_ok ((TypeAnnotationInfo.reads_decode size).counted .typeAnnotations)
      (fun i => by rw [encode]) (fun info => ?_) hsize
    constructor
    · rintro ⟨⟩
      exact ⟨_, rfl, by assumption⟩
    · rintro ⟨annotations, rfl, hkind⟩
      exact .typeAnnotations hkind
  | annotationDefault =>
    refine part_eq_ok (ElementValue.reads_decode size) (fun i => by rw [encode]) (fun info => ?_) hsize
    constructor
    · rintro ⟨⟩
      exact ⟨_, rfl, by assumption⟩
    · rintro ⟨value, rfl, hkind⟩
      exact .annotationDefault hkind
  | record =>
    refine part_eq_ok ((reads_component hnested).counted .recordComponents)
      (fun i => by rw [encode, RecordComponent.encodeItems_eq, empty_append, Encoding.counted])
      (fun info => ?_) hc
    constructor
    · rintro ⟨⟩
      exact ⟨_, rfl, by assumption⟩
    · rintro ⟨components, rfl, hkind⟩
      exact .record hkind

/-- A body is read exactly if all of it is what its data are written as. -/
theorem decodeBody_eq_ok
    (hnested : Reads n (∀ a ∈ ·, Attribute.WellKinded p a) Attribute.encodeList nested) {name : String}
    {body : Bytes} (hbody : body.length ≤ n) {info : AttributeInfo} : decodeBody nested name body = .ok info ↔
      info.WellKinded p (AttributeKind.ofName name) ∧ info.encode = ofBytes body := by
  have hstart : (Cursor.start body).rest.length ≤ n := hbody
  -- The body is used up exactly if the place after the data is the end.
  have hend : decodeBody nested name body = .ok info ↔ ∃ c', c'.rest = [] ∧
      decodeWith nested body.length (AttributeKind.ofName name) (Cursor.start body) = .ok (info, c') := by
    unfold decodeBody
    cases decodeWith nested body.length (AttributeKind.ofName name) (Cursor.start body) with
    | error e => simp
    | ok r =>
      obtain ⟨info', c₁⟩ := r
      by_cases hrest : c₁.rest = []
      · simp [hrest]
      · have hne : ¬c₁.rest.isEmpty = true := by simpa using hrest
        simp only [if_neg hne, reduceCtorEq, Except.ok.injEq, Prod.mk.injEq, false_iff, not_exists]
        rintro c' ⟨hnil, -, rfl⟩
        exact hrest hnil
  rw [hend]
  cases hkind : AttributeKind.ofName name with
  | raw =>
    -- Raw bytes are all that there are, so nothing is ever left behind them.
    constructor
    · rintro ⟨c', -, h⟩
      obtain ⟨bytes, rfl, hbytes⟩ := return_eq_ok.mp h
      obtain rfl : body = bytes := congrArg Prod.fst (Except.ok.inj hbytes)
      exact ⟨.raw, by rw [encode]⟩
    · rintro ⟨⟨⟩, hencode⟩
      next bytes =>
      rw [encode] at hencode
      obtain rfl : bytes = body := by simpa [ofBytes] using hencode
      exact ⟨⟨[], bytes.length⟩, rfl, return_eq_ok.mpr ⟨bytes, rfl, by simp [takeRest, Cursor.start]⟩⟩
  | _ =>
    constructor
    · rintro ⟨c', hnil, h⟩
      obtain ⟨hinfo, hbetween⟩ := (decodeWith_eq_ok hnested (by simp) hstart (Nat.le_refl _)).mp h
      exact ⟨hinfo, result_eq_ok.mp (hbetween.result_of_nil hnil)⟩
    · rintro ⟨hinfo, hencode⟩
      refine ⟨⟨[], body.length⟩, rfl, ?_⟩
      refine (decodeWith_eq_ok hnested (by simp) hstart (Nat.le_refl _)).mpr ⟨hinfo, ?_⟩
      rw [hencode, between_ofBytes]
      simp [Cursor.start]

end AttributeInfo

namespace Attribute

variable {p : Pool} {n : Nat} {nested : Decoder (List Attribute)}

/-- An attribute is written with the length of its body in front of it, which is only known once the body is
there. If the body cannot be written, neither can the attribute; if it can, its length has to fit. -/
theorem between_encode {a : Attribute} {c c' : Cursor} : a.encode.Between c c' ↔
    ∃ (body : Bytes) (length : UInt32), a.info.encode = ofBytes body ∧ length.toNat = body.length ∧
      (Encoding.u16 a.name ++ (Encoding.u32 length ++ ofBytes body)).Between c c' := by
  obtain ⟨name, info⟩ := a
  rw [encode, encodeAround]
  cases hinfo : info.encode with
  | mk bytes fault? =>
    cases fault? with
    | some fault =>
      constructor
      · rintro ⟨bytes, h, -⟩
        simp [ofBytes] at h
      · rintro ⟨body, length, h, -⟩
        simp [ofBytes] at h
    | none =>
      have hbody : (⟨bytes, none⟩ : Encoding) = ofBytes bytes.toList := by simp [ofBytes]
      dsimp only
      simp only [append_assoc, between_append, between_length, hbody]
      constructor
      · rintro ⟨c₁, hname, c₂, ⟨length, hlen, hlength⟩, hbody⟩
        exact ⟨bytes.toList, length, rfl, by simpa using hlen, c₁, hname, c₂, hlength, hbody⟩
      · rintro ⟨body, length, hbody, hlen, c₁, hname, c₂, hlength, hrest⟩
        obtain rfl : bytes.toList = body := by
          rw [show bytes = body.toArray from congrArg Encoding.bytes hbody]
        exact ⟨c₁, hname, c₂, ⟨length, by simpa using hlen, hlength⟩, hrest⟩

/-- What is in front of a body takes bytes of its own. -/
theorem length_body_le {name : UInt16} {length : UInt32} {body : Bytes} {c c₁ c₂ c' : Cursor}
    (hname : (Encoding.u16 name).Between c c₁) (hlength : (Encoding.u32 length).Between c₁ c₂)
    (hbody : (ofBytes body).Between c₂ c') (hc : c.rest.length ≤ n + 1) : body.length ≤ n := by
  have h₁ : c.rest.length = 2 + c₁.rest.length := hname.length_eq
  have h₂ := hlength.length_le
  have h₃ := hbody.length_eq
  omega

/-- One attribute. None is dropped unless debug attributes are to be skipped. -/
theorem decodeWith_eq_ok (hnested : Reads n (∀ a ∈ ·, WellKinded p a) encodeList nested) {a? : Option Attribute}
    {c c' : Cursor} (hc : c.rest.length ≤ n + 1) : decodeWith p false nested c = .ok (a?, c') ↔
      ∃ a, a? = some a ∧ WellKinded p a ∧ a.encode.Between c c' := by
  rw [decodeWith, bind_eq_ok]
  constructor
  · rintro ⟨name, c₁, hname, h⟩
    obtain ⟨length, c₂, hlength, h⟩ := bind_eq_ok.mp h
    obtain ⟨body, c₃, hbody, h⟩ := bind_eq_ok.mp h
    obtain ⟨text, c₄, hlift, h⟩ := bind_eq_ok.mp h
    obtain ⟨htext, rfl⟩ := lift_eq_ok.mp hlift
    rw [Bool.false_and, if_neg Bool.false_ne_true] at h
    obtain ⟨info, rfl, hlift⟩ := return_eq_ok.mp h
    obtain ⟨hinfo, rfl⟩ := lift_eq_ok.mp hlift
    have hname := u16_eq_ok.mp hname
    have hlength := u32_eq_ok.mp hlength
    obtain ⟨hlen, hbody⟩ := take_eq_ok.mp hbody
    -- The body is a text of its own for its reader, with fewer bytes than there are levels left.
    have hle := length_body_le hname hlength hbody hc
    obtain ⟨hkind, hencode⟩ := (AttributeInfo.decodeBody_eq_ok hnested hle).mp hinfo
    refine ⟨_, rfl, .mk htext hkind, between_encode.mpr ⟨body, length, hencode, hlen.symm, ?_⟩⟩
    exact between_append.mpr ⟨c₁, hname, between_append.mpr ⟨c₂, hlength, hbody⟩⟩
  · rintro ⟨a, rfl, hkind, hbetween⟩
    obtain ⟨body, length, hencode, hlen, h⟩ := between_encode.mp hbetween
    obtain ⟨c₁, hname, h⟩ := between_append.mp h
    obtain ⟨c₂, hlength, hbody⟩ := between_append.mp h
    have hle := length_body_le hname hlength hbody hc
    cases hkind with
    | mk htext hkind =>
      refine ⟨_, c₁, u16_eq_ok.mpr hname, bind_eq_ok.mpr ⟨length, c₂, u32_eq_ok.mpr hlength, ?_⟩⟩
      refine bind_eq_ok.mpr ⟨body, c', take_eq_ok.mpr ⟨hlen.symm, hbody⟩, ?_⟩
      refine bind_eq_ok.mpr ⟨_, c', lift_eq_ok.mpr ⟨htext, rfl⟩, ?_⟩
      rw [Bool.false_and, if_neg Bool.false_ne_true]
      refine return_eq_ok.mpr ⟨_, rfl, lift_eq_ok.mpr ⟨?_, rfl⟩⟩
      exact (AttributeInfo.decodeBody_eq_ok hnested hle).mpr ⟨hkind, hencode⟩

theorem exists_map_some {α : Type} {P : α → Prop} {options : List (Option α)}
    (h : ∀ a? ∈ options, ∃ a, a? = some a ∧ P a) :
    ∃ items : List α, options = items.map some ∧ ∀ a ∈ items, P a := by
  induction options with
  | nil => exact ⟨[], rfl, by simp⟩
  | cons a? options ih =>
    obtain ⟨a, rfl, ha⟩ := h a? (by simp)
    obtain ⟨items, rfl, hitems⟩ := ih fun b? hb => h b? (by simp [hb])
    exact ⟨a :: items, rfl, by simpa using ⟨ha, hitems⟩⟩

theorem reduceOption_map_some {α : Type} (items : List α) : (items.map some).reduceOption = items := by
  show (items.map some).filterMap id = items
  simp

/-- **Attributes are read as they are written**, if there are as many levels as bytes. As for annotation values the
induction is on the levels. The name and the length in front of each body pay for the level inside. -/
theorem reads_decodeList (p : Pool) (n : Nat) :
    Reads n (∀ a ∈ ·, WellKinded p a) encodeList (decodeList p false n) := by
  induction n with
  | zero =>
    -- Not even the count can be read.
    intro c attributes c' hc
    have hcount {k : UInt16} {c₁ : Cursor} (h : (Encoding.u16 k).Between c c₁) : False := by
      have hlen : c.rest.length = 2 + c₁.rest.length := h.length_eq
      omega
    constructor
    · intro h
      obtain ⟨k, c₁, hk, -⟩ := bind_eq_ok.mp h
      exact (hcount (u16_eq_ok.mp hk)).elim
    · rintro ⟨-, h⟩
      obtain ⟨c₁, h, -⟩ := between_append.mp h
      obtain ⟨k, -, hk⟩ := between_count.mp h
      exact (hcount hk).elim
  | succ n ih =>
    -- The reader gives options, all of which are there when nothing is skipped.
    have hitem : Reads (n + 1) (fun a? : Option Attribute => ∃ a, a? = some a ∧ WellKinded p a)
        (fun a? => a?.elim .empty encode) (decodeWith p false (decodeList p false n)) := by
      intro c a? c' hc
      rw [decodeWith_eq_ok ih hc]
      constructor
      · rintro ⟨a, rfl, hkind, hbetween⟩
        exact ⟨⟨a, rfl, hkind⟩, hbetween⟩
      · rintro ⟨⟨a, rfl, hkind⟩, hbetween⟩
        exact ⟨a, rfl, hkind, hbetween⟩
    intro c attributes c' hc
    rw [decodeList, return_eq_ok, encodeList_eq]
    constructor
    · rintro ⟨options, rfl, hoptions⟩
      obtain ⟨hall, hbetween⟩ := (hitem.counted .attributes _ _ _ hc).mp hoptions
      obtain ⟨attributes, rfl, hkind⟩ := exists_map_some hall
      rw [Encoding.counted, sequence_map, List.length_map] at hbetween
      rw [reduceOption_map_some]
      exact ⟨hkind, hbetween⟩
    · rintro ⟨hkind, hbetween⟩
      refine ⟨attributes.map some, reduceOption_map_some attributes, ?_⟩
      refine (hitem.counted .attributes _ _ _ hc).mpr ⟨by simpa using hkind, ?_⟩
      rw [Encoding.counted, sequence_map, List.length_map]
      exact hbetween

end Attribute

end Relabel
