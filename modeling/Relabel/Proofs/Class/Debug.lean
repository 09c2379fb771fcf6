import Relabel.Proofs.Attribute.Debug
import Relabel.Proofs.Class.RoundTrip

/-!
# Classes without debug attributes

Reading a class without its debug attributes is reading it in full and deleting them afterwards. Nothing else
moves: the pool keeps the texts of what was deleted, and with the pool all indices stay. So what is left is a
class like any other. It can be written, it is read back as it is, and leaving out its debug attributes once more
changes no byte of it.
-/

set_option autoImplicit false

namespace Relabel

open Decoder Encoding

/-! ## Members and models -/

/-- A member without debug attributes. -/
def Member.strip (p : Pool) (f : Member) : Member :=
  { f with attributes := Attribute.stripList p f.attributes }

/-- A class without debug attributes. -/
def ClassModel.withoutDebug (m : ClassModel) : ClassModel :=
  { m with
    fields := m.fields.map (Member.strip m.pool)
    methods := m.methods.map (Member.strip m.pool)
    attributes := (Attribute.stripList m.pool m.attributes.toList).toArray }

namespace Member

variable {p : Pool}

theorem strip_strip (f : Member) : (f.strip p).strip p = f.strip p := by
  unfold strip
  rw [Attribute.stripList_stripList]

theorem WellKinded.strip {f : Member} (h : f.WellKinded p) : (f.strip p).WellKinded p := by
  intro a ha
  obtain ⟨b, hb, -, rfl⟩ := Attribute.mem_stripList.mp ha
  exact (h b hb).strip

theorem within_strip (f : Member) : (f.strip p).encode.Within f.encode :=
  (Within.refl _).append (Attribute.within_encodeList f.attributes)

theorem maps_decode (p : Pool) (fuel : Nat) : Maps (Member.strip p) (decode p false fuel) (decode p true fuel) :=
  maps_bind _ fun _ => maps_bind _ fun _ => maps_bind _ fun _ =>
    (Attribute.maps_decodeList p fuel).bind fun _ => maps_pure rfl

end Member

namespace ClassModel

variable {m : ClassModel}

theorem withoutDebug_withoutDebug (m : ClassModel) : m.withoutDebug.withoutDebug = m.withoutDebug := by
  unfold withoutDebug
  simp only [Array.map_map, Attribute.stripList_stripList]
  congr 2
  · funext f
    exact f.strip_strip
  · funext f
    exact f.strip_strip

theorem WellKinded.withoutDebug (h : m.WellKinded) : m.withoutDebug.WellKinded where
  fields f hf := by
    obtain ⟨f', hf', rfl⟩ := List.mem_map.mp (Array.toList_map ▸ hf)
    exact (h.fields f' hf').strip
  methods f hf := by
    obtain ⟨f', hf', rfl⟩ := List.mem_map.mp (Array.toList_map ▸ hf)
    exact (h.methods f' hf').strip
  attributes a ha := by
    obtain ⟨b, hb, -, rfl⟩ := Attribute.mem_stripList.mp ha
    exact (h.attributes b hb).strip

theorem within_withoutDebug (m : ClassModel) : m.withoutDebug.encodeBody.Within m.encodeBody := by
  unfold encodeBody withoutDebug
  simp only [Array.toList_map]
  exact (within_counted_map Member.within_strip _ _).append
    ((within_counted_map Member.within_strip _ _).append (Attribute.within_encodeList _))

theorem maps_decodeBody (p : Pool) (fuel : Nat) :
    Maps withoutDebug (decodeBody p false fuel) (decodeBody p true fuel) := by
  have hmembers := (Member.maps_decode p fuel).counted
  refine hmembers.bind fun fields => hmembers.bind fun methods => ?_
  refine (Attribute.maps_decodeList p fuel).bind fun attributes => maps_pure ?_
  simp [withoutDebug]

end ClassModel

/-! ## Files -/

namespace ClassFile

variable {bytes : Bytes} {f : ClassFile} {m : ClassModel}

/-- A file that can be read in full tells the rest without its debug attributes. -/
theorem events_withoutDebug (hm : f.events .none = m.events) {flags : ReaderFlags}
    (hflags : flags.skipsDebug = true) : f.events flags = m.withoutDebug.events := by
  have hstop : (f.events .none).stop? = none := by
    rw [hm]
    rfl
  obtain ⟨m₀, c, hread, hnil⟩ := exists_decodeBody hstop
  obtain rfl : { m₀ with header := f.header } = m :=
    ClassModel.events_injective ((events_of_decodeBody hread hnil).symm.trans hm)
  have hskip : ClassModel.decodeBody f.pool flags.skipsDebug f.body.rest.length f.body
      = .ok (m₀.withoutDebug, c) := by
    rw [hflags]
    exact ClassModel.maps_decodeBody f.pool _ _ _ _ hread
  exact events_of_decodeBody hskip hnil

/-- What is left can be written, and is read back as it is. -/
theorem exists_withoutDebug (hf : ofBytes bytes = .ok f) (hm : f.events .none = m.events) :
    ∃ out f', m.withoutDebug.toBytes = .ok out ∧ ofBytes out = .ok f' ∧ f'.events .none = m.withoutDebug.events := by
  have hpool : m.pool = f.pool := by rw [← pool_events f .none, hm, ClassModel.events]
  have hheader : m.header = f.header := by rw [← header_events f .none, hm, ClassModel.events]
  have hstop : (f.events .none).stop? = none := by
    rw [hm]
    rfl
  obtain ⟨m', hm', hkind, c, hnil, hbody⟩ := exists_model hstop
  obtain rfl : m' = m := ClassModel.events_injective (hm'.symm.trans hm)
  obtain ⟨hhead, name, hname⟩ := ofBytes_eq_ok hf
  obtain ⟨⟨c₁, c₂, hread⟩, hhead⟩ := head_of_decodeHead hhead
  rw [← hpool] at hread
  rw [← hpool, ← hheader] at hhead
  -- The head is the same as before, and there is room for the rest of the body.
  have hfault : (m'.header.encode m'.pool ++ m'.withoutDebug.encodeBody).fault? = none :=
    fault?_append.mpr ⟨hhead.fault?_eq_none, (ClassModel.within_withoutDebug m' hbody.fault?_eq_none).1⟩
  obtain ⟨out, hout⟩ := exists_ofBytes hfault
  have hbytes : m'.withoutDebug.toBytes = .ok out := ClassModel.toBytes_eq_ok.mpr hout
  have hname' : m'.withoutDebug.className = .ok name := by
    show m'.header.className m'.pool = .ok name
    rw [hpool, hheader]
    exact hname
  have hwell : m'.withoutDebug.pool.WellFormed := (Pool.between_of_decode hread).1
  obtain ⟨f', hf', hslots, hheader', -, c', hnil', hbody'⟩ := ClassModel.ofBytes_of_toBytes hwell hname' hbytes
  -- The pool is read from the same slots, so that it is the same pool.
  obtain ⟨⟨c₃, c₄, hread'⟩, -⟩ := head_of_decodeHead (ofBytes_eq_ok hf').1
  have hpool' : f'.pool = m'.pool := Pool.eq_of_decode hread hread' hslots
  exact ⟨out, f', hbytes, hf', events_eq hpool'.symm hheader'.symm hkind.withoutDebug hnil' hbody'⟩

/-- **Reading without debug attributes is reading everything and deleting them.** What such a reader streams into
a writer is a class file that in full is what was left, and from which it leaves out nothing more. -/
theorem read_withoutDebug (hm : ClassModel.parse bytes = .ok m) {flags : ReaderFlags}
    (hflags : flags.skipsDebug = true) (writerFlags : WriterFlags) {σ : Type} (s : σ) :
    ∃ f out f', ofBytes bytes = .ok f ∧ ClassModel.read f [] flags s = .ok m.withoutDebug s ∧
      (∃ w, (f.events flags).deliver [] ClassWriter.sink (.new writerFlags) s = .ok w s ∧ w.bytes = .ok out) ∧
      ClassModel.parse out = .ok m.withoutDebug ∧ ofBytes out = .ok f' ∧
      ∃ w, (f'.events flags).deliver [] ClassWriter.sink (.new writerFlags) s = .ok w s ∧ w.bytes = .ok out := by
  obtain ⟨f, hf, hevents⟩ := ClassModel.events_of_parse hm
  obtain ⟨out, f', hbytes, hf', hevents'⟩ := exists_withoutDebug hf hevents
  have hskip := events_withoutDebug hevents hflags
  have hskip' := events_withoutDebug hevents' hflags
  rw [ClassModel.withoutDebug_withoutDebug] at hskip'
  obtain ⟨-, name, hname⟩ := ofBytes_eq_ok hf
  have hmname : m.withoutDebug.className = .ok name := by
    rw [← hname, ClassFile.className, ← pool_events f flags, ← header_events f flags, hskip]
    rfl
  have hwriter : m.withoutDebug.events.deliver [] ClassWriter.sink (.new writerFlags) s
      = .ok (ClassWriter.finished writerFlags m.withoutDebug name out) s :=
    ClassWriter.deliver_sink.mpr ⟨_, name, out, m.withoutDebug.deliver_events s, hmname, hbytes, rfl⟩
  refine ⟨f, out, f', hf, ?_, ⟨_, hskip ▸ hwriter, rfl⟩, ClassModel.parse_of_events hf' hevents', hf',
    _, hskip' ▸ hwriter, rfl⟩
  rw [ClassModel.read, hskip]
  exact m.withoutDebug.deliver_events s

/-- A class with debug attributes at three levels: its own, in the code of a method and in a record component. -/
def debugBytes : Bytes :=
  [0xCA, 0xFE, 0xBA, 0xBE, 0, 0, 0, 52, 0, 11, 7, 0, 2, 1, 0, 1, 65, 1, 0, 1, 109, 1, 0, 3, 40, 41, 86,
    1, 0, 4, 67, 111, 100, 101, 1, 0, 15, 76, 105, 110, 101, 78, 117, 109, 98, 101, 114, 84, 97, 98, 108, 101,
    1, 0, 10, 83, 111, 117, 114, 99, 101, 70, 105, 108, 101, 1, 0, 6, 82, 101, 99, 111, 114, 100, 1, 0, 1, 120,
    1, 0, 22, 76, 111, 99, 97, 108, 86, 97, 114, 105, 97, 98, 108, 101, 84, 121, 112, 101, 84, 97, 98, 108, 101,
    0, 33, 0, 1, 0, 0, 0, 0, 0, 0, 0, 1, 0, 1, 0, 3, 0, 4, 0, 1,
    0, 5, 0, 0, 0, 40, 0, 0, 0, 1, 0, 0, 0, 1, 177, 0, 0, 0, 3, 0, 6, 0, 0, 0, 6, 0, 1, 0, 0, 0, 5,
    0, 9, 0, 0, 0, 1, 7, 0, 10, 0, 0, 0, 2, 0, 0, 0, 2, 0, 7, 0, 0, 0, 2, 0, 2,
    0, 8, 0, 0, 0, 22, 0, 1, 0, 3, 0, 4, 0, 2, 0, 6, 0, 0, 0, 2, 0, 0, 0, 9, 0, 0, 0, 0]

def debugPool : Pool :=
  [Constant.classRef 2, .utf8 [65], .utf8 [109], .utf8 [40, 41, 86], .utf8 [67, 111, 100, 101],
    .utf8 [76, 105, 110, 101, 78, 117, 109, 98, 101, 114, 84, 97, 98, 108, 101],
    .utf8 [83, 111, 117, 114, 99, 101, 70, 105, 108, 101], .utf8 [82, 101, 99, 111, 114, 100], .utf8 [120],
    .utf8 [76, 111, 99, 97, 108, 86, 97, 114, 105, 97, 98, 108, 101, 84, 121, 112, 101, 84, 97, 98, 108, 101]].foldl
      .append .empty

def debugModel : ClassModel where
  pool := debugPool
  header := ⟨0, 52, 33, 1, 0, []⟩
  fields := #[]
  methods := #[⟨1, 3, 4, [⟨5, .code 0 1 [177] []
    [⟨6, .raw [0, 1, 0, 0, 0, 5]⟩, ⟨9, .raw [7]⟩, ⟨10, .localVariables []⟩]⟩]⟩]
  attributes := #[⟨7, .raw [0, 2]⟩, ⟨8, .record [⟨3, 4, [⟨6, .raw [0, 0]⟩, ⟨9, .raw []⟩]⟩]⟩]

def debugFile : ClassFile := ⟨debugBytes, debugPool, debugModel.header, ⟨debugBytes.drop 111, 111⟩⟩

/-- What is left: one attribute in the code, and one in the component. -/
def plainModel : ClassModel :=
  { debugModel with
    methods := #[⟨1, 3, 4, [⟨5, .code 0 1 [177] [] [⟨9, .raw [7]⟩]⟩]⟩]
    attributes := #[⟨8, .record [⟨3, 4, [⟨9, .raw []⟩]⟩]⟩] }

theorem ofBytes_debug : ofBytes debugBytes = .ok debugFile := rfl

theorem events_debug : debugFile.events .none = debugModel.events := rfl

/-- The class with debug attributes at three levels, read without them, written and read again. -/
theorem read_withoutDebug_nested : ClassModel.parse debugBytes = .ok debugModel ∧
    ReaderFlags.skipDebug.skipsDebug = true ∧ debugModel.withoutDebug = plainModel ∧
    ∃ f out f', ofBytes debugBytes = .ok f ∧ ClassModel.read f [] .skipDebug () = .ok plainModel () ∧
      (∃ w, (f.events .skipDebug).deliver [] ClassWriter.sink (.new .none) () = .ok w () ∧ w.bytes = .ok out) ∧
      ClassModel.parse out = .ok plainModel ∧ ofBytes out = .ok f' ∧
      ∃ w, (f'.events .skipDebug).deliver [] ClassWriter.sink (.new .none) () = .ok w () ∧ w.bytes = .ok out := by
  have hparse := ClassModel.parse_of_events ofBytes_debug events_debug
  have hflags : ReaderFlags.skipDebug.skipsDebug = true := by decide
  have hplain : debugModel.withoutDebug = plainModel := by
    simp only [ClassModel.withoutDebug, debugModel, List.map_toArray]
    rfl
  have hread := read_withoutDebug hparse hflags .none ()
  rw [hplain] at hread
  exact ⟨hparse, hflags, hplain, hread⟩

end ClassFile

end Relabel
