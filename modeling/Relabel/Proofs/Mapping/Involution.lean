import Relabel.Proofs.Mapping.Inverse
import Relabel.Proofs.Type.Template

/-!
# Inverting twice

A table that is inverted twice comes back without its changes of access. Inverting turns the key of a member,
its target name and its descriptor, into another key, its source name and the translated descriptor. Both can
be told from the new key if the source name ends where the descriptor begins, and the descriptor can be told
from its translation if its classes can be translated back. `Recoverable` says this of the members of a record.
It says the same of the inverse, with the directions exchanged, so that one description of the entries of an
inverse serves for both steps.
-/

set_option autoImplicit false

namespace Relabel

/-! ## Keys -/

theorem MemberKind.of_split? {kind : MemberKind} {k n d : String} (h : kind.split? k = some (n, d)) :
    k = kind.key n d ∧ kind.separator ∉ n.toList := by
  cases kind with
  | field =>
    obtain ⟨⟨name, rest⟩, hcut, hpair⟩ := Option.map_eq_some_iff.mp h
    obtain ⟨rfl, hname, hrest⟩ := Text.splitAtFirst?_eq_some.mp hcut
    obtain ⟨rfl, rfl⟩ := Prod.mk.inj hpair
    obtain ⟨cs, hcs⟩ := List.head?_eq_some_iff.mp hrest
    refine ⟨String.toList_injective ?_, hname⟩
    simp [key, ClassRecord.fieldKey, hcs]
  | method | interfaceMethod =>
    obtain ⟨hk, hname, -⟩ := Text.splitAtFirst?_eq_some.mp h
    exact ⟨hk, hname⟩

/-! ## Records -/

theorem ClassNames.translateMember_eq (names : ClassNames) (kind : MemberKind) :
    names.translateMember kind = Descriptor.renameMember kind names.map := by
  cases kind <;> rfl

namespace ClassRecord

/-- A member that is called `target` with one side of a table and `source` with the other, its descriptor given
by the template that it has on the first side. -/
structure Exchange (names : ClassNames) (kind : MemberKind) (target source : String) (u : Template) : Prop where
  describes : u.Describes kind
  spelled : ∀ c ∈ u.names, SpelledName (names.map c)
  retracts : ∀ c ∈ u.names, names.unmap (names.map c) = c
  target_ends : kind.separator ∉ target.toList
  source_ends : kind.separator ∉ source.toList

variable {names : ClassNames} {kind : MemberKind} {s k key target source : String} {u : Template}
  {r r' r'' : ClassRecord}

namespace Exchange

theorem translate (h : Exchange names kind target source u) :
    names.translateMember kind u.text = .ok (u.fill names.map) := by
  rw [ClassNames.translateMember_eq]
  exact Descriptor.renameMember_text h.describes names.map

theorem fill_unmap (h : Exchange names kind target source u) :
    (u.rename names.map).fill names.unmap = u.text := by
  rw [Template.fill_rename]
  exact Template.fill_eq_text h.retracts

/-- The same member, with the other side first. -/
theorem flip (h : Exchange names kind target source u) :
    Exchange names.flipped kind source target (u.rename names.map) where
  describes := h.describes.rename h.spelled
  spelled image himage := by
    obtain ⟨c, hc, rfl⟩ := Template.mem_names_rename.mp himage
    show SpelledName (names.unmap (names.map c))
    rw [h.retracts c hc]
    exact h.describes.spelledName hc
  retracts image himage := by
    obtain ⟨c, hc, rfl⟩ := Template.mem_names_rename.mp himage
    exact congrArg names.map (h.retracts c hc)
  target_ends := h.source_ends
  source_ends := h.target_ends

theorem translate_back (h : Exchange names kind target source u) :
    names.flipped.translateMember kind (u.fill names.map) = .ok u.text := by
  have hback := h.flip.translate
  rw [Template.text_rename] at hback
  exact hback.trans (congrArg Except.ok h.fill_unmap)

theorem split? (h : Exchange names kind target source u) :
    kind.split? (kind.key target u.text) = some (target, u.text) :=
  MemberKind.split?_key h.target_ends (ClassNames.ends_of_translateMember h.translate).1

theorem split?_fill (h : Exchange names kind target source u) :
    kind.split? (kind.key source (u.fill names.map)) = some (source, u.fill names.map) :=
  MemberKind.split?_key h.source_ends (ClassNames.ends_of_translateMember h.translate).2

end Exchange

/-- The members of one kind can be told from what inverting makes of them. -/
structure Recoverable (names : ClassNames) (kind : MemberKind) (r : ClassRecord) : Prop where
  /-- A key is a name and a descriptor, and the classes in the descriptor can be translated back. -/
  keys : ∀ m ∈ (r.members kind).toList, ∃ (n : String) (u : Template), kind.split? m.1 = some (n, u.text) ∧
    u.Describes kind ∧ ∀ c ∈ u.names, SpelledName (names.map c) ∧ names.unmap (names.map c) = c
  /-- A source name ends where the descriptor behind it begins. -/
  sources : ∀ m ∈ (r.members kind).toList, kind.separator ∉ m.2.toList
  /-- No two members get the same name and the same descriptor. -/
  distinct : ∀ m ∈ (r.members kind).toList, ∀ m' ∈ (r.members kind).toList, ∀ n d n' d',
    kind.split? m.1 = some (n, d) → kind.split? m'.1 = some (n', d') → m.2 = m'.2 →
    names.translateMember kind d = names.translateMember kind d' → m.1 = m'.1

theorem Recoverable.exchange (h : r.Recoverable names kind) (hkey : (r.members kind)[key]? = some source) :
    ∃ n u, key = kind.key n (Template.text u) ∧ Exchange names kind n source u := by
  have hmem : (key, source) ∈ (r.members kind).toList :=
    Std.ExtTreeMap.mem_toList_iff_getElem?_eq_some.mpr hkey
  obtain ⟨n, u, hsplit, hu, hnames⟩ := h.keys _ hmem
  obtain ⟨hkey, hn⟩ := MemberKind.of_split? hsplit
  exact ⟨n, u, hkey, hu, fun c hc => (hnames c hc).1, fun c hc => (hnames c hc).2, hn, h.sources _ hmem⟩

/-- **The entries of an inverse**, one for each entry of the record. -/
theorem getElem?_inverted (h : r.Recoverable names kind) (hinv : r.inverted names s = .ok r') :
    (r'.members kind)[k]? = some target ↔ ∃ source u,
      (r.members kind)[kind.key target (Template.text u)]? = some source ∧
      Exchange names kind target source u ∧ k = kind.key source (u.fill names.map) := by
  constructor
  · intro hk
    obtain ⟨key, source, d, d', hkey, hsplit, hd, rfl⟩ := entry_of_inverted hinv hk
    obtain ⟨n, u, rfl, hx⟩ := h.exchange hkey
    obtain ⟨rfl, rfl⟩ := Prod.mk.inj (Option.some.inj (hsplit.symm.trans hx.split?))
    obtain rfl := Except.ok.inj (hd.symm.trans hx.translate)
    exact ⟨source, u, hkey, hx, rfl⟩
  · intro hentry
    obtain ⟨source, u, hkey, hx, rfl⟩ := hentry
    obtain ⟨n, d, d', hsplit, hd, n₁, hn₁⟩ := exists_entry_inverted hinv hkey
    obtain ⟨rfl, rfl⟩ := Prod.mk.inj (Option.some.inj (hsplit.symm.trans hx.split?))
    obtain rfl := Except.ok.inj (hd.symm.trans hx.translate)
    -- Whatever is found there comes from an entry with the same source name and descriptor, hence from this one.
    obtain ⟨key₁, source₁, d₁, d₁', hkey₁, hsplit₁, hd₁, heq⟩ := entry_of_inverted hinv hn₁
    have hmem₁ : (key₁, source₁) ∈ (r.members kind).toList :=
      Std.ExtTreeMap.mem_toList_iff_getElem?_eq_some.mpr hkey₁
    obtain ⟨rfl, rfl⟩ := MemberKind.key_inj hx.source_ends (h.sources _ hmem₁)
      (ClassNames.ends_of_translateMember hd).2 (ClassNames.ends_of_translateMember hd₁).2 heq
    have hsame := h.distinct _ (Std.ExtTreeMap.mem_toList_iff_getElem?_eq_some.mpr hkey) _ hmem₁ _ _ _ _
      hsplit hsplit₁ rfl (hd.trans hd₁.symm)
    have hcuts := hsplit.symm.trans ((congrArg kind.split? hsame).trans hsplit₁)
    rw [hn₁, (Prod.mk.inj (Option.some.inj hcuts)).1]

/-- The inverse is recoverable in the other direction. -/
theorem Recoverable.inverted (h : r.Recoverable names kind) (hinv : r.inverted names s = .ok r') :
    r'.Recoverable names.flipped kind where
  keys m hm := by
    obtain ⟨source, u, -, hx, hk⟩ :=
      (getElem?_inverted h hinv).mp (Std.ExtTreeMap.mem_toList_iff_getElem?_eq_some.mp hm)
    refine ⟨source, u.rename names.map, ?_, hx.flip.describes,
      fun c hc => ⟨hx.flip.spelled c hc, hx.flip.retracts c hc⟩⟩
    rw [hk, Template.text_rename]
    exact hx.split?_fill
  sources m hm := by
    obtain ⟨source, u, -, hx, -⟩ :=
      (getElem?_inverted h hinv).mp (Std.ExtTreeMap.mem_toList_iff_getElem?_eq_some.mp hm)
    exact hx.target_ends
  distinct m hm m' hm' n d n' d' hsplit hsplit' hname hd := by
    obtain ⟨source, u, hkey, hx, hk⟩ :=
      (getElem?_inverted h hinv).mp (Std.ExtTreeMap.mem_toList_iff_getElem?_eq_some.mp hm)
    obtain ⟨source', u', hkey', hx', hk'⟩ :=
      (getElem?_inverted h hinv).mp (Std.ExtTreeMap.mem_toList_iff_getElem?_eq_some.mp hm')
    rw [hk, hx.split?_fill] at hsplit
    rw [hk', hx'.split?_fill] at hsplit'
    obtain ⟨-, rfl⟩ := Prod.mk.inj (Option.some.inj hsplit)
    obtain ⟨-, rfl⟩ := Prod.mk.inj (Option.some.inj hsplit')
    have htext : u.text = u'.text := Except.ok.inj (hx.translate_back.symm.trans (hd.trans hx'.translate_back))
    have hfill : u.fill names.map = u'.fill names.map := by
      have hthere := hx.translate
      rw [htext] at hthere
      exact Except.ok.inj (hthere.symm.trans hx'.translate)
    rw [htext, hname, hkey'] at hkey
    rw [hk, hk', hfill, Option.some.inj hkey]

/-- **The members come back** when a record is inverted twice. -/
theorem members_inverted_inverted (h : r.Recoverable names kind) (hinv : r.inverted names s = .ok r')
    (hinv' : r'.inverted names.flipped k = .ok r'') : r''.members kind = r.members kind := by
  refine Std.ExtTreeMap.ext_getElem? fun key => Option.ext fun source => ?_
  rw [getElem?_inverted (h.inverted hinv) hinv']
  constructor
  · intro hentry
    obtain ⟨target, v, hk, hv, rfl⟩ := hentry
    obtain ⟨source₁, u, hkey, hx, heq⟩ := (getElem?_inverted h hinv).mp hk
    have hcuts := hv.split?.symm.trans ((congrArg kind.split? heq).trans hx.split?_fill)
    obtain ⟨rfl, htext⟩ := Prod.mk.inj (Option.some.inj hcuts)
    have hback := hv.translate
    rw [htext] at hback
    rw [Except.ok.inj (hback.symm.trans hx.translate_back)]
    exact hkey
  · intro hkey
    obtain ⟨target, u, rfl, hx⟩ := h.exchange hkey
    refine ⟨target, u.rename names.map, ?_, hx.flip, congrArg (kind.key target) hx.fill_unmap.symm⟩
    rw [Template.text_rename]
    exact (getElem?_inverted h hinv).mpr ⟨source, u, hkey, hx, rfl⟩

/-- A record can be inverted if every key can be cut and every descriptor can be translated. -/
theorem Recoverable.exists_inverted (h : ∀ kind, r.Recoverable names kind) (s : String) :
    ∃ r', r.inverted names s = .ok r' := by
  have hmembers (kind : MemberKind) : ∃ inverse, invertMembers kind.split? (names.translateMember kind) kind.key
      (r.members kind) = .ok inverse := by
    refine Dict.foldlM_ok (fun d m hm => ?_) ∅
    obtain ⟨n, u, hkey, hx⟩ := (h kind).exchange (Std.ExtTreeMap.mem_toList_iff_getElem?_eq_some.mp hm)
    refine ⟨d.insert (kind.key m.2 (u.fill names.map)) n, ?_⟩
    simp only [hkey, hx.split?, hx.translate]
    rfl
  obtain ⟨methods, hmethods⟩ := hmembers .method
  obtain ⟨fields, hfields⟩ := hmembers .field
  refine ⟨⟨if r.name = "" then "" else s, methods, fields, ∅⟩, ?_⟩
  have hmethods : invertMembers splitMethodKey? (names.translateMethod .toSource) methodKey r.methods = .ok methods :=
    hmethods
  have hfields : invertMembers splitFieldKey? (names.translateField .toSource) fieldKey r.fields = .ok fields :=
    hfields
  rw [ClassRecord.inverted, hmethods, hfields]
  rfl

/-- The record without its changes of access. -/
def withoutAccess (r : ClassRecord) : ClassRecord := { r with access := ∅ }

/-- **A record that is inverted twice** comes back without its changes of access. -/
theorem inverted_inverted (h : ∀ kind, r.Recoverable names kind) (hs : r.name ≠ "" → s ≠ "")
    (hinv : r.inverted names s = .ok r') (hinv' : r'.inverted names.flipped (r.inputName s) = .ok r'') :
    r'' = r.withoutAccess := by
  have hname : r''.name = r.name := by
    rw [(inverted_eq_ok hinv').1, (inverted_eq_ok hinv).1]
    by_cases hr : r.name = ""
    · rw [if_pos hr, if_pos rfl, hr]
    · rw [if_neg hr, if_neg (hs hr), inputName_of_named hr]
  have hmethods : r''.methods = r.methods := members_inverted_inverted (h .method) hinv hinv'
  have hfields : r''.fields = r.fields := members_inverted_inverted (h .field) hinv hinv'
  have haccess := access_inverted hinv'
  obtain ⟨name, methods, fields, access⟩ := r''
  obtain rfl : name = r.name := hname
  obtain rfl : methods = r.methods := hmethods
  obtain rfl : fields = r.fields := hfields
  obtain rfl : access = ∅ := haccess
  rfl

end ClassRecord

/-! ## Tables -/

namespace MappingTable

/-- The table without its changes of access. -/
def withoutAccess (t : MappingTable) : MappingTable := ⟨t.classes.map fun _ r => r.withoutAccess⟩

theorem eq_of_find? {t t' : MappingTable} (h : ∀ s, t.find? s = t'.find? s) : t = t' :=
  congrArg MappingTable.mk (Std.ExtTreeMap.ext_getElem? fun {s} => h s)

theorem find?_withoutAccess (t : MappingTable) (s : String) :
    t.withoutAccess.find? s = (t.find? s).map ClassRecord.withoutAccess :=
  Std.ExtTreeMap.getElem?_map

/-- A table that can be told from its inverse. -/
structure Recoverable (t : MappingTable) : Prop where
  sources : t.SourcesNamed
  inputs : t.InputsDistinct
  members : ∀ e ∈ t.records, ∀ kind, e.2.Recoverable (ClassNames.ofTable t) kind

variable {t t' t'' : MappingTable}

theorem exists_inverted_of_records
    (h : ∀ e ∈ t.records, ∃ r', e.2.inverted (ClassNames.ofTable t) e.1 = .ok r') :
    ∃ t', t.inverted = .ok t' := by
  rw [inverted]
  refine Dict.foldlM_ok (fun inverse e he => ?_) MappingTable.empty
  obtain ⟨r', hinv⟩ := h e he
  refine ⟨inverse.insert (e.2.inputName e.1) r', ?_⟩
  show (do return inverse.insert (e.2.inputName e.1) (← e.2.inverted (ClassNames.ofTable t) e.1)) = _
  rw [hinv]
  rfl

theorem Recoverable.exists_inverted (h : t.Recoverable) : ∃ t', t.inverted = .ok t' :=
  exists_inverted_of_records fun e he => ClassRecord.Recoverable.exists_inverted (h.members e he) e.1

/-- The inverse of a recoverable table can be inverted. -/
theorem Recoverable.exists_inverted_inverted (h : t.Recoverable) (hinv : t.inverted = .ok t') :
    ∃ t'', t'.inverted = .ok t'' := by
  refine exists_inverted_of_records fun e he => ?_
  obtain ⟨s, r, hfind, -, hr⟩ := (find?_inverted h.inputs hinv).mp (mem_records.mp he)
  rw [ofTable_inverted h.inputs h.sources hinv]
  exact ClassRecord.Recoverable.exists_inverted
    (fun kind => (h.members (s, r) (mem_records.mpr hfind) kind).inverted hr) e.1

/-- The records of the second inverse. Each goes to its input name and comes back to its source name. -/
theorem Recoverable.find?_inverted_inverted (h : t.Recoverable) (hinv : t.inverted = .ok t')
    (hinv' : t'.inverted = .ok t'') {s : String} {r'' : ClassRecord} :
    t''.find? s = some r'' ↔ ∃ r, t.find? s = some r ∧ r.withoutAccess = r'' := by
  have hnames := ofTable_inverted h.inputs h.sources hinv
  rw [find?_inverted (inputsDistinct_inverted h.inputs h.sources hinv) hinv', hnames]
  constructor
  · intro hk
    obtain ⟨k, r', hk, rfl, hr''⟩ := hk
    obtain ⟨s, r, hr, rfl, hr'⟩ := (find?_inverted h.inputs hinv).mp hk
    have hnamed := h.sources.ne_empty hr
    have hmembers := h.members (s, r) (mem_records.mpr hr)
    rw [ClassRecord.inputName_inverted hnamed hr']
    exact ⟨r, hr, (ClassRecord.inverted_inverted hmembers hnamed hr' hr'').symm⟩
  · intro hs
    obtain ⟨r, hr, rfl⟩ := hs
    have hnamed := h.sources.ne_empty hr
    have hmembers := h.members (s, r) (mem_records.mpr hr)
    obtain ⟨r', hr'⟩ := MappingTable.exists_inverted hinv hr
    have hk := (find?_inverted h.inputs hinv).mpr ⟨s, r, hr, rfl, hr'⟩
    obtain ⟨r₂, hr₂⟩ := MappingTable.exists_inverted hinv' hk
    rw [hnames] at hr₂
    refine ⟨r.inputName s, r', hk, ClassRecord.inputName_inverted hnamed hr', ?_⟩
    rw [← ClassRecord.inverted_inverted hmembers hnamed hr' hr₂]
    exact hr₂

/-- **Inverting a table twice** gives it back without its changes of access. -/
theorem inverted_twice (h : t.Recoverable) :
    ∃ t', t.inverted = .ok t' ∧ t'.inverted = .ok t.withoutAccess := by
  obtain ⟨t', hinv⟩ := h.exists_inverted
  obtain ⟨t'', hinv'⟩ := h.exists_inverted_inverted hinv
  have hsame : t'' = t.withoutAccess := by
    refine eq_of_find? fun s => Option.ext fun r'' => ?_
    rw [h.find?_inverted_inverted hinv hinv', find?_withoutAccess, Option.map_eq_some_iff]
  exact ⟨t', hinv, hsame ▸ hinv'⟩

/-! ## A sample -/

/-- A class with a nested one in the descriptors of its methods, and a class that keeps its name. -/
def nestedTable : MappingTable :=
  (MappingTable.empty.insert "x/Foo" (((((ClassRecord.named "a").withMethod "m" "(La;[I)La$b;" "run").withMethod "n"
    "(La;[I)La$b;" "stop").withField "f" "La;" "self").withAccess "" ⟨.ofAll, true⟩)).insert "y/Kept"
    (ClassRecord.blank.withMethod "m" "(La;[I)La$b;" "tick")

theorem recoverable_nestedTable : nestedTable.Recoverable where
  sources := by
    intro r hr
    cases (show nestedTable.find? "" = none from rfl).symm.trans hr
  inputs := by decide
  members e he kind := by
    have hmembers : ∀ kind : MemberKind, ∀ e ∈ nestedTable.records, ∀ m ∈ (e.2.members kind).toList,
        (∃ n ∈ ["f", "m", "n"], kind.split? m.1 = some (n, if kind = .field then "La;" else "(La;[I)La$b;")) ∧
          kind.separator ∉ m.2.toList := by
      intro kind
      cases kind <;> decide +kernel
    have hdistinct : ∀ kind : MemberKind, ∀ e ∈ nestedTable.records, ∀ m ∈ (e.2.members kind).toList,
        ∀ m' ∈ (e.2.members kind).toList, m.2 = m'.2 → m.1 = m'.1 := by
      intro kind
      cases kind <;> decide +kernel
    refine ⟨fun m hm => ?_, fun m hm => (hmembers kind e he m hm).2,
      fun m hm m' hm' _ _ _ _ _ _ hname _ => hdistinct kind e he m hm m' hm' hname⟩
    obtain ⟨⟨n, -, hsplit⟩, -⟩ := hmembers kind e he m hm
    cases kind with
    | field =>
      refine ⟨n, [.mark 'L', .className "a", .mark ';'], hsplit, .object (by decide), ?_⟩
      decide +kernel
    | method | interfaceMethod =>
      refine ⟨n, Descriptor.sampleTemplate, hsplit, Descriptor.describes_sampleTemplate, ?_⟩
      decide +kernel

/-- The table with the nested class, there and back. -/
theorem inverted_twice_nested : nestedTable.Recoverable ∧
    ∃ t', nestedTable.inverted = .ok t' ∧ t'.inverted = .ok nestedTable.withoutAccess :=
  ⟨recoverable_nestedTable, inverted_twice recoverable_nestedTable⟩

end MappingTable

end Relabel
