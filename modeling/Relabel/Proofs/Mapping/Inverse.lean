import Relabel.Proofs.Mapping.Lookup

/-!
# The inverse of a table

Record by record, the inverse says what the table says, seen from the other side: what the input of the
table calls a class is the key of its record in the inverse, and what the input of the inverse calls it is
its source name. For this every class that is renamed needs a source name that is not empty, since an empty
name in a record stands for no name. The inverse then maps class names as the table maps them back, and a
class of its input has the members that the record of its source name has.
-/

set_option autoImplicit false

namespace Relabel

/-! ## Members -/

theorem ClassNames.ends_of_translateMember {names : ClassNames} {kind : MemberKind} {d d' : String}
    (h : names.translateMember kind d = .ok d') : kind.Ends d ∧ kind.Ends d' := by
  cases kind with
  | field => exact ⟨fun hne => absurd rfl hne, fun hne => absurd rfl hne⟩
  | method | interfaceMethod =>
    obtain ⟨t, ⟨rfl, -⟩, rfl⟩ := Descriptor.renameMethod_eq_ok.mp h
    exact ⟨fun _ => t.head?_toString, fun _ => (t.rename _).head?_toString⟩

namespace ClassRecord

variable {names : ClassNames} {s : String} {r r' : ClassRecord}

/-- An entry of a member and the entry that it becomes. -/
def Flips (names : ClassNames) (kind : MemberKind) (x e : String × String) : Prop :=
  ∃ target d d', kind.split? x.1 = some (target, d) ∧ names.translateMember kind d = .ok d' ∧
    e = (kind.key x.2 d', target)

theorem exists_of_inverted (h : r.inverted names s = .ok r') : ∃ methods fields,
    invertMembers splitMethodKey? (names.translateMethod .toSource) methodKey r.methods = .ok methods ∧
    invertMembers splitFieldKey? (names.translateField .toSource) fieldKey r.fields = .ok fields ∧
    r' = ⟨if r.name = "" then "" else s, methods, fields, ∅⟩ := by
  rw [inverted] at h
  cases hm : invertMembers splitMethodKey? (names.translateMethod .toSource) methodKey r.methods with
  | error e =>
    rw [hm] at h
    cases h
  | ok methods =>
    cases hf : invertMembers splitFieldKey? (names.translateField .toSource) fieldKey r.fields with
    | error e =>
      rw [hm, hf] at h
      cases h
    | ok fields =>
      rw [hm, hf] at h
      exact ⟨methods, fields, rfl, rfl, (Except.ok.inj h).symm⟩

theorem inverted_eq_ok (h : r.inverted names s = .ok r') :
    r'.name = (if r.name = "" then "" else s) ∧ ∀ kind : MemberKind,
      invertMembers kind.split? (names.translateMember kind) kind.key (r.members kind)
        = .ok (r'.members kind) := by
  obtain ⟨methods, fields, hm, hf, rfl⟩ := exists_of_inverted h
  refine ⟨rfl, fun kind => ?_⟩
  cases kind with
  | field => exact hf
  | method | interfaceMethod => exact hm

/-- Changes of access are dropped. -/
theorem access_inverted (h : r.inverted names s = .ok r') : r'.access = ∅ := by
  obtain ⟨methods, fields, -, -, rfl⟩ := exists_of_inverted h
  rfl

/-- The members of an inverse come from an entry each, and each entry leaves one. -/
theorem members_inverted (h : r.inverted names s = .ok r') (kind : MemberKind) :
    ∃ entries : List (String × String), r'.members kind = Dict.ofEntries entries ∧
      (∀ e ∈ entries, ∃ x ∈ (r.members kind).toList, Flips names kind x e) ∧
      ∀ x ∈ (r.members kind).toList, ∃ e ∈ entries, Flips names kind x e := by
  have hmembers := (inverted_eq_ok h).2 kind
  rw [invertMembers] at hmembers
  refine Dict.foldlM_put (fun d x d' hstep => ?_) hmembers
  dsimp only at hstep
  cases hsplit : kind.split? x.1 with
  | none => simp [hsplit] at hstep
  | some cut =>
    cases hd : names.translateMember kind cut.2 with
    | error e => simp [hsplit, hd, bind, Except.bind] at hstep
    | ok newDescriptor =>
      simp only [hsplit, hd] at hstep
      obtain rfl := Except.ok.inj hstep
      exact ⟨_, ⟨cut.1, cut.2, newDescriptor, hsplit, hd, rfl⟩, rfl⟩

theorem entry_of_inverted (h : r.inverted names s = .ok r') {kind : MemberKind} {key target : String}
    (hkey : (r'.members kind)[key]? = some target) :
    ∃ targetKey source d d', (r.members kind)[targetKey]? = some source ∧
      kind.split? targetKey = some (target, d) ∧ names.translateMember kind d = .ok d' ∧
      key = kind.key source d' := by
  obtain ⟨entries, heq, hfrom, -⟩ := members_inverted h kind
  rw [heq] at hkey
  obtain ⟨⟨targetKey, source⟩, hx, target', d, d', hsplit, hd, hpair⟩ :=
    hfrom _ (Dict.mem_of_getElem?_ofEntries hkey)
  obtain ⟨rfl, rfl⟩ := Prod.mk.inj hpair
  exact ⟨targetKey, source, d, d', Std.ExtTreeMap.mem_toList_iff_getElem?_eq_some.mp hx, hsplit, hd, rfl⟩

/-- Two entries may become one key, so only that the key is there can be said of a single entry. -/
theorem exists_entry_inverted (h : r.inverted names s = .ok r') {kind : MemberKind}
    {targetKey source : String} (hkey : (r.members kind)[targetKey]? = some source) :
    ∃ target d d', kind.split? targetKey = some (target, d) ∧ names.translateMember kind d = .ok d' ∧
      ∃ target', (r'.members kind)[kind.key source d']? = some target' := by
  obtain ⟨entries, heq, -, hto⟩ := members_inverted h kind
  have hx : (targetKey, source) ∈ (r.members kind).toList :=
    Std.ExtTreeMap.mem_toList_iff_getElem?_eq_some.mpr hkey
  obtain ⟨e, he, target, d, d', hsplit, hd, rfl⟩ := hto _ hx
  refine ⟨target, d, d', hsplit, hd, ?_⟩
  rw [heq]
  exact Dict.exists_getElem?_ofEntries he

/-- What the input of the inverse calls a class is its source name. -/
theorem inputName_inverted (hs : r.name ≠ "" → s ≠ "") (h : r.inverted names s = .ok r') :
    r'.inputName (r.inputName s) = s := by
  have hname := (inverted_eq_ok h).1
  by_cases hr : r.name = ""
  · rw [if_pos hr] at hname
    rw [inputName_of_unnamed hname, inputName_of_unnamed hr]
  · rw [if_neg hr] at hname
    rw [inputName_of_named (hname ▸ hs hr), hname]

end ClassRecord

/-! ## Records -/

/-- The class names with the two directions exchanged. -/
def ClassNames.flipped (names : ClassNames) : ClassNames := ⟨names.toTarget, names.toSource⟩

namespace MappingTable

variable {t t' : MappingTable}

theorem inverted_eq_ok (h : t.inverted = .ok t') :
    ∃ entries : List (String × ClassRecord), t'.classes = Dict.ofEntries entries ∧
      (∀ e ∈ entries, ∃ x ∈ t.records,
        x.2.inverted (ClassNames.ofTable t) x.1 = .ok e.2 ∧ x.2.inputName x.1 = e.1) ∧
      ∀ x ∈ t.records, ∃ e ∈ entries,
        x.2.inverted (ClassNames.ofTable t) x.1 = .ok e.2 ∧ x.2.inputName x.1 = e.1 := by
  rw [inverted] at h
  have hput : ∀ (t₀ : MappingTable) (x : String × ClassRecord) (t₁ : MappingTable),
      (do return t₀.insert (x.2.inputName x.1) (← x.2.inverted (ClassNames.ofTable t) x.1)) = .ok t₁ →
      ∃ e : String × ClassRecord, (x.2.inverted (ClassNames.ofTable t) x.1 = .ok e.2 ∧
        x.2.inputName x.1 = e.1) ∧ t₁ = t₀.insert e.1 e.2 := by
    intro t₀ x t₁ hstep
    cases hr : x.2.inverted (ClassNames.ofTable t) x.1 with
    | error e =>
      rw [hr] at hstep
      cases hstep
    | ok r' =>
      rw [hr] at hstep
      obtain rfl := Except.ok.inj hstep
      exact ⟨(x.2.inputName x.1, r'), ⟨rfl, rfl⟩, rfl⟩
  obtain ⟨entries, rfl, hfrom, hto⟩ := Dict.foldlM_put hput h
  refine ⟨entries, ?_, hfrom, hto⟩
  exact (List.foldl_hom MappingTable.classes fun _ _ => rfl).symm

theorem exists_inverted (h : t.inverted = .ok t') {s : String} {r : ClassRecord} (hr : t.find? s = some r) :
    ∃ r', r.inverted (ClassNames.ofTable t) s = .ok r' := by
  obtain ⟨entries, -, -, hto⟩ := inverted_eq_ok h
  obtain ⟨e, -, hinv, -⟩ := hto (s, r) (mem_records.mpr hr)
  exact ⟨e.2, hinv⟩

/-- The records of the inverse are the inverses of the records. -/
theorem find?_inverted (ht : t.InputsDistinct) (h : t.inverted = .ok t') {k : String} {r' : ClassRecord} :
    t'.find? k = some r' ↔ ∃ s r, t.find? s = some r ∧ r.inputName s = k ∧
      r.inverted (ClassNames.ofTable t) s = .ok r' := by
  obtain ⟨entries, hclasses, hfrom, hto⟩ := inverted_eq_ok h
  have hmem (r₁ : ClassRecord) : (k, r₁) ∈ entries ↔ ∃ s r, t.find? s = some r ∧ r.inputName s = k ∧
      r.inverted (ClassNames.ofTable t) s = .ok r₁ := by
    constructor
    · intro he
      obtain ⟨⟨s, r⟩, hx, hinv, hinput⟩ := hfrom _ he
      exact ⟨s, r, mem_records.mp hx, hinput, hinv⟩
    · intro he
      obtain ⟨s, r, hr, hinput, hinv⟩ := he
      obtain ⟨⟨k', r₂⟩, he, hinv', hinput'⟩ := hto (s, r) (mem_records.mpr hr)
      obtain rfl : r₁ = r₂ := Except.ok.inj (hinv.symm.trans hinv')
      obtain rfl : k' = k := hinput'.symm.trans hinput
      exact he
  rw [find?, hclasses, Dict.getElem?_ofEntries, hmem]
  intro r₂ h₁ h₂
  obtain ⟨s, r, hr, hinput, hinv⟩ := (hmem r').mp h₁
  obtain ⟨s₂, r₃, hr₂, hinput₂, hinv₂⟩ := (hmem r₂).mp h₂
  obtain rfl := ht.eq hr₂ hr (hinput₂.trans hinput.symm)
  obtain rfl := Option.some.inj (hr₂.symm.trans hr)
  exact Except.ok.inj (hinv₂.symm.trans hinv)

/-- Every class that has a target name has a source name. -/
def SourcesNamed (t : MappingTable) : Prop :=
  ∀ r, t.find? "" = some r → r.name = ""

theorem SourcesNamed.ne_empty (hs : t.SourcesNamed) {s : String} {r : ClassRecord} (hr : t.find? s = some r)
    (hname : r.name ≠ "") : s ≠ "" := by
  intro hempty
  subst hempty
  exact hname (hs r hr)

theorem inputsDistinct_inverted (ht : t.InputsDistinct) (hs : t.SourcesNamed) (h : t.inverted = .ok t') :
    t'.InputsDistinct := by
  intro e₁ h₁ e₂ h₂ hinput
  obtain ⟨s₁, r₁, hr₁, hkey₁, hinv₁⟩ := (find?_inverted ht h).mp (mem_records.mp h₁)
  obtain ⟨s₂, r₂, hr₂, hkey₂, hinv₂⟩ := (find?_inverted ht h).mp (mem_records.mp h₂)
  rw [← hkey₁, ← hkey₂, ClassRecord.inputName_inverted (hs.ne_empty hr₁) hinv₁,
    ClassRecord.inputName_inverted (hs.ne_empty hr₂) hinv₂] at hinput
  subst hinput
  rw [← hkey₁, ← hkey₂, Option.some.inj (hr₁.symm.trans hr₂)]

/-- A class that is renamed is renamed back. -/
theorem renamed_inverted (ht : t.InputsDistinct) (hs : t.SourcesNamed) (h : t.inverted = .ok t')
    {target source : String} : (∃ r', t'.find? target = some r' ∧ r'.name ≠ "" ∧ r'.name = source)
      ↔ ∃ r, t.find? source = some r ∧ r.name ≠ "" ∧ r.name = target := by
  constructor
  · intro hr'
    obtain ⟨r', hfind', hname', rfl⟩ := hr'
    obtain ⟨s, r, hfind, hinput, hinv⟩ := (find?_inverted ht h).mp hfind'
    have hname := (ClassRecord.inverted_eq_ok hinv).1
    have hr : r.name ≠ "" := by
      intro hempty
      rw [if_pos hempty] at hname
      exact hname' hname
    rw [if_neg hr] at hname
    rw [ClassRecord.inputName_of_named hr] at hinput
    exact ⟨r, hname ▸ hfind, hr, hinput⟩
  · intro hr
    obtain ⟨r, hfind, hname, rfl⟩ := hr
    obtain ⟨r', hinv⟩ := exists_inverted h hfind
    have hname' := (ClassRecord.inverted_eq_ok hinv).1
    rw [if_neg hname] at hname'
    refine ⟨r', (find?_inverted ht h).mpr ⟨source, r, hfind, ?_, hinv⟩, ?_, hname'⟩
    · exact ClassRecord.inputName_of_named hname
    · rw [hname']
      exact hs.ne_empty hfind hname

/-- **The class names of the inverse are those of the table with the directions exchanged.** -/
theorem ofTable_inverted (ht : t.InputsDistinct) (hs : t.SourcesNamed) (h : t.inverted = .ok t') :
    ClassNames.ofTable t' = (ClassNames.ofTable t).flipped := by
  have hsource : (ClassNames.ofTable t').toSource = (ClassNames.ofTable t).toTarget := by
    refine Std.ExtTreeMap.ext_getElem? fun source => Option.ext fun target => ?_
    rw [ClassNames.toSource_eq_some (inputsDistinct_inverted ht hs h), ClassNames.toTarget_eq_some]
    exact renamed_inverted ht hs h
  have htarget : (ClassNames.ofTable t').toTarget = (ClassNames.ofTable t).toSource := by
    refine Std.ExtTreeMap.ext_getElem? fun target => Option.ext fun source => ?_
    rw [ClassNames.toTarget_eq_some, ClassNames.toSource_eq_some ht]
    exact renamed_inverted ht hs h
  rw [ClassNames.flipped, ← hsource, ← htarget]

/-- The inverse maps a class as the table maps it back. -/
theorem map_ofTable_inverted (ht : t.InputsDistinct) (hs : t.SourcesNamed) (h : t.inverted = .ok t')
    (name : String) : (ClassNames.ofTable t').map name = (ClassNames.ofTable t).unmap name := by
  rw [ofTable_inverted ht hs h]
  rfl

/-- A class of the input of the inverse has what the record of its source name says. -/
theorem row_inverted (ht : t.InputsDistinct) (hs : t.SourcesNamed) (h : t.inverted = .ok t')
    {kind : MemberKind} {source key new : String} :
    (((Renaming.ofTable t').rows kind)[source]?).bind (·[key]?) = some new
      ↔ ∃ r r', t.find? source = some r ∧ r.inverted (ClassNames.ofTable t) source = .ok r' ∧
        (r'.members kind)[key]? = some new := by
  rw [Renaming.row_eq_some (inputsDistinct_inverted ht hs h)]
  constructor
  · intro hrow
    obtain ⟨k, r', hfind', hinput, hnew⟩ := hrow
    obtain ⟨s, r, hfind, rfl, hinv⟩ := (find?_inverted ht h).mp hfind'
    rw [ClassRecord.inputName_inverted (hs.ne_empty hfind) hinv] at hinput
    subst hinput
    exact ⟨r, r', hfind, hinv, hnew⟩
  · intro hrow
    obtain ⟨r, r', hfind, hinv, hnew⟩ := hrow
    refine ⟨r.inputName source, r', (find?_inverted ht h).mpr ⟨source, r, hfind, rfl, hinv⟩, ?_, hnew⟩
    exact ClassRecord.inputName_inverted (hs.ne_empty hfind) hinv

/-- The source name of the class of a record, if the table leaves classes without a target name alone. -/
theorem map_inputName (ht : t.InputsDistinct)
    (hkeeps : ∀ e ∈ t.records, e.2.name = "" → (ClassNames.ofTable t).map e.1 = e.1) {s : String}
    {r : ClassRecord} (hr : t.find? s = some r) : (ClassNames.ofTable t).map (r.inputName s) = s := by
  by_cases hname : r.name = ""
  · rw [ClassRecord.inputName_of_unnamed hname]
    exact hkeeps (s, r) (mem_records.mpr hr) hname
  · rw [ClassRecord.inputName_of_named hname]
    exact ClassNames.translateWith_of_entry
      ((ClassNames.toSource_eq_some ht).mpr ⟨r, hr, hname, rfl⟩)

end MappingTable

end Relabel
