import Relabel.Proofs.Class.RoundTrip
import Relabel.Proofs.Rename.Sequence
import Relabel.Proofs.Rename.Unchanged

/-!
# A class in which nothing is renamed comes out as it went in

The header registers the class, which changes nothing but the resolver; after that, every step rests, so the
writer receives what a pass without stages would hand it, and that pass writes the file back.

With the table that renames nothing, everything is kept whatever the classes mention: no dictionary has an
entry, so names are taken apart and put together again, and a resolver that never sees a row builds tables
without entries, for as long as it lives.
-/

set_option autoImplicit false

namespace Relabel

open Mention (AllKept)

namespace Renamer

variable {h : Hierarchy}

/-! ## The pass -/

/-- Once the class is remembered, the pool is gone through, and the class still has the name it had. -/
theorem rests_headerEnd {f : ClassFile} {name : String} (hname : f.className = .ok name) {last : Resolver}
    (hkept : AllKept h last f.pool.mentions) : Rests h name f.pool last True (do
      renameConstants h f.pool.indices
      let newName ← f.header.className (← Pass.pool)
      if newName ≠ name then count fun s => { s with classes := s.classes + 1 }
      return f.header) (· = f.header) := by
  refine (rests_renameConstants fun _ => hkept).bind fun _ => rests_pool.bind fun q =>
    (Rests.lift (f.header.className q)).bind fun newName => .ite ?_ (.pure fun _ => rfl)
  refine (rests_count (P := fun _ => True) ?_).bind fun _ => .pure fun _ => rfl
  rintro ⟨⟨⟨-, rfl⟩, hnew⟩, hne⟩
  exact hne (Except.ok.inj (hnew.symm.trans hname))

/-- The header goes on as it is, and nothing is counted for it. -/
theorem quiet_of_onHeader {f : ClassFile} {name : String} (hname : f.className = .ok name) {header : Header}
    {s : Renamer} {s' : Renamer × Pool} {last : Resolver} (hkept : AllKept h last f.pool.mentions)
    (hl : h.Asked s'.1.resolver last) (hh : onHeader h f.header (s, f.pool) = .ok header s') :
    header = f.header ∧ Quiet name f.pool s' ∧ s'.1.stats = s.stats := by
  unfold onHeader at hh
  obtain ⟨q, s₁, hq, hh⟩ := Effect.bind_eq_ok.mp hh
  have hq : EStateM.Result.ok f.pool (s, f.pool) = .ok q s₁ := hq
  obtain ⟨rfl, rfl⟩ := EStateM.Result.ok.inj hq
  obtain ⟨name', s₁, hx, hh⟩ := Effect.bind_eq_ok.mp hh
  obtain ⟨hname', rfl⟩ := Effect.lift_eq_ok.mp hx
  obtain rfl := Except.ok.inj (hname.symm.trans hname')
  obtain ⟨parents, s₁, hx, hh⟩ := Effect.bind_eq_ok.mp hh
  obtain ⟨-, rfl⟩ := Effect.lift_eq_ok.mp hx
  obtain ⟨⟨⟩, s₁, hx, hh⟩ := Effect.bind_eq_ok.mp hh
  obtain ⟨r, -, rfl⟩ := resolve_eq_ok.mp hx
  obtain ⟨⟨⟩, s₁, hx, hh⟩ := Effect.bind_eq_ok.mp hh
  obtain ⟨-, rfl⟩ := EStateM.Result.ok.inj hx
  -- The class is remembered, and all that is left rests.
  have hstart : Quiet name f.pool ({ s with resolver := r, className := name, asRead := f.pool }, f.pool) :=
    ⟨rfl, rfl, rfl⟩
  obtain ⟨hheader, hstill⟩ := (rests_headerEnd hname hkept).rests trivial _ header s' hstart hl hh
  refine ⟨hheader, hstart.still hstill, ?_⟩
  obtain ⟨r', rfl⟩ := hstill
  rfl

/-- **A sink receives the class as if no stage stood before it.** -/
theorem deliver_of_kept {τ : Type} {sink : Sink τ} {bytes : Bytes} {f : ClassFile}
    (hf : ClassFile.ofBytes bytes = .ok f) {t t' : τ} {s s' : Renamer}
    (hd : (f.events .none).deliver [stage h] sink t s = .ok t' s') (hkept : AllKept h s'.resolver f.mentions) :
    (f.events .none).deliver ([] : List (Stage Unit)) sink t () = .ok t' () ∧ s'.stats = s.stats := by
  obtain ⟨-, name, hname⟩ := ClassFile.ofBytes_eq_ok hf
  obtain ⟨p, hd⟩ := ClassEvents.deliver_eq_ok.mp hd
  rw [f.pool_events] at hd
  obtain ⟨hstop, header, s₁, t₁, t₂, hheader, hgive, hitems, hend⟩ := deliverAll_eq_ok hd
  rw [f.header_events] at hheader
  have hrests : Rests h name f.pool s'.resolver True (ClassEvents.deliverItems [stage h] sink t₁
      (f.events .none).items) fun t' => ∀ x : Unit × Pool,
        ClassEvents.deliverItems [] sink t₁ (f.events .none).items x = .ok t' x :=
    rests_deliverItems sink fun _ => hkept.right.of_read hname
  -- The answers that the header got are those at the end, since the body only asks further.
  have hasked := hrests.asks s₁
  rw [Effect.after_of_ok hitems] at hasked
  obtain ⟨rfl, hquiet, hstats⟩ := quiet_of_onHeader hname hkept.left hasked hheader
  obtain ⟨hdeliver, r, hstill⟩ := hrests.rests trivial s₁ t₂ (s', p) hquiet .refl hitems
  obtain ⟨hs', hp⟩ := Prod.mk.inj hstill
  refine ⟨ClassEvents.deliver_nil.mpr ⟨hstop, rfl, t₁, t₂, ?_, hdeliver _, ?_⟩, ?_⟩
  · rw [f.header_events]
    exact hgive
  · rw [f.pool_events, ← hquiet.pool, ← hp]
    exact hend
  · rw [hs']
    exact hstats

end Renamer

/-! ## The file -/

/-- Without stages, the writer ends up with the file that was read and the name of its class. -/
theorem ClassFile.finished_of_deliver {bytes : Bytes} {f : ClassFile} (hf : ofBytes bytes = .ok f)
    {flags : WriterFlags} {w : ClassWriter}
    (hd : (f.events .none).deliver [] ClassWriter.sink (.new flags) () = .ok w ()) :
    ∃ m name, f.className = .ok name ∧ w = ClassWriter.finished flags m name bytes := by
  obtain ⟨hstop, -⟩ := ClassEvents.deliver_nil.mp hd
  obtain ⟨m, hm, -, c, hnil, hbody⟩ := exists_model hstop
  obtain ⟨m', name, bytes', hmodel, hname, hbytes, rfl⟩ := ClassWriter.deliver_sink.mp hd
  rw [hm, m.deliver_events] at hmodel
  obtain ⟨rfl, -⟩ := EStateM.Result.ok.inj hmodel
  obtain rfl := Except.ok.inj (hbytes.symm.trans (toBytes_of_events hf hm hnil hbody))
  refine ⟨m, name, ?_, rfl⟩
  rw [className, ← pool_events f .none, ← header_events f .none, hm]
  exact hname

namespace Pipeline

/-- A class came out as it went in, under its name, and nothing was counted. -/
structure Unchanged (bytes : Bytes) (s s' : Renamer) (out : TransformedClass) : Prop where
  bytes : out.bytes = bytes
  name : out.name = out.inputName
  stats : s'.stats = s.stats

variable {names? : Option ClassNames} {h : Hierarchy}

theorem unchanged_of_kept {bytes : Bytes} {f : ClassFile} (hf : ClassFile.ofBytes bytes = .ok f) {s s' : Renamer}
    {out : TransformedClass} (ht : (renamer names? h).transform bytes s = .ok out s')
    (hkept : AllKept h s'.resolver f.mentions) : Unchanged bytes s s' out := by
  rw [transform_renamer] at ht
  obtain ⟨f', s₁, hx, ht⟩ := Effect.bind_eq_ok.mp ht
  obtain ⟨hf', rfl⟩ := Effect.lift_eq_ok.mp hx
  obtain rfl := Except.ok.inj (hf.symm.trans hf')
  obtain ⟨name, s₁, hx, ht⟩ := Effect.bind_eq_ok.mp ht
  obtain ⟨hname, rfl⟩ := Effect.lift_eq_ok.mp hx
  obtain ⟨w, s₁, hw, ht⟩ := Effect.bind_eq_ok.mp ht
  obtain ⟨-, rfl⟩ := finish_eq_ok ht
  rw [f.events_expandFrames] at hw
  obtain ⟨hdeliver, hstats⟩ := Renamer.deliver_of_kept hf hw hkept
  obtain ⟨m, name', hname', rfl⟩ := ClassFile.finished_of_deliver hf hdeliver
  obtain rfl := Except.ok.inj (hname.symm.trans hname')
  have hout : EStateM.Result.ok (⟨name, name, bytes, true, .expandFrames, .none⟩ : TransformedClass) s₁
      = .ok out s₁ := ht
  obtain ⟨rfl, -⟩ := EStateM.Result.ok.inj hout
  exact ⟨rfl, rfl, hstats⟩

end Pipeline

/-! ## The table that renames nothing -/

namespace ClassNames

theorem nameOfSegments_cons {segment : String} {outer : List String} (houter : outer ≠ []) :
    nameOfSegments (segment :: outer) = nameOfSegments outer ++ "$" ++ segment := by
  have hreverse : outer.reverse ≠ [] := List.reverse_ne_nil_iff.mpr houter
  rw [nameOfSegments, List.reverse_cons, String.intercalate_append_of_ne_nil hreverse (List.cons_ne_nil _ _),
    String.intercalate_singleton]
  rfl

/-- A dictionary without entries puts a name together again. -/
theorem translateSegments_empty {segments : List String} (hne : segments ≠ []) :
    translateSegments ∅ segments = nameOfSegments segments := by
  induction segments with
  | nil => exact absurd rfl hne
  | cons segment outer ih =>
    cases outer with
    | nil => simp [translateSegments, nameOfSegments]
    | cons next outer =>
      have houter : next :: outer ≠ [] := List.cons_ne_nil next outer
      have hnone : (∅ : Dict String)[nameOfSegments (segment :: next :: outer)]? = none := by simp
      rw [translateSegments.eq_3 _ _ _ houter, hnone, nameOfSegments_cons houter, ih houter]

theorem map_empty (name : String) : empty.map name = name :=
  (translateSegments_empty (Text.splitRev_ne_nil '$' name)).trans (Text.intercalate_splitRev '$' name)

end ClassNames

namespace Resolver

/-- No member of any owner has another name. -/
structure Plain (r : Resolver) : Prop where
  methods : ∀ (owner : String) row, r.cache.methods[owner]? = some row → row = ∅
  fields : ∀ (owner : String) row, r.cache.fields[owner]? = some row → row = ∅

theorem plain_empty : Plain .empty :=
  ⟨fun _ _ h => by simp [empty, ofCache, HierarchyCache.empty] at h,
    fun _ _ h => by simp [empty, ofCache, HierarchyCache.empty] at h⟩

theorem overrideWith_plain {row? : Option MemberRow} (h : ∀ row, row? = some row → row = ∅) :
    overrideWith ∅ row? = ∅ := by
  cases row? with
  | none => rfl
  | some row =>
    obtain rfl := h row rfl
    rfl

theorem Plain.renamed? {r : Resolver} (hr : r.Plain) (kind : MemberKind) (owner name descriptor : String) :
    r.renamed? kind owner name descriptor = none := by
  unfold Resolver.renamed?
  cases hrow : (r.tables kind)[owner]? with
  | none => rfl
  | some row =>
    have hempty : row = ∅ := by
      cases kind with
      | field => exact hr.fields owner row hrow
      | method | interfaceMethod => exact hr.methods owner row hrow
    rw [hempty]
    rfl

end Resolver

namespace Hierarchy

open Resolver

variable {h : Hierarchy}

/-- Parents without rows give none. -/
theorem plain_parentRows {load : String → Effect Resolver Unit}
    (hload : ∀ p r, Plain r → Plain ((load p).after r)) (parents : List String) :
    ∀ r, Plain r → Plain ((parentRows load ∅ ∅ parents).after r) ∧
      ∀ rows r', parentRows load ∅ ∅ parents r = .ok rows r' → rows = (∅, ∅) := by
  induction parents with
  | nil =>
    refine fun r hr => ⟨hr, fun rows r' hrows => ?_⟩
    exact (EStateM.Result.ok.inj hrows).1.symm
  | cons p parents ih =>
    intro r hr
    have hp := hload p r hr
    cases hl : load p r with
    | error e r₁ =>
      have hrows : parentRows load ∅ ∅ (p :: parents) r = .error e r₁ := by rw [parentRows, hl]
      rw [Effect.after_of_error hl] at hp
      rw [Effect.after_of_error hrows, hrows]
      exact ⟨hp, fun rows r' hok => by cases hok⟩
    | ok u r₁ =>
      rw [Effect.after_of_ok hl] at hp
      have hrows : parentRows load ∅ ∅ (p :: parents) r = parentRows load ∅ ∅ parents r₁ := by
        rw [parentRows, hl]
        simp only [overrideWith_plain (hp.methods p), overrideWith_plain (hp.fields p)]
      unfold Effect.after
      rw [hrows]
      exact ih r₁ hp

/-- Nothing is renamed: no member, and no class. -/
structure NoRenames (h : Hierarchy) : Prop where
  methodRow? : ∀ owner, h.renames.methodRow? owner = none
  fieldRow? : ∀ owner, h.renames.fieldRow? owner = none
  map : ∀ name, h.renames.classes.map name = name

theorem noRenames_ofTable_empty (hh : h.renames = .ofTable .empty) : h.NoRenames := by
  refine ⟨fun owner => ?_, fun owner => ?_, fun name => ?_⟩
  · rw [hh]
    rfl
  · rw [hh]
    rfl
  · rw [hh]
    exact ClassNames.map_empty name

theorem NoRenames.plain_buildTables (hh : h.NoRenames) {load : String → Effect Resolver Unit}
    (hload : ∀ p r, Plain r → Plain ((load p).after r)) (owner : String) (parents : List String) {r : Resolver}
    (hr : Plain r) : Plain ((h.buildTables load owner parents).after r) := by
  have hstart : Plain { r with loading := owner :: r.loading } := ⟨hr.methods, hr.fields⟩
  obtain ⟨hplain, hrows⟩ := plain_parentRows hload parents _ hstart
  obtain ⟨e, r₁, hp, hb⟩ | ⟨methods, fields, r₁, hp, hb⟩ := h.buildTables_cases load owner parents r
  · rw [Effect.after_of_error hp] at hplain
    rw [Effect.after_of_error hb]
    exact ⟨hplain.methods, hplain.fields⟩
  · rw [Effect.after_of_ok hp] at hplain
    obtain ⟨rfl, rfl⟩ := Prod.mk.inj (hrows _ _ hp)
    rw [Effect.after_of_ok hb, hh.methodRow?, hh.fieldRow?]
    -- The owner gets two rows without entries.
    refine ⟨fun o row hrow => ?_, fun o row hrow => ?_⟩
    · simp only [mapCache, HierarchyCache.record, overrideWith, Dict.getElem?_insert] at hrow
      split at hrow
      · exact (Option.some.inj hrow).symm
      · exact hplain.methods o row hrow
    · simp only [mapCache, HierarchyCache.record, overrideWith, Dict.getElem?_insert] at hrow
      split at hrow
      · exact (Option.some.inj hrow).symm
      · exact hplain.fields o row hrow

theorem NoRenames.plain_load (hh : h.NoRenames) (n : Nat) :
    ∀ owner r, Plain r → Plain ((h.load n owner).after r) := by
  induction n with
  | zero => exact fun _ _ hr => hr
  | succ n ih =>
    intro owner r hr
    cases hs : r.settled owner with
    | true =>
      rw [Effect.after_of_ok (load_of_settled h n hs)]
      exact hr
    | false =>
      have hload := load_of_not_settled h n hs
      cases hp : h.provider.parents? owner with
      | error e =>
        rw [hp] at hload
        rw [Effect.after_of_error hload]
        exact ⟨hr.methods, hr.fields⟩
      | ok parents? =>
        cases parents? with
        | none =>
          rw [hp] at hload
          rw [Effect.after_of_ok hload]
          exact ⟨hr.methods, hr.fields⟩
        | some parents =>
          rw [hp] at hload
          have hafter : (h.load (n + 1) owner).after r
              = (h.buildTables (h.load n) owner parents).after (r.countRequest owner) := by
            simp only [Effect.after, hload]
          rw [hafter]
          exact hh.plain_buildTables ih owner parents ⟨hr.methods, hr.fields⟩

theorem NoRenames.plain_register (hh : h.NoRenames) (name : String) (parents : List String) {r : Resolver}
    (hr : Plain r) : Plain ((h.register name parents).after r) :=
  hh.plain_buildTables (hh.plain_load h.generations) name parents ⟨hr.methods, hr.fields⟩

theorem NoRenames.plain_asked (hh : h.NoRenames) {r r' : Resolver} (hr : Plain r) (ha : h.Asked r r') :
    Plain r' := by
  induction ha with
  | refl => exact hr
  | ask kind owner name descriptor _ ih =>
    rw [after_memberName, after_lookupMember]
    split
    · exact ih
    · exact hh.plain_load h.generations owner _ ih

/-- If nothing is renamed, everything is kept. -/
theorem NoRenames.allKept (hh : h.NoRenames) {r : Resolver} (hr : Plain r) (ms : List Mention) :
    AllKept h r ms := by
  intro m _
  apply Mention.kept_of_isKept
  cases m with
  | text spelling s => exact List.all_eq_true.mpr fun c _ => decide_eq_true (hh.map c)
  | member kind owner name descriptor => exact decide_eq_true (hr.renamed? kind owner name descriptor)

end Hierarchy

namespace Pipeline

variable {names? : Option ClassNames} {h : Hierarchy}

theorem plain_transform (names? : Option ClassNames) (hh : h.NoRenames) (bytes : Bytes) {s : Renamer}
    (hs : s.resolver.Plain) :
    (((renamer names? h).transform bytes).after s).resolver.Plain := by
  cases hf : ClassFile.ofBytes bytes with
  | error e =>
    rw [after_transform_of_error hf]
    exact hs
  | ok f =>
    have hsees : Renamer.Sees h f s.resolver (((renamer names? h).transform bytes).after s).resolver :=
      sees_transform hf s
    obtain hsame | ⟨name, parents, -, -, hasked⟩ := hsees
    · rw [hsame]
      exact hs
    · exact hh.plain_asked (hh.plain_register name parents hs) hasked

theorem plain_before (hh : h.NoRenames) (classes : List Bytes) (k : Nat) :
    ((renamer names? h).before classes (.ofResolver .empty) k).resolver.Plain := by
  induction k with
  | zero => exact Resolver.plain_empty
  | succ k ih =>
    cases hc : classes[k]? with
    | none =>
      rw [before_succ_of_none _ _ hc]
      exact ih
    | some bytes =>
      rw [before_succ _ _ hc]
      exact plain_transform names? hh bytes ih

/-- **A class in which nothing is renamed comes out as it went in**, byte for byte: if the names of all classes
that it mentions are translated to themselves, and the resolver calls all members that it mentions by the names
they have. It is asked as it is afterwards, since it keeps to what it answered on the way. With the empty table
this is so for every class of a sequence. -/
theorem transform_unchanged {bytes : Bytes} {f : ClassFile} (hf : ClassFile.ofBytes bytes = .ok f)
    {s s' : Renamer} {out : TransformedClass} (ht : (renamer names? h).transform bytes s = .ok out s') :
    (AllKept h s'.resolver f.mentions → Unchanged bytes s s' out) ∧
      (h.renames = .ofTable .empty → ∀ classes k,
        s = (renamer names? h).before classes (.ofResolver .empty) k → Unchanged bytes s s' out) := by
  refine ⟨unchanged_of_kept hf ht, fun hempty classes k hs => unchanged_of_kept hf ht ?_⟩
  have hh := Hierarchy.noRenames_ofTable_empty hempty
  have hplain := plain_transform names? hh bytes (hs ▸ plain_before hh classes k)
  rw [Effect.after_of_ok ht] at hplain
  exact hh.allKept hplain f.mentions

/-- `C` is called `D`, and its field `a` is called `b`. The class `A` and its members keep their names. -/
def otherHierarchy : Hierarchy where
  renames :=
    { classes := ClassNames.empty.insert "C" "D"
      methods := ∅
      fields := (∅ : Dict MemberRow).insert "C" ((∅ : Dict String).insert "a:LA;" "b")
      access := ∅ }
  provider := .ofFiles ∅

/-- The state that the sample leaves. -/
def otherState : Renamer :=
  ((renamer none otherHierarchy).transform Renamer.sampleBytes).after (.ofResolver .empty)

/-- A table that renames another class and a field of the same name and type leaves the sample alone. -/
theorem transform_unchanged_sample : ∃ out s',
    (renamer none otherHierarchy).transform Renamer.sampleBytes (.ofResolver .empty) = .ok out s' ∧
      AllKept otherHierarchy s'.resolver Renamer.sampleFile.mentions ∧
      Unchanged Renamer.sampleBytes (.ofResolver .empty) s' out := by
  obtain ⟨out, hrun⟩ : ∃ out, (renamer none otherHierarchy).transform Renamer.sampleBytes (.ofResolver .empty)
      = .ok out otherState := Effect.exists_ok_of_isSome (by decide +kernel)
  have hseen : ∀ m ∈ Renamer.sampleFile.mentions, m.isKept otherHierarchy otherState.resolver = true := by
    decide +kernel
  have hkept : AllKept otherHierarchy otherState.resolver Renamer.sampleFile.mentions := fun m hm =>
    Mention.kept_of_isKept (hseen m hm)
  exact ⟨out, otherState, hrun, hkept, (transform_unchanged Renamer.ofBytes_sample hrun).1 hkept⟩

end Pipeline

end Relabel
