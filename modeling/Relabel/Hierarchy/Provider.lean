import Relabel.Dict
import Relabel.Hierarchy.Supertypes

/-!
# Where supertypes come from

A provider finds classes by internal name. That a class is not there is an answer; a failure means that
the class could not be read. A provider holds finitely many bytes of classes, and since every supertype
a class names takes bytes in its file, the number of those bytes bounds the number of distinct
supertypes that its classes name between them. Every provider carries such a bound with it, so the search
for supertypes can be given an end before anything is read.
-/

set_option autoImplicit false

namespace Relabel

/-- The classes that can be found name at most `n` distinct supertypes between them. -/
def NamesAtMost (find : String → Except Error (Option ClassFile)) (n : Nat) : Prop :=
  ∃ supers : List String, supers.length ≤ n ∧
    ∀ name c parents, find name = .ok (some c) → c.parents = .ok parents →
      ∀ p ∈ parents, p ∈ supers

/-- A source of classes. -/
structure ClassProvider where
  find : String → Except Error (Option ClassFile)
  /-- At least the number of distinct supertypes named by the classes of the provider. -/
  depth : Nat
  bounded : NamesAtMost find depth

/-! ## Bounds from the bytes that are held -/

/-- Classes that come from some byte strings name no more supertypes than there are bytes. -/
theorem namesAtMost_of_contents {find : String → Except Error (Option ClassFile)}
    (contents : List Bytes)
    (hfind : ∀ name c, find name = .ok (some c) → ∃ bytes ∈ contents, ClassFile.ofBytes bytes = .ok c) :
    NamesAtMost find contents.flatten.length := by
  refine ⟨contents.flatMap ClassFile.supertypesIn, ?_, ?_⟩
  · clear hfind
    induction contents with
    | nil => simp
    | cons bytes rest ih =>
      have hbytes := ClassFile.length_supertypesIn_le bytes
      simp only [List.flatMap_cons, List.length_append, List.flatten_cons]
      omega
  · intro name c parents hc hp p hmem
    obtain ⟨bytes, hbytes, hf⟩ := hfind name c hc
    refine List.mem_flatMap.mpr ⟨bytes, hbytes, ?_⟩
    rw [ClassFile.supertypesIn_of_parents hf hp]
    exact hmem

/-- Sizes can be counted on from any number. -/
theorem foldl_size_eq_add {α : Type} (size : α → Nat) (xs : List α) (n : Nat) :
    xs.foldl (fun m a => m + size a) n = n + xs.foldl (fun m a => m + size a) 0 := by
  induction xs generalizing n with
  | nil => rfl
  | cons a xs ih => rw [List.foldl_cons, List.foldl_cons, ih, ih (0 + size a), Nat.zero_add, Nat.add_assoc]

theorem foldl_length_eq_length {α : Type} (content : α → Bytes) (xs : List α) :
    xs.foldl (fun m a => m + (content a).length) 0 = (xs.map content).flatten.length := by
  induction xs with
  | nil => rfl
  | cons a xs ih =>
    rw [List.foldl_cons, foldl_size_eq_add, ih, Nat.zero_add, List.map_cons, List.flatten_cons,
      List.length_append]

/-- The same for the byte strings in a dictionary, counted entry by entry. -/
theorem namesAtMost_of_dict {α : Type} {find : String → Except Error (Option ClassFile)}
    (d : Dict α) (content? : α → Option Bytes) (step : Nat → String → α → Nat)
    (hstep : ∀ n k a, step n k a = n + ((content? a).getD []).length)
    (hfind : ∀ name c, find name = .ok (some c) →
      ∃ (k : String) (a : α) (bytes : Bytes), d[k]? = some a ∧ content? a = some bytes ∧ ClassFile.ofBytes bytes = .ok c) :
    NamesAtMost find (d.foldl step 0) := by
  have hsize : d.foldl step 0 = (d.toList.map fun e => (content? e.2).getD []).flatten.length := by
    rw [Std.ExtTreeMap.foldl_eq_foldl_toList]
    simp only [hstep]
    exact foldl_length_eq_length (fun e : String × α => (content? e.2).getD []) d.toList
  rw [hsize]
  refine namesAtMost_of_contents _ fun name c hc => ?_
  obtain ⟨k, a, bytes, hk, ha, hf⟩ := hfind name c hc
  refine ⟨bytes, List.mem_map.mpr ⟨(k, a), ?_, by simp [ha]⟩, hf⟩
  exact Std.ExtTreeMap.mem_toList_iff_getElem?_eq_some.mpr hk

namespace ClassProvider

/-- The class in a file that may be absent. -/
def classOf (bytes? : Option Bytes) : Except Error (Option ClassFile) :=
  match bytes? with
  | none => .ok none
  | some bytes => (ClassFile.ofBytes bytes).map some

theorem classOf_eq_some {bytes? : Option Bytes} {c : ClassFile} (h : classOf bytes? = .ok (some c)) :
    ∃ bytes, bytes? = some bytes ∧ ClassFile.ofBytes bytes = .ok c := by
  cases bytes? with
  | none => simp [classOf] at h
  | some bytes =>
    cases hf : ClassFile.ofBytes bytes with
    | error e => simp [classOf, hf, Except.map] at h
    | ok f =>
      simp only [classOf, hf, Except.map, Except.ok.injEq, Option.some.injEq] at h
      exact ⟨bytes, rfl, by rw [hf, h]⟩

/-- Class files by name. They are only read when they are asked for. -/
def ofFiles (files : Dict Bytes) : ClassProvider where
  find name := classOf files[name]?
  depth := files.foldl (fun n _ bytes => n + bytes.length) 0
  bounded := by
    refine namesAtMost_of_dict files some _ (fun _ _ _ => rfl) fun name c hc => ?_
    obtain ⟨bytes, hbytes, hf⟩ := classOf_eq_some hc
    exact ⟨name, bytes, bytes, hbytes, rfl, hf⟩

/-- The first of several providers that has a class. -/
def findFirst : List ClassProvider → String → Except Error (Option ClassFile)
  | [], _ => .ok none
  | p :: ps, name =>
    match p.find name with
    | .error e => .error e
    | .ok (some c) => .ok (some c)
    | .ok none => findFirst ps name

theorem find_of_findFirst {name : String} {c : ClassFile} : ∀ {ps : List ClassProvider},
    findFirst ps name = .ok (some c) → ∃ p ∈ ps, p.find name = .ok (some c)
  | [], h => by simp [findFirst] at h
  | p :: ps, h => by
    rw [findFirst] at h
    split at h
    · exact absurd h (by simp)
    · next hp => exact ⟨p, List.mem_cons_self, by rw [hp, h]⟩
    · obtain ⟨q, hq, hc⟩ := find_of_findFirst h
      exact ⟨q, List.mem_cons_of_mem p hq, hc⟩

/-- One list of supertypes for several providers. -/
theorem exists_supers : ∀ ps : List ClassProvider, ∃ supers : List String,
    supers.length ≤ ps.foldl (fun n p => n + p.depth) 0 ∧ ∀ p ∈ ps, ∀ name c parents,
      p.find name = .ok (some c) → c.parents = .ok parents → ∀ q ∈ parents, q ∈ supers
  | [] => ⟨[], by simp, by simp⟩
  | p :: ps => by
    obtain ⟨supers, hlen, hsupers⟩ := p.bounded
    obtain ⟨rest, hrest, hothers⟩ := exists_supers ps
    refine ⟨supers ++ rest, ?_, ?_⟩
    · rw [List.length_append, List.foldl_cons, foldl_size_eq_add]
      omega
    · intro p' hp' name c parents hc hparents q hq
      rcases List.mem_cons.mp hp' with rfl | hp'
      · exact List.mem_append_left _ (hsupers name c parents hc hparents q hq)
      · exact List.mem_append_right _ (hothers p' hp' name c parents hc hparents q hq)

/-- Several providers asked in order. -/
def ofList (ps : List ClassProvider) : ClassProvider where
  find := findFirst ps
  depth := ps.foldl (fun n p => n + p.depth) 0
  bounded := by
    obtain ⟨supers, hlen, hsupers⟩ := exists_supers ps
    refine ⟨supers, hlen, fun name c parents hc hparents => ?_⟩
    obtain ⟨p, hp, hfind⟩ := find_of_findFirst hc
    exact hsupers p hp name c parents hfind hparents

end ClassProvider

end Relabel
