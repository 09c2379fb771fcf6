import Std.Data.ExtTreeSet
import Relabel.Hierarchy.Provider
import Relabel.Naming.Renaming

/-!
# Renamed members along the class hierarchy

A reference names the class on which a member is looked up, often a subclass of the class that declares
it. So every owner has a table of all renames that apply to it: those of its supertypes, later ones over
earlier ones, with its own on top. Tables are built when they are first needed, and supertypes are
fetched through a provider. An owner that the provider does not have is remembered as unresolved and not
asked for again.

Owners whose table is being built are kept in a set, so a cycle of supertypes ends: an owner on the way
contributes nothing to itself. A failure leaves the tables that were complete.
-/

set_option autoImplicit false

namespace Relabel

/-- A finite set of names. -/
abbrev NameSet := Std.ExtTreeSet String

/-- What is known about owners. -/
structure HierarchyCache where
  methods : Dict MemberRow
  fields : Dict MemberRow
  unresolvedMethods : NameSet
  unresolvedFields : NameSet

namespace HierarchyCache

/-- Nothing is known. -/
def empty : HierarchyCache := ⟨∅, ∅, ∅, ∅⟩

/-- Whether an owner has a table or was not found. -/
def knows (c : HierarchyCache) (owner : String) : Bool :=
  c.methods.contains owner || c.fields.contains owner || c.unresolvedMethods.contains owner
    || c.unresolvedFields.contains owner

/-- An owner that was not found. -/
def markUnresolved (c : HierarchyCache) (owner : String) : HierarchyCache :=
  { c with
    unresolvedMethods := c.unresolvedMethods.insert owner
    unresolvedFields := c.unresolvedFields.insert owner }

/-- Forgets that an owner was not found. -/
def unmarkUnresolved (c : HierarchyCache) (owner : String) : HierarchyCache :=
  { c with
    unresolvedMethods := c.unresolvedMethods.erase owner
    unresolvedFields := c.unresolvedFields.erase owner }

/-- Gives an owner its tables. -/
def record (c : HierarchyCache) (owner : String) (methods fields : MemberRow) : HierarchyCache :=
  { c with
    methods := c.methods.insert owner methods
    fields := c.fields.insert owner fields }

end HierarchyCache

/-- The state of a resolver. -/
structure Resolver where
  cache : HierarchyCache
  /-- The owners whose tables are being built. -/
  loading : List String
  /-- How often the provider was asked. -/
  fetches : Nat
  /-- How often the provider was asked for each owner. -/
  requests : Dict Nat

/-- Counts of a resolver. -/
structure ResolverStats where
  fetches : Nat
  resolvedOwners : Nat
  unresolvedOwners : Nat
  deriving DecidableEq, Repr

/-- What a resolver works with: the renames and the classes. -/
structure Hierarchy where
  renames : Renaming
  provider : ClassProvider

namespace Resolver

/-- A resolver that starts with a cache. -/
def ofCache (cache : HierarchyCache) : Resolver := ⟨cache, [], 0, ∅⟩

/-- A resolver that knows nothing. -/
def empty : Resolver := ofCache .empty

/-- The counts of a resolver. -/
def stats (r : Resolver) : ResolverStats :=
  ⟨r.fetches, r.cache.methods.size, r.cache.unresolvedMethods.size⟩

/-- How often the provider was asked for an owner. -/
def requestsFor (r : Resolver) (owner : String) : Nat :=
  (r.requests[owner]?).getD 0

/-- Counts a request. -/
def countRequest (r : Resolver) (owner : String) : Resolver :=
  { r with
    fetches := r.fetches + 1
    requests := r.requests.insert owner (r.requestsFor owner + 1) }

/-- Changes the cache. -/
def mapCache (r : Resolver) (f : HierarchyCache → HierarchyCache) : Resolver :=
  { r with cache := f r.cache }

/-- A row with another one over it, if there is one. -/
def overrideWith (row : MemberRow) : Option MemberRow → MemberRow
  | none => row
  | some top => row.override top

end Resolver

namespace Hierarchy

open Resolver

/-- The rows of parents, each loaded by `load` and put over those before it. -/
def parentRows (load : String → Effect Resolver Unit) (methods fields : MemberRow) :
    List String → Effect Resolver (MemberRow × MemberRow)
  | [], r => .ok (methods, fields) r
  | parent :: parents, r =>
    match load parent r with
    | .error e r => .error e r
    | .ok () r =>
      parentRows load (overrideWith methods r.cache.methods[parent]?)
        (overrideWith fields r.cache.fields[parent]?) parents r

/-- Builds the tables of an owner from those of its parents and its own rows. -/
def buildTables (h : Hierarchy) (load : String → Effect Resolver Unit) (owner : String)
    (parents : List String) : Effect Resolver Unit := fun r =>
  match parentRows load ∅ ∅ parents { r with loading := owner :: r.loading } with
  | .error e r => .error e { r with loading := r.loading.erase owner }
  | .ok (methods, fields) r =>
    let r := { r with loading := r.loading.erase owner }
    .ok () (r.mapCache fun c =>
      c.record owner (overrideWith methods (h.renames.methodRow? owner))
        (overrideWith fields (h.renames.fieldRow? owner)))

/-- Makes sure that an owner is known, over at most `fuel` generations. An owner that is known or on the
way is left alone. -/
def load (h : Hierarchy) : (fuel : Nat) → String → Effect Resolver Unit
  | 0, _, r => .ok () r
  | fuel + 1, owner, r =>
    if r.cache.knows owner || r.loading.contains owner then .ok () r
    else
      let r := r.countRequest owner
      match h.provider.find owner with
      | .error e => .error e r
      | .ok none => .ok () (r.mapCache (·.markUnresolved owner))
      | .ok (some c) =>
        match c.parents with
        | .error e => .error e r
        | .ok parents => h.buildTables (h.load fuel) owner parents r

/-- Enough generations for any owner: all but the first are supertypes that classes of the provider
name, and no owner is loaded inside itself. -/
def generations (h : Hierarchy) : Nat := h.provider.depth + 2

/-- Makes sure that an owner is known. -/
def ensureLoaded (h : Hierarchy) (owner : String) : Effect Resolver Unit :=
  h.load h.generations owner

/-- Records the supertypes of a class that is at hand, so that it is not fetched. Tables it already has
are built again. -/
def register (h : Hierarchy) (name : String) (parents : List String) : Effect Resolver Unit :=
  fun r => h.buildTables (h.load h.generations) name parents (r.mapCache (·.unmarkUnresolved name))

/-- Whether an owner is an array type, which has no members of its own. -/
def isArray (owner : String) : Bool := owner.toList.head? = some '['

/-- The new name of a method, absent if it keeps its name. -/
def lookupMethod (h : Hierarchy) (owner name descriptor : String) :
    Effect Resolver (Option String) := do
  if isArray owner then return none
  h.ensureLoaded owner
  let row? := (← get).cache.methods[owner]?
  return row?.bind fun row => row[ClassRecord.methodKey name descriptor]?

/-- The new name of a field, absent if it keeps its name. -/
def lookupField (h : Hierarchy) (owner name descriptor : String) :
    Effect Resolver (Option String) := do
  if isArray owner then return none
  h.ensureLoaded owner
  let row? := (← get).cache.fields[owner]?
  return row?.bind fun row => row[ClassRecord.fieldKey name descriptor]?

/-- The name of a method after renaming. -/
def methodName (h : Hierarchy) (owner name descriptor : String) : Effect Resolver String := do
  return (← h.lookupMethod owner name descriptor).getD name

/-- The name of a field after renaming. -/
def fieldName (h : Hierarchy) (owner name descriptor : String) : Effect Resolver String := do
  return (← h.lookupField owner name descriptor).getD name

end Hierarchy

end Relabel
