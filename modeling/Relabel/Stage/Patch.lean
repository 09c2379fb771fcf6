import Relabel.Class.Stream
import Relabel.Naming.Renaming

/-!
# The access stage

Applies the changes of access that a row asks for. The class itself has the empty key, a method its name
followed by its descriptor, and a field the same or, if there is no such key, its bare name. Names are
those that the member has when it reaches this stage. Only flags change; the state counts the
declarations that were addressed.
-/

set_option autoImplicit false

namespace Relabel.Patcher

/-- Changes flags by the first of some keys that the row has, and counts the change. -/
def patch (row : AccessRow) (keys : List String) (flags : UInt16) : Pass Nat UInt16 :=
  match keys.findSome? fun key => row[key]? with
  | none => pure flags
  | some change => Effect.onFirst fun n => .ok (change.apply flags) (n + 1)

/-- The stage for a row. -/
def stage (row : AccessRow) : Stage Nat where
  onHeader header := do
    return { header with flags := ← patch row [""] header.flags }
  onField m := do
    let pool ← Pass.pool
    let name ← m.nameIn pool
    let descriptor ← m.descriptorIn pool
    return { m with flags := ← patch row [name ++ descriptor, name] m.flags }
  onMethod m := do
    let pool ← Pass.pool
    let name ← m.nameIn pool
    let descriptor ← m.descriptorIn pool
    return { m with flags := ← patch row [name ++ descriptor] m.flags }

end Relabel.Patcher
