import Relabel.Mapping.Inverse

/-!
# Renamings

Everything that is looked up while classes are renamed, derived from one mapping table. Members are found
under the name their class has in the input, and changes of access under the name it has afterwards.
Empty rows are left out.
-/

set_option autoImplicit false

namespace Relabel

/-- New names by member key. -/
abbrev MemberRow := Dict String

/-- Changes of access by member. -/
abbrev AccessRow := Dict AccessChange

/-- The lookups of a table. -/
structure Renaming where
  classes : ClassNames
  /-- Method rows by input name. -/
  methods : Dict MemberRow
  /-- Field rows by input name. -/
  fields : Dict MemberRow
  /-- Access rows by source name. -/
  access : Dict AccessRow

namespace Renaming

/-- Enters a row unless it is empty. -/
def enter {α : Type} (rows : Dict (Dict α)) (key : String) (row : Dict α) : Dict (Dict α) :=
  if row.isEmpty then rows else rows.insert key row

/-- The lookups of a table, its records entered in order. -/
def ofTable (t : MappingTable) : Renaming :=
  t.records.foldl (fun n (source, r) =>
    { n with
      methods := enter n.methods (r.inputName source) r.methods
      fields := enter n.fields (r.inputName source) r.fields
      access := enter n.access source r.access })
    ⟨ClassNames.ofTable t, ∅, ∅, ∅⟩

/-- The method row of a class of the input. -/
def methodRow? (n : Renaming) (owner : String) : Option MemberRow := n.methods[owner]?

/-- The field row of a class of the input. -/
def fieldRow? (n : Renaming) (owner : String) : Option MemberRow := n.fields[owner]?

/-- The access row of a renamed class. -/
def accessRow? (n : Renaming) (source : String) : Option AccessRow := n.access[source]?

end Renaming

end Relabel
