import Relabel.Files.Tree
import Relabel.Mapping.Format

/-!
# Mapping files on disk

A path that leads nowhere is a fault of the file system. A directory can be opened like a file, so only
reading it fails, and that is a fault of the mapping.
-/

set_option autoImplicit false

namespace Relabel

namespace MappingTable

/-- The table in the file at a path. -/
def load (path : String) : Effect Files MappingTable := do
  match ← Files.check fun files => files.find path with
  | .file content => MappingTable.ofBytes content
  | .directory => throw (.mapping (.unreadable .isADirectory))

/-- Writes a table to the file at a path. -/
def save (t : MappingTable) (path : String) : Effect Files Unit :=
  Files.write path t.toString.toUTF8.toList

end MappingTable

end Relabel
