import Std.Data.ExtTreeMap

/-!
# Dictionaries

Finite maps from texts, ordered by code points. A dictionary is determined by its entries, so two
dictionaries with the same entries are equal.
-/

set_option autoImplicit false

namespace Relabel

/-- A finite map from texts. -/
abbrev Dict (α : Type) := Std.ExtTreeMap String α

namespace Dict

variable {α : Type}

/-- The entries of `base` with those of `top` put over them. -/
def override (base top : Dict α) : Dict α :=
  top.foldl (fun d k v => d.insert k v) base

/-- The entry of a key. -/
def find? (d : Dict α) (k : String) : Option α := d[k]?

end Dict

end Relabel
