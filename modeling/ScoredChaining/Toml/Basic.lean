import ScoredChaining.Decimal.Layout

/-!
TOML documents as trees. A table remembers how it came to be, because that decides what may be added
to it later.
-/

namespace ScoredChaining

namespace Toml

/-- How a table came to be. -/
inductive TableKind where
  /-- Under a header of its own, or as the whole document. -/
  | headed
  /-- On the way to a table with a header. -/
  | implied
  /-- On the way to a dotted key. -/
  | dotted
  /-- In braces, as a value. -/
  | braced
  deriving Repr, DecidableEq, Inhabited

end Toml

/-- A value or a table. -/
inductive Toml where
  | str (s : String)
  | int (n : Int64)
  | float (x : Float)
  | bool (b : Bool)
  /-- A date, a time, or both. No setting has such a value, so which one is not kept. -/
  | moment
  | array (items : List Toml)
  | table (kind : Toml.TableKind) (members : List (String × Toml))
  /-- An array of tables with headers, the latest one first. -/
  | rows (rows : List (List (String × Toml)))
  deriving Repr, Inhabited

namespace Toml

/-- The members of a table, with different keys. -/
abbrev Members := List (String × Toml)

/-- Replaces the value of a key. -/
def replace (key : String) (item : Toml) (members : Members) : Members :=
  members.map fun (k, old) => if k = key then (k, item) else (k, old)

end Toml

end ScoredChaining
