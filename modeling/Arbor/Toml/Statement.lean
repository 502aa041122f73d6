import Arbor.Text

/-!
# Statements of TOML

What a TOML file says, line by line: it opens a table, adds a table to an
array of tables, or gives a key a value. Values are kept as written; how the
statements add up is decided in `Arbor.Toml.Document`.
-/

namespace Arbor

namespace Toml

/-- A key, perhaps with points: the names on the way, and the last one. -/
structure Key where
  /-- The names of the tables on the way. -/
  parents : List Text
  /-- The last name. -/
  name : Text
  deriving DecidableEq, Repr

/-- The names of a key, outermost first. -/
def Key.names (k : Key) : List Text := k.parents ++ [k.name]

/-- A value as written. -/
inductive Written where
  /-- A string. -/
  | string (t : Text)
  /-- A truth value, a number or a date. -/
  | scalar
  /-- An array. -/
  | array (items : List Written)
  /-- A table in braces. -/
  | inline (pairs : List (Key × Written))

/-- A statement. -/
inductive Statement where
  /-- Opens a table. -/
  | table (key : Key)
  /-- Adds a table to an array of tables, and opens it. -/
  | element (key : Key)
  /-- Gives a key of the open table a value. -/
  | assign (key : Key) (value : Written)

end Toml

end Arbor
