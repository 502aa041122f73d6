import Arbor.Text.Lower

/-!
# Suggestions

For a name that is not known, the known names that may have been meant: those
that start with it, and those at most two edits away. An edit inserts, deletes
or replaces a byte, and upper and lower case count as the same.
-/

namespace Arbor

namespace Command

/-- The row of an edit table below another one, from its second entry on.
`left` is the entry to the left, and `diagonal` the one above that. -/
def editRow (b : UInt8) (left diagonal : Nat) : Text → List Nat → List Nat
  | c :: cs, above :: row =>
    let here := if b = c then diagonal else 1 + min diagonal (min left above)
    here :: editRow b here above cs row
  | _, _ => []

/-- How many edits are needed to get from each start of `t` to the text read so
far; the rows of the edit table from `row` on, of which the last is
returned. -/
def editRows (t : Text) (row : List Nat) : Text → List Nat
  | [] => row
  | b :: s =>
    let first := row.headD 0
    editRows t ((first + 1) :: editRow b (first + 1) first t (row.drop 1)) s

/-- **The number of edits between two texts.** -/
def edits (s t : Text) : Nat :=
  (editRows t (List.range (t.length + 1)) s).getLastD 0

/-- The known names that may have been meant. -/
def suggestions (known : List Text) (typed : Text) : List Text :=
  let typed := typed.lower
  known.filter fun n => edits typed n.lower ≤ 2 || typed.isPrefixOf n.lower

end Command

end Arbor
