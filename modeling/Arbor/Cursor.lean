import Arbor.Position
import Arbor.Text.Quoted

/-!
# Cursors

A **cursor** is a place in a file as a user names it: a line and a byte
column, both from one. It is written as the two numbers with a colon between
them, the way positions are shown (`Position.render`).

A cursor need not lie in the text. A column beyond the end of its line stands
for the end of the line; a line beyond the last one stands for nothing.
-/

namespace Arbor

/-- A line and a column, from one. -/
structure Cursor where
  /-- The line. -/
  line : Int
  /-- The byte column. -/
  column : Int
  deriving DecidableEq, Repr

/-- Why a text names no cursor. -/
inductive CursorError where
  /-- It has no colon. -/
  | noColon (t : Text)
  /-- What stands before the first colon is no line. -/
  | badLine (t : Text)
  /-- What stands after the first colon is no column. -/
  | badColumn (t : Text)
  deriving DecidableEq, Repr

/-- The wording of the error. -/
def CursorError.message : CursorError → Text
  | noColon t => utf8 "invalid position " ++ t.quoted ++ utf8 " (expected line:column)"
  | badLine t => utf8 "invalid line in " ++ t.quoted
  | badColumn t => utf8 "invalid column in " ++ t.quoted

namespace Cursor

/-- A number from one on that fits a signed 64-bit word, in decimal digits,
perhaps behind a plus. -/
def ordinal? (t : Text) : Option Nat := do
  let digits := match t with
    | 43 :: rest => rest
    | _ => t
  let n ← Text.toNat? digits
  guard (1 ≤ n ∧ n < 0x8000000000000000)
  return n

/-- **Reads a cursor.** -/
def read (t : Text) : Except CursorError Cursor :=
  match t.cut 58 with
  | none => .error (.noColon t)
  | some (before, after) => match ordinal? before with
    | none => .error (.badLine t)
    | some line => match ordinal? after with
      | none => .error (.badColumn t)
      | some column => .ok ⟨line, column⟩

/-- What is left of a text from its line `n` on, counted from zero, and the
offset where that line starts. -/
def fromLine? : (n : Nat) → Text → Option (Nat × Text)
  | 0, t => some (0, t)
  | _ + 1, [] => none
  | n + 1, b :: rest =>
    (fromLine? (if b = Text.newline then n else n + 1) rest).map fun (start, t) => (start + 1, t)

/-- **The offset of a cursor in a source**, if the source has its line. -/
def offset? (source : Text) (c : Cursor) : Option Nat :=
  if c.line < 1 ∨ c.column < 1 then none
  else (fromLine? (c.line - 1).toNat source).map fun (start, t) =>
    start + min (c.column - 1).toNat (t.takeWhile (· ≠ Text.newline)).length

/-- A cursor as messages show it. -/
def render (c : Cursor) : Text := Text.ofInt c.line ++ utf8 ":" ++ Text.ofInt c.column

end Cursor

end Arbor
