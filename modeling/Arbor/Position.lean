import Arbor.Text

/-!
# Positions and spans

A **position** is a place in a source text: a byte offset from zero, and a
line and a byte column from one. A **span** is the half-open stretch between
two positions.

Positions also come from outside, with any values, and then the length of a
span is that of 64-bit words: it wraps around.
-/

namespace Arbor

/-- The signed 64-bit word that is congruent to `n`. -/
def wrap64 (n : Int) : Int := n.bmod 0x10000000000000000

/-- A place in a source text. -/
structure Position where
  /-- The byte offset, from zero. -/
  offset : Int
  /-- The line, from one. -/
  line : Int
  /-- The byte column, from one. -/
  column : Int
  deriving DecidableEq, Repr

namespace Position

/-- The start of a text. -/
def origin : Position := ⟨0, 1, 1⟩

/-- The position after a byte: a line feed ends its line. -/
def advance (p : Position) (b : UInt8) : Position :=
  if b = Text.newline then ⟨p.offset + 1, p.line + 1, 1⟩
  else ⟨p.offset + 1, p.line, p.column + 1⟩

/-- The position after a text. -/
def after (p : Position) (t : Text) : Position := t.foldl advance p

/-- The position after two texts is that after the second from where the first
ends. -/
@[simp] theorem after_append (p : Position) (t u : Text) :
    p.after (t ++ u) = (p.after t).after u := List.foldl_append

@[simp] theorem after_nil (p : Position) : p.after [] = p := rfl

/-- A position as messages show it: line and column. -/
def render (p : Position) : Text := Text.ofInt p.line ++ utf8 ":" ++ Text.ofInt p.column

end Position

/-- A stretch of a source text. -/
structure Span where
  /-- Where it starts. -/
  start : Position
  /-- The position just past it. -/
  stop : Position
  deriving DecidableEq, Repr

namespace Span

/-- The empty span at a position. -/
def empty (p : Position) : Span := ⟨p, p⟩

/-- The number of bytes covered. -/
def length (s : Span) : Int := wrap64 (s.stop.offset - s.start.offset)

/-- Whether a span covers no bytes: it ends where it starts. -/
def isEmpty (s : Span) : Bool := s.start.offset = s.stop.offset

/-- Between signed 64-bit words these are the spans of length zero. -/
theorem length_eq_zero_iff {s : Span} (hstart : wrap64 s.start.offset = s.start.offset)
    (hstop : wrap64 s.stop.offset = s.stop.offset) : s.length = 0 ↔ s.isEmpty = true := by
  unfold wrap64 at hstart hstop
  rw [Int.bmod_def] at hstart hstop
  rw [length, wrap64, Int.bmod_def, isEmpty, decide_eq_true_eq]
  omega

/-- Whether an offset lies in a span; an empty span contains its start. -/
def contains (s : Span) (offset : Int) : Bool :=
  if s.isEmpty then offset = s.start.offset
  else s.start.offset ≤ offset && offset < s.stop.offset

/-- A span as messages show it. -/
def render (s : Span) : Text := s.start.render ++ utf8 "-" ++ s.stop.render

end Span

end Arbor
