import Arbor.Text.Piece
import Arbor.Grammar.Expr

/-!
# Glyphs

A grammar file is read as a list of **glyphs**: its characters, each with the
bytes it came from and the line and column it stands at. A stray byte reads as
the replacement character but keeps its byte.
-/

namespace Arbor

/-- A character of a grammar file at its place. -/
structure Glyph where
  /-- The character. -/
  char : Char
  /-- Its bytes in the file. -/
  bytes : Text
  /-- Its line, from one. -/
  line : Nat
  /-- Its column, from one. -/
  column : Nat

namespace Glyph

/-- The glyphs of some pieces, the first of which stands at `line` and
`column`; and the place one past the last. A line feed is the last character
of its line. -/
def ofPieces (line column : Nat) : List Piece → List Glyph × (Nat × Nat)
  | [] => ([], (line, column))
  | r :: rs =>
    let (gs, finish) :=
      if r = .char '\n' then ofPieces (line + 1) 1 rs else ofPieces line (column + 1) rs
    (⟨r.toChar, r.bytes, line, column⟩ :: gs, finish)

/-- The mark of a byte order mark. -/
def byteOrderMark : Char := Char.ofNat 0xFEFF

/-- The glyphs of a file and the place one past its last character. A byte
order mark at the start takes a column and is no glyph. -/
def ofSource (source : Text) : List Glyph × (Nat × Nat) :=
  match ofPieces 1 1 source.pieces with
  | (g :: gs, finish) => (if g.char = byteOrderMark then gs else g :: gs, finish)
  | ([], finish) => ([], finish)

/-- The bytes of some glyphs. -/
def text (gs : List Glyph) : Text := gs.flatMap bytes

end Glyph

end Arbor
