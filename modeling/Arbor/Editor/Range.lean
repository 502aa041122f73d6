import Arbor.Position

/-!
# Places and ranges of an editor

An editor counts lines and characters from zero, in unsigned 32-bit words.
Characters are counted as bytes here.
-/

namespace Arbor

namespace Editor

/-- A place in a document. -/
structure Place where
  /-- The line, from zero. -/
  line : UInt32
  /-- The character, from zero. -/
  character : UInt32
  deriving DecidableEq, Repr

/-- A stretch of a document. -/
structure Range where
  /-- Where it starts. -/
  start : Place
  /-- The place just past it. -/
  stop : Place
  deriving DecidableEq, Repr

/-- A number from one, counted from zero. What lies below counts as zero, and
beyond the range of words the numbers wrap around. -/
def fromZero (n : Int) : UInt32 := UInt32.ofNat (max (wrap64 (n - 1)) 0).toNat

/-- The place of a position. -/
def Place.ofPosition (p : Position) : Place := ⟨fromZero p.line, fromZero p.column⟩

/-- The range of a span. -/
def Range.ofSpan (s : Span) : Range := ⟨.ofPosition s.start, .ofPosition s.stop⟩

/-- The empty range at a place. -/
def Range.empty (p : Place) : Range := ⟨p, p⟩

/-- The empty range at the start of a document. -/
def Range.origin : Range := .empty ⟨0, 0⟩

end Editor

end Arbor
