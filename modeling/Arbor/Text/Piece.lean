import Arbor.Text

/-!
# Pieces

Reading a text character by character. A **piece** is either a character, at
the place of its well-formed UTF-8 sequence, or a **stray** byte: one that
begins no well-formed sequence. Overlong forms, surrogates and values above
the last code point are not well formed, so their bytes are stray one by one.

Splitting a text into pieces loses nothing: each piece knows its bytes.
-/

namespace Arbor

/-- A character of a text, or a byte that begins none. -/
inductive Piece where
  /-- A character, standing for its UTF-8 sequence. -/
  | char (c : Char)
  /-- A byte that begins no well-formed sequence. -/
  | stray (b : UInt8)
  deriving DecidableEq, Repr

namespace Piece

/-- The character that stands for a byte that is none. -/
def replacement : Char := Char.ofNat 0xFFFD

/-- The character of a piece; a stray byte counts as the replacement
character. -/
def toChar : Piece → Char
  | char c => c
  | stray _ => replacement

/-- The bytes of a piece. -/
def bytes : Piece → Text
  | char c => String.utf8EncodeChar c
  | stray b => [b]

/-- Whether a piece is a character. -/
def isChar : Piece → Bool
  | char _ => true
  | stray _ => false

/-- The six bits of a continuation byte. -/
def continuation? (b : UInt8) : Option Nat :=
  if 0x80 ≤ b ∧ b < 0xC0 then some (b.toNat - 0x80) else none

/-- The character of code point `n`, where `least` is the least code point
that needs as many bytes as `n` came in. -/
def scalar? (least n : Nat) : Option Char :=
  if least ≤ n ∧ n.isValidChar then some (Char.ofNat n) else none

/-- The character of a two-byte sequence. -/
def two? (a b : UInt8) : Option Char := do
  guard (0xC0 ≤ a ∧ a < 0xE0)
  scalar? 0x80 ((a.toNat - 0xC0) * 64 + (← continuation? b))

/-- The character of a three-byte sequence. -/
def three? (a b c : UInt8) : Option Char := do
  guard (0xE0 ≤ a ∧ a < 0xF0)
  scalar? 0x800 (((a.toNat - 0xE0) * 64 + (← continuation? b)) * 64 + (← continuation? c))

/-- The character of a four-byte sequence. -/
def four? (a b c d : UInt8) : Option Char := do
  guard (0xF0 ≤ a ∧ a < 0xF8)
  scalar? 0x10000 ((((a.toNat - 0xF0) * 64 + (← continuation? b)) * 64 + (← continuation? c)) * 64
    + (← continuation? d))

/-- The first piece of the non-empty text `a :: rest`, and how many bytes of
`rest` belong to it. -/
def split (a : UInt8) (rest : Text) : Piece × Nat :=
  if a < 0x80 then (char (Char.ofNat a.toNat), 0)
  else match rest with
    | [] => (stray a, 0)
    | b :: rest => match two? a b with
      | some x => (char x, 1)
      | none => match rest with
        | [] => (stray a, 0)
        | c :: rest => match three? a b c with
          | some x => (char x, 2)
          | none => match rest with
            | [] => (stray a, 0)
            | d :: _ => match four? a b c d with
              | some x => (char x, 3)
              | none => (stray a, 0)

/-- Those bytes are there. -/
theorem split_le (a : UInt8) (rest : Text) : (split a rest).2 ≤ rest.length := by
  unfold split
  split
  · exact Nat.zero_le _
  · repeat' split
    all_goals simp

end Piece

namespace Text

/-- The pieces of a text. -/
def pieces : Text → List Piece
  | [] => []
  | b :: rest => (Piece.split b rest).1 :: pieces (rest.drop (Piece.split b rest).2)
termination_by t => t.length
decreasing_by
  simp only [List.length_drop, List.length_cons]
  omega

/-- The first piece of a text and the number of bytes it takes. -/
def firstPiece? : Text → Option (Piece × Nat)
  | [] => none
  | b :: rest =>
    let (r, more) := Piece.split b rest
    some (r, more + 1)

/-- The first character of a text, the replacement character if there is
none. -/
def firstChar (t : Text) : Char :=
  match t.firstPiece? with
  | none => Piece.replacement
  | some (r, _) => r.toChar

/-- Whether a text is well-formed UTF-8. -/
def isUtf8 (t : Text) : Bool := t.pieces.all Piece.isChar

/-- A text as a string, if it is well formed. -/
def toString? (t : Text) : Option String :=
  if t.isUtf8 then some (String.ofList (t.pieces.map Piece.toChar)) else none

end Text

end Arbor
