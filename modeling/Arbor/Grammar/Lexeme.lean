import Arbor.Grammar.Glyph
import Arbor.Text.Letter
import Arbor.Text.Digit
import Arbor.Text.Quoted

/-!
# Lexemes

A grammar file is cut into **lexemes**: identifiers, numbers, character,
string and raw string literals, and single characters. Blanks and comments,
both `//` to the end of the line and `/*` to `*/`, separate lexemes and are
dropped.

Cutting never fails. A literal without its closing quote ends with its line,
of which it takes the line feed, and a raw string or a comment without its end
reaches to the end of the file; a number takes whatever digits, points and
exponents follow. What a malformed literal denotes is decided by `value`.

Every scanner below answers how many of the glyphs that follow still belong to
the lexeme, so that what is left is always a `drop`.
-/

namespace Arbor

/-- The sorts of lexemes. -/
inductive Lexeme.Kind where
  /-- An identifier. -/
  | ident
  /-- A whole number. -/
  | int
  /-- A number with a point or an exponent. -/
  | float
  /-- A literal in single quotes. -/
  | char
  /-- A literal in double quotes. -/
  | string
  /-- A literal in back quotes. -/
  | rawString
  /-- Any other character. -/
  | symbol (c : Char)
  deriving DecidableEq, Repr

/-- A lexeme of a grammar file. -/
structure Lexeme where
  /-- What sort of lexeme it is. -/
  kind : Lexeme.Kind
  /-- Its bytes in the file. -/
  text : Text
  /-- Where it starts. -/
  mark : Mark

namespace Lexeme

/-! ## Character classes of the notation -/

/-- The quote of a character literal. -/
def singleQuote : Char := Char.ofNat 39

/-- The quote of a raw string. -/
def backQuote : Char := Char.ofNat 96

/-- The characters that only separate. -/
def isBlank (c : Char) : Bool := c = '\t' || c = '\n' || c = '\r' || c = ' '

/-- The characters an identifier may start with. -/
def isIdentStart (c : Char) : Bool := c = '_' || CharClass.letter.contains c

/-- The characters an identifier may go on with. -/
def isIdentPart (c : Char) : Bool := isIdentStart c || CharClass.decimalDigit.contains c

/-- The digits of a number that is not hexadecimal, and the separator. -/
def isDecimalPart (c : Char) : Bool := c.isDigit || c = '_'

/-- The digits of a hexadecimal number, and the separator. -/
def isHexPart (c : Char) : Bool :=
  isDecimalPart c || ('a' ≤ c && c ≤ 'f') || ('A' ≤ c && c ≤ 'F')

/-! ## How far a lexeme reaches -/

/-- How many glyphs at the start satisfy `p`. -/
def span (p : Char → Bool) (gs : List Glyph) : Nat :=
  (gs.takeWhile fun g => p g.char).length

/-- Whether the first glyph satisfies `p`. -/
def starts (p : Char → Bool) (gs : List Glyph) : Bool :=
  match gs with
  | [] => false
  | g :: _ => p g.char

/-- How far an exponent reaches: its letter, perhaps a sign, then digits. It
reaches nowhere if there is no letter. -/
def exponentReach (gs : List Glyph) : Nat :=
  if starts (fun c => c = 'e' || c = 'E' || c = 'p' || c = 'P') gs then
    let sign := if starts (fun c => c = '+' || c = '-') (gs.drop 1) then 2 else 1
    sign + span isDecimalPart (gs.drop sign)
  else 0

/-- How far a number reaches beyond its point, which is behind us. -/
def fractionReach (digits : Char → Bool) (gs : List Glyph) : Nat :=
  let n := span digits gs
  n + exponentReach (gs.drop n)

/-- The sort of a number that starts with the digit `c`, and how far it
reaches beyond that digit. After a zero the letters `x`, `o` and `b` choose
the base; only the hexadecimal one has more digits than the decimal. -/
def numberReach (c : Char) (gs : List Glyph) : Kind × Nat :=
  let based := c = '0' && starts (fun d => d = 'o' || d = 'O' || d = 'b' || d = 'B') gs
  let hexed := c = '0' && starts (fun d => d = 'x' || d = 'X') gs
  let digits := if hexed then isHexPart else isDecimalPart
  let start := if based || hexed then 1 else 0
  let n := start + span digits (gs.drop start)
  if starts (· = '.') (gs.drop n) then
    (.float, n + 1 + fractionReach digits (gs.drop (n + 1)))
  else
    let e := exponentReach (gs.drop n)
    (if e = 0 then .int else .float, n + e)

/-- How far a literal reaches beyond its opening `quote`: through the next
quote that no backslash precedes, else through the line feed, else to the
end. -/
def quotedReach (quote : Char) : List Glyph → Nat
  | [] => 0
  | g :: gs =>
    if g.char = quote ∨ g.char = '\n' then 1
    else match gs with
      | [] => 1
      | h :: hs =>
        if g.char = '\\' ∧ (h.char = '\\' ∨ h.char = quote) then 2 + quotedReach quote hs
        else 1 + quotedReach quote (h :: hs)

/-- How far a raw literal reaches beyond its opening quote. -/
def rawReach : List Glyph → Nat
  | [] => 0
  | g :: gs => if g.char = backQuote then 1 else 1 + rawReach gs

/-- How far a comment reaches beyond its `/*`. -/
def commentReach : List Glyph → Nat
  | [] => 0
  | g :: gs => if g.char = '*' ∧ starts (· = '/') gs then 2 else 1 + commentReach gs

/-- What the glyph `c` and those after it begin. -/
inductive Cut where
  /-- A blank or a comment that reaches `n` glyphs beyond `c`. -/
  | gap (n : Nat)
  /-- A lexeme that reaches `n` glyphs beyond `c`. -/
  | lexeme (kind : Kind) (n : Nat)

/-- What begins at a glyph `c` that `gs` follow. -/
def cut (c : Char) (gs : List Glyph) : Cut :=
  if isBlank c then .gap 0
  else if isIdentStart c then .lexeme .ident (span isIdentPart gs)
  else if c.isDigit then
    let (kind, n) := numberReach c gs
    .lexeme kind n
  else if c = '"' then .lexeme .string (quotedReach c gs)
  else if c = singleQuote then .lexeme .char (quotedReach c gs)
  else if c = backQuote then .lexeme .rawString (rawReach gs)
  else if c = '.' ∧ starts Char.isDigit gs then .lexeme .float (fractionReach isDecimalPart gs)
  else if c = '/' ∧ starts (· = '/') gs then .gap (span (· ≠ '\n') gs)
  else if c = '/' ∧ starts (· = '*') gs then .gap (1 + commentReach (gs.drop 1))
  else .lexeme (.symbol c) 0

/-- **The lexemes of a file.** -/
def ofGlyphs (file : Text) : List Glyph → List Lexeme
  | [] => []
  | g :: gs => match cut g.char gs with
    | .gap n => ofGlyphs file (gs.drop n)
    | .lexeme kind n =>
      ⟨kind, Glyph.text (g :: gs.take n), ⟨file, g.line, g.column⟩⟩ :: ofGlyphs file (gs.drop n)
termination_by gs => gs.length
decreasing_by all_goals (simp only [List.length_drop, List.length_cons]; omega)

/-! ## What a literal denotes -/

/-- The byte an escape letter stands for. -/
def escapeByte? (c : Char) : Option UInt8 :=
  match c with
  | 'a' => some 7
  | 'b' => some 8
  | 't' => some 9
  | 'n' => some 10
  | 'v' => some 11
  | 'f' => some 12
  | 'r' => some 13
  | '\\' => some 92
  | '"' => some 34
  | _ => none

/-- The value of a digit in bases up to sixteen. -/
def digitValue? (c : Char) : Option Nat :=
  if c.isDigit then some (c.toNat - 48)
  else if 'a' ≤ c ∧ c ≤ 'f' then some (c.toNat - 87)
  else if 'A' ≤ c ∧ c ≤ 'F' then some (c.toNat - 55)
  else none

/-- The number written by exactly `width` digits below `base` at the start. -/
def fixedNumber? (base width : Nat) (cs : List Char) : Option Nat :=
  let digits := cs.take width
  if digits.length < width then none
  else digits.foldlM (fun n c => do
    let d ← digitValue? c
    if d < base then some (n * base + d) else none) 0

/-- The bytes of the character with code point `n`. -/
def codePoint? (n : Nat) : Option Text :=
  if n.isValidChar then some (String.utf8EncodeChar (Char.ofNat n)) else none

/-- The bytes an escape denotes, and how many characters it takes after its
backslash: a letter, `x` and two digits for a byte, `u` and four or `U` and
eight for a character, or three octal digits for a byte. -/
def escape? : List Char → Option (Text × Nat)
  | [] => none
  | c :: cs => match escapeByte? c with
    | some b => some ([b], 1)
    | none =>
      if c = 'x' then (fixedNumber? 16 2 cs).map fun n => ([UInt8.ofNat n], 3)
      else if c = 'u' then ((fixedNumber? 16 4 cs).bind codePoint?).map (·, 5)
      else if c = 'U' then ((fixedNumber? 16 8 cs).bind codePoint?).map (·, 9)
      else (fixedNumber? 8 3 (c :: cs)).bind fun n =>
        if n < 256 then some ([UInt8.ofNat n], 3) else none

/-- The bytes denoted by what follows an opening double quote, which must end
with the closing one. -/
def unquote? : List Char → Option Text
  | [] => none
  | c :: cs =>
    if c = '"' then if cs.isEmpty then some [] else none
    else if c = '\n' then none
    else if c = '\\' then do
      let (bytes, n) ← escape? cs
      return bytes ++ (← unquote? (cs.drop n))
    else (unquote? cs).map (String.utf8EncodeChar c ++ ·)
termination_by cs => cs.length
decreasing_by all_goals (simp only [List.length_drop, List.length_cons]; omega)

/-- The bytes between back quotes, without carriage returns. -/
def unquoteRaw? (text : Text) : Option Text :=
  match (text.drop 1).reverse with
  | [] => none
  | b :: body => if b = 96 then some (body.reverse.filter (· ≠ 13)) else none

/-- **The text a literal denotes**, the empty one if it is malformed. In a
string, stray bytes count as the replacement character; a raw string keeps
them. -/
def value (l : Lexeme) : Text :=
  match l.kind with
  | .rawString => (unquoteRaw? l.text).getD []
  | _ => (unquote? ((l.text.pieces.map Piece.toChar).drop 1)).getD []

end Lexeme

end Arbor
