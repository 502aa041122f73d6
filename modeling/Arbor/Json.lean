import Arbor.Text.Piece

/-!
# JSON

The values a tree is exported as, and their two written forms: **compact**,
without any blanks, and **indented**, an item to a line. Fields keep their
order. Every value has both forms, but one in which arrays and objects are
nested deeper than `maxDepth` is not handed on (`Json.handOn`).

Both writers put the value in front of a text that is given, so that the
bytes of a value are written once however deep it stands.
-/

namespace Arbor

/-- A JSON value. -/
inductive Json where
  /-- A whole number. -/
  | num (n : Int)
  /-- A string. -/
  | str (t : Text)
  /-- An array. -/
  | arr (items : List Json)
  /-- An object, its fields in order. -/
  | obj (fields : List (Text × Json))

namespace Json

/-- The letter that names a control character after a backslash. -/
def escapeLetter? (c : Char) : Option Char :=
  match c.toNat with
  | 8 => some 'b'
  | 9 => some 't'
  | 10 => some 'n'
  | 12 => some 'f'
  | 13 => some 'r'
  | 34 => some '"'
  | 92 => some '\\'
  | _ => none

/-- Whether a character is escaped though it needs not be: those that could be
mistaken for markup or for the end of a line. -/
def isGuarded (c : Char) : Bool :=
  c = '<' || c = '>' || c = '&' || c.toNat = 0x2028 || c.toNat = 0x2029

/-- A piece inside a string. A stray byte is written as the replacement
character. -/
def escaped : Piece → Text
  | .stray _ => utf8 "\\ufffd"
  | .char c => match escapeLetter? c with
    | some l => utf8 "\\" ++ String.utf8EncodeChar l
    | none =>
      if c.toNat < 0x20 ∨ isGuarded c then utf8 "\\u" ++ Text.hex c.toNat 4
      else String.utf8EncodeChar c

/-- A string, in quotes. -/
def quoted (t : Text) : Text := utf8 "\"" ++ t.pieces.flatMap escaped ++ utf8 "\""

mutual

/-- A value in compact form, in front of `rest`. -/
def writeCompact : Json → Text → Text
  | num n, rest => Text.ofInt n ++ rest
  | str t, rest => quoted t ++ rest
  | arr items, rest => utf8 "[" ++ writeItems items (utf8 "]" ++ rest)
  | obj fields, rest => utf8 "\x7b" ++ writeFields fields (utf8 "\x7d" ++ rest)

/-- Items, a comma between any two. -/
def writeItems : List Json → Text → Text
  | [], rest => rest
  | j :: js, rest =>
    writeCompact j (if js.isEmpty then rest else utf8 "," ++ writeItems js rest)

/-- Fields, a comma between any two. -/
def writeFields : List (Text × Json) → Text → Text
  | [], rest => rest
  | (k, j) :: fs, rest =>
    quoted k ++ utf8 ":"
      ++ writeCompact j (if fs.isEmpty then rest else utf8 "," ++ writeFields fs rest)

end

/-- A new line at a depth. -/
def lineAt (depth : Nat) : Text := utf8 "\n" ++ Text.times (utf8 "  ") depth

mutual

/-- A value in indented form at a depth, in front of `rest`. -/
def writeIndented (depth : Nat) : Json → Text → Text
  | num n, rest => Text.ofInt n ++ rest
  | str t, rest => quoted t ++ rest
  | arr [], rest => utf8 "[]" ++ rest
  | arr (j :: js), rest =>
    utf8 "[" ++ indentItems (depth + 1) (j :: js) (lineAt depth ++ utf8 "]" ++ rest)
  | obj [], rest => utf8 "\x7b\x7d" ++ rest
  | obj (f :: fs), rest =>
    utf8 "\x7b" ++ indentFields (depth + 1) (f :: fs) (lineAt depth ++ utf8 "\x7d" ++ rest)

/-- Items, each on its line. -/
def indentItems (depth : Nat) : List Json → Text → Text
  | [], rest => rest
  | j :: js, rest =>
    lineAt depth
      ++ writeIndented depth j (if js.isEmpty then rest else utf8 "," ++ indentItems depth js rest)

/-- Fields, each on its line. -/
def indentFields (depth : Nat) : List (Text × Json) → Text → Text
  | [], rest => rest
  | (k, j) :: fs, rest =>
    lineAt depth ++ quoted k ++ utf8 ": "
      ++ writeIndented depth j (if fs.isEmpty then rest else utf8 "," ++ indentFields depth fs rest)

end

/-- **The compact form.** -/
def compact (j : Json) : Text := j.writeCompact []

/-- **The indented form**, two blanks a level. -/
def indented (j : Json) : Text := j.writeIndented 0 []

/-! ## What is handed on -/

mutual

/-- How deep arrays and objects are nested in a value. -/
def depth : Json → Nat
  | num _ => 0
  | str _ => 0
  | arr items => depthOfItems items + 1
  | obj fields => depthOfFields fields + 1

/-- How deep they are nested in some items. -/
def depthOfItems : List Json → Nat
  | [] => 0
  | j :: js => max j.depth (depthOfItems js)

/-- How deep they are nested in some fields. -/
def depthOfFields : List (Text × Json) → Nat
  | [] => 0
  | (_, j) :: fs => max j.depth (depthOfFields fs)

end

/-- How deep arrays and objects may be nested in what is handed on. -/
def maxDepth : Nat := 10000

/-- Why a value is not handed on. -/
inductive WriteError where
  /-- It is nested too deep. -/
  | tooDeep
  /-- It is part of another value, where it writes itself, and is nested too
  deep. -/
  | partTooDeep (kind : Text)
  deriving DecidableEq, Repr

/-- The wording of the error. -/
def WriteError.message : WriteError → Text
  | tooDeep => utf8 "exceeded max depth"
  | partTooDeep kind =>
    utf8 "json: error calling MarshalJSON for type " ++ kind ++ utf8 ": exceeded max depth"

/-- **Hands on a value in a written form**, unless it is nested too deep for
whoever reads it. -/
def handOn (form : Json → Text) (j : Json) : Except WriteError Text :=
  if j.depth ≤ maxDepth then .ok (form j) else .error .tooDeep

end Json

end Arbor
