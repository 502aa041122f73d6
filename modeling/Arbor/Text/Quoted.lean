import Arbor.Text.Piece
import Arbor.Text.Printable

/-!
# Quoted text

The double-quoted form in which messages and outlines show a text. It is
printable ASCII apart from graphic characters of other scripts, and every text
has one quoted form: what is not graphic is escaped, and the stray bytes keep
their values.
-/

namespace Arbor

namespace Piece

/-- Whether a character stands for itself in a quoted text: the ASCII space
and the graphic characters. -/
def isPrintable (c : Char) : Bool := c = ' ' || CharClass.graphic.contains c

/-- The letter that names a control character after a backslash. -/
def escapeLetter? (c : Char) : Option Char :=
  match c.toNat with
  | 7 => some 'a'
  | 8 => some 'b'
  | 9 => some 't'
  | 10 => some 'n'
  | 11 => some 'v'
  | 12 => some 'f'
  | 13 => some 'r'
  | _ => none

/-- A piece inside a text between quotes: the quote and the backslash behind a
backslash, printable characters as they are, and all else by its letter or by
its hexadecimal value. -/
def escaped (quote : Char) : Piece → Text
  | stray b => utf8 "\\x" ++ Text.hex b.toNat 2
  | char c =>
    if c = quote ∨ c = '\\' then utf8 "\\" ++ String.utf8EncodeChar c
    else if isPrintable c then String.utf8EncodeChar c
    else match escapeLetter? c with
      | some l => utf8 "\\" ++ String.utf8EncodeChar l
      | none =>
        if c.toNat < 0x80 then utf8 "\\x" ++ Text.hex c.toNat 2
        else if c.toNat < 0x10000 then utf8 "\\u" ++ Text.hex c.toNat 4
        else utf8 "\\U" ++ Text.hex c.toNat 8

/-- A character between single quotes. -/
def quotedChar (c : Char) : Text := utf8 "'" ++ escaped (Char.ofNat 39) (char c) ++ utf8 "'"

end Piece

/-- **The quoted form of a text.** -/
def Text.quoted (t : Text) : Text :=
  utf8 "\"" ++ t.pieces.flatMap (Piece.escaped '"') ++ utf8 "\""

end Arbor
