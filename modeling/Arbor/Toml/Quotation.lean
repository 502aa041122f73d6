import Arbor.Text

/-!
# Quotations of TOML

A string is quoted in one of four ways: in double quotes, where a backslash
escapes, or in single quotes, where everything stands for itself; and either
on one line, or over several lines between three quotes. Here a quotation is
read from behind its opening quotes up to and including its closing ones.
-/

namespace Arbor

namespace Toml

/-- Some characters and what is left behind them, no more than there was. -/
abbrev Reading (α : Type) (s : List Char) := Option (α × { rest : List Char // rest.length ≤ s.length })

/-- What is read of the end of a text is read of the text. -/
def Reading.widen {α : Type} {s t : List Char} (r : Reading α t) (h : t.length ≤ s.length) :
    Reading α s :=
  r.map fun (a, rest) => (a, ⟨rest.val, Nat.le_trans rest.property h⟩)

/-- Puts characters in front of those read. -/
def Reading.behind {s : List Char} (cs : List Char) (r : Reading (List Char) s) :
    Reading (List Char) s :=
  r.map fun (more, rest) => (cs ++ more, rest)

/-- The single quote. -/
def singleQuote : Char := Char.ofNat 39

/-- Whether a character ends a line, or begins to. -/
def isLineEnd (c : Char) : Bool := c = '\n' || c = '\r'

/-- The character of a hexadecimal code point of a given number of digits. -/
def codePoint? (width : Nat) (s : List Char) : Option (Char × Nat) := do
  let digits := s.take width
  guard (digits.length = width ∧ digits.all fun c => c.toNat < 128)
  let values ← digits.mapM fun c => Text.digitValue? c.toUInt8
  let n := values.foldl (fun n v => 16 * n + v) 0
  guard (n.isValidChar)
  return (Char.ofNat n, width + 1)

/-- What an escape stands for that follows a backslash, and how many
characters it takes. -/
def escape? : List Char → Option (Char × Nat)
  | [] => none
  | c :: rest => match c with
    | 'b' => some (Char.ofNat 8, 1)
    | 't' => some ('\t', 1)
    | 'n' => some ('\n', 1)
    | 'f' => some (Char.ofNat 12, 1)
    | 'r' => some ('\r', 1)
    | '"' => some ('"', 1)
    | '\\' => some ('\\', 1)
    | 'u' => codePoint? 4 rest
    | 'U' => codePoint? 8 rest
    | _ => none

/-- The rest of a string in double quotes. -/
def basicString : (s : List Char) → Reading (List Char) s
  | [] => none
  | c :: rest =>
    if c = '"' then some ([], ⟨rest, by simp⟩)
    else if isLineEnd c then none
    else if c = '\\' then match escape? rest with
      | none => none
      | some (e, n) => ((basicString (rest.drop n)).behind [e]).widen (by simp; omega)
    else ((basicString rest).behind [c]).widen (by simp)
termination_by s => s.length
decreasing_by all_goals simp only [List.length_drop, List.length_cons]; omega

/-- The rest of a string in single quotes. -/
def literalString : (s : List Char) → Reading (List Char) s
  | [] => none
  | c :: rest =>
    if c = singleQuote then some ([], ⟨rest, by simp⟩)
    else if isLineEnd c then none
    else ((literalString rest).behind [c]).widen (by simp)

/-- A line break right behind the opening quotes is no part of the string. -/
def dropLineBreak : List Char → List Char
  | '\n' :: rest => rest
  | '\r' :: '\n' :: rest => rest
  | s => s

/-- Dropping a line break leaves no more. -/
theorem length_dropLineBreak_le (s : List Char) : (dropLineBreak s).length ≤ s.length := by
  unfold dropLineBreak
  split
  · exact Nat.le_succ _
  · exact Nat.le_add_right _ 2
  · exact Nat.le_refl _

/-- How many quotes stand at the start. -/
def countQuotes (quote : Char) (s : List Char) : Nat := (s.takeWhile (· = quote)).length

/-- Whether a character may follow a backslash at the end of a line. -/
def isBlankOrLineEnd (c : Char) : Bool := c = ' ' || c = '\t' || isLineEnd c

/-- The rest of a string over several lines in double quotes. Up to two quotes
may stand before the closing three, three of them directly behind an escaped
backslash. A backslash at the end of a line takes away all blanks and line
breaks that follow. -/
def multilineBasic (escapedBackslash : Bool) : (s : List Char) → Reading (List Char) s
  | [] => none
  | c :: rest =>
    if c = '"' then
      let n := countQuotes '"' rest
      if n < 2 then
        ((multilineBasic false (rest.drop n)).behind (List.replicate (n + 1) '"')).widen
          (by simp; omega)
      else if n ≤ 4 ∨ (n = 5 ∧ escapedBackslash) then
        some (List.replicate (n - 2) '"', ⟨rest.drop n, by simp; omega⟩)
      else none
    else if c = '\\' then
      let blank := rest.takeWhile isBlankOrLineEnd
      if blank.isEmpty then match escape? rest with
        | none => none
        | some (e, n) =>
          ((multilineBasic (rest.head? = some '\\') (rest.drop n)).behind [e]).widen
            (by simp; omega)
      else if blank.any isLineEnd then
        (multilineBasic false (rest.drop blank.length)).widen (by simp; omega)
      else none
    else ((multilineBasic false rest).behind [c]).widen (by simp)
termination_by s => s.length
decreasing_by all_goals simp only [List.length_drop, List.length_cons]; omega

/-- The rest of a string over several lines in single quotes. Up to two quotes
may stand before the closing three. -/
def multilineLiteral : (s : List Char) → Reading (List Char) s
  | [] => none
  | c :: rest =>
    if c = singleQuote then
      let n := countQuotes singleQuote rest
      if n < 2 then
        ((multilineLiteral (rest.drop n)).behind (List.replicate (n + 1) singleQuote)).widen
          (by simp; omega)
      else if n ≤ 4 then
        some (List.replicate (n - 2) singleQuote, ⟨rest.drop n, by simp; omega⟩)
      else none
    else ((multilineLiteral rest).behind [c]).widen (by simp)
termination_by s => s.length
decreasing_by all_goals simp only [List.length_drop, List.length_cons]; omega

end Toml

end Arbor
