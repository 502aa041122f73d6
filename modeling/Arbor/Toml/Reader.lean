import Arbor.Text.Piece
import Arbor.Toml.Quotation
import Arbor.Toml.Scalar
import Arbor.Toml.Statement

/-!
# Reading TOML

A TOML file is a list of statements, one on a line. Comments run from `#` to
the end of the line. A value ends on the line where it starts, except that an
array may go on over several lines and may have a comma behind its last item;
a table in braces may not.

A malformed file has no statements at all, and there is no account of where it
went wrong.
-/

namespace Arbor

namespace Toml

/-- The text of some characters. -/
def textOf (cs : List Char) : Text := utf8 (String.ofList cs)

/-- Whether a character separates on a line. -/
def isBlank (c : Char) : Bool := c = ' ' || c = '\t'

/-- What follows the blanks at the start. -/
def skipBlanks (s : List Char) : List Char := s.dropWhile isBlank

/-- What follows the rest of a line. -/
def skipLine (s : List Char) : List Char := s.dropWhile fun c => !isLineEnd c

/-- What follows the blanks, line breaks and comments at the start. -/
def skipLines (s : List Char) : List Char :=
  match s with
  | [] => []
  | c :: rest =>
    if c = '#' then skipLines (skipLine rest)
    else if isBlankOrLineEnd c then skipLines rest
    else c :: rest
termination_by s.length
decreasing_by
  · exact Nat.lt_succ_of_le (List.dropWhile_sublist _).length_le
  · simp

theorem length_skipBlanks_le (s : List Char) : (skipBlanks s).length ≤ s.length :=
  (List.dropWhile_sublist _).length_le

theorem length_skipLines_le (s : List Char) : (skipLines s).length ≤ s.length := by
  fun_induction skipLines s with
  | case1 => exact Nat.le_refl _
  | case2 rest ih =>
    have := (List.dropWhile_sublist (fun c => !isLineEnd c) (l := rest)).length_le
    simp only [skipLine, List.length_cons] at ih ⊢
    omega
  | case3 _ rest _ _ ih => simp only [List.length_cons]; omega
  | case4 => exact Nat.le_refl _

theorem length_le_cons (c : Char) (rest : List Char) : rest.length ≤ (c :: rest).length :=
  Nat.le_succ _

theorem length_drop_le (n : Nat) (s : List Char) : (s.drop n).length ≤ s.length := by
  rw [List.length_drop]
  omega

/-! ## Keys -/

/-- Whether a character may stand in a name without quotes. -/
def isBare (c : Char) : Bool := c.isAlphanum || c = '_' || c = '-'

/-- A name: bare, or a string on one line. -/
def name (s : List Char) : Reading Text s :=
  match s with
  | [] => none
  | c :: rest =>
    if c = '"' then
      ((basicString rest).widen (length_le_cons c rest)).map fun (cs, after) => (textOf cs, after)
    else if c = singleQuote then
      ((literalString rest).widen (length_le_cons c rest)).map fun (cs, after) =>
        (textOf cs, after)
    else
      let bare := (c :: rest).takeWhile isBare
      if bare.isEmpty then none
      else some (textOf bare, ⟨(c :: rest).drop bare.length, length_drop_le bare.length (c :: rest)⟩)

/-- What follows a name and blanks is no more than there was. -/
theorem length_le_of_skipBlanks_eq {s after rest : List Char}
    (h : after.length ≤ (skipBlanks s).length) (hr : skipBlanks after = rest) :
    rest.length ≤ s.length := by
  have hb := length_skipBlanks_le s
  have ha := length_skipBlanks_le after
  rw [hr] at ha
  omega

/-- A key: names with points between them, and blanks around those. -/
def key (s : List Char) : Reading Key s :=
  match name (skipBlanks s) with
  | none => none
  | some (n, ⟨after, h⟩) =>
    match hr : skipBlanks after with
    | '.' :: rest =>
      have hlt : rest.length < s.length := length_le_of_skipBlanks_eq h hr
      (key rest).bind fun (k, left) =>
        some (⟨n :: k.parents, k.name⟩,
          ⟨left.val, Nat.le_trans left.property (Nat.le_of_lt hlt)⟩)
    | rest => some (⟨[], n⟩, ⟨rest, length_le_of_skipBlanks_eq h hr⟩)
termination_by s.length

/-- A key and the `=` behind it. -/
def keyEquals (s : List Char) : Reading Key s :=
  (key s).bind fun (k, ⟨after, h⟩) =>
    match after, h with
    | c :: rest, h => if c = '=' then some (k, ⟨rest, by simp at h; omega⟩) else none
    | [], _ => none

/-! ## Values -/

/-- The inside of a string over several lines is no more than the string. -/
theorem length_content_le (c : Char) (rest : List Char) :
    (dropLineBreak (rest.drop 2)).length ≤ (c :: rest).length := by
  have := length_dropLineBreak_le (rest.drop 2)
  simp only [List.length_drop, List.length_cons] at this ⊢
  omega

/-- A string, if one starts here. -/
def string? (s : List Char) : Reading Text s :=
  match s with
  | [] => none
  | c :: rest =>
    let multiline := 2 ≤ countQuotes c rest
    let content := dropLineBreak (rest.drop 2)
    have h : content.length ≤ (c :: rest).length := length_content_le c rest
    let read := fun (r : Reading (List Char) (c :: rest)) =>
      r.map fun (cs, after) => (textOf cs, after)
    if c = '"' then
      read (if multiline then (multilineBasic false content).widen h
        else (basicString rest).widen (length_le_cons c rest))
    else if c = singleQuote then
      read (if multiline then (multilineLiteral content).widen h
        else (literalString rest).widen (length_le_cons c rest))
    else none

/-- What follows a scalar, if one starts here. A date and a time may have one
blank between them. -/
def scalar? (s : List Char) : Option { rest : List Char // rest.length ≤ s.length } :=
  let cs := s.takeWhile isScalarChar
  let after := s.drop cs.length
  let spaced := match isDate cs, after with
    | true, ' ' :: rest =>
      let time := rest.takeWhile isScalarChar
      if time.isEmpty then none else some time
    | _, _ => none
  match spaced with
  | some time =>
    if isDateTime (cs ++ 'T' :: time) then
      some ⟨s.drop (cs.length + 1 + time.length), by simp⟩
    else none
  | none => if isScalar cs then some ⟨after, by simp [after]⟩ else none

mutual

/-- A value. -/
def value (s : List Char) : Reading Written s :=
  match s with
  | [] => none
  | c :: rest =>
    if c = '[' then
      (items rest).bind fun (ws, after) =>
        some (.array ws, ⟨after.val, Nat.le_succ_of_le after.property⟩)
    else if c = '\x7b' then
      match hr : skipBlanks rest with
      | '\x7d' :: after => some (.inline [], ⟨after, by
          have := length_skipBlanks_le rest
          rw [hr] at this
          simp only [List.length_cons] at this ⊢
          omega⟩)
      | _ =>
        (pairs rest).bind fun (ps, after) =>
          some (.inline ps, ⟨after.val, Nat.le_succ_of_le after.property⟩)
    else match string? (c :: rest) with
      | some (t, after) => some (.string t, after)
      | none =>
        if c = '"' ∨ c = singleQuote then none
        else (scalar? (c :: rest)).map fun after => (.scalar, after)
termination_by (s.length, 0)

/-- The items of an array and its closing bracket. -/
def items (s : List Char) : Reading (List Written) s :=
  have hs := length_skipLines_le s
  match hr : skipLines s with
  | [] => none
  | c :: rest =>
    if c = ']' then some ([], ⟨rest, by rw [hr] at hs; exact Nat.le_of_succ_le hs⟩)
    else
      match value (c :: rest) with
      | none => none
      | some (w, ⟨after, h⟩) =>
        have ha := length_skipLines_le after
        match hr' : skipLines after with
        | [] => none
        | d :: next =>
          have hlt : next.length < s.length := by
            rw [hr] at hs
            rw [hr', List.length_cons] at ha
            omega
          if d = ',' then
            (items next).bind fun (ws, left) =>
              some (w :: ws, ⟨left.val, by have := left.property; omega⟩)
          else if d = ']' then some ([w], ⟨next, by omega⟩)
          else none
termination_by (s.length, 1)
decreasing_by
  · rw [hr] at hs
    rcases Nat.lt_or_eq_of_le hs with h | h
    · exact Prod.Lex.left _ _ h
    · rw [h]; exact Prod.Lex.right _ (by omega)
  · exact Prod.Lex.left _ _ hlt

/-- The keys and values of a table in braces, one at least, and its closing
brace. -/
def pairs (s : List Char) : Reading (List (Key × Written)) s :=
  match keyEquals s with
  | none => none
  | some (k, ⟨left, hk⟩) =>
    have hb := length_skipBlanks_le left
    match value (skipBlanks left) with
    | none => none
    | some (w, ⟨after, h⟩) =>
      have ha := length_skipBlanks_le after
      match hr : skipBlanks after with
      | [] => none
      | d :: next =>
        have hlt : next.length < s.length := by
          rw [hr, List.length_cons] at ha
          omega
        if d = ',' then
          (pairs next).bind fun (ps, left) =>
            some ((k, w) :: ps, ⟨left.val, by have := left.property; omega⟩)
        else if d = '\x7d' then some ([(k, w)], ⟨next, by omega⟩)
        else none
termination_by (s.length, 1)
decreasing_by
  · rcases Nat.lt_or_eq_of_le (Nat.le_trans hb hk) with h | h
    · exact Prod.Lex.left _ _ h
    · rw [h]; exact Prod.Lex.right _ (by omega)
  · exact Prod.Lex.left _ _ hlt

end

/-! ## Statements -/

/-- A statement, up to where its line has to end. -/
def statement (s : List Char) : Reading Statement s :=
  match s with
  | [] => none
  | '[' :: '[' :: rest =>
    (key rest).bind fun (k, ⟨after, h⟩) =>
      match after, h with
      | ']' :: ']' :: left, h => some (.element k, ⟨left, by simp at h ⊢; omega⟩)
      | _, _ => none
  | '[' :: rest =>
    (key rest).bind fun (k, ⟨after, h⟩) =>
      match after, h with
      | ']' :: left, h => some (.table k, ⟨left, by simp at h ⊢; omega⟩)
      | _, _ => none
  | s =>
    (keyEquals s).bind fun (k, ⟨after, h⟩) =>
      ((value (skipBlanks after)).widen (Nat.le_trans (length_skipBlanks_le after) h)).map
        fun (w, left) => (.assign k w, left)

/-- All statements of a text; a line break or a comment follows each. -/
def statements (s : List Char) : Option (List Statement) :=
  have hs := length_skipLines_le s
  match hr : skipLines s with
  | [] => some []
  | c :: rest =>
    match statement (c :: rest) with
    | none => none
    | some (first, ⟨after, h⟩) =>
      have ha := length_skipBlanks_le after
      match hr' : skipBlanks after with
      | [] => some [first]
      | d :: next =>
        have hlt : next.length < s.length := by
          rw [hr] at hs
          rw [hr', List.length_cons] at ha
          omega
        if d = '#' then
          have : (skipLine next).length < s.length :=
            Nat.lt_of_le_of_lt (List.dropWhile_sublist _).length_le hlt
          (statements (skipLine next)).map (first :: ·)
        else if isLineEnd d then (statements next).map (first :: ·)
        else none
termination_by s.length

/-! ## Files -/

/-- Drops the mark that some editors put in front of a text. -/
def dropByteOrderMark : Text → Text
  | 0xEF :: 0xBB :: 0xBF :: t => t
  | 0xFF :: 0xFE :: t => t
  | 0xFE :: 0xFF :: t => t
  | t => t

/-- Whether there are no control characters but tabs and line breaks. -/
def isLegible : List Char → Bool
  | [] => true
  | '\r' :: rest => rest.head? = some '\n' && isLegible rest
  | c :: rest => (c = '\t' || c = '\n' || (32 ≤ c.toNat && c.toNat ≠ 127)) && isLegible rest

/-- The characters of a file, if it is well-formed UTF-8 and legible. -/
def characters? (file : Text) : Option (List Char) := do
  let s ← (dropByteOrderMark file).toString?
  guard (isLegible s.toList)
  return s.toList

/-- **Reads the statements of a file.** -/
def readStatements (file : Text) : Option (List Statement) := (characters? file).bind statements

end Toml

end Arbor
