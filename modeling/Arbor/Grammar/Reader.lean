import Std.Data.HashSet
import Arbor.Grammar.Lexeme

/-!
# Reading a grammar

A grammar file is a list of productions, in this notation:

* a production is a name, `=`, perhaps an expression, and `.`;
* an expression is one sequence or more, with `|` between them;
* a sequence is one term or more;
* a term is a name, a string, two strings with `…` between them, or an
  expression in `( )`, `[ ]` or `{ }`.

The reader **never stops at an error**: it notes that the lexeme in front of
it is not the one it wants, steps over it, and goes on, so one reading reports
everything there is to report. A file with any problem yields no productions.
-/

namespace Arbor

/-- What the reader wants where it finds something else. -/
inductive Wanted where
  /-- An identifier. -/
  | ident
  /-- A string literal. -/
  | string
  /-- Anything a term starts with. -/
  | term
  /-- A certain character. -/
  | symbol (c : Char)
  deriving DecidableEq, Repr

/-- **What can be wrong with a grammar file.** -/
inductive Problem where
  /-- Something else was wanted at a mark; `found` is none at the end of the
  file. -/
  | unexpected (mark : Mark) (wanted : Wanted) (found : Option (Lexeme.Kind × Text))
  /-- A name declared a second time. -/
  | redeclared (mark : Mark) (name : Text)
  deriving DecidableEq, Repr

/-- What is wanted, in the words of messages. -/
def Wanted.render : Wanted → Text
  | ident => utf8 "Ident"
  | string => utf8 "String"
  | term => utf8 "term"
  | symbol c => Text.quoted (String.utf8EncodeChar c)

/-- What was found, in the words of messages: the sort of a lexeme and its
text, or the character itself. -/
def Lexeme.Kind.render (text : Text) : Lexeme.Kind → Text
  | ident => utf8 "Ident " ++ text
  | int => utf8 "Int " ++ text
  | float => utf8 "Float " ++ text
  | char => utf8 "Char " ++ text
  | string => utf8 "String " ++ text
  | rawString => utf8 "RawString " ++ text
  | symbol c => Text.quoted (String.utf8EncodeChar c)

/-- The wording of a problem. -/
def Problem.message : Problem → Text
  | unexpected m w found =>
    m.render ++ utf8 ": expected \"" ++ w.render ++ utf8 "\", found "
      ++ match found with
        | none => utf8 "EOF "
        | some (k, text) => k.render text
  | redeclared m n => m.render ++ utf8 ": " ++ n ++ utf8 " declared already"

/-- The wording of a list of problems: the first, and how many more there
are. -/
def Problem.summary : List Problem → Text
  | [] => utf8 "no errors"
  | [p] => p.message
  | p :: ps =>
    p.message ++ utf8 " (and " ++ Text.ofNat ps.length ++ utf8 " more errors)"

namespace Reader

/-- What has been read: a value, the lexemes left, and the problems met so far,
latest first. -/
structure Outcome (α : Type) where
  /-- The value. -/
  value : α
  /-- The lexemes left. -/
  rest : List Lexeme
  /-- The problems met. -/
  met : List Problem

/-- The problem of wanting something else than the first of the lexemes; `eof`
is the mark of the end of the file. -/
def unexpected (eof : Mark) (w : Wanted) : List Lexeme → Problem
  | [] => .unexpected eof w none
  | l :: _ => .unexpected l.mark w (some (l.kind, l.text))

/-- Whether the first lexeme is of kind `k`. -/
def starts (k : Lexeme.Kind) : List Lexeme → Bool
  | [] => false
  | l :: _ => l.kind = k

/-- Steps over one lexeme, which should be the character `c`. -/
def expect (eof : Mark) (c : Char) (met : List Problem) (ts : List Lexeme) : Outcome Unit :=
  ⟨(), ts.drop 1, if starts (.symbol c) ts then met else unexpected eof (.symbol c) ts :: met⟩

/-- Whether a lexeme is a string or a raw string. -/
def isString (l : Lexeme) : Bool := l.kind = .string || l.kind = .rawString

/-- Reads the upper bound of a range, which should be a string. -/
def bound (eof : Mark) (met : List Problem) (ts : List Lexeme) : Outcome Text :=
  match ts with
  | [] => ⟨[], [], unexpected eof .string [] :: met⟩
  | l :: rest =>
    if isString l then ⟨l.value, rest, met⟩ else ⟨[], rest, unexpected eof .string ts :: met⟩

theorem length_bound_le (eof : Mark) (met : List Problem) (ts : List Lexeme) :
    (bound eof met ts).rest.length ≤ ts.length := by
  unfold bound
  repeat' split
  all_goals simp

/-- The bracket that closes an opening one, with the expression it makes. -/
def bracket? (k : Lexeme.Kind) : Option (Char × (Expr → Expr)) :=
  if k = .symbol '(' then some (')', .group)
  else if k = .symbol '[' then some (']', .option)
  else if k = .symbol '\x7b' then some ('\x7d', .repetition)
  else none

mutual

/-- Reads a term, if one starts here. -/
def term (eof : Mark) (met : List Problem) : (ts : List Lexeme) →
    Option { o : Outcome Expr // o.rest.length < ts.length }
  | [] => none
  | l :: ts =>
    if l.kind = .ident then some ⟨⟨.name l.mark l.text, ts, met⟩, by simp⟩
    else if isString l then
      if starts (.symbol '…') ts then
        let hi := bound eof met (ts.drop 1)
        some ⟨⟨.range l.value hi.value, hi.rest, hi.met⟩, by
          have h := length_bound_le eof met (ts.drop 1)
          simp only [List.length_drop, List.length_cons] at h ⊢
          exact Nat.lt_of_le_of_lt h (by omega)⟩
      else some ⟨⟨.literal l.value, ts, met⟩, by simp⟩
    else match bracket? l.kind with
      | some (close, wrap) =>
        let ⟨body, h⟩ := expression eof met ts
        let e := expect eof close body.met body.rest
        some ⟨⟨wrap body.value, e.rest, e.met⟩, by
          simp only [e, expect, List.length_drop, List.length_cons]
          omega⟩
      | none => none
termination_by ts => (ts.length, 0)

/-- Reads terms as long as one starts. -/
def terms (eof : Mark) (met : List Problem) (ts : List Lexeme) :
    { o : Outcome (List Expr) // o.rest.length ≤ ts.length } :=
  match term eof met ts with
  | none => ⟨⟨[], ts, met⟩, Nat.le_refl _⟩
  | some ⟨t, h⟩ =>
    let ⟨more, h'⟩ := terms eof t.met t.rest
    ⟨⟨t.value :: more.value, more.rest, more.met⟩, by
      show more.rest.length ≤ ts.length
      omega⟩
termination_by (ts.length, 1)

/-- Reads an expression. -/
def expression (eof : Mark) (met : List Problem) (ts : List Lexeme) :
    { o : Outcome Expr // o.rest.length ≤ ts.length } :=
  let ⟨first, h⟩ := terms eof met ts
  let met := if first.value.isEmpty then unexpected eof .term first.rest :: first.met else first.met
  match hr : first.rest with
  | [] => ⟨⟨.sequence first.value, [], met⟩, Nat.zero_le _⟩
  | l :: after =>
    if l.kind = .symbol '|' then
      let ⟨other, h'⟩ := expression eof met after
      ⟨⟨.alt (.sequence first.value) other.value, other.rest, other.met⟩, by
        rw [hr, List.length_cons] at h
        show other.rest.length ≤ ts.length
        omega⟩
    else ⟨⟨.sequence first.value, l :: after, met⟩, hr ▸ h⟩
termination_by (ts.length, 2)
decreasing_by
  · exact Prod.Lex.right _ (by omega)
  · rw [hr, List.length_cons] at h
    exact Prod.Lex.left _ _ (by omega)

end

/-- Reads the production whose name is the lexeme `l`. -/
def production (eof : Mark) (met : List Problem) (l : Lexeme) (ts : List Lexeme) :
    Outcome Production :=
  let met :=
    if l.kind = .ident then met
    else Problem.unexpected l.mark .ident (some (l.kind, l.text)) :: met
  let equals := expect eof '=' met ts
  let body : Outcome Expr :=
    if starts (.symbol '.') equals.rest then ⟨.empty, equals.rest, equals.met⟩
    else (expression eof equals.met equals.rest).val
  let stop := expect eof '.' body.met body.rest
  ⟨⟨l.text, l.mark, body.value⟩, stop.rest, stop.met⟩

theorem length_production_le (eof : Mark) (met : List Problem) (l : Lexeme) (ts : List Lexeme) :
    (production eof met l ts).rest.length ≤ ts.length := by
  simp only [production, expect, List.length_drop]
  by_cases hs : starts (.symbol '.') (ts.drop 1)
  · simp only [hs, ↓reduceIte, List.length_drop]
    omega
  · simp only [hs, Bool.false_eq_true, ↓reduceIte]
    refine Nat.le_trans (Nat.sub_le ..) (Nat.le_trans (expression ..).property ?_)
    simp

/-- Reads productions up to the end of the file; `declared` are the names
declared so far. -/
def productions (eof : Mark) (declared : Std.HashSet Text) (met : List Problem) :
    List Lexeme → Outcome (List Production)
  | [] => ⟨[], [], met⟩
  | l :: ts =>
    let p := production eof met l ts
    let met :=
      if p.value.name ∈ declared then .redeclared p.value.mark p.value.name :: p.met else p.met
    let more := productions eof (declared.insert p.value.name) met p.rest
    ⟨p.value :: more.value, [], more.met⟩
termination_by ts => ts.length
decreasing_by
  exact Nat.lt_succ_of_le (length_production_le eof _ l ts)

end Reader

/-- **Reads the productions of a grammar file**, or reports all its
problems. -/
def readProductions (file source : Text) : Except (List Problem) (List Production) :=
  let (glyphs, line, column) := Glyph.ofSource source
  let o := Reader.productions ⟨file, line, column⟩ ∅ [] (Lexeme.ofGlyphs file glyphs)
  if o.met.isEmpty then .ok o.value else .error o.met.reverse

end Arbor
