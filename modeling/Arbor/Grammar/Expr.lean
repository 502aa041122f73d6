import Arbor.Text

/-!
# Grammar expressions

The body of a production is an **expression** over names, literal texts and
character ranges. Sequences and choices are binary and lean to the right: a
sequence of three items is `seq a (seq b c)`. Nothing is lost by that, because
a sequence or a choice never stands bare inside another one of its kind;
parentheses are a constructor of their own, `group`.

A name carries the mark of its occurrence, so that an undefined one can be
reported where it stands.
-/

namespace Arbor

/-- A place in a grammar file: line and column count from one, columns in
characters. -/
structure Mark where
  /-- The name of the file. -/
  file : Text
  /-- The line. -/
  line : Nat
  /-- The column. -/
  column : Nat
  deriving DecidableEq, Repr

namespace Mark

/-- A mark as messages show it; a file without a name is `<input>`. -/
def render (m : Mark) : Text :=
  (if m.file = [] then utf8 "<input>" else m.file)
    ++ utf8 ":" ++ Text.ofNat m.line ++ utf8 ":" ++ Text.ofNat m.column

end Mark

/-- **The expressions of the grammar notation.** -/
inductive Expr where
  /-- The empty body. -/
  | empty
  /-- A reference to the production of that name, or a keyword if there is
  none. -/
  | name (at_ : Mark) (n : Text)
  /-- A literal text. -/
  | literal (value : Text)
  /-- One character between the first characters of the two bounds. -/
  | range (lo hi : Text)
  /-- An expression in parentheses. -/
  | group (body : Expr)
  /-- At most one occurrence. -/
  | option (body : Expr)
  /-- Any number of occurrences. -/
  | repetition (body : Expr)
  /-- One expression after the other. -/
  | seq (first rest : Expr)
  /-- One of two expressions. -/
  | alt (first rest : Expr)
  deriving DecidableEq, Repr

namespace Expr

/-- The sequence of some items: none is the empty body, and one item stands
for itself. -/
def sequence : List Expr → Expr
  | [] => empty
  | [e] => e
  | e :: f :: es => seq e (sequence (f :: es))

/-- The items of a sequence, in order. -/
def items : Expr → List Expr
  | seq e f => e :: f.items
  | e => [e]

/-- The alternatives of a choice, in order. -/
def alternatives : Expr → List Expr
  | alt e f => e :: f.alternatives
  | e => [e]

/-- The names referred to, with their marks, in the order of the source. -/
def references : Expr → List (Mark × Text)
  | empty => []
  | name m n => [(m, n)]
  | literal _ => []
  | range _ _ => []
  | group e => e.references
  | option e => e.references
  | repetition e => e.references
  | seq e f => e.references ++ f.references
  | alt e f => e.references ++ f.references

/-- The names an expression chooses between, if it is nothing but a choice of
names. -/
def choiceOfNames? : Expr → Option (List Text)
  | name _ n => some [n]
  | alt (name _ n) f => f.choiceOfNames?.map (n :: ·)
  | _ => none

end Expr

/-- A production: a name and the expression it stands for. -/
structure Production where
  /-- The name. -/
  name : Text
  /-- Where the name is declared. -/
  mark : Mark
  /-- The body. -/
  body : Expr
  deriving DecidableEq, Repr

end Arbor
