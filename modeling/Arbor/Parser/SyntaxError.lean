import Arbor.Position
import Arbor.Text.Quoted

/-!
# Syntax errors

A parse fails with **one** syntax error: the furthest token that the parser
could not get past, or the end of the input, and what would have been accepted
there.
-/

namespace Arbor

/-- Something a parser accepts as its next token. -/
inductive Expectation where
  /-- A token with that text: a literal, or a name without a production. -/
  | text (t : Text)
  /-- A token of one character in a range. -/
  | range (lo hi : Text)
  /-- A token of that kind, or with the name of the kind as its text. -/
  | kind (name : Text)
  deriving DecidableEq, Hashable, Repr

/-- An expectation in the words of messages. -/
def Expectation.render : Expectation → Text
  | text t => t.quoted
  | range lo hi => lo.quoted ++ utf8 "…" ++ hi.quoted
  | kind n => n

/-- **Where and why a parse failed.** -/
structure SyntaxError where
  /-- The start of the token, or the end of the input. -/
  position : Position
  /-- The text of the token; empty at the end of the input. -/
  got : Text
  /-- Whether it is the end of the input. -/
  atEnd : Bool
  /-- What would have been accepted, rendered and in order. -/
  expected : List Text
  deriving DecidableEq, Repr

/-- The wording of a syntax error. -/
def SyntaxError.message (e : SyntaxError) : Text :=
  utf8 "parse error at " ++ e.position.render ++ utf8 ": "
    ++ (if e.atEnd then utf8 "unexpected end of input" else utf8 "unexpected " ++ e.got.quoted)
    ++ if e.expected.isEmpty then [] else utf8 ", expected " ++ Text.join (utf8 " or ") e.expected

end Arbor
