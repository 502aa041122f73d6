import Arbor.Position
import Arbor.Text.Quoted

/-!
# Tokens

A token is a stretch of a source text together with its kind: the name of the
token production it is a match of, or one of two kinds of its own.
-/

namespace Arbor

/-- A token. -/
structure Token where
  /-- The kind. -/
  kind : Text
  /-- The bytes covered. -/
  literal : Text
  /-- Where they stand. -/
  span : Span
  deriving DecidableEq, Repr

namespace Token

/-- The kind of the token that ends every list of tokens. -/
def endKind : Text := utf8 "EOF"

/-- The kind of a byte at which no token production matches. -/
def errorKind : Text := utf8 "ERROR"

/-- A token on a line: where it starts, its kind, its bytes quoted. -/
def render (t : Token) : Text :=
  t.span.start.render ++ utf8 " " ++ t.kind ++ utf8 " " ++ t.literal.quoted

end Token

end Arbor
