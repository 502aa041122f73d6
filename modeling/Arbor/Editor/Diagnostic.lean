import Arbor.Editor.Range
import Arbor.Parser

/-!
# Diagnostics

A document that does not parse has one **diagnostic**: the message of its
error, at the token that was not accepted.
-/

namespace Arbor

namespace Editor

/-- The name under which the tool reports. -/
def toolName : Text := utf8 "cstq"

/-- A report about a stretch of a document. All reports are errors. -/
structure Diagnostic where
  /-- The stretch. -/
  range : Range
  /-- The message. -/
  message : Text
  deriving DecidableEq, Repr

/-- The severity of an error. -/
def Diagnostic.severity : Nat := 1

/-- The stretch of a syntax error: as many columns as the offending token has
bytes, which are none at the end of the input. -/
def rangeOfError (e : SyntaxError) : Range :=
  .ofSpan ⟨e.position,
    { e.position with column := wrap64 (e.position.column + e.got.length) }⟩

/-- The diagnostic of an error with a message. It is at the start of the
document unless the error is a syntax error. -/
def Diagnostic.of (message : Text) (cause : Option SyntaxError) : Diagnostic :=
  ⟨cause.elim .origin rangeOfError, message⟩

/-- **The diagnostic of a failed parse.** -/
def Diagnostic.ofParseError (e : ParseError) : Diagnostic :=
  .of e.message <| match e with
    | .mismatch s => some s
    | .noProduction _ => none

end Editor

end Arbor
