import Arbor.Parser.Run
import Arbor.Token.Tokenizer

/-!
# Parsing

A parser drops the tokens of the kinds it skips, matches the rest against a
start production, and must get to the end of them. It answers with the tree,
or with the one syntax error at the furthest token.
-/

namespace Arbor

/-- Why there is no tree. -/
inductive ParseError where
  /-- The start is not a syntactic production of the grammar. -/
  | noProduction (start : Text)
  /-- The tokens do not match. -/
  | mismatch (e : SyntaxError)
  deriving DecidableEq, Repr

/-- The wording of the error. -/
def ParseError.message : ParseError → Text
  | noProduction start => utf8 "production " ++ start.quoted ++ utf8 " not found in grammar"
  | mismatch e => e.message

/-- The token kinds skipped unless others are named. -/
def defaultSkip : List Text := [utf8 "WhiteSpace", utf8 "Comment"]

/-- **A parser** for a grammar. -/
structure Parser where
  /-- The grammar. -/
  grammar : Grammar
  /-- The token kinds skipped. -/
  skip : List Text

namespace Parser

/-- Whether a token is parsed: it is not the end and not skipped. -/
def keeps (p : Parser) (t : Token) : Bool := t.kind ≠ Token.endKind && t.kind ∉ p.skip

/-- The end of the input: where the last end token stands, or the end of the
last kept token if that is further. -/
def endOf (kept tokens : List Token) : Position :=
  let stop := match (tokens.filter (·.kind = Token.endKind)).getLast? with
    | some t => t.span.start
    | none => .origin
  match kept.getLast? with
  | some t => if stop.offset < t.span.stop.offset then t.span.stop else stop
  | none => stop

/-- The kept tokens of a list, ready to be parsed. -/
def input (p : Parser) (tokens : List Token) : ParseInput :=
  let kept := tokens.filter p.keeps
  ⟨p.grammar, kept.toArray, endOf kept tokens⟩

/-- The syntax error at the furthest place of a state. -/
def syntaxError (i : ParseInput) (s : Parse.State i.size) : SyntaxError :=
  let expected := Text.sort (s.expected.toList.map Expectation.render)
  match i.tokens[s.furthest]? with
  | none => ⟨i.stop, [], true, expected⟩
  | some t => ⟨t.span.start, t.literal, false, expected⟩

/-- The outcome of matching the start production: it must have consumed all
tokens. If it stopped short of that but beyond every failure, nothing in
particular was expected where it stopped. -/
def conclude (i : ParseInput) (r : Option (Parse.Match Node i.size 0)) (s : Parse.State i.size) :
    Except ParseError Node :=
  match r with
  | none => .error (.mismatch (syntaxError i s))
  | some m =>
    if m.next = i.size then .ok m.value
    else if s.furthest < m.next then
      .error (.mismatch (syntaxError i { s with furthest := m.next, expected := ∅ }))
    else .error (.mismatch (syntaxError i s))

/-- **Parses tokens** from a start production. -/
def parse (p : Parser) (tokens : List Token) (start : Text) : Except ParseError Node :=
  match hq : p.grammar.get? start with
  | none => .error (.noProduction start)
  | some q =>
    if Grammar.isToken start then .error (.noProduction start)
    else
      let i := p.input tokens
      let (r, s) := Parse.production i ∅ 0 start q hq (.start i.size)
      conclude i r s

/-- Cuts a text into tokens and parses them. -/
def parseText (p : Parser) (t : Text) (start : Text) : Except ParseError Node :=
  p.parse (tokenize p.grammar t) start

end Parser

end Arbor
