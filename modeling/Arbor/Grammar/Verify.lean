import Arbor.Grammar

/-!
# Verifying a grammar

A grammar is fit for parsing from a start production if the start is a
syntactic production, every name referred to has a production, and every
production can be reached. The search starts from the start production and
from every token production: tokens are cut out of a text whether or not a
syntactic production mentions them.
-/

namespace Arbor

namespace Grammar

/-- **What can be wrong with a grammar** that reads well. -/
inductive Flaw where
  /-- The start production does not exist. -/
  | noStart (start : Text)
  /-- The start production is a token. -/
  | tokenStart (mark : Mark) (start : Text)
  /-- A name without a production. -/
  | undefined (mark : Mark) (name : Text)
  /-- A production that nothing leads to. -/
  | unreachable (mark : Mark) (name : Text)
  deriving DecidableEq, Repr

/-- The wording of a flaw. -/
def Flaw.message : Flaw → Text
  | noStart s => utf8 "no start production " ++ s
  | tokenStart m s => m.render ++ utf8 ": start production " ++ s ++ utf8 " is a token"
  | undefined m n => m.render ++ utf8 ": undefined production " ++ n
  | unreachable m n => m.render ++ utf8 ": unreachable production " ++ n

/-- The wording of a list of flaws. -/
def Flaw.summary (fs : List Flaw) : Text :=
  utf8 "verify grammar: " ++ Text.join (utf8 "; ") (fs.map message)

/-- The references in the body of a production. -/
def referencesOf (g : Grammar) (n : Text) : List (Mark × Text) :=
  match g.get? n with
  | none => []
  | some p => p.body.references

/-- What is wrong with the start production. -/
def startFlaws (g : Grammar) (start : Text) : List Flaw :=
  match g.get? start with
  | none => [.noStart start]
  | some p => if isToken start then [.tokenStart p.mark start] else []

/-- Where the search starts: at the start production, if there is nothing
wrong with it, and at the tokens. -/
def roots (g : Grammar) (start : Text) : List Text :=
  (if g.startFlaws start = [] then [start] else []) ++ g.tokenNames

/-- The productions in the order the search comes upon them. -/
def reached (g : Grammar) (start : Text) : List Text :=
  breadthFirst (fun n => (g.referencesOf n).map (·.2)) (.ofList g.names) (g.roots start)

/-- The references of a production that lead nowhere. -/
def undefinedIn (g : Grammar) (n : Text) : List Flaw :=
  ((g.referencesOf n).filter fun r => !g.has r.2).map fun r => .undefined r.1 r.2

/-- **The flaws of a grammar seen from a start production**: the start itself,
then the undefined names of the productions reached, then the productions not
reached. -/
def verify (g : Grammar) (start : Text) : List Flaw :=
  let reached := g.reached start
  g.startFlaws start
    ++ reached.flatMap g.undefinedIn
    ++ (g.productions.filter (·.name ∉ reached)).map fun p => .unreachable p.mark p.name

end Grammar

end Arbor
