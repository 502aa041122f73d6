import Arbor.Token
import Arbor.Token.Munch

/-!
# Cutting a text into tokens

At every place the token production with the **longest match** wins, the first
name on ties. Where none matches anything, one byte is taken as an error
token, so cutting never fails and never loses a byte; the list of tokens ends
with an empty end token.

The cache of places is shared between the token productions tried at one
place and dropped when the token is taken.
-/

namespace Arbor

/-- The best match so far: its kind, the place it leads to, and the places
known. -/
structure Candidate {t : Text} (r : Rest t) where
  /-- The kind. -/
  kind : Text
  /-- The place it leads to. -/
  stop : r.Reached
  /-- The places known. -/
  cache : PlaceCache t

namespace Grammar

/-- The token productions, in the order of their names. -/
def tokenProductions (g : Grammar) : List Production :=
  g.productions.filter fun p => isToken p.name

theorem tokenProductions_ofProductions (ps : List Production) :
    (ofProductions ps).tokenProductions
      = (Production.ordered ps).filter fun p => isToken p.name := by
  rw [tokenProductions, productions_ofProductions]

/-- Tries a token production; it wins if it gets further than the best so
far. -/
def improve (g : Grammar) {t : Text} (r : Rest t) (best : Candidate r) (p : Production) :
    Candidate r :=
  let (s, cache) := Munch.expr g ∅ r p.body best.cache
  if s.val.left < best.stop.val.left then ⟨p.name, s, cache⟩ else { best with cache }

/-- The kind of the token at a place and how far it goes; an error goes nowhere
here. -/
def longest (g : Grammar) {t : Text} (r : Rest t) : Candidate r :=
  g.tokenProductions.foldl (g.improve r) ⟨Token.errorKind, r.here, ∅⟩

end Grammar

/-- **A text being cut into tokens**: a place in it, and the position of that
place. -/
structure Tokenizer (t : Text) where
  /-- The grammar. -/
  grammar : Grammar
  /-- The place. -/
  rest : Rest t
  /-- Its position. -/
  position : Position

namespace Tokenizer

/-- The start of a text. -/
def start (g : Grammar) (t : Text) : Tokenizer t := ⟨g, .start t, .origin⟩

variable {t : Text}

/-- Whether nothing is left. -/
def atEnd (z : Tokenizer t) : Bool := z.rest.left = 0

/-- The next token, and where the one after it starts. The token at the end of
the text is the end token, and it stays there. -/
def next (z : Tokenizer t) : Token × Tokenizer t :=
  if z.atEnd then (⟨Token.endKind, [], .empty z.position⟩, z)
  else
    let best := z.grammar.longest z.rest
    let after := if best.stop.isEmpty then z.rest.drop 1 else best.stop.val
    let literal := z.rest.bytes.take (z.rest.left - after.left)
    let stop := z.position.after literal
    (⟨best.kind, literal, ⟨z.position, stop⟩⟩, { z with rest := after, position := stop })

/-- A token that is not the last leaves less. -/
theorem left_next_lt {z : Tokenizer t} (h : ¬ z.atEnd) : z.next.2.rest.left < z.rest.left := by
  have hl : z.rest.left ≠ 0 := by simpa [atEnd] using h
  simp only [next, h, Bool.false_eq_true, ↓reduceIte]
  split
  · simp only [Rest.drop]
    omega
  · next hs => exact Rest.Reached.left_lt (by simpa using hs)

/-- **All tokens from here on**, the end token last. -/
def tokens (z : Tokenizer t) : List Token :=
  match hn : z.next with
  | (first, after) =>
    if he : z.atEnd then [first]
    else
      have hlt : after.rest.left < z.rest.left := by simpa [hn] using left_next_lt he
      first :: after.tokens
termination_by z.rest.left

/-- The end of the text, where `tokens` leads to. -/
def finish (z : Tokenizer t) : Tokenizer t :=
  { z with rest := .finish t, position := z.position.after z.rest.bytes }

end Tokenizer

/-- The tokens of a text. -/
def tokenize (g : Grammar) (t : Text) : List Token := (Tokenizer.start g t).tokens

end Arbor
