import Std.Data.DHashMap
import Std.Data.HashSet
import Arbor.Node
import Arbor.Token
import Arbor.Grammar.Opened
import Arbor.Parser.SyntaxError

/-!
# The state of a parse

A parse runs over a fixed list of kept tokens and carries along

* a **table** of what productions gave at places already tried,
* the **furthest** place of a failure and what was expected there, and
* the next serial number for a node.

A match says which nodes it built and where it ended. That it does not end
before its start, and consumes only tokens that are there, is part of its
type, so that the parser's recursion can be seen to end even where a result
comes out of the table.
-/

namespace Arbor

/-- What a parse works on. -/
structure ParseInput where
  /-- The grammar. -/
  grammar : Grammar
  /-- The kept tokens. -/
  tokens : Array Token
  /-- The end of the input. -/
  stop : Position

namespace ParseInput

/-- How many tokens there are. -/
abbrev size (i : ParseInput) : Nat := i.tokens.size

end ParseInput

namespace Parse

/-- A result of type `α` for the tokens from `pos` up to `next`, out of
`size`. -/
structure Match (α : Type) (size pos : Nat) where
  /-- What was built. -/
  value : α
  /-- The place after the last token consumed. -/
  next : Nat
  /-- A match ends no earlier than it starts. -/
  le : pos ≤ next
  /-- A match consumes tokens that are there. -/
  within : pos < next → next ≤ size

namespace Match

variable {α β : Type} {size pos : Nat}

/-- A match that consumes nothing. -/
def empty (value : α) : Match α size pos := ⟨value, pos, Nat.le_refl _, fun h => by omega⟩

/-- A match of the one token at `pos`. -/
def one (value : α) (h : pos < size) : Match α size pos :=
  ⟨value, pos + 1, Nat.le_succ _, fun _ => h⟩

/-- The same tokens with another result. -/
def map (f : α → β) (m : Match α size pos) : Match β size pos :=
  ⟨f m.value, m.next, m.le, m.within⟩

/-- One match after another. -/
def append (m : Match (List α) size pos) (k : Match (List α) size m.next) :
    Match (List α) size pos :=
  ⟨m.value ++ k.value, k.next, Nat.le_trans m.le k.le, by
    have := m.le; have := m.within; have := k.le; have := k.within
    omega⟩

/-- A match that consumes something leaves less. -/
theorem rest_lt (m : Match α size pos) (h : m.next ≠ pos) : size - m.next < size - pos := by
  have := m.le; have := m.within
  omega

end Match

/-- What productions gave: under a name and a place, the node built there, or
none if the production failed. -/
abbrev Table (size : Nat) :=
  Std.DHashMap (Text × Nat) fun key => Option (Match Node size key.2)

/-- **The state of a parse** over `size` tokens. -/
structure State (size : Nat) where
  /-- What productions gave. -/
  table : Table size
  /-- The furthest place of a failure. -/
  furthest : Nat
  /-- What was expected there. -/
  expected : Std.HashSet Expectation
  /-- The next serial number. -/
  serial : Nat

namespace State

variable {size : Nat}

/-- The state at the start. -/
def start (size : Nat) : State size := ⟨∅, 0, ∅, 0⟩

/-- Notes a failure at a place. Only what is expected at the furthest place
counts; a failure without an expectation still moves the furthest place. -/
def fail (s : State size) (pos : Nat) (e : Option Expectation) : State size :=
  let s := if s.furthest < pos then { s with furthest := pos, expected := ∅ } else s
  match e with
  | none => s
  | some e => if pos = s.furthest then { s with expected := s.expected.insert e } else s

/-- Takes the next serial number. -/
def fresh (s : State size) : Nat × State size := (s.serial, { s with serial := s.serial + 1 })

/-- Keeps what a production gave at a place. A match that consumed nothing is
not kept, so that no node can be used twice. -/
def keep (s : State size) (name : Text) (pos : Nat) (r : Option (Match Node size pos)) :
    State size :=
  match r with
  | none => { s with table := s.table.insert (name, pos) none }
  | some m =>
    if pos < m.next then { s with table := s.table.insert (name, pos) (some m) } else s

end State

end Parse

end Arbor
