import Arbor.Parser.State
import Arbor.Text.Piece

/-!
# Matching productions

How expressions match tokens, and what they build:

* a literal, a character range and a name without a production match one token
  by its text and build a token node;
* a name of a token production matches one token by its kind and builds a
  terminal, or by its text and builds a token node;
* any other name builds the node of its production: a composite, except that a
  **category** gives way to the single node of its choice;
* a choice takes its longest alternative, the first of equals; options and
  repetitions are greedy; nothing is tried again.

A production entered at a place is not entered there again before a token is
consumed, so a left-recursive production fails where it would recur.
-/

namespace Arbor

namespace Parse

/-- Whether a token's text is one character between two bounds. -/
def inRange (lo hi literal : Text) : Bool :=
  match literal.pieces with
  | [r] => lo.firstChar ≤ r.toChar && r.toChar ≤ hi.firstChar
  | _ => false

/-- Matches one token that `accept` turns into a node, given the serial number
for it; else notes what was expected. -/
def leaf (i : ParseInput) (pos : Nat) (accept : Token → Option (Nat → Node)) (e : Expectation)
    (s : State i.size) : Option (Match (List Node) i.size pos) × State i.size :=
  if h : pos < i.size then
    match accept i.tokens[pos] with
    | some build =>
      let (serial, s) := s.fresh
      (some (.one [build serial] h), s)
    | none => (none, s.fail pos (some e))
  else (none, s.fail pos (some e))

/-- The token node of a token. -/
def tokenNode (t : Token) (serial : Nat) : Node := .token serial t.kind t.literal t.span

/-- What a token becomes where its text is all that matters. -/
def spelled (p : Text → Bool) (t : Token) : Option (Nat → Node) :=
  if p t.literal then some (tokenNode t) else none

/-- What a token becomes where a token production is named. -/
def named (g : Grammar) (n : Text) (t : Token) : Option (Nat → Node) :=
  if t.kind = n then some fun serial => .terminal serial (some (g.tokenRule n)) t.literal t.span
  else if t.literal = n then some (tokenNode t)
  else none

/-- The span of some nodes built from `pos` on: from the first to the last, or
the empty one before the next token. -/
def spanOf (i : ParseInput) (pos : Nat) (nodes : List Node) : Span :=
  match nodes.head?, nodes.getLast? with
  | some first, some last => ⟨first.span.start, last.span.stop⟩
  | _, _ => match i.tokens[pos]? with
    | some t => .empty t.span.start
    | none => .empty i.stop

/-- The node of a production whose body built `nodes`. -/
def assemble (i : ParseInput) (name : Text) (pos : Nat) (nodes : List Node) (s : State i.size) :
    Node × State i.size :=
  match i.grammar.isCategory name, nodes with
  | true, [n] => (n, s)
  | _, _ =>
    let (serial, s) := s.fresh
    (.composite serial (some (.production name)) nodes (spanOf i pos nodes), s)

/-- The longer of two matches, the first of equals. -/
def longer {α : Type} {size pos : Nat} (a b : Option (Match α size pos)) :
    Option (Match α size pos) :=
  match a, b with
  | none, b => b
  | a, none => a
  | some m, some k => if m.next < k.next then some k else some m

/-- The productions opened at `next`, if `opened` are those at `pos`: the same
as long as nothing is consumed. -/
def openedAt (opened : Grammar.Opened) (pos next : Nat) : Grammar.Opened :=
  if next = pos then opened else ∅

mutual

/-- **Matches an expression** at a place, given the productions opened
there. -/
def expr (i : ParseInput) (opened : Grammar.Opened) (pos : Nat) :
    Expr → State i.size → Option (Match (List Node) i.size pos) × State i.size
  | .empty, s => (some (.empty []), s)
  | .literal v, s => leaf i pos (spelled (· = v)) (.text v) s
  | .range lo hi, s => leaf i pos (spelled (inRange lo hi)) (.range lo hi) s
  | .group e, s => expr i opened pos e s
  | .option e, s =>
    match expr i opened pos e s with
    | (some m, s) => (some m, s)
    | (none, s) => (some (.empty []), s)
  | .repetition e, s =>
    let (m, s) := many i opened pos e s
    (some m, s)
  | .alt e f, s =>
    let (a, s) := expr i opened pos e s
    let (b, s) := expr i opened pos f s
    (longer a b, s)
  | .seq e f, s =>
    match expr i opened pos e s with
    | (none, s) => (none, s)
    | (some m, s) =>
      match expr i (openedAt opened pos m.next) m.next f s with
      | (none, s) => (none, s)
      | (some k, s) => (some (m.append k), s)
  | .name _ n, s =>
    if Grammar.isToken n then leaf i pos (named i.grammar n) (.kind n) s
    else match hp : i.grammar.get? n with
      | none => leaf i pos (spelled (· = n)) (.text n) s
      | some p =>
        let (r, s) := production i opened pos n p hp s
        (r.map (·.map ([·])), s)
termination_by e => (i.size - pos, i.grammar.unopened opened, sizeOf e, 0)
decreasing_by
  · exact .right _ (.right _ (.left _ _ (by simp +arith)))
  · exact .right _ (.right _ (.left _ _ (by simp +arith)))
  · exact .right _ (.right _ (.left _ _ (by simp +arith)))
  · exact .right _ (.right _ (.left _ _ (by simp +arith)))
  · exact .right _ (.right _ (.left _ _ (by simp +arith)))
  · exact .right _ (.right _ (.left _ _ (by simp +arith)))
  · by_cases hm : m.next = pos
    · simp only [openedAt, hm, ↓reduceIte]
      exact .right _ (.right _ (.left _ _ (by simp +arith)))
    · exact .left _ _ (m.rest_lt hm)
  · exact .right _ (.right _ (.left _ _ (by simp +arith)))

/-- **Matches a production** at a place: what the table has, or nothing if it
is opened there already, or else the node that its body makes. -/
def production (i : ParseInput) (opened : Grammar.Opened) (pos : Nat) (n : Text) (p : Production)
    (hp : i.grammar.get? n = some p) (s : State i.size) :
    Option (Match Node i.size pos) × State i.size :=
  match s.table.get? (n, pos) with
  | some r => (r, s)
  | none =>
    if ho : n ∈ opened then (none, s.fail pos none)
    else
      have := Grammar.unopened_insert_lt (Grammar.mem_names_of_get? hp) ho
      match expr i (opened.insert n) pos p.body s with
      | (none, s) => (none, s.keep n pos none)
      | (some m, s) =>
        let (node, s) := assemble i n pos m.value s
        let r := m.map fun _ => node
        (some r, s.keep n pos (some r))
termination_by (i.size - pos, i.grammar.unopened opened, 0, 0)
decreasing_by
  exact .right _ (.left _ _ this)

/-- Matches as many occurrences of an expression as there are. An occurrence
that consumes nothing is the last, and leaves no nodes. -/
def many (i : ParseInput) (opened : Grammar.Opened) (pos : Nat) (e : Expr) (s : State i.size) :
    Match (List Node) i.size pos × State i.size :=
  match expr i opened pos e s with
  | (none, s) => (.empty [], s)
  | (some m, s) =>
    if hm : m.next = pos then (.empty [], s)
    else
      have := m.rest_lt hm
      let (k, s) := many i ∅ m.next e s
      (m.append k, s)
termination_by (i.size - pos, i.grammar.unopened opened, sizeOf e, 1)
decreasing_by
  · exact .right _ (.right _ (.right _ (by omega)))
  · exact .left _ _ this

end

end Parse

end Arbor
