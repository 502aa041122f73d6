import Arbor.Position
import Arbor.Rule

/-!
# Nodes of concrete syntax trees

A concrete syntax tree keeps every token of its source. Its nodes come in
three forms: a **composite** stands for a syntactic production and has
children, a **terminal** is a leaf that a token production names, and a
**token** is a leaf that the grammar spells out, punctuation or a keyword. In
a tree that was not parsed but put together, a child can also be **missing**:
its place counts as a node, but has no rule, no text and no span.

A node is more than its contents: two nodes may look the same and stand at the
same place, as a production that matches nothing does beside its empty child,
and a query must tell them apart. Every node therefore carries a **serial
number**, and to be the same node is to have the same number.
-/

namespace Arbor

/-- **A node of a concrete syntax tree**, with all that is below it. -/
inductive Node where
  /-- A node with children. -/
  | composite (serial : Nat) (rule : Option Rule) (children : List Node) (span : Span)
  /-- A leaf that a token production names. -/
  | terminal (serial : Nat) (rule : Option Rule) (text : Text) (span : Span)
  /-- A leaf that the grammar spells out. -/
  | token (serial : Nat) (kind text : Text) (span : Span)
  /-- The place of a child that is missing. -/
  | missing (serial : Nat)
  deriving Repr

namespace Node

/-- The serial number. -/
def serial : Node → Nat
  | composite i _ _ _ => i
  | terminal i _ _ _ => i
  | token i _ _ _ => i
  | missing i => i

/-- Whether a node is the place of a missing child. -/
def isMissing : Node → Bool
  | missing _ => true
  | _ => false

/-- The stretch of the source a node covers; an empty one for a missing
child. -/
def span : Node → Span
  | composite _ _ _ s => s
  | terminal _ _ _ s => s
  | token _ _ _ s => s
  | missing _ => .empty ⟨0, 0, 0⟩

/-- The span of a node, where it is needed: a missing child has none. -/
def extent (n : Node) : Except Fault Span :=
  if n.isMissing then .error .noNode else .ok n.span

/-- The children, in order; a leaf has none. -/
def children : Node → List Node
  | composite _ _ cs _ => cs
  | terminal .. => []
  | token .. => []
  | missing _ => []

/-- The rule that produced a node; a token has none, and neither has a missing
child. -/
def rule? : Node → Option Rule
  | composite _ r _ _ => r
  | terminal _ r _ _ => r
  | token .. => none
  | missing _ => none

/-- Whether a node is a leaf. -/
def isLeaf : Node → Bool
  | composite .. => false
  | terminal .. => true
  | token .. => true
  | missing _ => false

/-- Whether a node is a token. -/
def isToken : Node → Bool
  | token .. => true
  | _ => false

/-- The text of a leaf. -/
def text? : Node → Option Text
  | composite .. => none
  | terminal _ _ t _ => some t
  | token _ _ t _ => some t
  | missing _ => none

/-- Whether a node is a leaf with just that text. -/
def isLiteral (n : Node) (text : Text) : Bool := n.text? = some text

/-- Whether two nodes are the same. -/
def same (a b : Node) : Bool := a.serial = b.serial

/-- A short name for a node: that of its rule, or the kind of a token. A node
without a rule has the empty one. -/
def kind : Node → Except Fault Text
  | token _ k _ _ => .ok k
  | composite _ r _ _ => r.elim (.ok []) Rule.name
  | terminal _ r _ _ => r.elim (.ok []) Rule.name
  | missing _ => .ok []

/-- Whether a node is an instance of a class. Nothing is an instance of no
class, and a node without a rule of none. -/
def isA (h : Hierarchy) (cls : Option Rule) (n : Node) : Except Fault Bool :=
  match n.rule?, cls with
  | some r, some c => h.isA r c
  | _, _ => .ok false

end Node

end Arbor
