import Arbor.Node.Walk

/-!
# Queries

Selecting nodes of a tree. A selection is a question asked of a node, in any
monad; questions about classes can fault (`Node.isA`), and then so does the
query, if it gets to the node at fault.
-/

namespace Arbor

namespace Node

section Search

variable {m : Type → Type} [Monad m]

/-- All nodes of a tree that are selected, in pre-order. -/
def findAll (select : Node → m Bool) (root : Node) : m (List Node) := do
  let found ← root.traverse (fun _ n found => do
    return .further (if ← select n then n :: found else found)) []
  return found.state.reverse

/-- What a search for the first selected node came upon. -/
structure Search where
  /-- The nodes asked, latest first. -/
  asked : List Node
  /-- The node found. -/
  found : Option Node

/-- **Searches for the first selected node in pre-order**, asking no node
after it. Where that is a missing child, nothing is found. -/
def search (select : Node → m Bool) (root : Node) : m Search := do
  let s ← root.traverse (fun _ n (s : Search) => do
    if ← select n then return .halt ⟨n :: s.asked, if n.isMissing then none else some n⟩
    else return .further ⟨n :: s.asked, none⟩) ⟨[], none⟩
  return s.state

/-- The first selected node. -/
def findFirst (select : Node → m Bool) (root : Node) : m (Option Node) := do
  return (← root.search select).found

/-- The selected nodes among the children of a node. -/
def childrenWhere (select : Node → m Bool) (n : Node) : m (List Node) :=
  n.children.filterM select

/-- The first selected node among the children of a node. -/
def childWhere (select : Node → m Bool) (n : Node) : m (Option Node) :=
  n.children.findM? select

end Search

/-- The first nodes of a tree in pre-order, `limit` of them if there are as
many. -/
def firstNodes (limit : Nat) (root : Node) : List Node :=
  if limit = 0 then []
  else
    let walked : Flow (Nat × List Node) := Id.run <| root.traverse (fun _ n (left, seen) =>
      if left ≤ 1 then return .halt (0, n :: seen) else return .further (left - 1, n :: seen))
      (limit, [])
    walked.state.2.reverse

/-- Whether a tree has an instance of a class. -/
def containsRule (h : Hierarchy) (cls : Option Rule) (root : Node) : Except Fault Bool := do
  return (← root.findFirst (isA h cls)).isSome

/-- How many instances of a class a tree has. -/
def countRule (h : Hierarchy) (cls : Option Rule) (root : Node) : Except Fault Nat := do
  return (← root.findAll (isA h cls)).length

/-- The child at an index from zero. -/
def child? (n : Node) (i : Int) : Option Node :=
  if i < 0 then none else n.children[i.toNat]?

/-- The leaves of a tree, in the order of the source. -/
def leaves (root : Node) : List Node := Id.run (root.findAll fun n => return n.isLeaf)

/-- Whether an offset lies in the span of a node. -/
def covers (n : Node) (offset : Int) : Bool := !n.isMissing && n.span.contains offset

/-- **The innermost node that covers an offset**: the last one in pre-order. -/
def innermostAt (root : Node) (offset : Int) : Option Node :=
  root.preorder.foldl (fun inner n => if n.covers offset then some n else inner) none

/-- Whether no child is missing in a tree. -/
def isWhole (root : Node) : Bool := root.preorder.all (!·.isMissing)

/-- The innermost node that covers an offset, found by asking every node for
its span. -/
def nodeAt (root : Node) (offset : Int) : Except Fault (Option Node) :=
  if root.isMissing ∨ root.isWhole then .ok (root.innermostAt offset) else .error .noNode

end Node

/-- The bytes of a source, any of which is at hand. -/
abbrev Source := Array UInt8

/-- The text between two offsets of a source, if they lie in it in this
order. -/
def Source.slice? (source : Source) (start stop : Int) : Option Text :=
  if start < 0 ∨ stop < start ∨ source.size < stop then none
  else some (source.extract start.toNat stop.toNat).toList

/-- The source text a node covers, if its span lies in the source. -/
def Node.source? (n : Node) (source : Source) : Except Fault (Option Text) := do
  let s ← n.extent
  return source.slice? s.start.offset s.stop.offset

end Arbor
