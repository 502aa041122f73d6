import Arbor.Node.Query

/-!
# Paths

The **path** to a node leads from the root of the tree down to it, each node a
child of the one before. A target that is itself a node of the tree is found
as that very node, however many others cover the same span; a target from
elsewhere is stood for by the first node with its span.
-/

namespace Arbor

namespace Node

/-- The path to the first selected node in pre-order. -/
def pathWhere {m : Type → Type} [Monad m] (select : Node → m Bool) (root : Node) :
    m (Option (List Node)) := do
  let walked ← root.visit (fun enclosing n (_ : Option (List Node)) => do
    if ← select n then return .halt (some (n :: enclosing).reverse)
    else return .further none) [] none
  return walked.state

/-- The path from the root to a node of the tree. -/
def pathTo? (root node : Node) : Option (List Node) :=
  Id.run (root.pathWhere fun n => return n.same node)

/-- **The path from the root to a target**, both included. There is none where
the tree or the target is missing. -/
def path? (root target : Node) : Except Fault (Option (List Node)) :=
  if root.isMissing ∨ target.isMissing then return none
  else match root.pathTo? target with
    | some path => return some path
    | none => do
      let s ← target.extent
      root.pathWhere fun n => return (← n.extent) = s

/-- **The nearest node enclosing a target that is an instance of a class.**
The target itself is not one of those. -/
def ancestor? (h : Hierarchy) (cls : Option Rule) (root target : Node) :
    Except Fault (Option Node) := do
  match ← root.path? target with
  | none => return none
  | some path => path.dropLast.reverse.findM? (isA h cls)

end Node

end Arbor
