import Arbor.Node

/-!
# Walking a tree

The nodes of a tree in **pre-order**: a node before its children, siblings
from left to right. `Node.preorder` is the list of them; `Node.visit` is the
walk that can stop early, and hands each node to a step together with the
nodes that enclose it. The step may work in any monad: a question that can
fault is asked in `Except Fault`, any other in `Id`.

A missing child is a node that a walk comes upon like any other. Where the root
itself is missing there is no tree, and nothing to walk: `Node.nodes` and
`Node.traverse` are the list and the walk that begin by looking at the root.
-/

namespace Arbor

/-- Whether a walk goes on, with the state so far. -/
inductive Flow (σ : Type) where
  /-- It goes on. -/
  | further (state : σ)
  /-- It stops. -/
  | halt (state : σ)

/-- The state a walk has reached. -/
def Flow.state {σ : Type} : Flow σ → σ
  | further s => s
  | halt s => s

namespace Node

mutual

/-- Puts the nodes of a tree, in pre-order, in front of others. -/
def preorderOnto : Node → List Node → List Node
  | n@(composite _ _ cs _), rest => n :: preorderAllOnto cs rest
  | n@(terminal ..), rest => n :: rest
  | n@(token ..), rest => n :: rest
  | n@(missing _), rest => n :: rest

/-- Puts the nodes of some trees, one tree after the other, in front of
others. -/
def preorderAllOnto : List Node → List Node → List Node
  | [], rest => rest
  | n :: ns, rest => n.preorderOnto (preorderAllOnto ns rest)

end

/-- **The nodes of a tree in pre-order.** -/
def preorder (n : Node) : List Node := n.preorderOnto []

/-- The nodes of some trees, one tree after the other. -/
def preorderAll (ns : List Node) : List Node := preorderAllOnto ns []

/-- The nodes of a tree in pre-order, if there is a tree. -/
def nodes (root : Node) : List Node := if root.isMissing then [] else root.preorder

mutual

theorem preorderOnto_eq (n : Node) (rest : List Node) :
    n.preorderOnto rest = n.preorder ++ rest := by
  cases n with
  | composite i r cs s =>
    simp only [preorder, preorderOnto, List.cons_append]
    rw [preorderAllOnto_eq cs rest, preorderAllOnto_eq cs [], List.append_nil]
  | _ => rfl

theorem preorderAllOnto_eq (ns rest : List Node) :
    preorderAllOnto ns rest = preorderAll ns ++ rest := by
  cases ns with
  | nil => rfl
  | cons n ns =>
    simp only [preorderAll, preorderAllOnto]
    rw [preorderOnto_eq n, preorderOnto_eq n, preorderAllOnto_eq ns rest,
      preorderAllOnto_eq ns [], List.append_nil, List.append_assoc]

end

/-- A composite comes before all that is below it. -/
@[simp] theorem preorder_composite (i : Nat) (r : Option Rule) (cs : List Node) (s : Span) :
    (composite i r cs s).preorder = composite i r cs s :: preorderAll cs := rfl

@[simp] theorem preorder_terminal (i : Nat) (r : Option Rule) (t : Text) (s : Span) :
    (terminal i r t s).preorder = [terminal i r t s] := rfl

@[simp] theorem preorder_token (i : Nat) (k t : Text) (s : Span) :
    (token i k t s).preorder = [token i k t s] := rfl

@[simp] theorem preorder_missing (i : Nat) : (missing i).preorder = [missing i] := rfl

@[simp] theorem preorderAll_nil : preorderAll [] = [] := rfl

/-- Siblings come from left to right. -/
@[simp] theorem preorderAll_cons (n : Node) (ns : List Node) :
    preorderAll (n :: ns) = n.preorder ++ preorderAll ns := preorderOnto_eq n _

mutual

/-- The nodes of a tree in pre-order, each with its depth. -/
def levels (depth : Nat) : Node → List (Nat × Node)
  | n@(composite _ _ cs _) => (depth, n) :: levelsAll (depth + 1) cs
  | n@(terminal ..) => [(depth, n)]
  | n@(token ..) => [(depth, n)]
  | n@(missing _) => [(depth, n)]

/-- The same for some trees of equal depth. -/
def levelsAll (depth : Nat) : List Node → List (Nat × Node)
  | [] => []
  | n :: ns => n.levels depth ++ levelsAll depth ns

end

section Visit

variable {m : Type → Type} [Monad m] {σ : Type}

mutual

/-- **The walk that can stop early.** `step` gets the enclosing nodes,
innermost first, the node itself and the state so far. -/
def visit (step : List Node → Node → σ → m (Flow σ)) (enclosing : List Node) :
    Node → σ → m (Flow σ)
  | n@(composite _ _ cs _), s => do
    match ← step enclosing n s with
    | .halt s => return .halt s
    | .further s => visitAll step (n :: enclosing) cs s
  | n@(terminal ..), s => step enclosing n s
  | n@(token ..), s => step enclosing n s
  | n@(missing _), s => step enclosing n s

/-- The same for some trees, one after the other. -/
def visitAll (step : List Node → Node → σ → m (Flow σ)) (enclosing : List Node) :
    List Node → σ → m (Flow σ)
  | [], s => return .further s
  | n :: ns, s => do
    match ← visit step enclosing n s with
    | .halt s => return .halt s
    | .further s => visitAll step enclosing ns s

end

/-- **The walk through a tree**, if there is one. -/
def traverse (step : List Node → Node → σ → m (Flow σ)) (root : Node) (s : σ) : m (Flow σ) :=
  if root.isMissing then return .further s else root.visit step [] s

end Visit

end Node

end Arbor
