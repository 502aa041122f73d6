import Arbor.Node.Path
import Arbor.Proofs.Node.Walk

/-!
# Walks that can stop

A walk hands each node to its step together with the nodes that enclose it. So it is a loop
over the nodes in pre-order only if each of them comes with what encloses it: a **route**.
A tree has one route for each of its nodes (`Node.map_node_routes`), and a walk, whatever its
step does and wherever it stops, is a loop over the routes that can stop early
(`Node.visit_eq_walk`, and `Node.traverse_eq_walk` where the root may be missing).

The search for a path is such a walk. It is a search in the list of routes
(`Node.pathWhere_eq_findM?`), and no question about trees is left. A search whose question can
fault ends at the first element that is not refused (`Node.findM?_cases`).
-/

namespace Arbor

namespace Node

/-- **A node together with the nodes that enclose it**, innermost first. -/
structure Route where
  /-- What encloses the node. -/
  enclosing : List Node
  /-- The node. -/
  node : Node

/-- The nodes of a route from the outermost one down to the node. -/
def Route.path (r : Route) : List Node := (r.node :: r.enclosing).reverse

mutual

/-- **The routes to the nodes of a tree**, in pre-order, if some nodes enclose the tree. -/
def routes (enclosing : List Node) : Node → List Route
  | n@(composite _ _ cs _) => ⟨enclosing, n⟩ :: routesAll (n :: enclosing) cs
  | n@(terminal ..) => [⟨enclosing, n⟩]
  | n@(token ..) => [⟨enclosing, n⟩]
  | n@(missing _) => [⟨enclosing, n⟩]

/-- The routes to the nodes of some trees, one tree after the other. -/
def routesAll (enclosing : List Node) : List Node → List Route
  | [] => []
  | n :: ns => n.routes enclosing ++ routesAll enclosing ns

end

theorem routes_eq_cons (enclosing : List Node) (n : Node) :
    n.routes enclosing = ⟨enclosing, n⟩ :: routesAll (n :: enclosing) n.children := by
  cases n <;> rfl

mutual

/-- There is one route for each node. -/
theorem map_node_routes (enclosing : List Node) (n : Node) :
    (n.routes enclosing).map Route.node = n.preorder := by
  cases n with
  | composite i r cs s => exact congrArg _ (map_node_routesAll _ cs)
  | _ => rfl

theorem map_node_routesAll (enclosing ns : List Node) :
    (routesAll enclosing ns).map Route.node = preorderAll ns := by
  cases ns with
  | nil => rfl
  | cons n ns =>
    rw [routesAll, List.map_append, map_node_routes enclosing n, map_node_routesAll enclosing ns,
      preorderAll_cons]

end

/-- The routes to the nodes of a tree, if there is a tree. -/
def tours (root : Node) : List Route := if root.isMissing then [] else root.routes []

theorem map_node_tours (root : Node) : root.tours.map Route.node = root.nodes := by
  unfold tours nodes
  split
  · rfl
  · exact map_node_routes [] root

section Walk

variable {m : Type → Type} [Monad m] {σ : Type}

/-- Goes on with a walk, unless it has stopped. -/
def andThen (f : Flow σ) (next : σ → m (Flow σ)) : m (Flow σ) :=
  match f with
  | .halt s => return .halt s
  | .further s => next s

@[simp] theorem andThen_halt (s : σ) (next : σ → m (Flow σ)) :
    andThen (.halt s) next = pure (.halt s) := rfl

@[simp] theorem andThen_further (s : σ) (next : σ → m (Flow σ)) :
    andThen (.further s) next = next s := rfl

/-- **The loop over some routes that can stop early.** -/
def walk (step : List Node → Node → σ → m (Flow σ)) : List Route → σ → m (Flow σ)
  | [], s => return .further s
  | r :: rs, s => do andThen (← step r.enclosing r.node s) (walk step rs)

variable [LawfulMonad m]

theorem bind_andThen_pure (x : m (Flow σ)) :
    (do andThen (← x) fun s => return .further s) = x := by
  refine Eq.trans (bind_congr fun f => ?_) (bind_pure x)
  cases f <;> rfl

/-- A loop over two lists goes through the second one if it does not stop in the first. -/
theorem walk_append (step : List Node → Node → σ → m (Flow σ)) (rs rs' : List Route) (s : σ) :
    walk step (rs ++ rs') s = (do andThen (← walk step rs s) (walk step rs')) := by
  induction rs generalizing s with
  | nil => simp [walk]
  | cons r rs ih =>
    rw [List.cons_append, walk, walk, bind_assoc]
    refine bind_congr fun f => ?_
    cases f with
    | halt s => simp
    | further s => exact ih s

mutual

/-- **A walk is a loop over the routes.** -/
theorem visit_eq_walk (step : List Node → Node → σ → m (Flow σ)) (enclosing : List Node)
    (n : Node) (s : σ) : n.visit step enclosing s = walk step (n.routes enclosing) s := by
  cases n with
  | composite i r cs sp =>
    rw [visit, routes_eq_cons, walk]
    refine bind_congr fun f => ?_
    cases f with
    | halt s => rfl
    | further s => exact visitAll_eq_walk step _ cs s
  | _ => exact (bind_andThen_pure _).symm

theorem visitAll_eq_walk (step : List Node → Node → σ → m (Flow σ)) (enclosing ns : List Node)
    (s : σ) : visitAll step enclosing ns s = walk step (routesAll enclosing ns) s := by
  cases ns with
  | nil => rfl
  | cons n ns =>
    rw [visitAll, routesAll, walk_append, visit_eq_walk step enclosing n s]
    refine bind_congr fun f => ?_
    cases f with
    | halt s => rfl
    | further s => exact visitAll_eq_walk step enclosing ns s

end

/-- **So is a walk from a root**, which has no routes where it is missing. -/
theorem traverse_eq_walk (step : List Node → Node → σ → m (Flow σ)) (root : Node) (s : σ) :
    root.traverse step s = walk step root.tours s := by
  unfold traverse tours
  split
  · rfl
  · exact visit_eq_walk step [] root s

/-- **The search for a path is a search in the routes.** -/
theorem pathWhere_eq_findM? (select : Node → m Bool) (root : Node) :
    root.pathWhere select
      = Option.map Route.path <$> (root.routes []).findM? fun r => select r.node := by
  rw [pathWhere, visit_eq_walk]
  generalize root.routes [] = rs
  induction rs with
  | nil => simp [walk, List.findM?, Flow.state]
  | cons r rs ih =>
    rw [walk, List.findM?, bind_assoc, bind_assoc, map_bind]
    refine bind_congr fun b => ?_
    cases b with
    | true => simp [Flow.state, Route.path]
    | false => simpa using ih

end Walk

/-! ## Searches that can fault -/

section Fault

variable {α ε : Type} {p : α → Except ε Bool} {before l : List α}

/-- A search passes over what is refused. -/
theorem findM?_append_of_refused (h : ∀ b ∈ before, p b = .ok false) (l : List α) :
    (before ++ l).findM? p = l.findM? p := by
  induction before with
  | nil => rfl
  | cons b before ih =>
    rw [List.cons_append, List.findM?, h b List.mem_cons_self]
    exact ih fun c hc => h c (List.mem_cons_of_mem _ hc)

theorem findM?_of_refused (h : ∀ b ∈ l, p b = .ok false) : l.findM? p = .ok none := by
  rw [← List.append_nil l, findM?_append_of_refused h]
  rfl

/-- **How a search ends**: at the first element that is not refused, which is found or is a fault,
or with nothing if all are refused. -/
theorem findM?_cases (p : α → Except ε Bool) (l : List α) :
    (∀ b ∈ l, p b = .ok false) ∨ ∃ before a after, l = before ++ a :: after
      ∧ (∀ b ∈ before, p b = .ok false)
      ∧ (p a = .ok true ∧ l.findM? p = .ok (some a)
        ∨ ∃ f, p a = .error f ∧ l.findM? p = .error f) := by
  induction l with
  | nil => exact .inl fun b hb => absurd hb List.not_mem_nil
  | cons a l ih =>
    match ha : p a with
    | .error f => exact .inr ⟨[], a, l, rfl, by simp, .inr ⟨f, ha, by rw [List.findM?, ha]; rfl⟩⟩
    | .ok true => exact .inr ⟨[], a, l, rfl, by simp, .inl ⟨ha, by rw [List.findM?, ha]; rfl⟩⟩
    | .ok false =>
      have hgo : (a :: l).findM? p = l.findM? p := by
        rw [List.findM?, ha]
        rfl
      rcases ih with hall | ⟨before, b, after, rfl, hbefore, hend⟩
      · exact .inl (List.forall_mem_cons.mpr ⟨ha, hall⟩)
      · exact .inr ⟨a :: before, b, after, rfl, List.forall_mem_cons.mpr ⟨ha, hbefore⟩, hgo ▸ hend⟩

theorem findM?_eq_none_iff : l.findM? p = .ok none ↔ ∀ b ∈ l, p b = .ok false := by
  refine ⟨fun hnone => ?_, findM?_of_refused⟩
  rcases findM?_cases p l with hall | ⟨before, a, after, -, -, ⟨-, hend⟩ | ⟨f, -, hend⟩⟩
  · exact hall
  all_goals
    rw [hend] at hnone
    cases hnone

end Fault

end Node

end Arbor
