import Arbor.Node.Query

/-!
# Walks that do not stop

A walk whose step never halts goes through all nodes in pre-order, so it is a fold
over the list `Node.preorder` (`Node.visit_further`), and where the root can be missing
one over `Node.nodes` (`Node.traverse_further`). Searching a tree for all
selected nodes is such a walk, and with a question that cannot fault it is the
filter of that list (`Node.findAll_pure`). The leaves of a tree are the case where
the question is whether a node is a leaf.
-/

namespace Arbor

namespace Node

section Visit

variable {m : Type → Type} [Monad m] [LawfulMonad m] {σ : Type}

mutual

/-- **A walk that does not stop is a fold over the nodes in pre-order.** -/
theorem visit_further (step : Node → σ → m σ) (enclosing : List Node) (n : Node) (s : σ) :
    n.visit (fun _ n s => Flow.further <$> step n s) enclosing s
      = Flow.further <$> n.preorder.foldlM (fun s n => step n s) s := by
  cases n with
  | composite i r cs sp =>
    rw [visit, preorder_composite, List.foldlM_cons, bind_map_left, map_bind]
    refine bind_congr fun s' => ?_
    exact visitAll_further step (composite i r cs sp :: enclosing) cs s'
  | terminal i r t sp => simp [visit]
  | token i k t sp => simp [visit]
  | missing i => simp [visit]

/-- The same for some trees, one after the other. -/
theorem visitAll_further (step : Node → σ → m σ) (enclosing ns : List Node) (s : σ) :
    visitAll (fun _ n s => Flow.further <$> step n s) enclosing ns s
      = Flow.further <$> (preorderAll ns).foldlM (fun s n => step n s) s := by
  cases ns with
  | nil => simp [visitAll]
  | cons n ns =>
    rw [visitAll, visit_further step enclosing n s, preorderAll_cons, List.foldlM_append,
      bind_map_left, map_bind]
    refine bind_congr fun s' => ?_
    exact visitAll_further step enclosing ns s'

end

/-- The same from a root that may be missing. -/
theorem traverse_further (step : Node → σ → m σ) (root : Node) (s : σ) :
    root.traverse (fun _ n s => Flow.further <$> step n s) s
      = Flow.further <$> root.nodes.foldlM (fun s n => step n s) s := by
  unfold traverse nodes
  split
  · rw [List.foldlM_nil, map_pure]
  · exact visit_further step [] root s

end Visit

theorem nodes_of_isMissing {root : Node} (h : root.isMissing = true) : root.nodes = [] := if_pos h

theorem nodes_of_present {root : Node} (h : root.isMissing = false) :
    root.nodes = root.preorder :=
  if_neg (by simp [h])

theorem nodes_subset (root : Node) : root.nodes ⊆ root.preorder := by
  unfold nodes
  split
  · exact List.nil_subset _
  · exact List.Subset.refl _

theorem preorderAll_singleton (n : Node) : preorderAll [n] = n.preorder := by
  rw [preorderAll_cons, preorderAll_nil, List.append_nil]

theorem preorderAll_append (ns ms : List Node) :
    preorderAll (ns ++ ms) = preorderAll ns ++ preorderAll ms := by
  induction ns with
  | nil => rfl
  | cons n ns ih => rw [List.cons_append, preorderAll_cons, preorderAll_cons, ih, List.append_assoc]

/-- A composite comes before the nodes below it, and they before its siblings. -/
theorem preorderAll_composite (serial : Nat) (rule : Option Rule) (cs : List Node)
    (span : Span) (ns : List Node) :
    preorderAll (.composite serial rule cs span :: ns)
      = .composite serial rule cs span :: (preorderAll cs ++ preorderAll ns) := by
  rw [preorderAll_cons, preorder_composite, List.cons_append]

/-- A leaf is alone. -/
theorem preorderAll_of_isLeaf {n : Node} (h : n.isLeaf = true) (ns : List Node) :
    preorderAll (n :: ns) = n :: preorderAll ns := by
  cases n with
  | composite | missing => exact absurd h Bool.false_ne_true
  | terminal | token => rw [preorderAll_cons]; rfl

theorem mem_preorder_self (n : Node) : n ∈ n.preorder := by
  cases n <;> exact List.mem_cons_self

mutual

/-- What is below a node of a tree is a stretch of the nodes of the tree. -/
theorem isInfix_preorder {n : Node} (root : Node) (h : n ∈ root.preorder) :
    n.preorder <:+: root.preorder := by
  cases root with
  | composite i r cs s =>
    rw [preorder_composite] at h ⊢
    rcases List.mem_cons.mp h with rfl | h
    · exact List.infix_refl _
    · exact List.infix_cons (isInfix_preorderAll cs h)
  | _ =>
    obtain rfl := List.mem_singleton.mp h
    exact List.infix_refl _

theorem isInfix_preorderAll {n : Node} (ns : List Node) (h : n ∈ preorderAll ns) :
    n.preorder <:+: preorderAll ns := by
  cases ns with
  | nil => exact absurd h List.not_mem_nil
  | cons m ns =>
    rw [preorderAll_cons] at h ⊢
    rcases List.mem_append.mp h with h | h
    · exact (isInfix_preorder m h).trans (List.prefix_append _ _).isInfix
    · exact (isInfix_preorderAll ns h).trans (List.suffix_append _ _).isInfix

end

theorem preorder_subset {n : Node} (root : Node) (h : n ∈ root.preorder) :
    n.preorder ⊆ root.preorder :=
  (isInfix_preorder root h).subset

theorem preorder_eq_cons (n : Node) : n.preorder = n :: preorderAll n.children := by
  cases n <;> rfl

theorem mem_preorderAll {n : Node} {ns : List Node} :
    n ∈ preorderAll ns ↔ ∃ m ∈ ns, n ∈ m.preorder := by
  induction ns with
  | nil => simp
  | cons m ns ih => simp [ih]

theorem mem_preorderAll_of_mem_children {n m : Node} {ns : List Node} (hm : m ∈ preorderAll ns)
    (h : n ∈ m.children) : n ∈ preorderAll ns := by
  refine (isInfix_preorderAll ns hm).subset ?_
  rw [preorder_eq_cons]
  exact List.mem_cons_of_mem _ (mem_preorderAll.mpr ⟨n, h, n.mem_preorder_self⟩)

mutual

/-- **Every node is the root or a child**: the nodes of a tree are, in another order, the root
and the children of them all. -/
theorem preorder_perm (n : Node) : n.preorder.Perm (n :: n.preorder.flatMap children) := by
  cases n with
  | composite i r cs s =>
    rw [preorder_composite, List.flatMap_cons]
    exact (preorderAll_perm cs).cons _
  | _ => exact List.Perm.refl _

theorem preorderAll_perm (ns : List Node) :
    (preorderAll ns).Perm (ns ++ (preorderAll ns).flatMap children) := by
  cases ns with
  | nil => exact List.Perm.refl _
  | cons n ns =>
    rw [preorderAll_cons, List.flatMap_append, List.cons_append]
    refine ((preorder_perm n).append (preorderAll_perm ns)).trans ?_
    rw [List.cons_append]
    refine List.Perm.cons n ?_
    rw [← List.append_assoc, ← List.append_assoc]
    exact List.perm_append_comm.append_right _

end

/-- A node is larger than all that is below it. -/
theorem length_preorder_lt {n m : Node} (h : n ∈ preorderAll m.children) :
    n.preorder.length < m.preorder.length := by
  rw [preorder_eq_cons m, List.length_cons]
  exact Nat.lt_succ_of_le (isInfix_preorderAll m.children h).length_le

mutual

/-- The nodes of a tree with their depths are its nodes in pre-order. -/
theorem map_snd_levels (depth : Nat) (n : Node) : (n.levels depth).map Prod.snd = n.preorder := by
  cases n with
  | composite serial rule children span =>
    rw [levels, List.map_cons, map_snd_levelsAll, preorder_composite]
  | _ => rfl

theorem map_snd_levelsAll (depth : Nat) (ns : List Node) :
    (levelsAll depth ns).map Prod.snd = preorderAll ns := by
  cases ns with
  | nil => rfl
  | cons n ns =>
    rw [levelsAll, List.map_append, map_snd_levels, map_snd_levelsAll, preorderAll_cons]

end

/-- A fold that collects what is selected, latest first. -/
theorem foldl_select (select : Node → Bool) (ns found : List Node) :
    ns.foldl (fun found n => if select n then n :: found else found) found
      = (ns.filter select).reverse ++ found := by
  induction ns generalizing found with
  | nil => rfl
  | cons n ns ih =>
    rw [List.foldl_cons, ih, List.filter_cons]
    by_cases h : select n <;> simp [h]

/-- **Finding all selected nodes is filtering the nodes in pre-order.** -/
theorem findAll_pure (select : Node → Bool) (root : Node) :
    Id.run (root.findAll fun n => return select n) = root.nodes.filter select := by
  show (Flow.state (Id.run (root.traverse
    (fun _ n found => Flow.further <$> (pure (if select n then n :: found else found) : Id _))
    []))).reverse = _
  rw [traverse_further, Id.run_map, List.idRun_foldlM]
  show (root.nodes.foldl (fun found n => if select n then n :: found else found) []).reverse = _
  rw [foldl_select, List.append_nil, List.reverse_reverse]

/-- A missing root is no leaf. -/
theorem leaves_eq_filter (root : Node) : root.leaves = root.preorder.filter isLeaf := by
  refine (findAll_pure isLeaf root).trans ?_
  cases root <;> rfl

end Node

end Arbor
