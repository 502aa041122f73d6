import Arbor.Proofs.Node.Path

/-!
# Searching a tree

The nodes of a tree in pre-order are a list, and all queries that walk the tree are operations
on that list, which is empty where there is no tree (`Node.nodes`). Finding all selected nodes
filters it (`Node.findAll_eq_filterM`), finding the first one searches it
(`Node.findFirst_eq_findM?`), and the first nodes of a walk are a prefix of it
(`Node.firstNodes_eq_take`). The first two are equations between computations, in any monad the
question is asked in: so the same nodes are asked, in the same order, and no more of them.

Which nodes are asked shows in a monad that keeps a list of them (`Node.noting`). A search asks
just the nodes up to the first that is selected, wherever in the tree it is
(`Node.asked_findFirst`). `Node.queries_of_preorder` says all of this at once.

A missing child can be selected, too, and then a search ends there with nothing to show. It is
never an instance of a class, so a tree contains an instance just if it has a positive number of
them. To ask for an instance can be a fault: counting asks every node, and so counts just if
none is at fault, while a search may have ended before.
-/

namespace Arbor

namespace Node

/-- The nodes of some trees are those of each in turn. -/
theorem preorderAll_eq_flatMap (ns : List Node) : preorderAll ns = ns.flatMap preorder := by
  induction ns with
  | nil => rfl
  | cons n ns ih => rw [preorderAll_cons, List.flatMap_cons, ih]

/-! ## Walks are operations on the list of nodes -/

section Lists

variable {m : Type → Type} [Monad m] [LawfulMonad m]

/-- A fold that collects what is selected, latest first, in a monad. -/
theorem foldlM_select (select : Node → m Bool) (ns found : List Node) :
    ns.foldlM (fun found n => do return if ← select n then n :: found else found) found
      = ns.filterAuxM select found := by
  induction ns generalizing found with
  | nil => rfl
  | cons n ns ih =>
    rw [List.foldlM_cons, List.filterAuxM, bind_assoc]
    refine bind_congr fun b => ?_
    rw [pure_bind, ih]
    cases b <;> rfl

/-- **Finding all selected nodes filters the nodes in pre-order**, whatever it is to ask one. -/
theorem findAll_eq_filterM (select : Node → m Bool) (root : Node) :
    root.findAll select = root.nodes.filterM select := by
  have hstep : root.findAll select = do
      let found ← root.traverse (fun _ n found => Flow.further <$>
        (do return if ← select n then n :: found else found)) []
      return found.state.reverse := by
    unfold findAll
    simp only [map_bind, map_pure]
  rw [hstep, traverse_further, bind_map_left, foldlM_select, List.filterM]
  rfl

/-- **Finding the first selected node searches the nodes in pre-order.** -/
theorem findFirst_eq_findM? (select : Node → m Bool) (root : Node) :
    root.findFirst select
      = Option.filter (fun n => !n.isMissing) <$> root.nodes.findM? select := by
  rw [findFirst, search, traverse_eq_walk, ← map_node_tours, bind_assoc]
  generalize root.tours = rs
  -- what has been asked so far has no influence
  generalize ([] : List Node) = asked
  induction rs generalizing asked with
  | nil => simp [walk, List.findM?, Flow.state]
  | cons r rs ih =>
    rw [walk, List.map_cons, List.findM?, bind_assoc, bind_assoc, map_bind]
    refine bind_congr fun b => ?_
    cases b with
    | true =>
      cases hr : r.node.isMissing <;> simp [Flow.state, Option.filter, hr]
    | false => simpa using ih (r.node :: asked)

end Lists

/-- Yields a node, unless as many as are wanted have been. -/
def yield (_ : List Node) (n : Node) (s : Nat × List Node) : Id (Flow (Nat × List Node)) :=
  if s.1 ≤ 1 then return .halt (0, n :: s.2) else return .further (s.1 - 1, n :: s.2)

/-- A loop that is left after some rounds has come as far in the list. -/
theorem walk_yield (rs : List Route) {left : Nat} (hleft : 0 < left) (seen : List Node) :
    (Id.run (walk yield rs (left, seen))).state.2
      = ((rs.map Route.node).take left).reverse ++ seen := by
  induction rs generalizing left seen with
  | nil => rw [List.map_nil, List.take_nil]; rfl
  | cons r rs ih =>
    by_cases hone : left ≤ 1
    · obtain rfl : left = 1 := by omega
      rfl
    · obtain ⟨k, rfl⟩ : ∃ k, left = k + 1 := ⟨left - 1, by omega⟩
      have hgo : walk yield (r :: rs) (k + 1, seen) = walk yield rs (k, r.node :: seen) := by
        rw [walk, yield, if_neg hone]
        rfl
      rw [hgo, ih (by omega), List.map_cons, List.take_succ_cons, List.reverse_cons,
        List.append_assoc, List.singleton_append]

/-- **The first nodes of a walk are the first in pre-order.** -/
theorem firstNodes_eq_take (limit : Nat) (root : Node) :
    root.firstNodes limit = root.nodes.take limit := by
  unfold firstNodes
  split
  · next hzero => rw [hzero, List.take_zero]
  · next hne =>
    show (Id.run (root.traverse yield (limit, []))).state.2.reverse = _
    rw [traverse_eq_walk, walk_yield _ (Nat.pos_of_ne_zero hne), map_node_tours, List.append_nil,
      List.reverse_reverse]

/-! ## Which nodes are asked -/

/-- A question that keeps a list of the nodes it is asked of, latest first. -/
def noting (select : Node → Bool) (n : Node) : StateM (List Node) Bool := do
  modify (n :: ·)
  return select n

theorem run_findM?_noting (select : Node → Bool) (ns asked : List Node) :
    (ns.findM? (noting select)).run asked
      = (ns.find? select, (ns.take (ns.findIdx select + 1)).reverse ++ asked) := by
  induction ns generalizing asked with
  | nil => rfl
  | cons n ns ih =>
    rw [List.findM?, StateT.run_bind, List.findIdx_cons]
    have hnoted : (noting select n).run asked = (select n, n :: asked) := rfl
    rw [hnoted]
    cases hn : select n with
    | true =>
      rw [List.find?_cons_of_pos hn]
      rfl
    | false =>
      rw [List.find?_cons_of_neg (by simp [hn])]
      refine (ih (n :: asked)).trans ?_
      rw [cond_false, List.take_succ_cons, List.reverse_cons, List.append_assoc,
        List.singleton_append]

/-- **A search asks the nodes up to the first that is selected**, and all if none is. -/
theorem asked_findFirst (select : Node → Bool) (root : Node) :
    ((root.findFirst (noting select)).run []).2.reverse
      = root.nodes.take (root.nodes.findIdx select + 1) := by
  rw [findFirst_eq_findM?, StateT.run_map, run_findM?_noting]
  show ((root.nodes.take _).reverse ++ []).reverse = _
  rw [List.append_nil, List.reverse_reverse]

theorem findFirst_pure (select : Node → Bool) (root : Node) :
    Id.run (root.findFirst fun n => return select n)
      = (root.nodes.filter select).head?.filter fun n => !n.isMissing := by
  rw [findFirst_eq_findM?, Id.run_map, List.idRun_findM?, List.head?_filter]
  rfl

/-! ## Instances of a class -/

section Answers

variable {α ε : Type} {p : α → Except ε Bool} {q : α → Bool} {l : List α}

theorem filterAuxM_of_answers (h : ∀ a ∈ l, p a = .ok (q a)) (found : List α) :
    l.filterAuxM p found = .ok ((l.filter q).reverse ++ found) := by
  induction l generalizing found with
  | nil => rfl
  | cons a l ih =>
    obtain ⟨ha, hl⟩ := List.forall_mem_cons.mp h
    rw [List.filterAuxM, ha, List.filter_cons]
    refine (ih hl _).trans ?_
    cases q a with
    | true =>
      rw [cond_true, if_pos rfl, List.reverse_cons, List.append_assoc, List.singleton_append]
    | false => rw [cond_false, if_neg Bool.false_ne_true]

/-- With an answer for every element, to filter is to filter by the answers. -/
theorem filterM_of_answers (h : ∀ a ∈ l, p a = .ok (q a)) : l.filterM p = .ok (l.filter q) := by
  rw [List.filterM, filterAuxM_of_answers h, List.append_nil]
  exact congrArg _ (List.reverse_reverse _)

/-- And to search is to search by them. -/
theorem findM?_of_answers (h : ∀ a ∈ l, p a = .ok (q a)) : l.findM? p = .ok (l.find? q) := by
  induction l with
  | nil => rfl
  | cons a l ih =>
    obtain ⟨ha, hl⟩ := List.forall_mem_cons.mp h
    rw [List.findM?, ha]
    cases hq : q a with
    | true =>
      rw [List.find?_cons_of_pos hq]
      rfl
    | false =>
      rw [List.find?_cons_of_neg (by simp [hq])]
      exact ih hl

/-- The answer of a question, where it has one. -/
def answer (p : α → Except ε Bool) (a : α) : Bool := (p a).toOption.getD false

theorem eq_ok_answer {a : α} (h : ∃ b, p a = .ok b) : p a = .ok (answer p a) := by
  obtain ⟨b, hb⟩ := h
  rw [answer, hb]
  rfl

theorem exists_answer_of_filterAuxM {found r : List α} (h : l.filterAuxM p found = .ok r) :
    ∀ a ∈ l, ∃ b, p a = .ok b := by
  induction l generalizing found with
  | nil => exact fun a ha => absurd ha List.not_mem_nil
  | cons a l ih =>
    rw [List.filterAuxM] at h
    cases ha : p a with
    | error f =>
      rw [ha] at h
      cases h
    | ok b =>
      rw [ha] at h
      exact List.forall_mem_cons.mpr ⟨⟨b, ha⟩, ih h⟩

/-- **To filter is to ask every element**: there is a result just if each has an answer. -/
theorem exists_filterM_iff : (∃ r, l.filterM p = .ok r) ↔ ∀ a ∈ l, ∃ b, p a = .ok b := by
  constructor
  · rintro ⟨r, hr⟩
    cases hl : l.filterAuxM p [] with
    | error f =>
      rw [List.filterM, hl] at hr
      cases hr
    | ok found => exact exists_answer_of_filterAuxM hl
  · exact fun h => ⟨_, filterM_of_answers fun a ha => eq_ok_answer (h a ha)⟩

end Answers

section Instances

variable {h : Hierarchy} {cls : Option Rule} {root : Node}

/-- A missing child is an instance of nothing. -/
theorem isMissing_of_isA {n : Node} (hn : n.isA h cls = .ok true) : n.isMissing = false := by
  cases n with
  | missing => cases hn
  | _ => rfl

/-- So nothing that a search for an instance finds is missing. -/
theorem containsRule_eq_findM? :
    root.containsRule h cls = Option.isSome <$> root.nodes.findM? (isA h cls) := by
  have hfind : root.containsRule h cls = Option.isSome <$> root.findFirst (isA h cls) := rfl
  rw [hfind, findFirst_eq_findM?]
  rcases findM?_cases (isA h cls) root.nodes with hall | ⟨before, a, after, -, -, hend⟩
  · rw [findM?_of_refused hall]
    rfl
  · rcases hend with ⟨ha, hend⟩ | ⟨f, -, hend⟩ <;> rw [hend]
    · show Except.ok (Option.filter _ (some a)).isSome = _
      rw [Option.filter_some, isMissing_of_isA ha]
      rfl
    · rfl

theorem countRule_eq_filterM :
    root.countRule h cls = List.length <$> root.nodes.filterM (isA h cls) := by
  rw [← findAll_eq_filterM]
  rfl

theorem exists_countRule_iff :
    (∃ k, root.countRule h cls = .ok k) ↔ ∀ n ∈ root.nodes, ∃ b, n.isA h cls = .ok b := by
  rw [← exists_filterM_iff, countRule_eq_filterM]
  cases root.nodes.filterM (isA h cls) with
  | error f => exact iff_of_false (fun ⟨k, hk⟩ => by cases hk) fun ⟨r, hr⟩ => by cases hr
  | ok r => exact iff_of_true ⟨_, rfl⟩ ⟨_, rfl⟩

/-- **A tree contains an instance if it has some.** -/
theorem containsRule_of_countRule {k : Nat} (hk : root.countRule h cls = .ok k) :
    root.containsRule h cls = .ok (decide (0 < k)) := by
  have hanswers : ∀ n ∈ root.nodes, n.isA h cls = .ok (answer (isA h cls) n) :=
    fun n hn => eq_ok_answer (exists_countRule_iff.mp ⟨k, hk⟩ n hn)
  rw [countRule_eq_filterM, filterM_of_answers hanswers] at hk
  cases hk
  rw [containsRule_eq_findM?, findM?_of_answers hanswers, ← List.head?_filter]
  show Except.ok (List.head? _).isSome = Except.ok (decide (0 < List.length _))
  cases root.nodes.filter (answer (isA h cls)) <;> rfl

/-- It has none if a search comes to its end. -/
theorem countRule_of_containsRule (hno : root.containsRule h cls = .ok false) :
    root.countRule h cls = .ok 0 := by
  have hnone : root.nodes.findM? (isA h cls) = .ok none := by
    rw [containsRule_eq_findM?] at hno
    match hfind : root.nodes.findM? (isA h cls) with
    | .error f =>
      rw [hfind] at hno
      cases hno
    | .ok (some a) =>
      rw [hfind] at hno
      cases hno
    | .ok none => rfl
  rw [countRule_eq_filterM, filterM_of_answers (q := fun _ => false) (findM?_eq_none_iff.mp hnone),
    List.filter_false]
  rfl

end Instances

/-- **Queries see a prefix of the nodes in pre-order**, which are the root and then those of its
children in turn, and none where the root is missing. All selected nodes are the list filtered;
the first is the head of those, unless it is the place of a missing child, and to find it the
nodes are asked that stand in the list up to it, or all if there is none. A walk that is left after
some nodes has seen as many of the first ones as there are. A tree contains an instance of a class
just if the number of its instances is positive: that number is there if every node can be asked,
it says whether the tree contains one, and it is zero if the tree does not. -/
theorem queries_of_preorder (root : Node) :
    root.preorder = root :: root.children.flatMap preorder
      ∧ (root.isMissing = false → root.nodes = root.preorder)
      ∧ (root.isMissing = true → root.nodes = [])
      ∧ (∀ select : Node → Bool,
        Id.run (root.findAll fun n => return select n) = root.nodes.filter select
        ∧ (∀ n, Id.run (root.findFirst fun n => return select n) = some n
          ↔ (Id.run (root.findAll fun n => return select n)).head? = some n ∧ n.isMissing = false)
        ∧ (root.isWhole = true → Id.run (root.findFirst fun n => return select n)
          = (Id.run (root.findAll fun n => return select n)).head?)
        ∧ ((root.findFirst (noting select)).run []).2.reverse
          = root.nodes.take (root.nodes.findIdx select + 1))
      ∧ (∀ limit, root.firstNodes limit = root.nodes.take limit)
      ∧ ∀ h cls,
        ((∃ k, root.countRule h cls = .ok k) ↔ ∀ n ∈ root.nodes, ∃ b, n.isA h cls = .ok b)
        ∧ (∀ k, root.countRule h cls = .ok k →
          root.containsRule h cls = .ok (decide (0 < k)))
        ∧ (root.containsRule h cls = .ok false → root.countRule h cls = .ok 0) := by
  refine ⟨?_, nodes_of_present, nodes_of_isMissing, fun select => ?_,
    fun limit => firstNodes_eq_take limit root, fun h cls =>
    ⟨exists_countRule_iff, fun k => containsRule_of_countRule, countRule_of_containsRule⟩⟩
  · rw [preorder_eq_cons, preorderAll_eq_flatMap]
  · have hall := findAll_pure select root
    refine ⟨hall, fun n => ?_, fun hwhole => ?_, asked_findFirst select root⟩
    · rw [hall, findFirst_pure, Option.filter_eq_some_iff, Bool.not_eq_true']
    · rw [hall, findFirst_pure]
      cases hfirst : (root.nodes.filter select).head? with
      | none => rfl
      | some n =>
        have hn : n ∈ root.nodes := List.mem_of_mem_filter (List.mem_of_head? hfirst)
        exact Option.filter_some_pos (List.all_eq_true.mp hwhole n (nodes_subset root hn))

end Node

/-- The first leaf of `x = 42` is found when the root and the leaf have been asked, and the walk
does not get to the number. -/
theorem Node.queries_of_preorder_assignment :
    Sample.assignment.isWhole = true
      ∧ Id.run (Sample.assignment.findFirst fun n => return n.isLeaf)
        = (Id.run (Sample.assignment.findAll fun n => return n.isLeaf)).head?
      ∧ (((Sample.assignment.findFirst (noting isLeaf)).run []).2.reverse).map serial = [5, 3]
      ∧ (Sample.assignment.firstNodes 3).map serial = [5, 3, 4]
      ∧ Sample.assignment.containsRule .empty (some (.plain (utf8 "sum"))) = .ok true := by
  obtain ⟨-, hnodes, -, hqueries, hfirst, hrules⟩ := queries_of_preorder Sample.assignment
  obtain ⟨-, -, hhead, hasked⟩ := hqueries isLeaf
  rw [hnodes rfl] at hasked
  refine ⟨rfl, hhead rfl, ?_, ?_, (hrules .empty (some (.plain (utf8 "sum")))).2.1 1 rfl⟩
  · rw [hasked]
    rfl
  · rw [hfirst, hnodes rfl]
    rfl

end Arbor
