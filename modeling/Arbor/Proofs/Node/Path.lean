import Arbor.Proofs.Node.Route
import Mathlib.Data.List.Nodup

/-!
# The path to a node

A path leads from the root of a tree down to a node, each node a child of the one before
(`Node.LeadsTo`). Every node of a tree has one: its route, read from the outermost node on
(`Node.exists_route_iff`).

The search for a path asks first for the node with the serial number of the target, and only
if there is none, for the first node in pre-order with the span of the target. In a tree that
has no number twice, a node is found as itself, however many others have its span, and there
is only one path to it (`Node.path?_of_nodup`). A target from elsewhere is stood for by the first
node with its span. A missing child has no span to compare, so to get to one in this second
search is a fault.
-/

namespace Arbor

namespace Node

/-- **A path from a node down to a target**, both included. -/
inductive LeadsTo : Node → List Node → Node → Prop
  /-- A node leads to itself. -/
  | here {n} : LeadsTo n [n] n
  /-- It leads to what its children lead to. -/
  | down {n child path target} (hc : child ∈ n.children) (h : LeadsTo child path target) :
      LeadsTo n (n :: path) target

variable {root n target : Node} {path : List Node}

/-! ## Paths and routes -/

mutual

theorem leadsTo_of_mem_routes {r : Route} (enclosing : List Node) (n : Node)
    (h : r ∈ n.routes enclosing) :
    ∃ path, n.LeadsTo path r.node ∧ r.path = enclosing.reverse ++ path := by
  cases n with
  | composite i rule cs s =>
    rcases List.mem_cons.mp h with rfl | h
    · exact ⟨_, .here, List.reverse_cons⟩
    · obtain ⟨child, hc, path, hpath, heq⟩ := leadsTo_of_mem_routesAll _ cs h
      refine ⟨_, .down hc hpath, ?_⟩
      rw [heq, List.reverse_cons, List.append_assoc, List.singleton_append]
  | _ =>
    rw [List.mem_singleton.mp h]
    exact ⟨_, .here, List.reverse_cons⟩

theorem leadsTo_of_mem_routesAll {r : Route} (enclosing ns : List Node)
    (h : r ∈ routesAll enclosing ns) :
    ∃ child ∈ ns, ∃ path, child.LeadsTo path r.node ∧ r.path = enclosing.reverse ++ path := by
  cases ns with
  | nil => exact absurd h List.not_mem_nil
  | cons n ns =>
    rcases List.mem_append.mp h with h | h
    · exact ⟨n, List.mem_cons_self, leadsTo_of_mem_routes enclosing n h⟩
    · obtain ⟨child, hc, hpath⟩ := leadsTo_of_mem_routesAll enclosing ns h
      exact ⟨child, List.mem_cons_of_mem _ hc, hpath⟩

end

theorem mem_routesAll_of_mem {r : Route} {enclosing ns : List Node} (hn : n ∈ ns)
    (h : r ∈ n.routes enclosing) : r ∈ routesAll enclosing ns := by
  induction ns with
  | nil => exact absurd hn List.not_mem_nil
  | cons m ns ih =>
    rcases List.mem_cons.mp hn with rfl | hn
    · exact List.mem_append_left _ h
    · exact List.mem_append_right _ (ih hn)

theorem LeadsTo.exists_route (h : n.LeadsTo path target) (enclosing : List Node) :
    ∃ r ∈ n.routes enclosing, r.node = target ∧ r.path = enclosing.reverse ++ path := by
  induction h generalizing enclosing with
  | @here n =>
    rw [routes_eq_cons]
    exact ⟨_, List.mem_cons_self, rfl, List.reverse_cons⟩
  | @down n child path target hc _ ih =>
    obtain ⟨r, hr, hnode, hpath⟩ := ih (n :: enclosing)
    rw [routes_eq_cons]
    refine ⟨r, List.mem_cons_of_mem _ (mem_routesAll_of_mem hc hr), hnode, ?_⟩
    rw [hpath, List.reverse_cons, List.append_assoc, List.singleton_append]

/-- **The paths of a tree are its routes.** -/
theorem exists_route_iff :
    (∃ r ∈ root.routes [], r.node = target ∧ r.path = path) ↔ root.LeadsTo path target := by
  constructor
  · rintro ⟨r, hr, rfl, rfl⟩
    obtain ⟨path, hpath, heq⟩ := leadsTo_of_mem_routes [] root hr
    rw [heq]
    exact hpath
  · exact fun h => h.exists_route []

theorem mem_preorder_of_mem_routes {r : Route} {enclosing : List Node}
    (h : r ∈ root.routes enclosing) : r.node ∈ root.preorder := by
  rw [← map_node_routes enclosing]
  exact List.mem_map_of_mem h

theorem LeadsTo.mem_preorder (h : root.LeadsTo path target) : target ∈ root.preorder := by
  obtain ⟨r, hr, rfl, -⟩ := exists_route_iff.mpr h
  exact mem_preorder_of_mem_routes hr

/-- Every node of a tree has a path. -/
theorem exists_leadsTo (root : Node) (h : n ∈ root.preorder) : ∃ path, root.LeadsTo path n := by
  rw [← map_node_routes []] at h
  obtain ⟨r, hr, rfl⟩ := List.mem_map.mp h
  exact ⟨r.path, exists_route_iff.mp ⟨r, hr, rfl, rfl⟩⟩

/-- What a node on a path leads to, the path leads to through it. -/
theorem LeadsTo.through {ahead : List Node} (h : root.LeadsTo path n)
    (h' : n.LeadsTo ahead target) : ∃ whole, root.LeadsTo whole target ∧ n ∈ whole := by
  induction h with
  | here =>
    refine ⟨ahead, h', ?_⟩
    cases h' <;> exact List.mem_cons_self
  | down hc _ ih =>
    obtain ⟨whole, hwhole, hn⟩ := ih h'
    exact ⟨_, .down hc hwhole, List.mem_cons_of_mem _ hn⟩

/-- A path starts at the root, ends at its target and goes from parents to children. -/
theorem LeadsTo.exists_eq_cons (h : root.LeadsTo path n) :
    (∃ below, path = root :: below) ∧ path.getLast? = some n := by
  induction h with
  | here => exact ⟨⟨_, rfl⟩, rfl⟩
  | down _ _ ih =>
    obtain ⟨⟨below, rfl⟩, hlast⟩ := ih
    exact ⟨⟨_, rfl⟩, by rw [List.getLast?_cons_cons, hlast]⟩

theorem LeadsTo.isChain {R : Node → Node → Prop} (h : root.LeadsTo path n)
    (hR : ∀ m ∈ root.preorder, ∀ c ∈ m.children, R m c) : path.IsChain R := by
  induction h with
  | here => exact .singleton _
  | @down n child path target hc h ih =>
    have hbelow : ∀ m ∈ child.preorder, ∀ c ∈ m.children, R m c := by
      intro m hm
      refine hR m ?_
      rw [preorder_eq_cons]
      exact List.mem_cons_of_mem _ (mem_preorderAll.mpr ⟨child, hc, hm⟩)
    obtain ⟨⟨below, rfl⟩, -⟩ := h.exists_eq_cons
    exact .cons_cons (hR n n.mem_preorder_self child hc) (ih hbelow)

/-- **There is one path to a node**, if no number is used twice. -/
theorem LeadsTo.unique (hnodup : (root.preorder.map serial).Nodup) {chain : List Node}
    (h : root.LeadsTo path target) (h' : root.LeadsTo chain target) : path = chain := by
  obtain ⟨r, hr, hnode, rfl⟩ := exists_route_iff.mpr h
  obtain ⟨r', hr', hnode', rfl⟩ := exists_route_iff.mpr h'
  rw [← map_node_routes [], List.map_map] at hnodup
  have hserial : (serial ∘ Route.node) r = (serial ∘ Route.node) r' :=
    congrArg serial (hnode.trans hnode'.symm)
  rw [List.inj_on_of_nodup_map hnodup hr hr' hserial]

/-! ## Searching for a path -/

@[simp] theorem same_self (n : Node) : n.same n = true := decide_eq_true rfl

theorem pathTo?_eq_find? (root target : Node) :
    root.pathTo? target
      = ((root.routes []).find? fun r => r.node.same target).map Route.path := by
  rw [pathTo?, pathWhere_eq_findM?, Id.run_map, List.idRun_findM?]
  rfl

/-- A path that is found leads to a node of the tree. -/
theorem exists_leadsTo_of_pathTo? {target : Node} (h : root.pathTo? target = some path) :
    ∃ n, root.LeadsTo path n := by
  rw [pathTo?_eq_find?] at h
  obtain ⟨r, hr, rfl⟩ := Option.map_eq_some_iff.mp h
  exact ⟨r.node, exists_route_iff.mp ⟨r, List.mem_of_find?_eq_some hr, rfl, rfl⟩⟩

/-- What satisfies a question that at most one element does is found. -/
theorem find?_of_countP_le_one {α : Type} {p : α → Bool} {l : List α} {a : α} (ha : a ∈ l)
    (hp : p a = true) (honce : l.countP p ≤ 1) : l.find? p = some a := by
  obtain ⟨before, after, rfl⟩ := List.append_of_mem ha
  rw [List.countP_append, List.countP_cons_of_pos hp] at honce
  have hbefore : before.find? p = none := by
    rw [List.find?_eq_none]
    exact List.countP_eq_zero.mp (by omega)
  rw [List.find?_append, hbefore, List.find?_cons_of_pos hp, Option.none_or]

/-- **The path to a node is found**, if nothing else in the tree has its number. -/
theorem pathTo?_of_leadsTo (h : root.LeadsTo path target)
    (honce : root.preorder.countP (·.same target) ≤ 1) : root.pathTo? target = some path := by
  obtain ⟨r, hr, hnode, rfl⟩ := exists_route_iff.mpr h
  rw [← map_node_routes [], List.countP_map] at honce
  have hsame : r.node.same target = true := by rw [hnode, same_self]
  have hfound : (root.routes []).find? (fun r => r.node.same target) = some r :=
    find?_of_countP_le_one hr hsame honce
  rw [pathTo?_eq_find?, hfound]
  rfl

/-! ## Standing in for a target -/

/-- Whether a node has a span; of a missing child this cannot be asked. -/
def hasSpan (s : Span) (n : Node) : Except Fault Bool := return (← n.extent) = s

theorem hasSpan_of_isMissing {s : Span} (h : n.isMissing = true) :
    hasSpan s n = .error .noNode := by
  rw [hasSpan, extent, if_pos h]
  rfl

theorem hasSpan_of_isMissing_eq_false {s : Span} (h : n.isMissing = false) :
    hasSpan s n = .ok (n.span = s) := by
  rw [hasSpan, extent, h]
  rfl

/-- A node that is there is in a tree that is there. -/
theorem isMissing_of_mem_preorder (h : target ∈ root.preorder)
    (htarget : target.isMissing = false) : root.isMissing = false := by
  cases root with
  | missing i =>
    rw [List.mem_singleton.mp h] at htarget
    cases htarget
  | _ => rfl

theorem path?_of_isMissing (h : root.isMissing = true) : root.path? target = .ok none :=
  if_pos (.inl h)

/-- **A node of a tree is found as itself**, if nothing else in the tree has its number. -/
theorem path?_of_leadsTo (htarget : target.isMissing = false) (h : root.LeadsTo path target)
    (honce : root.preorder.countP (·.same target) ≤ 1) : root.path? target = .ok (some path) := by
  have hroot := isMissing_of_mem_preorder h.mem_preorder htarget
  rw [path?, if_neg (by simp [hroot, htarget]), pathTo?_of_leadsTo h honce]
  rfl

/-- A target from elsewhere is searched for by its span. -/
theorem path?_of_foreign (hforeign : ∀ n ∈ root.preorder, n.same target = false)
    (hroot : root.isMissing = false) (htarget : target.isMissing = false) :
    root.path? target = root.pathWhere (hasSpan target.span) := by
  have hnone : root.pathTo? target = none := by
    rw [pathTo?_eq_find?, Option.map_eq_none_iff, List.find?_eq_none]
    intro r hr
    rw [hforeign r.node (mem_preorder_of_mem_routes hr)]
    exact Bool.false_ne_true
  rw [path?, if_neg (by simp [hroot, htarget]), hnone, extent, htarget]
  rfl

/-- The search by span passes over nodes with other spans. -/
theorem findM?_hasSpan_append {s : Span} {before : List Route}
    (h : ∀ r ∈ before, r.node.isMissing = false ∧ r.node.span ≠ s) (after : List Route) :
    (before ++ after).findM? (fun r => hasSpan s r.node)
      = after.findM? fun r => hasSpan s r.node := by
  refine findM?_append_of_refused (fun r hr => ?_) after
  obtain ⟨hreal, hne⟩ := h r hr
  rw [hasSpan_of_isMissing_eq_false hreal, decide_eq_false hne]

/-- It stops at a node with the span, and at a missing child. -/
theorem pathWhere_hasSpan_of_split {s : Span} {before after : List Node}
    (hsplit : root.preorder = before ++ n :: after)
    (hbefore : ∀ m ∈ before, m.isMissing = false ∧ m.span ≠ s) :
    (n.isMissing = true → root.pathWhere (hasSpan s) = .error .noNode)
      ∧ (n.isMissing = false → n.span = s →
        ∃ path, root.pathWhere (hasSpan s) = .ok (some path) ∧ root.LeadsTo path n) := by
  rw [← map_node_routes []] at hsplit
  obtain ⟨rs, rest, hroutes, rfl, hrest⟩ := List.map_eq_append_iff.mp hsplit
  obtain ⟨r, rs', rfl, rfl, -⟩ := List.map_eq_cons_iff.mp hrest
  have hpassed : ∀ r ∈ rs, r.node.isMissing = false ∧ r.node.span ≠ s :=
    fun r hr => hbefore r.node (List.mem_map_of_mem hr)
  rw [pathWhere_eq_findM?, hroutes, findM?_hasSpan_append hpassed, List.findM?]
  constructor
  · intro hmissing
    rw [hasSpan_of_isMissing hmissing]
    rfl
  · intro hreal hspan
    rw [hasSpan_of_isMissing_eq_false hreal, decide_eq_true hspan]
    have hr : r ∈ root.routes [] := by simp [hroutes]
    exact ⟨r.path, rfl, exists_route_iff.mp ⟨r, hr, rfl, rfl⟩⟩

/-- In a tree without missing children, it finds the first node with the span. -/
theorem pathWhere_hasSpan_of_find? {s : Span} {first : Node}
    (hreal : ∀ n ∈ root.preorder, n.isMissing = false)
    (h : root.preorder.find? (·.span = s) = some first) :
    ∃ path, root.pathWhere (hasSpan s) = .ok (some path) ∧ root.LeadsTo path first := by
  obtain ⟨hspan, before, after, hsplit, hbefore⟩ := List.find?_eq_some_iff_append.mp h
  have hpassed : ∀ n ∈ before, n.isMissing = false ∧ n.span ≠ s := by
    intro n hn
    refine ⟨hreal n ?_, by simpa using hbefore n hn⟩
    rw [hsplit]
    exact List.mem_append_left _ hn
  have hin : first ∈ root.preorder := List.mem_of_find?_eq_some h
  exact (pathWhere_hasSpan_of_split hsplit hpassed).2 (hreal first hin) (by simpa using hspan)

/-- It finds nothing just if no node has the span. -/
theorem pathWhere_hasSpan_eq_none_iff {s : Span}
    (hreal : ∀ n ∈ root.preorder, n.isMissing = false) :
    root.pathWhere (hasSpan s) = .ok none ↔ ∀ n ∈ root.preorder, n.span ≠ s := by
  constructor
  · intro hnone n hn hspan
    cases h : root.preorder.find? (·.span = s) with
    | none => exact List.find?_eq_none.mp h n hn (decide_eq_true hspan)
    | some first =>
      obtain ⟨path, hpath, -⟩ := pathWhere_hasSpan_of_find? hreal h
      rw [hpath] at hnone
      cases hnone
  · intro hno
    have hpassed : ∀ r ∈ root.routes [], r.node.isMissing = false ∧ r.node.span ≠ s := by
      intro r hr
      have hr := mem_preorder_of_mem_routes hr
      exact ⟨hreal _ hr, hno _ hr⟩
    rw [pathWhere_eq_findM?, ← List.append_nil (root.routes []), findM?_hasSpan_append hpassed]
    rfl

/-- **The path to a target.** Let a tree have no serial number twice, and let the target be
the one node with its number.

A target in the tree is found as itself: the path to it is found, which is the only one. A
target from elsewhere is stood for by the first node in pre-order that has its span: if no child
is missing, the only path to that node is found, and nothing is found just if no node has
the span. If a child is missing, and no node before it has the span, the search is a fault; if
the root is missing, there is no tree and nothing is found. -/
theorem path?_of_nodup (hnodup : (root.preorder.map serial).Nodup)
    (hid : ∀ n ∈ root.preorder, n.same target = true → n = target)
    (htarget : target.isMissing = false) :
    (target ∈ root.preorder → ∃ path, root.path? target = .ok (some path)
        ∧ ∀ chain, root.LeadsTo chain target ↔ chain = path)
      ∧ (target ∉ root.preorder →
        (root.isWhole = true →
          (∀ first, root.preorder.find? (·.span = target.span) = some first →
            ∃ path, root.path? target = .ok (some path)
              ∧ ∀ chain, root.LeadsTo chain first ↔ chain = path)
          ∧ (root.path? target = .ok none ↔ ∀ n ∈ root.preorder, n.span ≠ target.span))
        ∧ (∀ before gap after, root.preorder = root :: before ++ gap :: after →
          gap.isMissing = true →
          (∀ n ∈ root :: before, n.isMissing = false ∧ n.span ≠ target.span) →
          root.path? target = .error .noNode)
        ∧ (root.isMissing = true → root.path? target = .ok none)) := by
  have honly : ∀ {n path}, root.LeadsTo path n → ∀ chain, root.LeadsTo chain n ↔ chain = path :=
    fun h chain => ⟨fun h' => h'.unique hnodup h, fun heq => heq ▸ h⟩
  refine ⟨fun hmem => ?_, fun hmem => ?_⟩
  · obtain ⟨path, hpath⟩ := exists_leadsTo root hmem
    have honce : root.preorder.countP (·.same target) ≤ 1 := by
      have hcount := List.nodup_iff_count_le_one.mp hnodup target.serial
      rw [List.count, List.countP_map] at hcount
      exact hcount
    exact ⟨path, path?_of_leadsTo htarget hpath honce, honly hpath⟩
  have hforeign : ∀ n ∈ root.preorder, n.same target = false := by
    intro n hn
    exact Bool.eq_false_iff.mpr fun hsame => hmem (hid n hn hsame ▸ hn)
  refine ⟨fun hwhole => ?_, fun before gap after hsplit hgap hbefore => ?_, path?_of_isMissing⟩
  · have hreal : ∀ n ∈ root.preorder, n.isMissing = false := by
      intro n hn
      simpa using List.all_eq_true.mp hwhole n hn
    rw [path?_of_foreign hforeign (hreal root root.mem_preorder_self) htarget]
    refine ⟨fun first hfirst => ?_, pathWhere_hasSpan_eq_none_iff hreal⟩
    obtain ⟨path, hpath, hleads⟩ := pathWhere_hasSpan_of_find? hreal hfirst
    exact ⟨path, hpath, honly hleads⟩
  · rw [path?_of_foreign hforeign (hbefore root List.mem_cons_self).1 htarget]
    exact (pathWhere_hasSpan_of_split hsplit hbefore).1 hgap

end Node

namespace Sample

/-- The span of `42` in `x = 42`. -/
def numberSpan : Span := ⟨⟨4, 1, 5⟩, ⟨6, 1, 7⟩⟩

/-- A number that is all there is in a sum, so that both have one span. -/
def number (serial : Nat) : Node :=
  .terminal serial (some (.plain (utf8 "number"))) (utf8 "42") numberSpan

def total : Node := .composite 1 (some (.plain (utf8 "sum"))) [number 2] numberSpan

/-- The tree of `x = 42`. -/
def assignment : Node :=
  .composite 5 (some (.plain (utf8 "assignment")))
    [.token 3 (utf8 "Ident") (utf8 "x") ⟨⟨0, 1, 1⟩, ⟨1, 1, 2⟩⟩,
      .token 4 (utf8 "Punct") (utf8 "=") ⟨⟨2, 1, 3⟩, ⟨3, 1, 4⟩⟩, total]
    ⟨⟨0, 1, 1⟩, ⟨6, 1, 7⟩⟩

theorem nodup_assignment : (assignment.preorder.map Node.serial).Nodup := by decide

theorem leadsTo_total : assignment.LeadsTo [assignment, total] total := by
  refine .down ?_ .here
  exact List.mem_cons_of_mem _ (List.mem_cons_of_mem _ List.mem_cons_self)

theorem leadsTo_number : assignment.LeadsTo [assignment, total, number 2] (number 2) := by
  refine .down ?_ (.down List.mem_cons_self .here)
  exact List.mem_cons_of_mem _ (List.mem_cons_of_mem _ List.mem_cons_self)

end Sample

/-- The number is found below the sum with its span; a copy of it is stood for by the sum. -/
theorem Node.path?_of_nodup_assignment :
    Sample.assignment.path? (Sample.number 2)
        = .ok (some [Sample.assignment, Sample.total, Sample.number 2])
      ∧ Sample.assignment.path? (Sample.number 9)
        = .ok (some [Sample.assignment, Sample.total]) := by
  constructor
  · have hmem := Sample.leadsTo_number.mem_preorder
    have hid : ∀ n ∈ Sample.assignment.preorder, n.same (Sample.number 2) = true →
        n = Sample.number 2 := fun n hn hsame =>
      List.inj_on_of_nodup_map Sample.nodup_assignment hn hmem (of_decide_eq_true hsame)
    obtain ⟨path, hpath, honly⟩ := (path?_of_nodup Sample.nodup_assignment hid rfl).1 hmem
    rw [hpath, (honly _).mp Sample.leadsTo_number]
  · have hforeign : ∀ n ∈ Sample.assignment.preorder, n.same (Sample.number 9) = false := by decide
    have hmem : Sample.number 9 ∉ Sample.assignment.preorder :=
      fun h => absurd (hforeign _ h) (by decide)
    have hid : ∀ n ∈ Sample.assignment.preorder, n.same (Sample.number 9) = true →
        n = Sample.number 9 := fun n hn hsame =>
      absurd hsame (by rw [hforeign n hn]; exact Bool.false_ne_true)
    have hwhole := ((path?_of_nodup Sample.nodup_assignment hid rfl).2 hmem).1 (by decide)
    obtain ⟨path, hpath, honly⟩ := hwhole.1 Sample.total rfl
    rw [hpath, (honly _).mp Sample.leadsTo_total]

end Arbor
