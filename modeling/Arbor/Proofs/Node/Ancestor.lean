import Arbor.Proofs.Node.Path

/-!
# The nearest enclosing instance of a class

A node lies **below** another if it is one of the nodes of its children's trees (`Node.Below`); it
is **enclosed** in a tree by the nodes of the tree that it lies below (`Node.Encloses`). Neither
says anything about paths. In a tree that has no serial number twice, the path to a node without
its end is just the list of the nodes that enclose it (`LeadsTo.mem_dropLast_iff`), and in it
every node lies below those before it (`LeadsTo.pairwise_below`). So to go back along the path is
to go outwards, and the first instance of a class on the way is the nearest
(`Node.ancestor?_of_nodup`).

Whether a node is an instance of a class can be a fault. The search faults at a node where it is
one, if all nodes further in have been refused.
-/

namespace Arbor

namespace Node

variable {root n a b target : Node} {path : List Node}

/-- Whether a node lies strictly below another. -/
def Below (n a : Node) : Prop := n ∈ preorderAll a.children

theorem not_below_self (a : Node) : ¬ a.Below a :=
  fun h => Nat.lt_irrefl _ (length_preorder_lt h)

theorem Below.asymm (h : n.Below a) : ¬ a.Below n :=
  fun h' => Nat.lt_asymm (length_preorder_lt h) (length_preorder_lt h')

/-- Whether a node of a tree is a proper ancestor of a target. -/
def Encloses (root a target : Node) : Prop := a ∈ root.preorder ∧ target.Below a

/-! ## Paths lead inwards -/

theorem LeadsTo.subset (h : root.LeadsTo path target) : path ⊆ root.preorder := by
  induction h with
  | @here n =>
    intro m hm
    rw [List.mem_singleton.mp hm]
    exact n.mem_preorder_self
  | @down n child path target hc _ ih =>
    intro m hm
    rw [preorder_eq_cons]
    rcases List.mem_cons.mp hm with rfl | hm
    · exact List.mem_cons_self
    · exact List.mem_cons_of_mem _ (mem_preorderAll.mpr ⟨child, hc, ih hm⟩)

/-- **Every node of a path lies below those before it.** -/
theorem LeadsTo.pairwise_below (h : root.LeadsTo path target) :
    path.Pairwise fun a b => b.Below a := by
  induction h with
  | here => exact List.pairwise_singleton _ _
  | @down n child path target hc h ih =>
    refine List.pairwise_cons.mpr ⟨fun m hm => ?_, ih⟩
    exact mem_preorderAll.mpr ⟨child, hc, h.subset hm⟩

theorem LeadsTo.eq_dropLast_append (h : root.LeadsTo path target) :
    path = path.dropLast ++ [target] := by
  obtain ⟨below, hlast⟩ := List.getLast?_eq_some_iff.mp h.exists_eq_cons.2
  rw [hlast, List.dropLast_concat]

/-- **The nodes before the end of a path are those that enclose its end.** -/
theorem LeadsTo.mem_dropLast_iff (hnodup : (root.preorder.map serial).Nodup)
    (h : root.LeadsTo path target) : a ∈ path.dropLast ↔ root.Encloses a target := by
  have hsplit := h.eq_dropLast_append
  constructor
  · intro ha
    have hpairs := h.pairwise_below
    rw [hsplit] at hpairs
    exact ⟨h.subset (List.dropLast_subset _ ha),
      (List.pairwise_append.mp hpairs).2.2 a ha target (List.mem_singleton_self _)⟩
  · rintro ⟨ha, hbelow⟩
    -- a path through the node is the only path
    obtain ⟨above, habove⟩ := exists_leadsTo root ha
    obtain ⟨child, hc, hin⟩ := mem_preorderAll.mp hbelow
    obtain ⟨ahead, hahead⟩ := exists_leadsTo child hin
    obtain ⟨whole, hwhole, hmem⟩ := habove.through (.down hc hahead)
    rw [hwhole.unique hnodup h, hsplit] at hmem
    refine (List.mem_append.mp hmem).resolve_right fun heq => ?_
    rw [List.mem_singleton.mp heq] at hbelow
    exact not_below_self target hbelow

/-! ## Going outwards -/

section Outwards

variable {ε : Type} {p : Node → Except ε Bool} {l before after : List Node}

/-- In a list that goes outwards, what comes before a node is what lies below it. -/
theorem mem_before_iff (h : (before ++ a :: after).Pairwise Below) :
    b ∈ before ↔ b ∈ before ++ a :: after ∧ b.Below a := by
  obtain ⟨-, hafter, hbefore⟩ := List.pairwise_append.mp h
  constructor
  · exact fun hb => ⟨List.mem_append_left _ hb, hbefore b hb a List.mem_cons_self⟩
  · rintro ⟨hb, hbelow⟩
    refine (List.mem_append.mp hb).resolve_right fun hb => ?_
    rcases List.mem_cons.mp hb with rfl | hb
    · exact not_below_self b hbelow
    · exact hbelow.asymm ((List.pairwise_cons.mp hafter).1 b hb)

theorem refused_before_iff (h : (before ++ a :: after).Pairwise Below) :
    (∀ b ∈ before, p b = .ok false)
      ↔ ∀ b ∈ before ++ a :: after, b.Below a → p b = .ok false := by
  constructor
  · exact fun hrefused b hb hbelow => hrefused b ((mem_before_iff h).mpr ⟨hb, hbelow⟩)
  · intro hrefused b hb
    obtain ⟨hb, hbelow⟩ := (mem_before_iff h).mp hb
    exact hrefused b hb hbelow

/-- A search outwards gets to a node if all that lies below it is refused. -/
theorem findM?_of_mem (h : l.Pairwise Below) (ha : a ∈ l)
    (hbelow : ∀ b ∈ l, b.Below a → p b = .ok false) :
    ∃ after, l.findM? p = (a :: after).findM? p := by
  obtain ⟨before, after, rfl⟩ := List.append_of_mem ha
  exact ⟨after, findM?_append_of_refused ((refused_before_iff h).mpr hbelow) _⟩

/-- It ends at a node of which this is so, unless it finds nothing. -/
theorem exists_nearest (h : l.Pairwise Below) (hne : l.findM? p ≠ .ok none) :
    ∃ a ∈ l, (∀ b ∈ l, b.Below a → p b = .ok false)
      ∧ (p a = .ok true ∧ l.findM? p = .ok (some a)
        ∨ ∃ f, p a = .error f ∧ l.findM? p = .error f) := by
  rcases findM?_cases p l with hall | ⟨before, a, after, rfl, hbefore, hend⟩
  · exact absurd (findM?_of_refused hall) hne
  · exact ⟨a, by simp, (refused_before_iff h).mp hbefore, hend⟩

/-- **A search outwards finds the nearest node.** -/
theorem findM?_eq_some_iff (h : l.Pairwise Below) :
    l.findM? p = .ok (some a)
      ↔ a ∈ l ∧ p a = .ok true ∧ ∀ b ∈ l, b.Below a → p b = .ok false := by
  constructor
  · intro hfound
    have hne : l.findM? p ≠ .ok none := by simp [hfound]
    obtain ⟨a', ha', hbelow, ⟨hp, hend⟩ | ⟨f, -, hend⟩⟩ := exists_nearest h hne
    · cases hfound.symm.trans hend
      exact ⟨ha', hp, hbelow⟩
    · cases hfound.symm.trans hend
  · rintro ⟨ha, hp, hbelow⟩
    obtain ⟨after, hfind⟩ := findM?_of_mem h ha hbelow
    rw [hfind, List.findM?, hp]
    rfl

/-- It faults at the nearest node that is at fault, if it gets there. -/
theorem findM?_eq_error_iff (h : l.Pairwise Below) {f : ε} :
    l.findM? p = .error f
      ↔ ∃ a ∈ l, p a = .error f ∧ ∀ b ∈ l, b.Below a → p b = .ok false := by
  constructor
  · intro hfault
    have hne : l.findM? p ≠ .ok none := by simp [hfault]
    obtain ⟨a, ha, hbelow, ⟨-, hend⟩ | ⟨f', hp, hend⟩⟩ := exists_nearest h hne
    · cases hfault.symm.trans hend
    · cases hfault.symm.trans hend
      exact ⟨a, ha, hp, hbelow⟩
  · rintro ⟨a, ha, hp, hbelow⟩
    obtain ⟨after, hfind⟩ := findM?_of_mem h ha hbelow
    rw [hfind, List.findM?, hp]
    rfl

end Outwards

/-- To look for an enclosing instance is to search the path backwards. -/
theorem ancestor?_of_leadsTo (hnodup : (root.preorder.map serial).Nodup)
    (htarget : target.isMissing = false) (hpath : root.LeadsTo path target) (h : Hierarchy)
    (cls : Option Rule) :
    root.ancestor? h cls target = path.dropLast.reverse.findM? (isA h cls) := by
  have honce : root.preorder.countP (·.same target) ≤ 1 := by
    have hcount := List.nodup_iff_count_le_one.mp hnodup target.serial
    rw [List.count, List.countP_map] at hcount
    exact hcount
  rw [ancestor?, path?_of_leadsTo htarget hpath honce]
  rfl

/-- **The nearest enclosing instance of a class.** Let a tree have no serial number twice. For
a node of it, what is found is the node that encloses it, is an instance of the class, and has
between itself and the node only nodes that are none. Nothing is found just if no node that
encloses it is an instance. To ask a node can be a fault, and then so is the search, just if it
gets there. The node itself is not found, whatever the spans are. -/
theorem ancestor?_of_nodup (hnodup : (root.preorder.map serial).Nodup)
    (hmem : target ∈ root.preorder) (htarget : target.isMissing = false) (h : Hierarchy)
    (cls : Option Rule) :
    (∀ a, root.ancestor? h cls target = .ok (some a)
        ↔ root.Encloses a target ∧ a.isA h cls = .ok true
          ∧ ∀ b, root.Encloses b target → b.Below a → b.isA h cls = .ok false)
      ∧ (root.ancestor? h cls target = .ok none
        ↔ ∀ b, root.Encloses b target → b.isA h cls = .ok false)
      ∧ (∀ f, root.ancestor? h cls target = .error f
        ↔ ∃ a, root.Encloses a target ∧ a.isA h cls = .error f
          ∧ ∀ b, root.Encloses b target → b.Below a → b.isA h cls = .ok false)
      ∧ ∀ a, root.ancestor? h cls target = .ok (some a) → a.same target = false := by
  obtain ⟨path, hpath⟩ := exists_leadsTo root hmem
  have hin : ∀ a, a ∈ path.dropLast.reverse ↔ root.Encloses a target := fun a =>
    List.mem_reverse.trans (hpath.mem_dropLast_iff hnodup)
  have hout : path.dropLast.reverse.Pairwise Below :=
    List.pairwise_reverse.mpr (hpath.pairwise_below.sublist (List.dropLast_sublist _))
  rw [ancestor?_of_leadsTo hnodup htarget hpath]
  have hfound := fun a => findM?_eq_some_iff (p := isA h cls) (a := a) hout
  have hfault := fun f => findM?_eq_error_iff (p := isA h cls) (f := f) hout
  simp only [hin] at hfound hfault
  refine ⟨hfound, ?_, hfault, fun a ha => ?_⟩
  · rw [findM?_eq_none_iff]
    simp only [hin]
  · obtain ⟨⟨ha, hbelow⟩, -⟩ := (hfound a).mp ha
    refine Bool.eq_false_iff.mpr fun hsame => not_below_self a ?_
    rwa [← List.inj_on_of_nodup_map hnodup ha hmem (of_decide_eq_true hsame)] at hbelow

end Node

namespace Sample

/-- The sum that the number is all of encloses it, and nothing is between them. -/
theorem encloses_total : assignment.Encloses total (number 2) :=
  ⟨leadsTo_total.mem_preorder, List.mem_cons_self⟩

end Sample

/-- The sum around the number is found, though it has the same span, and not the number
itself. -/
theorem Node.ancestor?_of_nodup_assignment :
    Sample.total.span = (Sample.number 2).span
      ∧ Sample.assignment.ancestor? .empty (some (.plain (utf8 "sum"))) (Sample.number 2)
        = .ok (some Sample.total)
      ∧ Sample.assignment.ancestor? .empty (some (.plain (utf8 "number"))) (Sample.number 2)
        = .ok none := by
  have hmem := Sample.leadsTo_number.mem_preorder
  refine ⟨rfl, ?_, ?_⟩
  · refine ((ancestor?_of_nodup Sample.nodup_assignment hmem rfl .empty _).1 _).mpr
      ⟨Sample.encloses_total, rfl, fun b hb hbelow => ?_⟩
    -- below the sum is only the number, which encloses nothing
    obtain rfl := List.mem_singleton.mp hbelow
    exact absurd hb.2 List.not_mem_nil
  · refine (ancestor?_of_nodup Sample.nodup_assignment hmem rfl .empty _).2.1.mpr fun b hb => ?_
    rw [← Sample.leadsTo_number.mem_dropLast_iff Sample.nodup_assignment] at hb
    rcases List.mem_cons.mp hb with rfl | hb
    · rfl
    · obtain rfl := List.mem_singleton.mp hb
      rfl

end Arbor
