import Arbor.Proofs.Parser.Numbering
import Mathlib.Data.List.Nodup

/-!
# No node is in a tree twice

To be the same node is to have the same serial number, and queries that look for a node by its
number rely on it that a tree has the number once. A parse hands out every number once, but it
also hands out nodes again that are in its table. So this has to be proved: the numbers in a
parsed tree are different at all places (`Parser.nodup_serial_of_parse`).

A node with a leaf is used once because its leaf is (`Numbered.countP_serial_le`). A hollow node
is used as often as its parent is, since it has one parent only and is there once. The parent
is larger, so this ends at a node with a leaf or at the root (`Numbered.nodup_serial`).
-/

namespace Arbor

namespace Node

/-- If all nodes with a number are hollow, they are found among the hollow ones. -/
theorem count_hollows {ns : List Node} {k : Nat} (h : ∀ n ∈ ns, n.serial = k → n.isHollow = true) :
    (ns.map serial).count k = (hollows ns).count k := by
  induction ns with
  | nil => rfl
  | cons n ns ih =>
    have ih := ih fun m hm => h m (List.mem_cons_of_mem _ hm)
    rw [← List.singleton_append, hollows_append, List.map_append, List.count_append,
      List.count_append, ih, hollows_singleton]
    by_cases hn : n.serial = k
    · rw [h n List.mem_cons_self hn]
      rfl
    · have hmiss : [n.serial].count k = 0 := List.count_eq_zero.mpr (by simpa using Ne.symm hn)
      cases n.isHollow with
      | true => rfl
      | false => rw [show [n].map serial = [n.serial] from rfl, hmiss]; rfl

/-- A number is at the top of some trees, or at a child of a node in them. -/
theorem count_serial_preorderAll (ns : List Node) (k : Nat) :
    ((preorderAll ns).map serial).count k = (ns.map serial).count k
      + ((preorderAll ns).flatMap fun m => m.children.map serial).count k := by
  rw [((preorderAll_perm ns).map serial).count_eq, List.map_append, List.count_append,
    List.map_flatMap]

/-- What is there at most once for each of the nodes with a number is there no more often than
the number. -/
theorem count_flatMap_le {ns : List Node} {f : Node → List Nat} {j k : Nat}
    (h : ∀ m ∈ ns, (f m).count k ≤ if m.serial = j then 1 else 0) :
    (ns.flatMap f).count k ≤ (ns.map serial).count j := by
  induction ns with
  | nil => exact Nat.le_refl _
  | cons n ns ih =>
    rw [List.flatMap_cons, List.count_append, List.map_cons, List.count_cons]
    have hn := h n List.mem_cons_self
    have hns := ih fun m hm => h m (List.mem_cons_of_mem _ hm)
    simp only [beq_iff_eq]
    omega

end Node

namespace Register

variable {made : Register} {held : List Nat} {k : Nat}

theorem mem_owned : k ∈ made.owned
    ↔ ∃ (j index : Nat) (m : Node), made[j]? = some (index, m) ∧ k ∈ Node.hollows m.children := by
  rw [owned, List.mem_flatMap]
  constructor
  · rintro ⟨⟨index, m⟩, hm, hk⟩
    obtain ⟨j, hj⟩ := List.mem_iff_getElem?.mp hm
    exact ⟨j, index, m, hj, hk⟩
  · rintro ⟨j, index, m, hj, hk⟩
    exact ⟨(index, m), List.mem_of_getElem? hj, hk⟩

/-- **A hollow node has one parent**, and is there once. -/
theorem Keeps.parent_unique (h : made.Keeps held) {j j' index index' : Nat} {m m' : Node}
    (hj : made[j]? = some (index, m)) (hj' : made[j']? = some (index', m'))
    (hk : k ∈ Node.hollows m.children) (hk' : k ∈ Node.hollows m'.children) :
    j = j' ∧ (Node.hollows m.children).count k ≤ 1 := by
  obtain ⟨hsingle, hpairwise⟩ := List.nodup_flatMap.mp (List.nodup_append.mp h.nodup).1
  refine ⟨?_, List.nodup_iff_count_le_one.mp (hsingle _ (List.mem_of_getElem? hj)) k⟩
  obtain ⟨hlt, hget⟩ := List.getElem?_eq_some_iff.mp hj
  obtain ⟨hlt', hget'⟩ := List.getElem?_eq_some_iff.mp hj'
  rcases Nat.lt_trichotomy j j' with hjj | hjj | hjj
  · have hdisjoint := List.pairwise_iff_getElem.mp hpairwise j j' hlt hlt' hjj
    rw [hget, hget'] at hdisjoint
    exact absurd hk' (hdisjoint hk)
  · exact hjj
  · have hdisjoint := List.pairwise_iff_getElem.mp hpairwise j' j hlt' hlt hjj
    rw [hget, hget'] at hdisjoint
    exact absurd hk (hdisjoint hk')

end Register

namespace Numbered

variable {made : Register} {pos next : Nat} {ns : List Node}

/-- **The number of a hollow node** is used no more often than that of its parent, or once where
it has none. -/
theorem count_hollow_le (h : Numbered made pos next ns) (hkeeps : made.Keeps (Node.hollows ns))
    {n : Node} (hn : n ∈ Node.preorderAll ns) (hhollow : n.isHollow = true)
    (hparent : ∀ m ∈ Node.preorderAll ns, n ∈ m.children →
      ((Node.preorderAll ns).map Node.serial).count m.serial ≤ 1) :
    ((Node.preorderAll ns).map Node.serial).count n.serial ≤ 1 := by
  obtain ⟨index, hindex⟩ := h.exists_made n hn
  -- whatever has the number is the node
  have hsame : ∀ m ∈ Node.preorderAll ns, m.serial = n.serial → m = n := fun m hm hserial =>
    h.eq_of_serial_eq hm (hserial ▸ hindex)
  have htop : (ns.map Node.serial).count n.serial = (Node.hollows ns).count n.serial :=
    Node.count_hollows fun m hm hserial =>
      hsame m (Node.mem_preorderAll.mpr ⟨m, hm, m.mem_preorder_self⟩) hserial ▸ hhollow
  have hbelow : ∀ m ∈ Node.preorderAll ns, (m.children.map Node.serial).count n.serial
      = (Node.hollows m.children).count n.serial := fun m hm =>
    Node.count_hollows fun c hc hserial =>
      hsame c (Node.mem_preorderAll_of_mem_children hm hc) hserial ▸ hhollow
  obtain ⟨-, hloose, hdisjoint⟩ := List.nodup_append.mp hkeeps.nodup
  rw [Node.count_serial_preorderAll, htop]
  by_cases howned : n.serial ∈ made.owned
  · obtain ⟨j, index', parent, hj, hk⟩ := Register.mem_owned.mp howned
    have hzero : (Node.hollows ns).count n.serial = 0 :=
      List.count_eq_zero.mpr fun hmem => hdisjoint _ howned _ hmem rfl
    rw [hzero, Nat.zero_add]
    have hcount : ((Node.preorderAll ns).flatMap
        fun m => m.children.map Node.serial).count n.serial
        ≤ ((Node.preorderAll ns).map Node.serial).count j := by
      refine Node.count_flatMap_le fun m hm => ?_
      rw [hbelow m hm]
      by_cases hmem : n.serial ∈ Node.hollows m.children
      · obtain ⟨k, hm'⟩ := h.exists_made m hm
        obtain ⟨heq, hone⟩ := hkeeps.parent_unique hm' hj hmem hk
        rw [if_pos heq]
        exact hone
      · rw [List.count_eq_zero.mpr hmem]
        exact Nat.zero_le _
    refine Nat.le_trans hcount ?_
    by_cases hmem : j ∈ (Node.preorderAll ns).map Node.serial
    · obtain ⟨m, hm, rfl⟩ := List.mem_map.mp hmem
      obtain rfl : m = parent := h.eq_of_serial_eq hm hj
      obtain ⟨c, hc, hserial⟩ := List.mem_map.mp hk
      have hchild : c ∈ m.children := (List.mem_filter.mp hc).1
      have heq := hsame c (Node.mem_preorderAll_of_mem_children hm hchild) hserial
      exact hparent m hm (heq ▸ hchild)
    · rw [List.count_eq_zero.mpr hmem]
      exact Nat.zero_le 1
  · have hzero : ((Node.preorderAll ns).flatMap
        fun m => m.children.map Node.serial).count n.serial = 0 := by
      refine List.count_eq_zero.mpr fun hmem => ?_
      obtain ⟨m, hm, hchild⟩ := List.mem_flatMap.mp hmem
      obtain ⟨k, hm'⟩ := h.exists_made m hm
      have hk : n.serial ∈ Node.hollows m.children := by
        rw [← List.count_pos_iff, ← hbelow m hm, List.count_pos_iff]
        exact hchild
      exact howned (Register.mem_owned.mpr ⟨_, k, m, hm', hk⟩)
    rw [hzero, Nat.add_zero]
    exact List.nodup_iff_count_le_one.mp hloose _

/-- **All numbers are different.** -/
theorem nodup_serial (h : Numbered made pos next ns) (hkeeps : made.Keeps (Node.hollows ns)) :
    ((Node.preorderAll ns).map Node.serial).Nodup := by
  have hone : ∀ n ∈ Node.preorderAll ns,
      ((Node.preorderAll ns).map Node.serial).count n.serial ≤ 1 := by
    intro n hn
    -- the induction goes up: a parent is larger, and no node is larger than all trees together
    induction hsize : (Node.preorderAll ns).length - n.preorder.length
      using Nat.strongRecOn generalizing n with
    | ind size ih =>
      cases hhollow : n.isHollow with
      | true =>
        refine h.count_hollow_le hkeeps hn hhollow fun m hm hchild => ih _ ?_ m hm rfl
        have hlt : n.preorder.length < m.preorder.length := Node.length_preorder_lt
          (Node.mem_preorderAll.mpr ⟨n, hchild, n.mem_preorder_self⟩)
        have hle := (Node.isInfix_preorderAll ns hm).length_le
        omega
      | false =>
        obtain ⟨index, hindex⟩ := h.exists_made n hn
        have hcount := h.countP_serial_le hindex hhollow
        rw [List.count_eq_countP, List.countP_map]
        refine Nat.le_trans (Nat.le_of_eq ?_) (Nat.le_trans hcount ?_)
        · exact List.countP_congr fun m _ => by simp
        · split
          · exact Nat.le_refl 1
          · exact Nat.zero_le 1
  refine List.nodup_iff_count_le_one.mpr fun k => ?_
  by_cases hk : k ∈ (Node.preorderAll ns).map Node.serial
  · obtain ⟨n, hn, rfl⟩ := List.mem_map.mp hk
    exact hone n hn
  · rw [List.count_eq_zero.mpr hk]
    exact Nat.zero_le 1

end Numbered

/-- **No node is in a parsed tree twice**: the serial numbers at all places of the tree are
different. -/
theorem Parser.nodup_serial_of_parse {p : Parser} {tokens : List Token} {start : Text}
    {root : Node} (h : p.parse tokens start = .ok root) :
    (root.preorder.map Node.serial).Nodup := by
  obtain ⟨made, hroot, hkeeps⟩ := exists_numbered_of_parse h
  rw [← Node.preorderAll_singleton]
  exact hroot.nodup_serial hkeeps

/-! ## A sample

A tree with a node out of the table, and with three empty nodes. -/

namespace Sample

open Parse

/-- The production `trip = rest stop "," | rest stop rest .` The stop of its second side is that
of the first. -/
def trip : Production :=
  ⟨utf8 "trip", mark, .alt
    (.seq (.name mark (utf8 "rest")) (.seq (.name mark (utf8 "stop")) (.literal (utf8 ","))))
    (.seq (.name mark (utf8 "rest"))
      (.seq (.name mark (utf8 "stop")) (.name mark (utf8 "rest"))))⟩

/-- The production `stop = Word rest .` -/
def stop : Production :=
  ⟨utf8 "stop", mark, .seq (.name mark (utf8 "Word")) (.name mark (utf8 "rest"))⟩

/-- The production `rest = [ "," ] .` -/
def rest : Production := ⟨utf8 "rest", mark, .option (.literal (utf8 ","))⟩

def trips : Grammar := .ofProductions [trip, stop, rest, word]

def tripParser : Parser := ⟨trips, []⟩

/-- The tokens of `x`. -/
def tripTokens : List Token := [token "Word" "x" 0, token "EOF" "" 1]

theorem get?_trips (n : Text) : trips.get? n = [trip, stop, rest, word].find? (·.name = n) :=
  Grammar.get?_ofProductions _ n

theorem isCategory_trip : trips.isCategory (utf8 "trip") = false := by
  rw [Grammar.isCategory, Grammar.members?, get?_trips]
  rfl

theorem isCategory_stop : trips.isCategory (utf8 "stop") = false := by
  rw [Grammar.isCategory, Grammar.members?, get?_trips]
  rfl

theorem isCategory_rest : trips.isCategory (utf8 "rest") = false := by
  rw [Grammar.isCategory, Grammar.members?, get?_trips]
  rfl

theorem terminal?_stop : Expr.terminal? trips (.name mark (utf8 "stop")) = none :=
  Expr.terminal?_name_eq_none_iff.mpr ⟨by decide, by rw [Grammar.has, get?_trips]; rfl⟩

theorem terminal?_rest : Expr.terminal? trips (.name mark (utf8 "rest")) = none :=
  Expr.terminal?_name_eq_none_iff.mpr ⟨by decide, by rw [Grammar.has, get?_trips]; rfl⟩

/-- Whether an expression matches from one index to another, with these numbers in the match. -/
def Gives (opened : Grammar.Opened) (pos : Nat) (e : Expr)
    (s : State (tripParser.input tripTokens).size) (next : Nat) (serials : List Nat)
    (s' : State (tripParser.input tripTokens).size) : Prop :=
  ∃ m, Run (tripParser.input tripTokens) opened pos (.expr e) s (some m) s'
    ∧ m.next = next ∧ (Node.preorderAll m.value).map Node.serial = serials

section Trip

variable {opened : Grammar.Opened} {pos mid next : Nat} {e f : Expr} {n : Text} {p : Production}
  {s s₁ s₂ : State (tripParser.input tripTokens).size} {ks ls : List Nat}

theorem Gives.seq (h : Gives opened pos e s mid ks s₁)
    (h' : Gives (openedAt opened pos mid) mid f s₁ next ls s₂) :
    Gives opened pos (.seq e f) s next (ks ++ ls) s₂ := by
  obtain ⟨m, hm, rfl, rfl⟩ := h
  obtain ⟨k, hk, rfl, rfl⟩ := h'
  refine ⟨_, .seq hm hk, rfl, ?_⟩
  show (Node.preorderAll (m.value ++ k.value)).map Node.serial = _
  rw [Node.preorderAll_append, List.map_append]

theorem Gives.seq_none (h : Gives opened pos e s mid ks s₁)
    (h' : Run (tripParser.input tripTokens) (openedAt opened pos mid) mid (.expr f) s₁ none s₂) :
    Run (tripParser.input tripTokens) opened pos (.expr (.seq e f)) s none s₂ := by
  obtain ⟨m, hm, rfl, -⟩ := h
  exact .seq hm h'

/-- A production that is not in the table makes a node with the next number. If it consumes
something, it gives the same node from then on. -/
theorem Gives.name (hn : Expr.terminal? trips (.name mark n) = none)
    (hc : trips.isCategory n = false) (hp : trips.get? n = some p)
    (ho : n ∉ opened) (ht : s.table.get? (n, pos) = none)
    (h : Gives (opened.insert n) pos p.body s next ks s₁) :
    ∃ s₂, Gives opened pos (.name mark n) s next (s₁.serial :: ks) s₂
      ∧ s₂.serial = s₁.serial + 1
      ∧ (∀ n' pos', n' ≠ n ∨ next = pos → s₂.table.get? (n', pos') = s₁.table.get? (n', pos'))
      ∧ (pos < next → ∀ opened' s', s'.table.get? (n, pos) = s₂.table.get? (n, pos) →
        Gives opened' pos (.name mark n) s' next (s₁.serial :: ks) s') := by
  obtain ⟨m, hm, rfl, rfl⟩ := h
  refine ⟨_, ⟨_, .name hn (.node ht ho hp (assemble_composite hc _ _ _) hm), rfl, ?_⟩, ?_, ?_, ?_⟩
  · exact congrArg (·.map Node.serial) (Node.preorderAll_singleton _)
  · exact State.serial_keep _ _ _ _
  · rintro n' pos' (hne | hnext)
    · exact State.get?_keep_of_ne fun heq => hne (Prod.mk.inj heq).1.symm
    · rw [State.keep_of_next_eq hnext]
      rfl
  · intro hlt opened' s' hs'
    refine ⟨_, .name hn (.hit (hs'.trans (State.get?_keep_self hlt))), rfl, ?_⟩
    exact congrArg (·.map Node.serial) (Node.preorderAll_singleton _)

/-- A comma is nowhere. -/
theorem run_comma : Run (tripParser.input tripTokens) opened pos (.expr (.literal (utf8 ","))) s
    none (s.fail pos (some (.text (utf8 ",")))) := by
  refine .reject rfl fun t ht => ?_
  obtain rfl : t = token "Word" "x" 0 := by
    obtain ⟨hlt, rfl⟩ := Array.getElem?_eq_some_iff.mp ht
    obtain rfl : pos = 0 := Nat.lt_one_iff.mp hlt
    rfl
  exact (by decide : ¬ utf8 "x" = utf8 ",")

/-- A rest is a new empty node, and does not get into the table. -/
theorem gives_rest (ho : utf8 "rest" ∉ opened) (ht : s.table.get? (utf8 "rest", pos) = none) :
    ∃ s₂, Gives opened pos (.name mark (utf8 "rest")) s pos [s.serial] s₂
      ∧ s₂.serial = s.serial + 1
      ∧ ∀ n' pos', s₂.table.get? (n', pos') = s.table.get? (n', pos') := by
  obtain ⟨s₂, hgives, hserial, htable, -⟩ := Gives.name terminal?_rest isCategory_rest
    (get?_trips _) ho ht ⟨_, .option run_comma, rfl, rfl⟩
  rw [State.serial_fail] at hgives hserial
  refine ⟨s₂, hgives, hserial, fun n' pos' => (htable n' pos' (.inr rfl)).trans ?_⟩
  rw [State.table_fail]

/-- **The tree of `x`** has the stop that the first side made, between two new rests. -/
theorem run_trip : ∃ m s, Run (tripParser.input tripTokens) ∅ 0 (.production (utf8 "trip"))
    (.start _) (some m) s ∧ m.next = 1
      ∧ (Node.preorderAll m.value).map Node.serial = [6, 4, 3, 1, 2, 5] := by
  have htrip : ∀ n, n ≠ utf8 "trip" →
      n ∉ Std.TreeSet.insert (∅ : Grammar.Opened) (utf8 "trip") := by
    intro n hne hmem
    exact (Grammar.mem_insert_opened.mp hmem).elim hne Std.TreeSet.not_mem_emptyc
  have hword : ∀ opened s, Gives opened 0 (.name mark (utf8 "Word")) s 1 [s.serial] s.fresh.2 :=
    fun opened s => ⟨_, .accept rfl (show 0 < 1 by decide) rfl, rfl, rfl⟩
  have hempty : ∀ n pos,
      (State.start (tripParser.input tripTokens).size).table.get? (n, pos) = none :=
    fun n pos => Std.DHashMap.get?_empty
  -- the first side makes a rest and a stop, and fails
  obtain ⟨s₁, hrest₁, hserial₁, htable₁⟩ :=
    gives_rest (htrip (utf8 "rest") (by decide)) (hempty (utf8 "rest") 0)
  have hempty₁ : ∀ n pos, s₁.table.get? (n, pos) = none :=
    fun n pos => (htable₁ n pos).trans (hempty n pos)
  obtain ⟨s₂, hrest₂, hserial₂, htable₂⟩ := gives_rest (s := s₁.fresh.2)
    Std.TreeSet.not_mem_emptyc (hempty₁ (utf8 "rest") 1)
  obtain ⟨s₃, hstop, hserial₃, htable₃, hagain⟩ := Gives.name terminal?_stop isCategory_stop
    (get?_trips _) (htrip (utf8 "stop") (by decide)) (hempty₁ (utf8 "stop") 0)
    ((hword _ s₁).seq hrest₂)
  have hfirst := hrest₁.seq_none (hstop.seq_none run_comma)
  -- the second side makes two more rests, around the same stop
  have htable : ∀ n pos, (s₃.fail 1 (some (.text (utf8 ",")))).table.get? (n, pos)
      = s₃.table.get? (n, pos) := by
    intro n pos
    rw [State.table_fail]
  have hempty₃ : ∀ pos, s₃.table.get? (utf8 "rest", pos) = none := fun pos =>
    ((htable₃ _ pos (.inl (by decide))).trans (htable₂ _ pos)).trans (hempty₁ _ pos)
  obtain ⟨s₄, hrest₄, hserial₄, htable₄⟩ :=
    gives_rest (htrip (utf8 "rest") (by decide)) ((htable _ 0).trans (hempty₃ 0))
  obtain ⟨s₅, hrest₅, hserial₅, -⟩ := gives_rest Std.TreeSet.not_mem_emptyc
    (((htable₄ _ 1).trans (htable _ 1)).trans (hempty₃ 1))
  have hsecond := hrest₄.seq
    ((hagain (by decide) _ s₄ ((htable₄ _ _).trans (htable _ _))).seq hrest₅)
  obtain ⟨m, hm, hnext, hserials⟩ := hsecond
  refine ⟨_, _, Run.node (hempty _ _) Std.TreeSet.not_mem_emptyc (get?_trips _)
    (assemble_composite isCategory_trip _ _ _) (.alt hfirst hm), hnext, ?_⟩
  have hroot := congrArg (·.map Node.serial) (Node.preorderAll_singleton
    (.composite s₅.serial (some (.production (utf8 "trip"))) m.value
      (spanOf (tripParser.input tripTokens) 0 m.value)))
  refine hroot.trans ?_
  show s₅.serial :: (Node.preorderAll m.value).map Node.serial = _
  replace hserial₁ : s₁.serial = 1 := hserial₁
  have hfresh : s₁.fresh.2.serial = s₁.serial + 1 := rfl
  rw [State.serial_fail] at hserial₄ hserials
  rw [hserials, hserial₅, hserial₄, hserial₃, hserial₂, hfresh, hserial₁]
  rfl

theorem exists_parse_trip : ∃ root, tripParser.parse tripTokens (utf8 "trip") = .ok root
    ∧ root.preorder.map Node.serial = [6, 4, 3, 1, 2, 5] := by
  obtain ⟨m, s, h, hm, hserials⟩ := run_trip
  obtain ⟨root, hok, hroot⟩ :=
    Parser.exists_parse_of_run (by decide) (Grammar.has_of_get? (get?_trips _)) h hm
  rw [hroot, Node.preorderAll_singleton] at hserials
  exact ⟨root, hok, hserials⟩

end Trip

end Sample

/-- The stop is in the tree once, and the three empty nodes are different. -/
theorem Parser.nodup_serial_of_parse_trip :
    ∃ root, Sample.tripParser.parse Sample.tripTokens (utf8 "trip") = .ok root
      ∧ root.preorder.map Node.serial = [6, 4, 3, 1, 2, 5]
      ∧ (root.preorder.map Node.serial).Nodup := by
  obtain ⟨root, hparse, hserials⟩ := Sample.exists_parse_trip
  exact ⟨root, hparse, hserials, nodup_serial_of_parse hparse⟩

end Arbor
