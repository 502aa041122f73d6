import Arbor.Proofs.Node.Walk
import Arbor.Proofs.Parser.Derivation

/-!
# The serial numbers of a parse

Every node that a parse makes takes the next serial number, and the nodes in the table keep
the numbers they have. So a number stands for one node for the whole of the parse, also for
nodes that are thrown away in the end. To say this, the nodes made so far are written down
in the order of their numbers, each with the index of the token where it begins: a
**register**. A run only ever adds to it (`Parse.Run.numbered`), and every node in a result
or in the table is in it under its number (`Numbered`).

A leaf consumes the token at its index, and no two places of a tree consume the same token.
Since the number of a node gives away the index where it begins, the number of a node that has
a leaf is used once in a tree (`Numbered.countP_serial_le`).

That does not hold of a **hollow** node, which has no leaf. But the table has no such node, so
whoever asked for it is the only one who has it: it becomes a child of one node, is thrown
away, or is still **held** (`Register.Keeps`).
-/

namespace Arbor

open scoped List

namespace Node

/-- Whether a tree has no leaf. -/
def isHollow (n : Node) : Bool := !n.preorder.any isLeaf

/-- The numbers of the hollow ones among some nodes. -/
def hollows (ns : List Node) : List Nat := (ns.filter isHollow).map serial

theorem hollows_append (ns ms : List Node) : hollows (ns ++ ms) = hollows ns ++ hollows ms := by
  rw [hollows, List.filter_append, List.map_append]
  rfl

theorem hollows_singleton (n : Node) : hollows [n] = if n.isHollow then [n.serial] else [] := by
  unfold hollows
  rw [List.filter_singleton]
  cases n.isHollow <;> rfl

theorem isHollow_of_isLeaf {n : Node} (h : n.isLeaf = true) : n.isHollow = false := by
  rw [isHollow, List.any_eq_true.mpr ⟨n, n.mem_preorder_self, h⟩]
  rfl

theorem children_of_isLeaf {n : Node} (h : n.isLeaf = true) : n.children = [] := by
  cases n with
  | composite => exact absurd h Bool.false_ne_true
  | terminal | token | missing => rfl

end Node

/-- The nodes a parse has made, by their serial numbers, each with the index where it
begins. -/
abbrev Register := List (Nat × Node)

namespace Register

/-- The numbers of the hollow nodes that are children. -/
def owned (made : Register) : List Nat := made.flatMap fun m => Node.hollows m.2.children

theorem owned_concat (made : Register) (pos : Nat) (n : Node) :
    owned (made ++ [(pos, n)]) = owned made ++ Node.hollows n.children := by
  rw [owned, List.flatMap_append, List.flatMap_singleton]
  rfl

/-- **Whether no hollow node is in two places**: those that are held are different, and none of
them is a child, and no other is a child of two nodes. -/
structure Keeps (made : Register) (held : List Nat) : Prop where
  /-- The places are different. -/
  nodup : (owned made ++ held).Nodup
  /-- The nodes have been made. -/
  lt : ∀ k ∈ owned made ++ held, k < made.length

namespace Keeps

variable {made : Register} {held held' : List Nat}

theorem nil : Keeps [] [] where
  nodup := List.nodup_nil
  lt _ hk := absurd hk List.not_mem_nil

/-- What is held can be thrown away. -/
theorem sublist (h : Keeps made held) (hsub : held' <+ held) : Keeps made held' where
  nodup := h.nodup.sublist (hsub.append_left _)
  lt k hk := h.lt k ((hsub.append_left _).subset hk)

/-- **A node takes its children** from what is held, and is held itself. -/
theorem concat {n : Node} (h : Keeps made (held ++ Node.hollows n.children)) (pos : Nat)
    (hn : n.serial = made.length) : Keeps (made ++ [(pos, n)]) (held ++ Node.hollows [n]) := by
  have hnew : ∀ k ∈ Node.hollows [n], k = made.length := by
    intro k hk
    rw [Node.hollows_singleton] at hk
    split at hk
    · exact (List.mem_singleton.mp hk).trans hn
    · exact absurd hk List.not_mem_nil
  have hperm : List.Perm (owned (made ++ [(pos, n)]) ++ (held ++ Node.hollows [n]))
      (owned made ++ (held ++ Node.hollows n.children) ++ Node.hollows [n]) := by
    rw [owned_concat, ← List.append_assoc, List.append_assoc (owned made)]
    exact (List.perm_append_comm.append_left _).append_right _
  refine ⟨hperm.nodup_iff.mpr (List.nodup_append.mpr ⟨h.nodup, ?_, ?_⟩), fun k hk => ?_⟩
  · rw [Node.hollows_singleton]
    split
    · exact List.pairwise_singleton _ _
    · exact List.nodup_nil
  · rintro k hk l hl rfl
    exact Nat.lt_irrefl _ (hnew k hl ▸ h.lt k hk)
  · rw [List.length_append]
    rcases List.mem_append.mp (hperm.mem_iff.mp hk) with hk | hk
    · exact Nat.lt_succ_of_lt (h.lt k hk)
    · exact hnew k hk ▸ Nat.lt_succ_self _

end Keeps

end Register

/-- **Whether nodes over the tokens from one index up to another are in a register**, with
all that is below them. -/
inductive Numbered (made : Register) : Nat → Nat → List Node → Prop
  | nil {pos} : Numbered made pos pos []
  | leaf {pos next n ns} (hn : n.isLeaf = true) (hm : made[n.serial]? = some (pos, n)) :
      Numbered made (pos + 1) next ns → Numbered made pos next (n :: ns)
  | composite {pos mid next serial rule cs span ns}
      (hm : made[serial]? = some (pos, .composite serial rule cs span)) :
      Numbered made pos mid cs → Numbered made mid next ns →
      Numbered made pos next (.composite serial rule cs span :: ns)

namespace Numbered

variable {made more : Register} {pos mid next : Nat} {ns ms : List Node}

theorem append (h : Numbered made pos mid ns) (h' : Numbered made mid next ms) :
    Numbered made pos next (ns ++ ms) := by
  induction h with
  | nil => exact h'
  | leaf hn hm _ ih => exact .leaf hn hm (ih h')
  | composite hm hc _ _ ih => exact .composite hm hc (ih h')

/-- Nodes stay in a register that is added to. -/
theorem mono (h : Numbered made pos next ns) (hm : made <+: more) : Numbered more pos next ns := by
  have hkept : ∀ {k : Nat} {x}, made[k]? = some x → more[k]? = some x := by
    intro k x hk
    obtain ⟨hlt, rfl⟩ := List.getElem?_eq_some_iff.mp hk
    exact List.prefix_iff_getElem?.mp hm k hlt
  induction h with
  | nil => exact .nil
  | leaf hn hk _ ih => exact .leaf hn (hkept hk) ih
  | composite hk _ _ ihc ih => exact .composite (hkept hk) ihc ih

theorem le (h : Numbered made pos next ns) : pos ≤ next := by
  induction h with
  | nil => exact Nat.le_refl _
  | leaf _ _ _ ih => exact Nat.le_of_succ_le ih
  | composite _ _ _ ihc ih => exact Nat.le_trans ihc ih

/-- Tokens are consumed where there is a leaf. -/
theorem lt_iff (h : Numbered made pos next ns) :
    pos < next ↔ (Node.preorderAll ns).any Node.isLeaf = true := by
  induction h with
  | nil => simp
  | leaf hn _ hrest ih =>
    rw [Node.preorderAll_of_isLeaf hn, List.any_cons, hn, Bool.true_or]
    exact iff_of_true hrest.le rfl
  | composite _ hc hrest ihc ih =>
    rw [Node.preorderAll_composite, List.any_cons, List.any_append, Bool.or_eq_true,
      Bool.or_eq_true, ← ihc, ← ih]
    have hle := hc.le
    have hle' := hrest.le
    simp only [Node.isLeaf, Bool.false_eq_true, false_or]
    omega

/-- A node that consumes something is not hollow. -/
theorem isHollow_eq_false {n : Node} (h : Numbered made pos next [n]) (hlt : pos < next) :
    n.isHollow = false := by
  rw [h.lt_iff, Node.preorderAll_singleton] at hlt
  rw [Node.isHollow, hlt]
  rfl

/-- Every node is in the register under its number. -/
theorem exists_made (h : Numbered made pos next ns) :
    ∀ n ∈ Node.preorderAll ns, ∃ k, made[n.serial]? = some (k, n) := by
  induction h with
  | nil => exact fun n hn => absurd hn List.not_mem_nil
  | leaf hn hm _ ih =>
    intro n hmem
    rw [Node.preorderAll_of_isLeaf hn] at hmem
    rcases List.mem_cons.mp hmem with rfl | hmem
    · exact ⟨_, hm⟩
    · exact ih n hmem
  | composite hm _ _ ihc ih =>
    intro n hmem
    rw [Node.preorderAll_composite] at hmem
    rcases List.mem_cons.mp hmem with rfl | hmem
    · exact ⟨_, hm⟩
    · exact (List.mem_append.mp hmem).elim (ihc n) (ih n)

/-- A node that is in the register under a number is the only one with that number. -/
theorem eq_of_serial_eq (h : Numbered made pos next ns) {n m : Node} {index : Nat}
    (hm : m ∈ Node.preorderAll ns) (hn : made[m.serial]? = some (index, n)) : m = n := by
  obtain ⟨k, hk⟩ := h.exists_made m hm
  exact (Prod.mk.inj (Option.some.inj (hk.symm.trans hn))).2

/-- **The number of a node that is not hollow is used once** over the tokens that have the one
at its index, and not at all over others. -/
theorem countP_serial_le (h : Numbered made pos next ns) {k index : Nat} {n : Node}
    (hk : made[k]? = some (index, n)) (hn : n.isHollow = false) :
    (Node.preorderAll ns).countP (·.serial = k) ≤ if pos ≤ index ∧ index < next then 1 else 0 := by
  induction h with
  | nil => exact Nat.zero_le _
  | @leaf pos next m ns hm hmade hrest ih =>
    rw [Node.preorderAll_of_isLeaf hm, List.countP_cons]
    have hle := hrest.le
    by_cases hs : m.serial = k
    · -- it is this leaf, and all that comes after it lies behind its token
      rw [hs, hk] at hmade
      obtain ⟨rfl, -⟩ := Prod.mk.inj (Option.some.inj hmade)
      grind
    · grind
  | @composite pos mid next serial rule cs span ns hmade hc hrest ihc ih =>
    rw [Node.preorderAll_composite, List.countP_cons, List.countP_append]
    have hle := hc.le
    have hle' := hrest.le
    by_cases hs : serial = k
    · subst hs
      obtain ⟨rfl, rfl⟩ := Prod.mk.inj (Option.some.inj (hk.symm.trans hmade))
      -- it is not below itself, and all that comes after it lies behind its first leaf
      have hbelow : (Node.preorderAll cs).countP (·.serial = serial) = 0 := by
        refine List.countP_eq_zero.mpr fun m hm hserial => ?_
        have hsame : m.serial = serial := of_decide_eq_true hserial
        have heq : m = .composite serial rule cs span := hc.eq_of_serial_eq hm (by rw [hsame, hk])
        rw [heq] at hm
        exact Nat.lt_irrefl _ (Node.length_preorder_lt (m := .composite serial rule cs span) hm)
      have hlt : index < mid := by
        rw [hc.lt_iff]
        simpa [Node.isHollow, Node.isLeaf] using hn
      grind
    · -- the index is one of the children's or one of the siblings', but not both
      grind [Node.serial]

end Numbered

/-! ## Runs add to the register -/

namespace Parse

variable {i : ParseInput}

namespace State

variable {size : Nat}

@[simp] theorem serial_fail (s : State size) (pos : Nat) (e : Option Expectation) :
    (s.fail pos e).serial = s.serial := by
  unfold fail
  cases e <;> grind

@[simp] theorem serial_keep (s : State size) (n : Text) (pos : Nat)
    (r : Option (Match Node size pos)) : (s.keep n pos r).serial = s.serial := by
  unfold keep
  cases r <;> grind

/-- **Whether a register is that of a state**: it has a node for every number given out, all
nodes in the table are in it and consume something, and no hollow node is in two places. -/
structure Registered (s : State size) (made : Register) (held : List Nat) : Prop where
  /-- The next number is the next place in the register. -/
  length_eq : made.length = s.serial
  /-- What the table has is in it. -/
  entries : s.Entries fun _ pos r => ∀ m, r = some m →
    pos < m.next ∧ Numbered made pos m.next [m.value]
  /-- Hollow nodes are in one place. -/
  keeps : made.Keeps held

namespace Registered

variable {s : State size} {made : Register} {held held' : List Nat}

theorem start : (start size).Registered [] [] := ⟨rfl, entries_start, .nil⟩

theorem sublist (h : s.Registered made held) (hsub : held' <+ held) : s.Registered made held' :=
  { h with keeps := h.keeps.sublist hsub }

theorem fail (h : s.Registered made held) (pos : Nat) (e : Option Expectation) :
    (s.fail pos e).Registered made held :=
  ⟨h.length_eq.trans (serial_fail s pos e).symm, h.entries.fail pos e, h.keeps⟩

theorem keep (h : s.Registered made held) {n : Text} {pos : Nat}
    {r : Option (Match Node size pos)}
    (hr : ∀ m, r = some m → Numbered made pos m.next [m.value]) :
    (s.keep n pos r).Registered made held :=
  ⟨h.length_eq.trans (serial_keep s n pos r).symm,
    h.entries.keep fun hlt m hm => ⟨hlt m hm, hr m hm⟩, h.keeps⟩

/-- A node with the next number is added to the register. -/
theorem fresh {n : Node} (h : s.Registered made (held ++ Node.hollows n.children)) (pos : Nat)
    (hn : n.serial = s.serial) :
    s.fresh.2.Registered (made ++ [(pos, n)]) (held ++ Node.hollows [n]) := by
  refine ⟨?_, fun name pos' r hr m hm => ?_, h.keeps.concat pos (hn.trans h.length_eq.symm)⟩
  · rw [List.length_append, h.length_eq]
    rfl
  · obtain ⟨hlt, hnumbered⟩ := h.entries name pos' r hr m hm
    exact ⟨hlt, hnumbered.mono (List.prefix_append _ _)⟩

theorem getElem?_fresh (h : s.Registered made held) (pos : Nat) (n : Node) :
    (made ++ [(pos, n)])[s.serial]? = some (pos, n) := by
  rw [← h.length_eq, List.getElem?_concat_length]

end Registered

end State

/-- What a token becomes is a leaf with the number that it is given. -/
theorem isLeaf_build_and_serial_eq {g : Grammar} {x : Expectation} {t : Token} {build : Nat → Node}
    (hb : x.build g t = some build) (serial : Nat) :
    (build serial).isLeaf = true ∧ (build serial).serial = serial := by
  cases x with
  | text v =>
    obtain ⟨-, rfl⟩ := spelled_eq_some_iff.mp (show spelled (· = v) t = some build from hb)
    exact ⟨rfl, rfl⟩
  | range lo hi =>
    obtain ⟨-, rfl⟩ := spelled_eq_some_iff.mp hb
    exact ⟨rfl, rfl⟩
  | kind n =>
    rcases named_eq_some_iff.mp hb with ⟨-, rfl⟩ | ⟨-, -, rfl⟩
    · exact ⟨rfl, rfl⟩
    · exact ⟨rfl, rfl⟩

/-- The node of a production is one of the parts, or is added to the register. -/
theorem numbered_assemble {n : Text} {pos next : Nat} {nodes : List Node} {node : Node}
    {s s' : State i.size} {made : Register} {held : List Nat}
    (ha : assemble i n pos nodes s = (node, s'))
    (hs : s.Registered made (held ++ Node.hollows nodes)) (h : Numbered made pos next nodes) :
    ∃ more, made <+: more ∧ s'.Registered more (held ++ Node.hollows [node])
      ∧ Numbered more pos next [node] := by
  unfold assemble at ha
  split at ha
  · obtain ⟨rfl, rfl⟩ := Prod.mk.inj ha
    exact ⟨made, List.prefix_refl _, hs, h⟩
  · obtain ⟨rfl, rfl⟩ := Prod.mk.inj ha
    refine ⟨_, List.prefix_append _ _, State.Registered.fresh hs pos rfl, ?_⟩
    exact .composite (hs.getElem?_fresh pos _) (h.mono (List.prefix_append _ _)) .nil

/-- The numbers of the hollow nodes that a match gives to whoever asked for it. -/
def loose {size pos : Nat} : Option (Match (List Node) size pos) → List Nat
  | none => []
  | some m => Node.hollows m.value

theorem loose_longer {size pos : Nat} (a b : Option (Match (List Node) size pos)) :
    loose (longer a b) <+ loose a ++ loose b := by
  match a, b with
  | none, b => exact List.Sublist.refl _
  | some m, none => exact List.sublist_append_left _ _
  | some m, some k =>
    unfold longer
    dsimp only
    split
    · exact List.sublist_append_right _ _
    · exact List.sublist_append_left _ _

theorem loose_map_append {size pos : Nat} {m : Match (List Node) size pos}
    (r : Option (Match (List Node) size m.next)) :
    loose (r.map m.append) <+ loose (some m) ++ loose r := by
  cases r with
  | none => exact List.nil_sublist _
  | some k =>
    show Node.hollows (m.value ++ k.value) <+ _
    rw [Node.hollows_append]
    exact List.Sublist.refl _

/-- **A run adds to the register**, and what it matches is in it. The hollow nodes that are held
when it begins are not touched. -/
theorem Run.numbered {opened : Grammar.Opened} {pos : Nat} {task : Task} {s s' : State i.size}
    {r : Option (Match (List Node) i.size pos)} (h : Run i opened pos task s r s')
    {made : Register} {held : List Nat} (hs : s.Registered made held) :
    ∃ more, made <+: more ∧ s'.Registered more (held ++ loose r)
      ∧ ∀ m, r = some m → Numbered more pos m.next m.value := by
  have idle {held : List Nat} : held ++ [] <+ held := by rw [List.append_nil]
  induction h generalizing made held with
  | empty =>
    refine ⟨made, List.prefix_refl _, hs.sublist idle, ?_⟩
    rintro m ⟨⟩
    exact .nil
  | @accept _ pos s _ _ build _ h hb =>
    obtain ⟨hleaf, hserial⟩ := isLeaf_build_and_serial_eq hb s.serial
    have hparts : s.Registered made (held ++ Node.hollows (build s.serial).children) := by
      rw [Node.children_of_isLeaf hleaf]
      exact hs.sublist idle
    refine ⟨_, List.prefix_append _ _, hparts.fresh pos hserial, ?_⟩
    rintro m ⟨⟩
    refine .leaf hleaf ?_ .nil
    rw [hserial]
    exact hs.getElem?_fresh pos _
  | reject | guard =>
    exact ⟨made, List.prefix_refl _, (hs.fail _ _).sublist idle, fun m hm => absurd hm (by simp)⟩
  | group _ ih | repetition _ ih | name _ _ ih => exact ih hs
  | @option _ _ _ _ r _ _ ih =>
    obtain ⟨more, hmore, hs', hn⟩ := ih hs
    cases r with
    | none =>
      refine ⟨more, hmore, hs', ?_⟩
      rintro m ⟨⟩
      exact .nil
    | some m => exact ⟨more, hmore, hs', hn⟩
  | alt _ _ ih₁ ih₂ =>
    obtain ⟨more₁, hmore₁, hs₁, hn₁⟩ := ih₁ hs
    obtain ⟨more₂, hmore₂, hs₂, hn₂⟩ := ih₂ hs₁
    rw [List.append_assoc] at hs₂
    refine ⟨more₂, hmore₁.trans hmore₂, hs₂.sublist ((loose_longer _ _).append_left _),
      fun m hm => ?_⟩
    exact (longer_eq_some hm).elim (fun h => (hn₁ m h).mono hmore₂) (hn₂ m)
  | seqFirst _ ih =>
    obtain ⟨more, hmore, hs', -⟩ := ih hs
    exact ⟨more, hmore, hs', fun m hm => absurd hm (by simp)⟩
  | seq _ _ ih₁ ih₂ =>
    obtain ⟨more₁, hmore₁, hs₁, hn₁⟩ := ih₁ hs
    obtain ⟨more₂, hmore₂, hs₂, hn₂⟩ := ih₂ hs₁
    rw [List.append_assoc] at hs₂
    refine ⟨more₂, hmore₁.trans hmore₂, hs₂.sublist ((loose_map_append _).append_left _),
      fun m hm => ?_⟩
    obtain ⟨k, rfl, rfl⟩ := Option.map_eq_some_iff.mp hm
    exact ((hn₁ _ rfl).mono hmore₂).append (hn₂ _ rfl)
  | @hit _ _ _ _ r hr =>
    -- what comes out of the table is not hollow
    have hloose : loose (asList r) = [] := by
      cases r with
      | none => rfl
      | some m =>
        obtain ⟨hlt, hn⟩ := hs.entries _ _ _ hr m rfl
        show Node.hollows [m.value] = []
        rw [Node.hollows_singleton, hn.isHollow_eq_false hlt]
        rfl
    refine ⟨made, List.prefix_refl _, ?_, fun m hm => ?_⟩
    · rw [hloose]
      exact hs.sublist idle
    · obtain ⟨k, rfl, rfl⟩ := Option.map_eq_some_iff.mp hm
      exact (hs.entries _ _ _ hr k rfl).2
  | fail _ _ _ _ ih =>
    obtain ⟨more, hmore, hs', -⟩ := ih hs
    exact ⟨more, hmore, hs'.keep fun m hm => absurd hm (by simp), fun m hm => absurd hm (by simp)⟩
  | node _ _ _ ha _ ih =>
    obtain ⟨more₁, hmore₁, hs₁, hn⟩ := ih hs
    obtain ⟨more₂, hmore₂, hs₂, hnode⟩ := numbered_assemble ha hs₁ (hn _ rfl)
    refine ⟨more₂, hmore₁.trans hmore₂, hs₂.keep ?_, ?_⟩
    · rintro k ⟨⟩
      exact hnode
    · rintro k ⟨⟩
      exact hnode
  | manyLast _ _ ih =>
    obtain ⟨more, hmore, hs', -⟩ := ih hs
    refine ⟨more, hmore, hs'.sublist ((List.nil_sublist _).append_left _), ?_⟩
    rintro m ⟨⟩
    exact .nil
  | @manyMore _ _ _ _ m _ k _ _ _ _ ih₁ ih₂ =>
    obtain ⟨more₁, hmore₁, hs₁, hn₁⟩ := ih₁ hs
    obtain ⟨more₂, hmore₂, hs₂, hn₂⟩ := ih₂ hs₁
    rw [List.append_assoc] at hs₂
    refine ⟨more₂, hmore₁.trans hmore₂,
      hs₂.sublist ((loose_map_append (some k)).append_left _), ?_⟩
    rintro m ⟨⟩
    exact ((hn₁ _ rfl).mono hmore₂).append (hn₂ _ rfl)

end Parse

namespace Parser

variable {p : Parser} {tokens : List Token} {start : Text} {root : Node}

/-- A parsed tree is in the register of its parse. -/
theorem exists_numbered_of_parse (h : p.parse tokens start = .ok root) :
    ∃ made, Numbered made 0 (p.input tokens).size [root]
      ∧ Register.Keeps made (Node.hollows [root]) := by
  obtain ⟨-, -, m, s, hrun, hm, hvalue⟩ := run_of_parse_eq_ok h
  obtain ⟨made, -, hs, hn⟩ := hrun.numbered .start
  have hroot := hn m rfl
  have hkeeps : Register.Keeps made (Node.hollows m.value) := hs.keeps
  rw [hvalue] at hkeeps
  rw [hvalue, hm] at hroot
  exact ⟨made, hroot, hkeeps⟩

/-- **No other node of a parsed tree has the number of a leaf.** -/
theorem countP_same_leaf_le (h : p.parse tokens start = .ok root) {leaf : Node}
    (hmem : leaf ∈ root.preorder) (hleaf : leaf.isLeaf = true) :
    root.preorder.countP (·.same leaf) ≤ 1 := by
  obtain ⟨made, hroot, -⟩ := exists_numbered_of_parse h
  rw [← Node.preorderAll_singleton] at hmem ⊢
  obtain ⟨index, hindex⟩ := hroot.exists_made leaf hmem
  refine Nat.le_trans (hroot.countP_serial_le hindex (Node.isHollow_of_isLeaf hleaf)) ?_
  split
  · exact Nat.le_refl 1
  · exact Nat.zero_le 1

end Parser

end Arbor
