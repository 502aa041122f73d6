import Arbor.Proofs.Parser.Layout
import Arbor.Proofs.Token.Lossless

/-!
# The geometry of parsed trees

In a tree that is parsed from a source, spans nest. A composite goes from the start of its
first child to the end of its last one, siblings do not overlap, and the source text of a
leaf is the leaf's own text (`Node.WellPlaced`).

Nodes that consume no token make this less obvious than it looks. Such a node stands before
the *next* token, so behind any blanks that are skipped, and a composite that ends with one
ends there too. What saves the order is that a node never reaches beyond the start of the
token after it (`Laid.tiled`): every node starts at the edge of its first index and ends no
later than the edge of the index behind it, and the edges are in order because the tokens
are (`ParseInput.Over`).
-/

namespace Arbor

/-! ## Nodes side by side -/

/-- Whether nodes lie side by side between two offsets, each ending no earlier than it
starts. -/
def Tiled (a b : Int) : List Node → Prop
  | [] => a ≤ b
  | n :: ns => a ≤ n.span.start.offset ∧ n.span.start.offset ≤ n.span.stop.offset
    ∧ Tiled n.span.stop.offset b ns

namespace Tiled

variable {a a' b : Int} {n : Node} {ns : List Node}

theorem of_le (h : Tiled a b ns) (ha : a' ≤ a) : Tiled a' b ns := by
  cases ns with
  | nil => exact Int.le_trans ha h
  | cons n ns => exact ⟨Int.le_trans ha h.1, h.2⟩

theorem le (h : Tiled a b ns) : a ≤ b := by
  induction ns generalizing a with
  | nil => exact h
  | cons n ns ih => exact Int.le_trans h.1 (Int.le_trans h.2.1 (ih h.2.2))

/-- A node among them lies between the two offsets. -/
theorem of_mem (h : Tiled a b ns) (hn : n ∈ ns) :
    a ≤ n.span.start.offset ∧ n.span.start.offset ≤ n.span.stop.offset
      ∧ n.span.stop.offset ≤ b := by
  induction ns generalizing a with
  | nil => exact absurd hn (by simp)
  | cons m ns ih =>
    obtain ⟨hstart, hstop, hrest⟩ := h
    rcases List.mem_cons.mp hn with rfl | hn
    · exact ⟨hstart, hstop, hrest.le⟩
    · have := ih hrest hn
      omega

theorem isChain (h : Tiled a b ns) :
    ns.IsChain fun l r => l.span.stop.offset ≤ r.span.start.offset := by
  induction ns generalizing a with
  | nil => exact .nil
  | cons n ns ih =>
    refine List.isChain_cons.mpr ⟨fun m hm => ?_, ih h.2.2⟩
    cases ns with
    | nil => exact absurd hm (by simp)
    | cons k ns =>
      obtain rfl := Option.some.inj hm
      exact h.2.2.1

/-- The end of the last node is as good a bound as any. -/
theorem getLast (h : Tiled a b ns) (hne : ns ≠ []) :
    Tiled a (ns.getLast hne).span.stop.offset ns := by
  induction ns generalizing a with
  | nil => exact absurd rfl hne
  | cons n ns ih =>
    refine ⟨h.1, h.2.1, ?_⟩
    cases ns with
    | nil => exact Int.le_refl _
    | cons k ns =>
      rw [List.getLast_cons (List.cons_ne_nil k ns)]
      exact ih h.2.2 _

end Tiled

/-! ## Stretches of a source -/

namespace Source

/-- Two offsets that lie in a source, in this order, have a text between them. -/
theorem exists_slice? {source : Source} {a b : Int} (ha : 0 ≤ a) (hab : a ≤ b)
    (hb : b ≤ source.size) : ∃ u, source.slice? a b = some u := by
  refine ⟨_, if_neg ?_⟩
  omega

theorem slice?_toArray {t : Text} {j k : Nat} (hjk : j ≤ k) (hk : k ≤ t.length) :
    slice? t.toArray j k = some ((t.drop j).take (k - j)) := by
  have hin : ¬ ((j : Int) < 0 ∨ (k : Int) < j ∨ (t.toArray.size : Int) < k) := by
    rw [List.size_toArray]
    omega
  rw [slice?, if_neg hin]
  simp [List.extract_eq_take_drop]

end Source

/-! ## Tokens in order -/

/-- **Whether kept tokens are those of a source**: each is a stretch of the source, and ends
before the next one starts, or before the end of the input, which lies in the source. -/
structure ParseInput.Over (i : ParseInput) (source : Source) : Prop where
  /-- A token ends no earlier than it starts. -/
  start_le : ∀ {k : Nat} {t : Token}, i.tokens[k]? = some t →
    t.span.start.offset ≤ t.span.stop.offset
  /-- It ends no later than the next one starts. -/
  stop_le : ∀ {k : Nat} {t : Token}, i.tokens[k]? = some t →
    t.span.stop.offset ≤ (i.edge (k + 1)).offset
  /-- Its text is the one in the source. -/
  slice : ∀ {k : Nat} {t : Token}, i.tokens[k]? = some t →
    source.slice? t.span.start.offset t.span.stop.offset = some t.literal
  /-- No edge lies before the source. -/
  edge_nonneg : ∀ k, 0 ≤ (i.edge k).offset
  /-- No edge lies behind it. -/
  edge_le : ∀ k, (i.edge k).offset ≤ source.size

theorem ParseInput.edge_of_token {i : ParseInput} {k : Nat} {t : Token}
    (h : i.tokens[k]? = some t) : i.edge k = t.span.start := by
  rw [edge, h]
  rfl

namespace Node.IsLeafOf

variable {g : Grammar} {n : Node} {t : Token}

theorem span_eq (h : n.IsLeafOf g t) : n.span = t.span := by
  obtain ⟨serial, rfl | rfl⟩ := h <;> rfl

theorem isLeaf (h : n.IsLeafOf g t) : n.isLeaf = true := by
  obtain ⟨serial, rfl | rfl⟩ := h <;> rfl

theorem children_eq (h : n.IsLeafOf g t) : n.children = [] := by
  obtain ⟨serial, rfl | rfl⟩ := h <;> rfl

theorem text?_eq (h : n.IsLeafOf g t) : n.text? = some t.literal := by
  obtain ⟨serial, rfl | rfl⟩ := h <;> rfl

/-- The source text of a leaf is the one that its token covers. -/
theorem source?_eq (h : n.IsLeafOf g t) (source : Source) :
    n.source? source = .ok (source.slice? t.span.start.offset t.span.stop.offset) := by
  obtain ⟨serial, rfl | rfl⟩ := h <;> rfl

theorem preorder_eq (h : n.IsLeafOf g t) : n.preorder = [n] := by
  obtain ⟨serial, rfl | rfl⟩ := h <;> rfl

theorem preorderAll_eq (h : n.IsLeafOf g t) (ns : List Node) :
    preorderAll (n :: ns) = n :: preorderAll ns := preorderAll_of_isLeaf h.isLeaf ns

end Node.IsLeafOf

/-! ## Spans nest -/

/-- **A node that is well placed in a source.** -/
structure Node.WellPlaced (source : Source) (n : Node) : Prop where
  /-- The span lies in the source. -/
  within : 0 ≤ n.span.start.offset ∧ n.span.start.offset ≤ n.span.stop.offset
    ∧ n.span.stop.offset ≤ source.size
  /-- So the node has a source text. -/
  exists_source : ∃ u, n.source? source = .ok (some u)
  /-- That of a leaf is its own text. -/
  text : n.isLeaf = true → n.source? source = .ok n.text?
  /-- A node starts where its first child does. -/
  first : ∀ c ∈ n.children.head?, n.span.start = c.span.start
  /-- It ends where its last child does. -/
  last : ∀ c ∈ n.children.getLast?, n.span.stop = c.span.stop
  /-- All its children lie in it. -/
  inside : ∀ c ∈ n.children, n.span.start.offset ≤ c.span.start.offset
    ∧ c.span.stop.offset ≤ n.span.stop.offset
  /-- None of them overlaps the next one. -/
  siblings : n.children.IsChain fun l r => l.span.stop.offset ≤ r.span.start.offset

namespace Laid

variable {i : ParseInput} {source : Source} {pos next : Nat} {ns : List Node}

/-- A span starts at an edge if its first node does. -/
theorem start_spanOf_of_head (h : ∀ n ∈ ns.head?, n.span.start = i.edge pos) :
    (Parse.spanOf i pos ns).start = i.edge pos := by
  cases ns with
  | nil =>
    rw [Parse.spanOf_nil]
    rfl
  | cons n ns =>
    rw [Parse.spanOf_cons]
    exact h n rfl

/-- The first of some nodes starts at the edge of its index. -/
theorem start_head (h : Laid i pos next ns) : ∀ n ∈ ns.head?, n.span.start = i.edge pos := by
  induction h with
  | nil => exact fun n hn => absurd hn (by simp)
  | leaf ht hn =>
    rintro n ⟨⟩
    rw [hn.span_eq, ParseInput.edge_of_token ht]
  | composite _ _ ih =>
    rintro n ⟨⟩
    exact start_spanOf_of_head ih

theorem start_spanOf (h : Laid i pos next ns) : (Parse.spanOf i pos ns).start = i.edge pos :=
  start_spanOf_of_head h.start_head

/-- The span of nodes that lie side by side goes from their start to no further than
their end. -/
theorem spanOf_le (h : Laid i pos next ns)
    (ht : Tiled (i.edge pos).offset (i.edge next).offset ns) :
    (Parse.spanOf i pos ns).start.offset ≤ (Parse.spanOf i pos ns).stop.offset
      ∧ (Parse.spanOf i pos ns).stop.offset ≤ (i.edge next).offset := by
  rw [h.start_spanOf]
  cases ns with
  | nil =>
    rw [Parse.spanOf_nil]
    exact ⟨Int.le_refl _, ht⟩
  | cons n ns =>
    have hl := ht.of_mem (List.getLast_mem (List.cons_ne_nil n ns))
    rw [Parse.spanOf_cons]
    dsimp only
    omega

/-- **Nodes lie side by side** between the edges of their indices. -/
theorem tiled (hi : i.Over source) (h : Laid i pos next ns) :
    Tiled (i.edge pos).offset (i.edge next).offset ns := by
  induction h with
  | nil => exact Int.le_refl _
  | leaf ht hn _ ih =>
    have hstart := ParseInput.edge_of_token ht
    rw [← hn.span_eq] at hstart
    refine ⟨Int.le_of_eq (congrArg Position.offset hstart), ?_, ?_⟩
    · rw [hn.span_eq]
      exact hi.start_le ht
    · -- what is skipped behind the token is the room that its siblings leave
      rw [hn.span_eq]
      exact ih.of_le (hi.stop_le ht)
  | composite hc _ ihc ih =>
    obtain ⟨hspan, hstop⟩ := hc.spanOf_le ihc
    have hstart := congrArg Position.offset hc.start_spanOf.symm
    exact ⟨Int.le_of_eq hstart, hspan, ih.of_le hstop⟩

theorem wellPlaced_leaf {n : Node} {t : Token} (hi : i.Over source)
    (ht : i.tokens[pos]? = some t) (hn : n.IsLeafOf i.grammar t) : n.WellPlaced source := by
  have hsource : n.source? source = .ok (some t.literal) := by
    rw [hn.source?_eq, hi.slice ht]
  have hstart := hi.edge_nonneg pos
  have hstop := hi.stop_le ht
  have hend := hi.edge_le (pos + 1)
  rw [ParseInput.edge_of_token ht] at hstart
  refine ⟨?_, ⟨_, hsource⟩, fun _ => ?_, ?_, ?_, ?_, ?_⟩
  · rw [hn.span_eq]
    exact ⟨hstart, hi.start_le ht, Int.le_trans hstop hend⟩
  · rw [hsource, hn.text?_eq]
  -- a leaf has no children to place
  · simp [hn.children_eq]
  · simp [hn.children_eq]
  · simp [hn.children_eq]
  · simp [hn.children_eq]

theorem wellPlaced_composite {mid serial : Nat} {rule : Option Rule} {cs : List Node}
    (hi : i.Over source) (h : Laid i pos mid cs) :
    (Node.composite serial rule cs (Parse.spanOf i pos cs)).WellPlaced source := by
  have ht := h.tiled hi
  obtain ⟨hspan, hstop⟩ := h.spanOf_le ht
  have hstart : 0 ≤ (Parse.spanOf i pos cs).start.offset := by
    rw [h.start_spanOf]
    exact hi.edge_nonneg pos
  have hend := Int.le_trans hstop (hi.edge_le mid)
  obtain ⟨u, hu⟩ := Source.exists_slice? hstart hspan hend
  refine ⟨⟨hstart, hspan, hend⟩, ⟨u, congrArg Except.ok hu⟩, fun hl => ?_, ?_, ?_, ?_, ht.isChain⟩
  · exact absurd hl (by simp [Node.isLeaf])
  · intro c hc
    exact h.start_spanOf.trans (h.start_head c hc).symm
  · intro c hc
    cases cs with
    | nil => exact absurd hc (by simp [Node.children])
    | cons d cs =>
      have hlast : (d :: cs).getLast? = some c := hc
      rw [List.getLast?_eq_some_getLast (List.cons_ne_nil d cs), Option.some.injEq] at hlast
      show (Parse.spanOf i pos (d :: cs)).stop = c.span.stop
      rw [Parse.spanOf_cons, hlast]
  · intro c hc
    cases cs with
    | nil => exact absurd hc (by simp [Node.children])
    | cons d cs =>
      -- the children end with the last of them, which may be before the next edge
      have hin := (ht.getLast (List.cons_ne_nil d cs)).of_mem hc
      show (Parse.spanOf i pos (d :: cs)).start.offset ≤ _
        ∧ _ ≤ (Parse.spanOf i pos (d :: cs)).stop.offset
      rw [h.start_spanOf, Parse.spanOf_cons]
      exact ⟨hin.1, hin.2.2⟩

/-- **Every node is well placed.** -/
theorem wellPlaced (hi : i.Over source) (h : Laid i pos next ns) :
    ∀ n ∈ Node.preorderAll ns, n.WellPlaced source := by
  induction h with
  | nil => exact fun n hn => absurd hn (by simp)
  | leaf ht hn _ ih =>
    intro m hm
    rw [hn.preorderAll_eq] at hm
    rcases List.mem_cons.mp hm with rfl | hm
    · exact wellPlaced_leaf hi ht hn
    · exact ih m hm
  | composite hc _ ihc ih =>
    intro m hm
    rw [Node.preorderAll_composite] at hm
    rcases List.mem_cons.mp hm with rfl | hm
    · exact wellPlaced_composite hi hc
    · exact (List.mem_append.mp hm).elim (ihc m) (ih m)

/-- What is below laid out nodes is laid out. -/
theorem exists_of_mem (h : Laid i pos next ns) :
    ∀ n ∈ Node.preorderAll ns, ∃ a b, Laid i a b [n] := by
  induction h with
  | nil => exact fun n hn => absurd hn List.not_mem_nil
  | leaf ht hn _ ih =>
    intro m hm
    rw [hn.preorderAll_eq] at hm
    rcases List.mem_cons.mp hm with rfl | hm
    · exact ⟨_, _, .leaf ht hn .nil⟩
    · exact ih m hm
  | composite hc _ ihc ih =>
    intro m hm
    rw [Node.preorderAll_composite] at hm
    rcases List.mem_cons.mp hm with rfl | hm
    · exact ⟨_, _, .composite hc .nil⟩
    · exact (List.mem_append.mp hm).elim (ihc m) (ih m)

/-! ## Nodes without tokens -/

/-- Nodes cover as many tokens as they have leaves. -/
theorem length_leaves (h : Laid i pos next ns) :
    pos + ((Node.preorderAll ns).filter Node.isLeaf).length = next := by
  induction h with
  | nil => rfl
  | leaf _ hn _ ih =>
    rw [hn.preorderAll_eq, List.filter_cons_of_pos hn.isLeaf, List.length_cons]
    omega
  | composite _ _ ihc ih =>
    rw [Node.preorderAll_composite, List.filter_cons_of_neg (by simp [Node.isLeaf]),
      List.filter_append, List.length_append]
    omega

/-- Nodes without leaves all have the empty span at the edge of their index. -/
theorem span_of_no_leaves (h : Laid i pos next ns)
    (hno : (Node.preorderAll ns).filter Node.isLeaf = []) :
    ∀ n ∈ ns, n.span = .empty (i.edge pos) := by
  induction h with
  | nil => exact fun n hn => absurd hn (by simp)
  | leaf _ hn =>
    rw [hn.preorderAll_eq, List.filter_cons_of_pos hn.isLeaf] at hno
    exact absurd hno (List.cons_ne_nil _ _)
  | @composite pos mid next _ _ cs ns hc _ ihc ih =>
    rw [Node.preorderAll_composite, List.filter_cons_of_neg (by simp [Node.isLeaf]),
      List.filter_append, List.append_eq_nil_iff] at hno
    -- the children cover no token, so the siblings start at the same index
    obtain rfl : pos = mid := by
      have := hc.length_leaves
      rw [hno.1] at this
      exact this
    intro n hn
    rcases List.mem_cons.mp hn with rfl | hn
    · show Parse.spanOf i pos cs = _
      cases cs with
      | nil => exact Parse.spanOf_nil pos
      | cons c cs =>
        rw [Parse.spanOf_cons, ihc hno.1 c (by simp), ihc hno.1 _ (List.getLast_mem _)]
    · exact ih hno.2 n hn

/-- **A node without leaves stands before the next token**: at the edge of the index that
is reached by the leaves before it. -/
theorem span_of_leaves_eq_nil (h : Laid i pos next ns) {before after : List Node} {n : Node}
    (hsplit : Node.preorderAll ns = before ++ n :: after)
    (hno : n.preorder.filter Node.isLeaf = []) :
    n.span = .empty (i.edge (pos + (before.filter Node.isLeaf).length)) := by
  induction h generalizing before after with
  | nil => exact absurd hsplit (by simp)
  | @leaf pos _ _ m _ _ hm _ ih =>
    rw [hm.preorderAll_eq] at hsplit
    cases before with
    | nil =>
      -- a leaf has a leaf
      obtain ⟨rfl, -⟩ := List.cons.inj hsplit
      rw [hm.preorder_eq, List.filter_cons_of_pos hm.isLeaf] at hno
      exact absurd hno (List.cons_ne_nil _ _)
    | cons b before =>
      obtain ⟨rfl, hrest⟩ := List.cons.inj hsplit
      rw [ih hrest, List.filter_cons_of_pos hm.isLeaf, List.length_cons, Nat.add_assoc,
        Nat.add_comm 1]
  | @composite pos mid next serial rule cs ns hc _ ihc ih =>
    rw [Node.preorderAll_composite] at hsplit
    cases before with
    | nil =>
      obtain ⟨rfl, -⟩ := List.cons.inj hsplit
      have hlaid : Laid i pos mid [.composite serial rule cs (Parse.spanOf i pos cs)] :=
        .composite hc .nil
      refine hlaid.span_of_no_leaves ?_ _ (by simp)
      rw [Node.preorderAll_cons, Node.preorderAll_nil, List.append_nil]
      exact hno
    | cons b before =>
      obtain ⟨rfl, hrest⟩ := List.cons.inj hsplit
      rw [List.filter_cons_of_neg (by simp [Node.isLeaf])]
      rcases List.append_eq_append_iff.mp hrest with ⟨rest, rfl, hns⟩ | ⟨rest, hcs, hns⟩
      · -- the node is in a later sibling
        rw [List.filter_append, List.length_append, ← Nat.add_assoc, hc.length_leaves]
        exact ih hns
      · cases rest with
        | nil =>
          rw [List.append_nil] at hcs
          rw [← hcs, hc.length_leaves]
          have hfirst : Node.preorderAll ns = [] ++ n :: after := hns.symm
          exact ih hfirst
        | cons k rest =>
          -- the node is below this one
          obtain ⟨rfl, -⟩ := List.cons.inj hns
          exact ihc hcs

end Laid

/-! ## The tokens of a text -/

namespace Parser

variable {p : Parser} {t : Text}

/-- The input ends where the text does, also behind blanks that are skipped. -/
theorem stop_input_tokenize :
    (p.input (tokenize p.grammar t)).stop = t.positionAt t.length := by
  have h := cut_tokenize p.grammar t
  obtain ⟨init, hinit⟩ := List.getLast?_eq_some_iff.mp h.getLast?_eq
  have hlast : ((tokenize p.grammar t).filter (·.kind = Token.endKind)).getLast?
      = some ⟨Token.endKind, [], .empty (t.positionAt t.length)⟩ := by
    rw [hinit, List.filter_append, List.filter_cons_of_pos (by simp), List.filter_nil,
      List.getLast?_concat]
  show endOf _ _ = _
  rw [endOf, hlast]
  cases hkept : ((tokenize p.grammar t).filter p.keeps).getLast? with
  | none => rfl
  | some a =>
    have ha := List.mem_of_mem_filter (List.mem_of_getLast? hkept)
    obtain ⟨j, k, -, -, hk, hspan, -⟩ := h.exists_offsets a ha
    refine if_neg ?_
    rw [hspan]
    show ¬ (t.positionAt t.length).offset < (t.positionAt k).offset
    rw [Text.offset_positionAt, Text.offset_positionAt]
    omega

/-- A kept token stands in the text, at the positions of its two offsets. -/
theorem exists_offsets_of_kept {k : Nat} {a : Token}
    (h : (p.input (tokenize p.grammar t)).tokens[k]? = some a) :
    ∃ j l : Nat, j ≤ l ∧ l ≤ t.length ∧ a.span = ⟨t.positionAt j, t.positionAt l⟩
      ∧ a.literal = (t.drop j).take (l - j) := by
  have ha := List.mem_of_mem_filter (List.mem_toArray.mp (Array.mem_of_getElem? h))
  obtain ⟨j, l, -, hjl, hl, hspan, hliteral⟩ := (cut_tokenize p.grammar t).exists_offsets a ha
  exact ⟨j, l, hjl, hl, hspan, hliteral⟩

/-- An edge of the kept tokens is a position in the text. -/
theorem exists_edge_eq (k : Nat) :
    ∃ o ≤ t.length, (p.input (tokenize p.grammar t)).edge k = t.positionAt o := by
  cases hk : (p.input (tokenize p.grammar t)).tokens[k]? with
  | none =>
    refine ⟨t.length, Nat.le_refl _, ?_⟩
    rw [ParseInput.edge, hk]
    exact stop_input_tokenize
  | some a =>
    obtain ⟨j, l, hjl, hl, hspan, -⟩ := exists_offsets_of_kept hk
    refine ⟨j, Nat.le_trans hjl hl, ?_⟩
    rw [ParseInput.edge_of_token hk, hspan]

/-- A kept token ends before the next one starts. -/
theorem stop_le_edge_of_kept {k : Nat} {a : Token}
    (h : (p.input (tokenize p.grammar t)).tokens[k]? = some a) :
    a.span.stop.offset ≤ ((p.input (tokenize p.grammar t)).edge (k + 1)).offset := by
  cases hb : (p.input (tokenize p.grammar t)).tokens[k + 1]? with
  | none =>
    obtain ⟨j, l, -, hl, hspan, -⟩ := exists_offsets_of_kept h
    rw [ParseInput.edge, hb, hspan]
    show _ ≤ (p.input (tokenize p.grammar t)).stop.offset
    rw [stop_input_tokenize]
    simpa using hl
  | some b =>
    -- skipping tokens leaves the others in order
    have hkept := (cut_tokenize p.grammar t).pairwise.filter p.keeps
    rw [input, List.getElem?_toArray] at h hb
    obtain ⟨hk, rfl⟩ := List.getElem?_eq_some_iff.mp h
    obtain ⟨hk', rfl⟩ := List.getElem?_eq_some_iff.mp hb
    rw [ParseInput.edge_of_token ((List.getElem?_toArray ..).trans hb)]
    exact List.pairwise_iff_getElem.mp hkept k (k + 1) hk hk' (Nat.lt_succ_self k)

/-- **The kept tokens of a text are those of a source**, which is the text. -/
theorem over_input_tokenize : (p.input (tokenize p.grammar t)).Over t.toArray := by
  refine ⟨?_, stop_le_edge_of_kept, ?_, ?_, ?_⟩
  · intro k a ha
    obtain ⟨j, l, hjl, -, hspan, -⟩ := exists_offsets_of_kept ha
    simpa [hspan] using hjl
  · intro k a ha
    obtain ⟨j, l, hjl, hl, hspan, hliteral⟩ := exists_offsets_of_kept ha
    rw [hspan, hliteral, ← Source.slice?_toArray hjl hl]
    simp only [Text.offset_positionAt]
  · intro k
    obtain ⟨o, -, ho⟩ := exists_edge_eq (p := p) (t := t) k
    rw [ho, Text.offset_positionAt]
    exact Int.natCast_nonneg o
  · intro k
    obtain ⟨o, hle, ho⟩ := exists_edge_eq (p := p) (t := t) k
    rw [ho, Text.offset_positionAt, List.size_toArray]
    exact Int.ofNat_le.mpr hle

/-- **The geometry of a parsed tree.** Every node is well placed in the text: its span lies
in it and has a source text, which is a leaf's own text; a node with children goes from the
start of the first to the end of the last, with all of them inside it and none overlapping
the next. A node without leaves has an empty span, at the start of the kept token
that comes after the leaves before the node, or at the end of the text. -/
theorem geometry_of_parseText {start : Text} {root : Node} (h : p.parseText t start = .ok root) :
    (∀ n ∈ root.preorder, n.WellPlaced t.toArray)
      ∧ ∀ before n after, root.preorder = before ++ n :: after → n.leaves = [] →
        n.span = .empty (((((tokenize p.grammar t).filter p.keeps)[before.countP Node.isLeaf]?).map
          (·.span.start)).getD (t.positionAt t.length)) := by
  have hlaid := laid_of_parse h
  have hroot : Node.preorderAll [root] = root.preorder := by
    rw [Node.preorderAll_cons, Node.preorderAll_nil, List.append_nil]
  refine ⟨fun n hn => hlaid.wellPlaced over_input_tokenize n (hroot ▸ hn), ?_⟩
  intro before n after hsplit hno
  rw [Node.leaves_eq_filter] at hno
  have hspan := hlaid.span_of_leaves_eq_nil (hroot.trans hsplit) hno
  rw [Nat.zero_add, ← List.countP_eq_length_filter, ParseInput.edge, stop_input_tokenize] at hspan
  rw [hspan, input, List.getElem?_toArray]

end Parser

/-- Whether a span goes from one offset of a text to another. -/
def Span.In (t : Text) (s : Span) : Prop := ∃ i j, s = ⟨t.positionAt i, t.positionAt j⟩

/-- **All spans lie in the text**: their lines and columns are those of their offsets. -/
theorem Laid.span_in {p : Parser} {t : Text} {pos next : Nat} {ns : List Node}
    (h : Laid (p.input (tokenize p.grammar t)) pos next ns) :
    ∀ n ∈ Node.preorderAll ns, n.span.In t := by
  induction h with
  | nil => exact fun n hn => absurd hn List.not_mem_nil
  | leaf ht hn _ ih =>
    intro m hm
    rw [hn.preorderAll_eq] at hm
    rcases List.mem_cons.mp hm with rfl | hm
    · obtain ⟨j, l, -, -, hspan, -⟩ := Parser.exists_offsets_of_kept ht
      exact ⟨j, l, hn.span_eq.trans hspan⟩
    · exact ih m hm
  | @composite pos mid next serial rule cs ns hc _ ihc ih =>
    intro m hm
    rw [Node.preorderAll_composite] at hm
    rcases List.mem_cons.mp hm with rfl | hm
    · show (Parse.spanOf _ pos cs).In t
      cases cs with
      | nil =>
        obtain ⟨o, -, ho⟩ := Parser.exists_edge_eq (p := p) (t := t) pos
        rw [Parse.spanOf_nil, ho]
        exact ⟨o, o, rfl⟩
      | cons c cs =>
        have htop : ∀ n ∈ c :: cs, n.span.In t := fun n hn =>
          ihc n (Node.mem_preorderAll.mpr ⟨n, hn, n.mem_preorder_self⟩)
        obtain ⟨i, _, hfirst⟩ := htop c List.mem_cons_self
        obtain ⟨_, j, hlast⟩ := htop _ (List.getLast_mem (List.cons_ne_nil c cs))
        rw [Parse.spanOf_cons, hfirst, hlast]
        exact ⟨i, j, rfl⟩
    · exact (List.mem_append.mp hm).elim (ihc m) (ih m)

/-! ## A sample

A gap that is empty, behind a blank that is skipped. -/

namespace Sample

open Parse
open Scan (Returns)

/-- The production `doc = gap Word .` -/
def doc : Production :=
  ⟨utf8 "doc", mark, .seq (.name mark (utf8 "gap")) (.name mark (utf8 "Word"))⟩

/-- The production `gap = [ "," ] .`, which makes a node even if it is empty. -/
def gap : Production := ⟨utf8 "gap", mark, .option (.literal (utf8 ","))⟩

/-- The token `WhiteSpace = " " .` -/
def blank : Production := ⟨utf8 "WhiteSpace", mark, .literal (utf8 " ")⟩

def spaced : Grammar := .ofProductions [doc, gap, word, blank]

def spacedParser : Parser := ⟨spaced, [utf8 "WhiteSpace"]⟩

theorem get?_spaced (n : Text) :
    spaced.get? n = [doc, gap, word, blank].find? (·.name = n) :=
  Grammar.get?_ofProductions _ n

theorem tokenProductions_spaced : spaced.tokenProductions = [blank, word] :=
  Grammar.tokenProductions_ofProductions _

/-- Only the document refers leftmost to anything, and not to itself. -/
theorem eq_of_leftRefers_spaced (a b : Text) (h : Scan.LeftRefers spaced a b) :
    a = utf8 "doc" ∧ b ≠ utf8 "doc" := by
  obtain ⟨p, hp, hb⟩ := h
  obtain ⟨hm, ha⟩ := Grammar.mem_of_get?_ofProductions hp
  simp only [List.mem_cons, List.not_mem_nil, or_false] at hm
  rcases hm with rfl | rfl | rfl | rfl
  · refine ⟨ha.symm, ?_⟩
    cases hb with
    | seqLeft hb =>
      cases hb
      decide
    | seqRight _ hb =>
      cases hb
      decide
  · cases hb with
    | option hb => cases hb
  · cases hb
  · cases hb

theorem not_leftRecursive_spaced : ¬ Scan.LeftRecursive spaced :=
  Scan.not_leftRecursive_of_leaves eq_of_leftRefers_spaced

/-- Where blanks and words are the tokens, a blank is found where one stands. -/
theorem finds_blank_of {g : Grammar} {rest : Text} (hg : g.tokenProductions = [blank, word])
    (hblank : utf8 " " <+: rest) (hword : ¬ utf8 "x" <+: rest) :
    Scan.Finds g rest (utf8 "WhiteSpace") (utf8 " ") := by
  refine Scan.finds_literal (p := blank) ?_ rfl (by decide) hblank fun q hq hne => ?_
  · rw [hg]
    exact List.mem_cons_self
  · rw [hg] at hq
    obtain rfl := List.mem_singleton.mp ((List.mem_cons.mp hq).resolve_left hne)
    exact ⟨_, rfl, hword⟩

/-- So is a word. -/
theorem finds_word_of {g : Grammar} {rest : Text} (hg : g.tokenProductions = [blank, word])
    (hword : utf8 "x" <+: rest) (hblank : ¬ utf8 " " <+: rest) :
    Scan.Finds g rest (utf8 "Word") (utf8 "x") := by
  refine Scan.finds_literal (p := word) ?_ rfl (by decide) hword fun q hq hne => ?_
  · rw [hg]
    exact List.mem_cons_of_mem _ List.mem_cons_self
  · rw [hg] at hq
    obtain rfl := (List.mem_cons.mp hq).resolve_right fun h => hne (List.mem_singleton.mp h)
    exact ⟨_, rfl, hblank⟩

/-- Where neither stands the next byte is an error. -/
theorem finds_error_of {g : Grammar} {rest : Text} (hg : g.tokenProductions = [blank, word])
    (hblank : ¬ utf8 " " <+: rest) (hword : ¬ utf8 "x" <+: rest) :
    Scan.Finds g rest Token.errorKind (rest.take 1) := by
  refine Scan.finds_error fun q hq => ?_
  rw [hg] at hq
  rcases List.mem_cons.mp hq with rfl | hq
  · exact ⟨_, rfl, hblank⟩
  · obtain rfl := List.mem_singleton.mp hq
    exact ⟨_, rfl, hword⟩

theorem finds_word : Scan.Finds spaced (utf8 "x") (utf8 "Word") (utf8 "x") :=
  finds_word_of tokenProductions_spaced (by decide) (by decide)

/-- The tokens of ` x`. -/
def spacedTokens : List Token :=
  [token "WhiteSpace" " " 0, token "Word" "x" 1, ⟨Token.endKind, [], .empty ⟨2, 1, 3⟩⟩]

theorem tokenize_spaced : tokenize spaced (utf8 " x") = spacedTokens :=
  tokenize_eq_of_cuts not_leftRecursive_spaced
    (.token (by decide) (finds_blank_of tokenProductions_spaced (by decide) (by decide))
      (.token (by decide) finds_word .finish))

theorem has_doc : spaced.has (utf8 "doc") = true := by
  rw [Grammar.has, get?_spaced]
  rfl

theorem terminal?_gap {tokens : List Token} :
    Expr.terminal? (spacedParser.input tokens).grammar (.name mark (utf8 "gap")) = none :=
  Parser.terminal?_input (by decide) (get?_spaced _)

/-- The gap of ` x`, which is empty. -/
def spacedGap : Node := .composite 0 (some (.production (utf8 "gap"))) [] (.empty ⟨1, 1, 2⟩)

/-- The word of ` x`. -/
def spacedWord : Node :=
  .terminal 1 (some (spaced.tokenRule (utf8 "Word"))) (utf8 "x") ⟨⟨1, 1, 2⟩, ⟨2, 1, 3⟩⟩

/-- The tree of ` x`. The gap stands at the word, not at the start of the text. -/
def spacedTree : Node :=
  .composite 2 (some (.production (utf8 "doc"))) [spacedGap, spacedWord] ⟨⟨1, 1, 2⟩, ⟨2, 1, 3⟩⟩

theorem run_spacedTree : ∃ m s, Run (spacedParser.input spacedTokens) ∅ 0
    (.production (utf8 "doc")) (.start _) (some m) s ∧ m.next = 1 ∧ m.value = [spacedTree] := by
  refine ⟨_, _, Run.node Std.DHashMap.get?_empty Std.TreeSet.not_mem_emptyc (get?_spaced _)
    (assemble_composite (Parser.isCategory_input (get?_spaced _) rfl) _ _ _)
    (.seq (.name terminal?_gap (.node Std.DHashMap.get?_empty ?_ (get?_spaced _)
        (assemble_composite (Parser.isCategory_input (get?_spaced _) rfl) _ _ _)
        (.option (.reject rfl ?_))))
      (.accept rfl (show 0 < 1 by decide) rfl)), rfl, rfl⟩
  · decide
  · rintro t ⟨⟩
    exact (by decide : ¬ utf8 "x" = utf8 ",")

theorem run_spaced : ∃ m s, Run (spacedParser.input spacedTokens) ∅ 0 (.production (utf8 "doc"))
    (.start _) (some m) s ∧ m.next = 1 ∧ ∃ serial span gap word,
      m.value = [.composite serial (some (.production (utf8 "doc"))) [gap, word] span]
        ∧ gap.preorder = [gap] ∧ gap.leaves = [] := by
  obtain ⟨m, s, h, hm, hvalue⟩ := run_spacedTree
  exact ⟨m, s, h, hm, _, _, _, _, hvalue, rfl, rfl⟩

end Sample

/-- The gap in ` x` is empty, and stands behind the blank. -/
theorem Parser.geometry_of_parseText_spaced :
    ∃ root, Sample.spacedParser.parseText (utf8 " x") (utf8 "doc") = .ok root
      ∧ (∀ n ∈ root.preorder, n.WellPlaced (utf8 " x").toArray)
      ∧ ∃ gap ∈ root.children, gap.leaves = [] ∧ gap.span = .empty ⟨1, 1, 2⟩ := by
  obtain ⟨m, s, h, hm, serial, span, gap, word, hvalue, hgap, hno⟩ := Sample.run_spaced
  obtain ⟨r, hr, hp⟩ := parse_of_run (by decide) Sample.has_doc h
  obtain ⟨k, rfl, rfl⟩ := Option.map_eq_some_iff.mp hr
  obtain ⟨hroot, -⟩ := List.cons.inj hvalue
  have hok : Sample.spacedParser.parseText (utf8 " x") (utf8 "doc") = .ok k.value := by
    rw [parseText, show Sample.spacedParser.grammar = Sample.spaced from rfl,
      Sample.tokenize_spaced]
    exact hp.trans (conclude_eq_ok_iff.mpr ⟨k, rfl, hm, rfl⟩)
  obtain ⟨hplaced, hempty⟩ := geometry_of_parseText hok
  refine ⟨k.value, hok, hplaced, gap, ?_, hno, ?_⟩
  · rw [hroot]
    exact List.mem_cons_self
  · have hsplit : k.value.preorder = [k.value] ++ gap :: word.preorder := by
      rw [hroot, Node.preorder_composite, Node.preorderAll_cons, hgap, Node.preorderAll_cons,
        Node.preorderAll_nil, List.append_nil]
      rfl
    rw [hempty [k.value] gap word.preorder hsplit hno, hroot,
      show Sample.spacedParser.grammar = Sample.spaced from rfl, Sample.tokenize_spaced]
    rfl

end Arbor
