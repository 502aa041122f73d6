import Arbor.Editor.Documents
import Arbor.Proofs.Node.Path
import Arbor.Proofs.Parser.Geometry
import Arbor.Proofs.Parser.Numbering
import Arbor.Proofs.Text.Cursor

/-!
# What is under a cursor

An editor asks for the nodes under a cursor. The cursor becomes an offset, the offset the
innermost node that covers it, and the node the path that leads to it from the root. In a
document that parses, a cursor in a leaf finds the path to that very leaf, and a cursor at
the start of a composite finds a path through it (`Editor.Documents.spotAt?_of_parsed`).

The innermost node is the last one in pre-order that covers the offset. An empty node
covers the offset where it stands, and that can be the start of a leaf. Such a node does
not get in the way: whatever comes behind a leaf in pre-order starts no earlier than the
leaf ends (`Laid.pairwise_stop_le`), and an empty node at the start of a leaf comes before
it. The path is searched for by serial number, and the number of a leaf is used only once
(`Parser.countP_same_leaf_le`).
-/

namespace Arbor

/-! ## The innermost node -/

namespace Node

variable {root n : Node} {o : Int}

theorem foldl_last (select : Node → Bool) (ns : List Node) (last : Option Node) :
    ns.foldl (fun last n => if select n then some n else last) last
      = (ns.filter select).getLast?.or last := by
  induction ns generalizing last with
  | nil => rfl
  | cons n ns ih =>
    rw [List.foldl_cons, ih]
    by_cases h : select n
    · rw [if_pos h, List.filter_cons_of_pos h, List.getLast?_cons, Option.some_or]
      cases (ns.filter select).getLast? <;> rfl
    · rw [if_neg h, List.filter_cons_of_neg h]

/-- A node that covers an offset is the innermost one, if no node behind it does. -/
theorem innermostAt_of_split {before after : List Node}
    (hsplit : root.preorder = before ++ n :: after) (hn : n.covers o = true)
    (hafter : ∀ m ∈ after, m.covers o = false) : root.innermostAt o = some n := by
  have hnone : after.filter (·.covers o) = [] := by
    rw [List.filter_eq_nil_iff]
    intro m hm
    rw [hafter m hm]
    exact Bool.false_ne_true
  rw [innermostAt, foldl_last, hsplit, List.filter_append,
    List.filter_cons_of_pos (p := fun m : Node => m.covers o) hn, hnone, List.getLast?_concat,
    Option.some_or]

/-- A leaf covers the offsets from its start up to its end. -/
theorem covers_of_isLeaf (hn : n.isLeaf = true) (h : n.span.start.offset ≤ o)
    (h' : o < n.span.stop.offset) : n.covers o = true := by
  have hmissing : n.isMissing = false := by
    cases n with
    | missing => exact absurd hn Bool.false_ne_true
    | _ => rfl
  have hne : n.span.isEmpty = false := decide_eq_false (by omega)
  rw [covers, hmissing, Span.contains, hne]
  simp [h, h']

/-- No node covers an offset before its start. -/
theorem covers_eq_false_of_lt (h : o < n.span.start.offset) : n.covers o = false := by
  unfold covers Span.contains
  split
  · simp [show ¬ o = n.span.start.offset by omega]
  · simp [show ¬ n.span.start.offset ≤ o by omega]

end Node

/-! ## Nodes in pre-order -/

namespace Laid

variable {i : ParseInput} {source : Source} {pos next : Nat} {n : Node} {ns : List Node}

/-- Edges are in order. -/
theorem edge_le (hi : i.Over source) (h : Laid i pos next ns) :
    (i.edge pos).offset ≤ (i.edge next).offset := (h.tiled hi).le

/-- All nodes lie between the edges of the indices, however deep they are. -/
theorem between (hi : i.Over source) (h : Laid i pos next ns) :
    ∀ n ∈ Node.preorderAll ns, (i.edge pos).offset ≤ n.span.start.offset
      ∧ n.span.stop.offset ≤ (i.edge next).offset := by
  induction h with
  | nil => exact fun n hn => absurd hn List.not_mem_nil
  | leaf ht hn hrest ih =>
    intro m hm
    rw [hn.preorderAll_eq] at hm
    rcases List.mem_cons.mp hm with hm | hm
    · have hin := (Laid.tiled hi (.leaf ht hn hrest)).of_mem (List.mem_cons.mpr (.inl hm))
      exact ⟨hin.1, hin.2.2⟩
    · have hedge := Laid.edge_le hi (.leaf ht hn .nil)
      exact ⟨Int.le_trans hedge (ih m hm).1, (ih m hm).2⟩
  | composite hc hrest ihc ih =>
    intro m hm
    rw [Node.preorderAll_composite] at hm
    rcases List.mem_cons.mp hm with hm | hm
    · have hin := (Laid.tiled hi (.composite hc hrest)).of_mem (List.mem_cons.mpr (.inl hm))
      exact ⟨hin.1, hin.2.2⟩
    · rcases List.mem_append.mp hm with hm | hm
      · exact ⟨(ihc m hm).1, Int.le_trans (ihc m hm).2 (hrest.edge_le hi)⟩
      · exact ⟨Int.le_trans (hc.edge_le hi) (ih m hm).1, (ih m hm).2⟩

/-- **What comes behind a leaf in pre-order starts no earlier than the leaf ends.** -/
theorem pairwise_stop_le (hi : i.Over source) (h : Laid i pos next ns) :
    (Node.preorderAll ns).Pairwise fun a b =>
      a.isLeaf = true → a.span.stop.offset ≤ b.span.start.offset := by
  induction h with
  | nil => exact .nil
  | leaf ht hn hrest ih =>
    rw [hn.preorderAll_eq]
    refine .cons (fun b hb _ => ?_) ih
    rw [hn.span_eq]
    exact Int.le_trans (hi.stop_le ht) (hrest.between hi b hb).1
  | composite hc hrest ihc ih =>
    rw [Node.preorderAll_composite]
    refine .cons (fun b _ hleaf => absurd hleaf Bool.false_ne_true) ?_
    refine List.pairwise_append.mpr ⟨ihc, ih, fun a ha b hb _ => ?_⟩
    exact Int.le_trans (hc.between hi a ha).2 (hrest.between hi b hb).1

/-- Nodes over some tokens have a leaf of the first one. -/
theorem exists_first_leaf (h : Laid i pos next ns) (hlt : pos < next) :
    ∃ leaf ∈ Node.preorderAll ns, ∃ t, i.tokens[pos]? = some t ∧ leaf.IsLeafOf i.grammar t := by
  induction h with
  | nil => exact absurd hlt (Nat.lt_irrefl _)
  | leaf ht hn =>
    rw [hn.preorderAll_eq]
    exact ⟨_, List.mem_cons_self, _, ht, hn⟩
  | @composite pos mid next _ _ cs ns hc _ ihc ih =>
    have hlength := hc.length_leaves
    rw [Node.preorderAll_composite]
    by_cases hmid : pos < mid
    · obtain ⟨leaf, hleaf, t, ht⟩ := ihc hmid
      exact ⟨leaf, List.mem_cons_of_mem _ (List.mem_append_left _ hleaf), t, ht⟩
    · -- no token is used up below the first node
      obtain rfl : pos = mid := by omega
      obtain ⟨leaf, hleaf, t, ht⟩ := ih hlt
      exact ⟨leaf, List.mem_cons_of_mem _ (List.mem_append_right _ hleaf), t, ht⟩

/-- A node with a span that is not empty starts with a leaf. -/
theorem exists_leaf_at_start (h : Laid i pos next [n])
    (hne : n.span.start.offset ≠ n.span.stop.offset) :
    ∃ leaf ∈ n.preorder, ∃ t, i.tokens[pos]? = some t ∧ leaf.IsLeafOf i.grammar t
      ∧ n.span.start = t.span.start := by
  have hlength := h.length_leaves
  by_cases hlt : pos < next
  · obtain ⟨leaf, hleaf, t, ht, hn⟩ := h.exists_first_leaf hlt
    rw [Node.preorderAll_singleton] at hleaf
    refine ⟨leaf, hleaf, t, ht, hn, ?_⟩
    rw [h.start_head n rfl, ParseInput.edge_of_token ht]
  · have hno : (Node.preorderAll [n]).filter Node.isLeaf = [] :=
      List.eq_nil_of_length_eq_zero (by omega)
    rw [h.span_of_no_leaves hno n List.mem_cons_self] at hne
    exact absurd rfl hne

end Laid

/-! ## Looking up a cursor -/

theorem Parser.start_lt_stop_of_kept {p : Parser} {t : Text} {k : Nat} {a : Token}
    (h : (p.input (tokenize p.grammar t)).tokens[k]? = some a) :
    a.span.start.offset < a.span.stop.offset := by
  have ha : a ∈ (tokenize p.grammar t).filter p.keeps :=
    List.mem_toArray.mp (Array.mem_of_getElem? h)
  obtain ⟨hmem, hkeeps⟩ := List.mem_filter.mp ha
  have hkind : a.kind ≠ Token.endKind := by
    simpa using (Bool.and_eq_true_iff.mp hkeeps).1
  exact (cut_tokenize p.grammar t).start_lt_stop a hmem hkind

namespace Project

variable {p : Project} {name text : Text} {root leaf n : Node} {path : List Node} {o : Nat}

/-- A cursor in a leaf finds the path to the leaf. -/
theorem pathAt?_of_leaf (h : (p.parse name text).parsed = .ok root) (hleaf : leaf.isLeaf = true)
    (hpath : root.LeadsTo path leaf) (ho : leaf.span.start.offset ≤ o)
    (ho' : o < leaf.span.stop.offset) :
    (p.parse name text).pathAt? (text.positionAt o).toCursor = some path := by
  have hmem := hpath.mem_preorder
  obtain ⟨before, after, hsplit⟩ := List.append_of_mem hmem
  have hinner : root.innermostAt o = some leaf := by
    have horder := (Parser.laid_of_parse h).pairwise_stop_le Parser.over_input_tokenize
    rw [Node.preorderAll_singleton, hsplit] at horder
    have hafter := (List.pairwise_cons.mp (List.pairwise_append.mp horder).2.1).1
    refine Node.innermostAt_of_split hsplit (Node.covers_of_isLeaf hleaf ho ho') fun m hm => ?_
    exact Node.covers_eq_false_of_lt (Int.lt_of_lt_of_le ho' (hafter m hm hleaf))
  have hlength : o ≤ text.length := by
    have hin := ((Parser.laid_of_parse h).wellPlaced Parser.over_input_tokenize leaf
      (Node.preorderAll_singleton root ▸ hmem)).within
    rw [List.size_toArray] at hin
    omega
  have hroot : (p.parse name text).root? = some root := by
    rw [SourceFile.root?, h]
    rfl
  have hfound : root.pathTo? leaf = some path :=
    Node.pathTo?_of_leadsTo hpath (Parser.countP_same_leaf_le h hmem hleaf)
  have hoffset : (text.positionAt o).toCursor.offset? (p.parse name text).source = some o :=
    Cursor.offset?_toCursor hlength
  rw [SourceFile.pathAt?, hroot]
  show ((text.positionAt o).toCursor.offset? (p.parse name text).source).bind _ = _
  rw [hoffset]
  show (root.innermostAt o).bind _ = _
  rw [hinner]
  exact hfound

/-- A node that is not empty starts with a leaf. -/
theorem exists_leaf_at_start (h : (p.parse name text).parsed = .ok root) (hn : n ∈ root.preorder)
    (hne : n.span.start.offset ≠ n.span.stop.offset) :
    ∃ leaf ∈ n.preorder, leaf.isLeaf = true ∧ leaf.span.start.offset < leaf.span.stop.offset
      ∧ ∃ o : Nat, leaf.span.start.offset = o ∧ n.span.start = text.positionAt o := by
  rw [← Node.preorderAll_singleton] at hn
  obtain ⟨a, b, hlaid⟩ := (Parser.laid_of_parse h).exists_of_mem n hn
  obtain ⟨leaf, hmem, t, ht, hleaf, hstart⟩ := hlaid.exists_leaf_at_start hne
  obtain ⟨o, _, -, -, hspan, -⟩ := Parser.exists_offsets_of_kept ht
  refine ⟨leaf, hmem, hleaf.isLeaf, ?_, o, ?_, ?_⟩
  · rw [hleaf.span_eq]
    exact Parser.start_lt_stop_of_kept ht
  · rw [hleaf.span_eq, hspan]
    rfl
  · rw [hstart, hspan]

end Project

namespace Editor.Documents

variable {d : Documents} {uri : Text} {file : SourceFile} {c : Cursor} {path : List Node}

theorem spotAt?_eq_some (hd : d.get? uri = some file) (hpath : file.pathAt? c = some path) :
    d.spotAt? uri c = some ⟨file, path⟩ := by
  rw [spotAt?, hd]
  show (file.pathAt? c).bind _ = _
  rw [hpath]
  rfl

/-- **What is under a cursor in a document that parses.** At an offset in a leaf, it is the
path from the root to that leaf, which is the only one. At the start of a node that is not
empty, it is a path through the node. -/
theorem spotAt?_of_parsed {p : Project} {name text : Text} {root : Node}
    (hd : d.get? uri = some (p.parse name text)) (h : (p.parse name text).parsed = .ok root) :
    (∀ leaf ∈ root.leaves, ∀ o : Nat, leaf.span.start.offset ≤ o → o < leaf.span.stop.offset →
        ∃ path, d.spotAt? uri (text.positionAt o).toCursor = some ⟨p.parse name text, path⟩
          ∧ ∀ chain, root.LeadsTo chain leaf ↔ chain = path)
      ∧ ∀ n ∈ root.preorder, n.span.start.offset ≠ n.span.stop.offset →
        ∃ path, d.spotAt? uri n.span.start.toCursor = some ⟨p.parse name text, path⟩
          ∧ n ∈ path := by
  refine ⟨fun leaf hleaf o ho ho' => ?_, fun n hn hne => ?_⟩
  · rw [Node.leaves_eq_filter] at hleaf
    obtain ⟨hmem, hleaf⟩ := List.mem_filter.mp hleaf
    obtain ⟨path, hpath⟩ := Node.exists_leadsTo root hmem
    have hfound := Project.pathAt?_of_leaf h hleaf hpath ho ho'
    refine ⟨path, spotAt?_eq_some hd hfound, fun chain => ⟨fun hchain => ?_, ?_⟩⟩
    · exact Option.some.inj ((Project.pathAt?_of_leaf h hleaf hchain ho ho').symm.trans hfound)
    · rintro rfl
      exact hpath
  · obtain ⟨leaf, hmem, hleaf, hlt, o, ho, hstart⟩ := Project.exists_leaf_at_start h hn hne
    obtain ⟨above, habove⟩ := Node.exists_leadsTo root hn
    obtain ⟨ahead, hahead⟩ := Node.exists_leadsTo n hmem
    obtain ⟨path, hpath, hthrough⟩ := habove.through hahead
    refine ⟨path, spotAt?_eq_some hd ?_, hthrough⟩
    rw [hstart]
    exact Project.pathAt?_of_leaf h hleaf hpath (Int.le_of_eq ho) (ho ▸ hlt)

end Editor.Documents

namespace Sample

/-- The project that parses ` x`. -/
def spacedProject : Project :=
  ⟨⟨utf8 "doc.ebnf", utf8 "doc", [utf8 "WhiteSpace"], [], utf8 "."⟩, spaced⟩

/-- A text parses to what a run over all its tokens leaves behind. -/
theorem parsed_of_run {text : Text} {tokens : List Token} (ht : tokenize spaced text = tokens)
    {m : Parse.Match (List Node) (spacedParser.input tokens).size 0}
    {s : Parse.State (spacedParser.input tokens).size}
    (h : Parse.Run (spacedParser.input tokens) ∅ 0 (.production (utf8 "doc")) (.start _) (some m) s)
    (hm : m.next = (spacedParser.input tokens).size) {root : Node} (hvalue : m.value = [root])
    (name : Text) : (spacedProject.parse name text).parsed = .ok root := by
  obtain ⟨_, hok, hroot⟩ := Parser.exists_parse_of_run (by decide) has_doc h hm
  obtain ⟨rfl, -⟩ := List.cons.inj (hvalue.symm.trans hroot)
  show spacedParser.parse (tokenize spaced text) (utf8 "doc") = _
  rw [ht]
  exact hok

theorem parsed_spaced (name : Text) :
    (spacedProject.parse name (utf8 " x")).parsed = .ok spacedTree := by
  obtain ⟨m, s, h, hm, hvalue⟩ := run_spacedTree
  exact parsed_of_run tokenize_spaced h hm hvalue name

end Sample

/-- The cursor at the word of ` x` finds the word, though the gap is there, too. -/
theorem Editor.Documents.spotAt?_of_parsed_spaced :
    ((Documents.empty Sample.spacedProject).update (utf8 "a") (utf8 " x")).spotAt? (utf8 "a") ⟨1, 2⟩
        = some ⟨Sample.spacedProject.parse (utf8 "a") (utf8 " x"),
          [Sample.spacedTree, Sample.spacedWord]⟩
      ∧ Sample.spacedGap.covers 1 = true := by
  have hleaf : Sample.spacedWord ∈ Sample.spacedTree.leaves := List.mem_singleton_self _
  obtain ⟨path, hspot, hpath⟩ := (spotAt?_of_parsed
    (get?_update_self (.empty Sample.spacedProject) (utf8 "a") (utf8 " x"))
    (Sample.parsed_spaced (utf8 "a"))).1 _ hleaf 1 (by decide) (by decide)
  have hchain : Sample.spacedTree.LeadsTo [Sample.spacedTree, Sample.spacedWord]
      Sample.spacedWord :=
    .down (List.mem_cons_of_mem _ List.mem_cons_self) .here
  rw [(hpath _).mp hchain]
  exact ⟨hspot, by decide⟩

end Arbor
