import Arbor.Proofs.Parser.Geometry

/-!
# How tight spans are

A composite goes from the start of its first child to the end of its last one. One would like to
say that it goes from the start of its first **leaf** to the end of its last one, so that its
source text neither starts nor ends with what is skipped. Only the first half is true.

A node without leaves stands before the next kept token, behind anything that is skipped
before that. At the start of a composite this does no harm, since the token there is the one of
its first leaf. But a composite that ends in such a node ends where the next kept token starts,
or at the end of the text, and what is skipped up to there is in its source text.
`Node.Stretch` says which tokens of the text these are, and that there are none if the last node
in pre-order is a leaf. A span is tight just if they are empty (`Parser.stretch_of_parseText`).
-/

namespace Arbor

/-! ## Stretches of what is filtered -/

/-- If what is kept of a list comes in three parts, so does the list. A middle part starts and
ends with something that is kept. -/
theorem exists_stretch {α : Type} {keep : α → Bool} {l front mid back : List α}
    (h : l.filter keep = front ++ (mid ++ back)) (hne : mid ≠ []) :
    ∃ before own rest, l = before ++ (own ++ rest) ∧ own.filter keep = mid
      ∧ own.head? = mid.head? ∧ own.getLast? = mid.getLast? ∧ rest.filter keep = back := by
  obtain ⟨before, l, rfl, -, hmid⟩ := List.filter_eq_append_iff.mp h
  obtain ⟨a, mid, rfl⟩ := List.exists_cons_of_ne_nil hne
  obtain ⟨left, l, rfl, -, ha, hl⟩ := List.filter_eq_cons_iff.mp hmid
  rcases List.eq_nil_or_concat mid with rfl | ⟨init, z, rfl⟩
  · refine ⟨before ++ left, [a], l, ?_, ?_, rfl, rfl, hl⟩
    · simp
    · exact List.filter_cons_of_pos ha
  · rw [List.concat_eq_append] at hl ⊢
    rw [List.append_eq, List.append_assoc] at hl
    obtain ⟨u, l, rfl, hu, hz⟩ := List.filter_eq_append_iff.mp hl
    obtain ⟨v, rest, rfl, hv, hkept, hrest⟩ := List.filter_eq_cons_iff.mp hz
    have hnone : v.filter keep = [] := List.filter_eq_nil_iff.mpr hv
    refine ⟨before ++ left, a :: (u ++ (v ++ [z])), rest, ?_, ?_, rfl, ?_, hrest⟩
    · simp
    · rw [List.filter_cons_of_pos ha, List.filter_append, List.filter_append, hu, hnone,
        List.filter_cons_of_pos hkept, List.filter_nil, List.nil_append]
    · rw [← List.append_assoc, ← List.cons_append, List.getLast?_concat, ← List.cons_append,
        List.getLast?_concat]

/-- What is first in one of two lists that correspond has a counterpart in the other. -/
theorem exists_mem_head? {α β : Type} {R : α → β → Prop} {l : List α} {l' : List β} {a : α}
    (h : List.Forall₂ R l l') (ha : a ∈ l.head?) : ∃ b ∈ l'.head?, R a b := by
  cases h with
  | nil => cases ha
  | cons hab =>
    obtain rfl := Option.some.inj ha
    exact ⟨_, rfl, hab⟩

/-! ## Where a node ends -/

/-- Whether the last node of a tree in pre-order is a leaf. -/
def Node.endsInLeaf (n : Node) : Bool := n.preorder.getLast?.any isLeaf

namespace Laid

variable {i : ParseInput} {pos next : Nat} {n : Node} {ns : List Node}

theorem pos_le (h : Laid i pos next ns) : pos ≤ next := Nat.le.intro h.length_leaves

/-- Leaves are those of the tokens that nodes lie over. -/
theorem leaves (h : Laid i pos next ns) :
    List.Forall₂ (Node.IsLeafOf i.grammar) ((Node.preorderAll ns).filter Node.isLeaf)
      (slice i.tokens.toList pos next) := by
  induction h with
  | nil =>
    rw [slice_self]
    exact .nil
  | @leaf pos _ t _ _ ht hn h ih =>
    have htoken : i.tokens.toList[pos]? = some t := by
      rw [Array.getElem?_toList]
      exact ht
    rw [← slice_append _ (Nat.le_succ pos) h.pos_le, slice_succ htoken, hn.preorderAll_eq,
      List.filter_cons_of_pos hn.isLeaf]
    exact .cons hn ih
  | composite hc hrest ihc ih =>
    rw [← slice_append _ hc.pos_le hrest.pos_le, Node.preorderAll_composite,
      List.filter_cons_of_neg (by simp [Node.isLeaf]), List.filter_append]
    exact List.rel_append ihc ih

/-- **The last node in pre-order ends where the last of all nodes does.** If it is not a leaf,
this is at the next token. -/
theorem stop_getLast (h : Laid i pos next ns) : ∀ m ∈ (Node.preorderAll ns).getLast?,
    (∀ n ∈ ns.getLast?, n.span.stop = m.span.stop)
      ∧ (m.isLeaf = false → m.span.stop = i.edge next) := by
  have hne (k : Node) (ns : List Node) : Node.preorderAll (k :: ns) ≠ [] := by
    rw [Node.preorderAll_cons, Node.preorder_eq_cons]
    exact List.cons_ne_nil _ _
  induction h with
  | nil => exact fun m hm => absurd hm (by simp)
  | @leaf pos next t n ns ht hn h ih =>
    rw [hn.preorderAll_eq]
    cases ns with
    | nil =>
      rw [Node.preorderAll_nil, List.getLast?_singleton]
      rintro m ⟨⟩
      refine ⟨?_, fun hm => ?_⟩
      · rintro k ⟨⟩
        rfl
      · rw [hn.isLeaf] at hm
        cases hm
    | cons k ns =>
      rw [List.getLast?_cons_of_ne_nil (hne k ns), List.getLast?_cons_cons]
      exact ih
  | @composite pos mid next serial rule cs ns hc hrest ihc ih =>
    rw [Node.preorderAll_composite, ← List.cons_append]
    cases ns with
    | cons k ns =>
      rw [List.getLast?_append_of_ne_nil _ (hne k ns), List.getLast?_cons_cons]
      exact ih
    | nil =>
      cases hrest
      rw [Node.preorderAll_nil, List.append_nil]
      cases cs with
      | nil =>
        -- the node stands alone, before the next token
        cases hc
        rw [Node.preorderAll_nil, List.getLast?_singleton]
        rintro m ⟨⟩
        refine ⟨?_, fun _ => ?_⟩
        · rintro k ⟨⟩
          rfl
        · show (Parse.spanOf i pos []).stop = _
          rw [Parse.spanOf_nil]
          rfl
      | cons d cs =>
        rw [List.getLast?_cons_of_ne_nil (hne d cs)]
        intro m hm
        obtain ⟨hlast, hedge⟩ := ihc m hm
        refine ⟨fun k hk => ?_, hedge⟩
        obtain rfl := Option.some.inj hk
        show (Parse.spanOf i pos (d :: cs)).stop = _
        rw [Parse.spanOf_cons]
        exact hlast _ (List.getLast?_eq_some_getLast _)

/-- A node ends where its last leaf does if it ends in a leaf, and otherwise at the next
token. -/
theorem stop_eq (h : Laid i pos next [n]) :
    (n.endsInLeaf = true → ∀ last ∈ n.leaves.getLast?, n.span.stop = last.span.stop)
      ∧ (n.endsInLeaf = false → n.span.stop = i.edge next) := by
  have hne : n.preorder ≠ [] := by
    rw [Node.preorder_eq_cons]
    exact List.cons_ne_nil _ _
  have hsplit := List.dropLast_append_getLast hne
  have hm := List.getLast?_eq_some_getLast hne
  generalize n.preorder.getLast hne = m at hsplit hm
  obtain ⟨hstop, hedge⟩ := h.stop_getLast m (by rwa [Node.preorderAll_singleton])
  have hends : n.endsInLeaf = m.isLeaf := by rw [Node.endsInLeaf, hm, Option.any_some]
  rw [hends, hstop n rfl]
  refine ⟨fun hleaf last hlast => ?_, hedge⟩
  rw [Node.leaves_eq_filter, ← hsplit, List.filter_append, List.filter_cons_of_pos hleaf,
    List.filter_nil, List.getLast?_concat] at hlast
  rw [Option.some.inj hlast]

/-- The source text of a node is the one in its span. -/
theorem source?_eq (h : Laid i pos next [n]) (source : Source) :
    n.source? source = .ok (source.slice? n.span.start.offset n.span.stop.offset) := by
  cases h with
  | leaf _ hn => rw [hn.source?_eq, hn.span_eq]
  | composite => rfl

end Laid

/-! ## The tokens of a node -/

/-- Advancing over the middle of a text leads from the end of the first part to the end of the
second. -/
theorem Text.after_positionAt_append (u v w : Text) :
    ((u ++ (v ++ w)).positionAt u.length).after v = (u ++ (v ++ w)).positionAt (u ++ v).length := by
  have h := after_positionAt (u ++ (v ++ w)) (i := u.length) (j := (u ++ v).length)
    (by simp) (by simp)
  rwa [List.drop_left, List.length_append, Nat.add_sub_cancel_left, List.take_left,
    ← List.length_append] at h

/-- The middle of a text. -/
theorem Source.slice?_append (u v w : Text) :
    slice? (u ++ (v ++ w)).toArray u.length (u ++ v).length = some v := by
  rw [slice?_toArray (by simp) (by simp), List.drop_left, List.length_append,
    Nat.add_sub_cancel_left, List.take_left]

/-- **The stretch of a node with leaves**: the tokens of a text are those before the node, its
own, those it takes in behind them, and the rest. -/
structure Node.Stretch (p : Parser) (t : Text) (n : Node) (before own behind after : List Token) :
    Prop where
  /-- These are all tokens of the text. -/
  tokens_eq : tokenize p.grammar t = before ++ (own ++ (behind ++ after))
  /-- The leaves are those of its own tokens that are kept. -/
  leaves : List.Forall₂ (Node.IsLeafOf p.grammar) n.leaves (own.filter p.keeps)
  /-- Its own tokens start with the one of the first leaf. -/
  head : own.head? = (own.filter p.keeps).head?
  /-- They end with the one of the last leaf. -/
  last : own.getLast? = (own.filter p.keeps).getLast?
  /-- No token is kept of those behind them. -/
  skipped : ∀ a ∈ behind, p.keeps a = false
  /-- There are none if the node ends in a leaf. -/
  none : n.endsInLeaf = true → behind = []
  /-- Otherwise they are all up to the next token that is kept. -/
  next : n.endsInLeaf = false → ∀ a ∈ after.head?, p.keeps a = true
  /-- The source text of the node is that of its own tokens and of those behind them. -/
  source : n.source? t.toArray
    = .ok (some (own.flatMap Token.literal ++ behind.flatMap Token.literal))

namespace Parser

variable {p : Parser} {t start : Text} {root n first last : Node}

/-- The edge of an index is where the token stands that is kept next, or the end of the text. -/
theorem edge_eq_of_drop {front after : List Token} {k : Nat}
    (htokens : tokenize p.grammar t = front ++ after)
    (hdrop : ((tokenize p.grammar t).filter p.keeps).drop k = after.filter p.keeps)
    (hkept : ∀ a ∈ after.head?, p.keeps a = true) :
    (p.input (tokenize p.grammar t)).edge k
      = t.positionAt (front.flatMap Token.literal).length := by
  have hcut := cut_tokenize p.grammar t
  have hget : (p.input (tokenize p.grammar t)).tokens[k]? = (after.filter p.keeps).head? := by
    rw [input, List.getElem?_toArray, ← hdrop, List.head?_drop]
  cases after with
  | nil =>
    have hfront : front.flatMap Token.literal = t := by
      rw [List.append_nil] at htokens
      rw [← htokens, hcut.flatMap_literal, List.drop_zero]
    rw [ParseInput.edge, hget, hfront]
    exact stop_input_tokenize
  | cons a after =>
    rw [List.filter_cons_of_pos (hkept a rfl), List.head?_cons] at hget
    rw [htokens] at hcut
    rw [ParseInput.edge_of_token hget, hcut.span_eq, Nat.zero_add]

/-- The tokens that a node with leaves lies over, without what is skipped around them. -/
theorem exists_own {pos next : Nat} (h : Laid (p.input (tokenize p.grammar t)) pos next [n])
    (hne : n.leaves ≠ []) :
    ∃ before own rest, tokenize p.grammar t = before ++ (own ++ rest)
      ∧ List.Forall₂ (Node.IsLeafOf p.grammar) n.leaves (own.filter p.keeps)
      ∧ own.head? = (own.filter p.keeps).head? ∧ own.getLast? = (own.filter p.keeps).getLast?
      ∧ ((tokenize p.grammar t).filter p.keeps).drop pos = (own ++ rest).filter p.keeps
      ∧ ((tokenize p.grammar t).filter p.keeps).drop next = rest.filter p.keeps := by
  have hleaves := h.leaves
  rw [Node.preorderAll_singleton, ← Node.leaves_eq_filter] at hleaves
  have hdrop : ((tokenize p.grammar t).filter p.keeps).drop pos
      = slice ((tokenize p.grammar t).filter p.keeps) pos next
        ++ ((tokenize p.grammar t).filter p.keeps).drop next := by
    have hparts := List.take_append_drop (next - pos)
      (((tokenize p.grammar t).filter p.keeps).drop pos)
    rw [List.drop_drop, Nat.add_sub_of_le h.pos_le] at hparts
    exact hparts.symm
  have hkept := List.take_append_drop pos ((tokenize p.grammar t).filter p.keeps)
  rw [hdrop] at hkept
  have hsome : slice ((tokenize p.grammar t).filter p.keeps) pos next ≠ [] := by
    intro hnil
    have hlength : n.leaves.length
        = (slice ((tokenize p.grammar t).filter p.keeps) pos next).length := hleaves.length_eq
    rw [hnil] at hlength
    exact hne (List.eq_nil_of_length_eq_zero hlength)
  obtain ⟨before, own, rest, htokens, hown, hhead, hlast, hrest⟩ :=
    exists_stretch hkept.symm hsome
  rw [← hown] at hhead hlast
  refine ⟨before, own, rest, htokens, hown.symm ▸ hleaves, hhead, hlast, ?_, hrest.symm⟩
  rw [hdrop, List.filter_append, hown, hrest]

/-- What a node takes in of the tokens behind its own. -/
theorem exists_behind (p : Parser) (n : Node) (rest : List Token) :
    ∃ behind after, rest = behind ++ after ∧ (∀ a ∈ behind, p.keeps a = false)
      ∧ (n.endsInLeaf = true → behind = [])
      ∧ (n.endsInLeaf = false → ∀ a ∈ after.head?, p.keeps a = true) := by
  cases hends : n.endsInLeaf with
  | true => exact ⟨[], rest, rfl, by simp, fun _ => rfl, by simp⟩
  | false =>
    refine ⟨rest.takeWhile (!p.keeps ·), rest.dropWhile (!p.keeps ·),
      (List.takeWhile_append_dropWhile ..).symm, fun a ha => ?_, by simp, fun _ a ha => ?_⟩
    · simpa using List.all_eq_true.mp List.all_takeWhile a ha
    · have hnot := List.head?_dropWhile_not (!p.keeps ·) rest
      rw [show (rest.dropWhile (!p.keeps ·)).head? = some a from ha] at hnot
      simpa using hnot

/-- The first and the last leaf of a node stand at the ends of its own tokens. -/
theorem span_of_own {before own rest : List Token}
    (htokens : tokenize p.grammar t = before ++ (own ++ rest))
    (hleaves : List.Forall₂ (Node.IsLeafOf p.grammar) n.leaves (own.filter p.keeps))
    (hhead : own.head? = (own.filter p.keeps).head?)
    (hlast : own.getLast? = (own.filter p.keeps).getLast?)
    (hfirst : first ∈ n.leaves.head?) (hfinal : last ∈ n.leaves.getLast?) :
    first.span.start = t.positionAt (before.flatMap Token.literal).length
      ∧ last.span.stop
        = t.positionAt (before.flatMap Token.literal ++ own.flatMap Token.literal).length := by
  have hcut := cut_tokenize p.grammar t
  rw [htokens] at hcut
  constructor
  · obtain ⟨a, ha, hleaf⟩ := exists_mem_head? hleaves hfirst
    obtain ⟨own, rfl⟩ := List.head?_eq_some_iff.mp (hhead.trans ha)
    rw [hleaf.span_eq, hcut.span_eq, Nat.zero_add]
  · rw [← List.forall₂_reverse_iff] at hleaves
    rw [List.getLast?_eq_head?_reverse] at hfinal
    obtain ⟨a, ha, hleaf⟩ := exists_mem_head? hleaves hfinal
    rw [← List.getLast?_eq_head?_reverse] at ha
    obtain ⟨own, rfl⟩ := List.getLast?_eq_some_iff.mp (hlast.trans ha)
    rw [List.append_assoc, ← List.append_assoc] at hcut
    rw [hleaf.span_eq, hcut.span_eq, ← List.flatMap_append, ← List.append_assoc]
    dsimp only
    rw [Nat.zero_add]

/-- A node starts with its own tokens. -/
theorem start_of_own {pos next : Nat} {before own rest : List Token}
    (h : Laid (p.input (tokenize p.grammar t)) pos next [n])
    (htokens : tokenize p.grammar t = before ++ (own ++ rest))
    (hdrop : ((tokenize p.grammar t).filter p.keeps).drop pos = (own ++ rest).filter p.keeps)
    (hleaves : List.Forall₂ (Node.IsLeafOf p.grammar) n.leaves (own.filter p.keeps))
    (hhead : own.head? = (own.filter p.keeps).head?) (hfirst : first ∈ n.leaves.head?) :
    n.span.start = t.positionAt (before.flatMap Token.literal).length := by
  rw [h.start_head n rfl]
  refine edge_eq_of_drop htokens hdrop fun a ha => ?_
  obtain ⟨b, hb, -⟩ := exists_mem_head? hleaves hfirst
  rw [List.head?_append, hhead, hb, Option.some_or] at ha
  obtain rfl := Option.some.inj ha
  exact (List.mem_filter.mp (List.mem_of_mem_head? hb)).2

/-- A node ends behind what it takes in. -/
theorem stop_of_behind {pos next : Nat} {front behind after : List Token}
    (h : Laid (p.input (tokenize p.grammar t)) pos next [n])
    (htokens : tokenize p.grammar t = front ++ (behind ++ after))
    (hdrop : ((tokenize p.grammar t).filter p.keeps).drop next = (behind ++ after).filter p.keeps)
    (hskipped : ∀ a ∈ behind, p.keeps a = false) (hnone : n.endsInLeaf = true → behind = [])
    (hkept : n.endsInLeaf = false → ∀ a ∈ after.head?, p.keeps a = true)
    (hlast : last ∈ n.leaves.getLast?)
    (hstop : last.span.stop = t.positionAt (front.flatMap Token.literal).length) :
    n.span.stop
      = t.positionAt (front.flatMap Token.literal ++ behind.flatMap Token.literal).length := by
  cases hends : n.endsInLeaf with
  | true =>
    rw [h.stop_eq.1 hends last hlast, hstop, hnone hends, List.flatMap_nil, List.append_nil]
  | false =>
    have hbehind : behind.filter p.keeps = [] := by
      rw [List.filter_eq_nil_iff]
      intro a ha
      rw [hskipped a ha]
      exact Bool.false_ne_true
    rw [List.filter_append, hbehind, List.nil_append] at hdrop
    rw [← List.append_assoc] at htokens
    rw [h.stop_eq.2 hends, ← List.flatMap_append]
    exact edge_eq_of_drop htokens hdrop (hkept hends)

/-- **How tight the spans of a parsed tree are.** A node with leaves starts where its first leaf
does. It ends behind the last one, and behind all that is skipped up to the next kept token
unless a leaf is the last node of it in pre-order. So it ends with its last leaf just if nothing
is skipped there. -/
theorem stretch_of_parseText (h : p.parseText t start = .ok root) (hn : n ∈ root.preorder)
    (hfirst : first ∈ n.leaves.head?) (hlast : last ∈ n.leaves.getLast?) :
    n.span.start = first.span.start ∧ ∃ before own behind after,
      n.Stretch p t before own behind after
        ∧ n.span.stop = last.span.stop.after (behind.flatMap Token.literal)
        ∧ (n.span.stop = last.span.stop ↔ behind.flatMap Token.literal = []) := by
  rw [← Node.preorderAll_singleton] at hn
  obtain ⟨pos, next, hlaid⟩ := (laid_of_parse h).exists_of_mem n hn
  have hne : n.leaves ≠ [] := by
    intro hnil
    rw [hnil] at hfirst
    cases hfirst
  obtain ⟨before, own, rest, htokens, hleaves, hhead, hfinal, hpos, hnext⟩ := exists_own hlaid hne
  obtain ⟨behind, after, rfl, hskipped, hnone, hkept⟩ := exists_behind p n rest
  obtain ⟨hfirstStart, hlastStop⟩ := span_of_own htokens hleaves hhead hfinal hfirst hlast
  have hstart := start_of_own hlaid htokens hpos hleaves hhead hfirst
  rw [← List.flatMap_append] at hlastStop
  have hstop := stop_of_behind hlaid (htokens.trans (List.append_assoc ..).symm) hnext hskipped
    hnone hkept hlast hlastStop
  have htext : (before ++ own).flatMap Token.literal
      ++ (behind.flatMap Token.literal ++ after.flatMap Token.literal) = t := by
    have hjoined := (cut_tokenize p.grammar t).flatMap_literal
    rw [htokens, List.drop_zero] at hjoined
    rw [← hjoined]
    simp
  refine ⟨hstart.trans hfirstStart.symm, before, own, behind, after,
    ⟨htokens, hleaves, hhead, hfinal, hskipped, hnone, hkept, ?_⟩, ?_, ?_⟩
  · have hslice := Source.slice?_append (before.flatMap Token.literal)
      (own.flatMap Token.literal ++ behind.flatMap Token.literal) (after.flatMap Token.literal)
    rw [List.append_assoc, ← List.append_assoc, ← List.flatMap_append, htext, ← List.append_assoc,
      ← List.flatMap_append] at hslice
    rw [hlaid.source?_eq, hstart, hstop, Text.offset_positionAt, Text.offset_positionAt, hslice]
  · have hafter := Text.after_positionAt_append ((before ++ own).flatMap Token.literal)
      (behind.flatMap Token.literal) (after.flatMap Token.literal)
    rw [htext] at hafter
    rw [hstop, hlastStop, hafter]
  · rw [hstop, hlastStop]
    constructor
    · intro heq
      have hoffset := congrArg Position.offset heq
      rw [Text.offset_positionAt, Text.offset_positionAt, List.length_append] at hoffset
      exact List.eq_nil_of_length_eq_zero (by omega)
    · intro hnil
      rw [hnil, List.append_nil]

end Parser

/-! ## A sample

A line that ends in an empty gap, before a blank that is skipped and another word. -/

namespace Sample

open Parse

/-- The production `doc = line Word .` -/
def page : Production :=
  ⟨utf8 "doc", mark, .seq (.name mark (utf8 "line")) (.name mark (utf8 "Word"))⟩

/-- The production `line = Word gap .` -/
def line : Production :=
  ⟨utf8 "line", mark, .seq (.name mark (utf8 "Word")) (.name mark (utf8 "gap"))⟩

def lined : Grammar := .ofProductions [page, line, gap, word, blank]

def linedParser : Parser := ⟨lined, [utf8 "WhiteSpace"]⟩

theorem get?_lined (n : Text) :
    lined.get? n = [page, line, gap, word, blank].find? (·.name = n) :=
  Grammar.get?_ofProductions _ n

theorem tokenProductions_lined : lined.tokenProductions = [blank, word] :=
  Grammar.tokenProductions_ofProductions _

/-- Documents refer leftmost to lines, and lines to what refers to nothing. -/
theorem not_leftRecursive_lined : ¬ Scan.LeftRecursive lined := by
  refine Scan.not_leftRecursive_of_rank
    (fun n => if n = utf8 "doc" then 2 else if n = utf8 "line" then 1 else 0) ?_
  rintro a b ⟨p, hp, hb⟩
  obtain ⟨hm, rfl⟩ := Grammar.mem_of_get?_ofProductions hp
  simp only [List.mem_cons, List.not_mem_nil, or_false] at hm
  rcases hm with rfl | rfl | rfl | rfl | rfl
  · cases hb with
    | seqLeft hb =>
      cases hb
      decide
    | seqRight _ hb =>
      cases hb
      decide
  · cases hb with
    | seqLeft hb =>
      cases hb
      decide
    | seqRight _ hb =>
      cases hb
      decide
  · cases hb with
    | option hb => cases hb
  · cases hb
  · cases hb

/-- The tokens of `x x`. -/
def linedTokens : List Token :=
  [token "Word" "x" 0, token "WhiteSpace" " " 1, token "Word" "x" 2,
    ⟨Token.endKind, [], .empty ⟨3, 1, 4⟩⟩]

theorem tokenize_lined : tokenize lined (utf8 "x x") = linedTokens :=
  tokenize_eq_of_cuts not_leftRecursive_lined
    (.token (by decide) (finds_word_of tokenProductions_lined (by decide) (by decide))
      (.token (by decide) (finds_blank_of tokenProductions_lined (by decide) (by decide))
        (.token (by decide) (finds_word_of tokenProductions_lined (by decide) (by decide))
          .finish)))

/-- The word of the line. -/
def lineWord : Node :=
  .terminal 0 (some (lined.tokenRule (utf8 "Word"))) (utf8 "x") ⟨⟨0, 1, 1⟩, ⟨1, 1, 2⟩⟩

/-- The gap at its end, which stands at the next word. -/
def lineGap : Node := .composite 1 (some (.production (utf8 "gap"))) [] (.empty ⟨2, 1, 3⟩)

/-- The line. -/
def lineNode : Node :=
  .composite 2 (some (.production (utf8 "line"))) [lineWord, lineGap] ⟨⟨0, 1, 1⟩, ⟨2, 1, 3⟩⟩

/-- The tree of `x x`. -/
def linedTree : Node :=
  .composite 4 (some (.production (utf8 "doc"))) [lineNode, .terminal 3
    (some (lined.tokenRule (utf8 "Word"))) (utf8 "x") ⟨⟨2, 1, 3⟩, ⟨3, 1, 4⟩⟩]
    ⟨⟨0, 1, 1⟩, ⟨3, 1, 4⟩⟩

theorem terminal?_lined {n : Text} {q : Production} (hn : Grammar.isToken n = false)
    (hq : lined.get? n = some q) :
    Expr.terminal? (linedParser.input linedTokens).grammar (.name mark n) = none :=
  Parser.terminal?_input hn hq

theorem run_linedTree : ∃ m s, Run (linedParser.input linedTokens) ∅ 0
    (.production (utf8 "doc")) (.start _) (some m) s ∧ m.next = 2 ∧ m.value = [linedTree] := by
  refine ⟨_, _, Run.node Std.DHashMap.get?_empty Std.TreeSet.not_mem_emptyc
    (get?_lined (utf8 "doc"))
    (assemble_composite (Parser.isCategory_input (get?_lined (utf8 "doc")) rfl) _ _ _)
    (.seq (.name (terminal?_lined (by decide) (get?_lined (utf8 "line")))
        (.node Std.DHashMap.get?_empty ?_ (get?_lined (utf8 "line"))
          (assemble_composite (Parser.isCategory_input (get?_lined (utf8 "line")) rfl) _ _ _)
          (.seq (.accept rfl (show 0 < 2 by decide) rfl)
            (.name (terminal?_lined (by decide) (get?_lined (utf8 "gap")))
              (.node ?_ ?_ (get?_lined (utf8 "gap"))
                (assemble_composite (Parser.isCategory_input (get?_lined (utf8 "gap")) rfl) _ _ _)
                (.option (.reject rfl ?_)))))))
      (.accept rfl (show 1 < 2 by decide) rfl)), rfl, rfl⟩
  · decide
  · exact Std.DHashMap.get?_empty
  · decide
  · rintro t ⟨⟩
    exact (by decide : ¬ utf8 "x" = utf8 ",")

theorem parseText_lined : linedParser.parseText (utf8 "x x") (utf8 "doc") = .ok linedTree := by
  obtain ⟨m, s, h, hm, hvalue⟩ := run_linedTree
  obtain ⟨root, hok, hroot⟩ :=
    Parser.exists_parse_of_run (by decide) (Grammar.has_of_get? (get?_lined (utf8 "doc"))) h hm
  obtain ⟨htree, -⟩ := List.cons.inj (hvalue.symm.trans hroot)
  rw [Parser.parseText, show linedParser.grammar = lined from rfl, tokenize_lined, htree]
  exact hok

theorem mem_linedTree : lineNode ∈ linedTree.preorder := List.mem_cons_of_mem _ List.mem_cons_self

theorem leaves_lineNode : lineNode.leaves = [lineWord] := by
  rw [Node.leaves_eq_filter]
  rfl

end Sample

namespace Parser

/-- The line of `x x` takes in the blank. -/
theorem stretch_of_parseText_lined :
    Sample.linedParser.parseText (utf8 "x x") (utf8 "doc") = .ok Sample.linedTree
      ∧ Sample.lineNode ∈ Sample.linedTree.preorder ∧ Sample.lineNode.leaves = [Sample.lineWord]
      ∧ Sample.lineNode.endsInLeaf = false
      ∧ Sample.lineNode.span.start = Sample.lineWord.span.start
      ∧ ∃ before own behind after,
        Sample.lineNode.Stretch Sample.linedParser (utf8 "x x") before own behind after
          ∧ behind.flatMap Token.literal ≠ [] := by
  have hfirst : Sample.lineWord ∈ Sample.lineNode.leaves.head? := by
    rw [Sample.leaves_lineNode]
    rfl
  have hlast : Sample.lineWord ∈ Sample.lineNode.leaves.getLast? := by
    rw [Sample.leaves_lineNode]
    rfl
  obtain ⟨hstart, before, own, behind, after, hstretch, -, htight⟩ :=
    stretch_of_parseText Sample.parseText_lined Sample.mem_linedTree hfirst hlast
  refine ⟨Sample.parseText_lined, Sample.mem_linedTree, Sample.leaves_lineNode, by decide, hstart,
    before, own, behind, after, hstretch, ?_⟩
  rw [Ne, ← htight]
  decide

/-- **A span need not be tight**: the line of `x x` has a single leaf, and ends behind the blank
after it, which is in its source text. -/
theorem exists_span_not_tight :
    ∃ root n leaf, Sample.linedParser.parseText (utf8 "x x") (utf8 "doc") = .ok root
      ∧ n ∈ root.preorder ∧ n.leaves = [leaf] ∧ n.span.stop ≠ leaf.span.stop
      ∧ n.source? (utf8 "x x").toArray = .ok (some (utf8 "x "))
      ∧ leaf.source? (utf8 "x x").toArray = .ok (some (utf8 "x")) :=
  ⟨_, _, _, Sample.parseText_lined, Sample.mem_linedTree, Sample.leaves_lineNode, by decide, by rfl,
    by rfl⟩

end Parser

end Arbor
