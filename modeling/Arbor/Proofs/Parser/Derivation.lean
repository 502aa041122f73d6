import Arbor.Proofs.Node.Walk
import Arbor.Proofs.Parser.Evaluation
import Mathlib.Data.List.Forall2

/-!
# Parsed trees are derivations

A grammar derives nodes from tokens, and that can be said without a parser:
`Derives g ts e i j nodes` relates an expression to the nodes that it yields over
the tokens from `i` up to `j`. A choice may take either side there and a
repetition may stop anywhere; nothing is greedy and nothing is longest.

The parser makes one of these derivations (`Run.derives`). It needs no care for
left recursion: an opened production that fails leaves fewer matches, never a
wrong one, and a match that comes out of the table is a derivation since it was
one when it was kept.

A derivation loses no tokens (`Derives.leaves`): the leaves that it yields are,
one for one and in order, the tokens that it covers.
-/

namespace Arbor

/-! ## Derivations -/

/-- **What a grammar derives**: the nodes that an expression yields over the
tokens from one index up to another. -/
inductive Derives (g : Grammar) (ts : List Token) : Expr → Nat → Nat → List Node → Prop
  /-- The empty body yields nothing. -/
  | empty {i} : Derives g ts .empty i i []
  /-- A literal is a token with that text. -/
  | literal {i t v serial} (ht : ts[i]? = some t) (hv : t.literal = v) :
      Derives g ts (.literal v) i (i + 1) [.token serial t.kind t.literal t.span]
  /-- A range is a token whose text is one character between its bounds. -/
  | range {i t lo hi c serial} (ht : ts[i]? = some t) (hc : t.literal.pieces = [c])
      (hlo : lo.firstChar ≤ c.toChar) (hhi : c.toChar ≤ hi.firstChar) :
      Derives g ts (.range lo hi) i (i + 1) [.token serial t.kind t.literal t.span]
  /-- A name that is neither a token's nor a production's is a token spelled like
  it. -/
  | keyword {i t mark n serial} (hn : Grammar.isToken n = false) (hp : g.get? n = none)
      (ht : ts[i]? = some t) (hv : t.literal = n) :
      Derives g ts (.name mark n) i (i + 1) [.token serial t.kind t.literal t.span]
  /-- The name of a token is a terminal of that rule, if the token is of the
  kind. -/
  | kind {i t mark n serial} (hn : Grammar.isToken n = true) (ht : ts[i]? = some t)
      (hk : t.kind = n) :
      Derives g ts (.name mark n) i (i + 1)
        [.terminal serial (some (g.tokenRule n)) t.literal t.span]
  /-- A token of another kind may still be spelled like the name. -/
  | spelling {i t mark n serial} (hn : Grammar.isToken n = true) (ht : ts[i]? = some t)
      (hk : t.kind ≠ n) (hv : t.literal = n) :
      Derives g ts (.name mark n) i (i + 1) [.token serial t.kind t.literal t.span]
  /-- A production yields one node, and what its body yields are the children. -/
  | composite {i j mark n p nodes serial span} (hn : Grammar.isToken n = false)
      (hp : g.get? n = some p) (hc : g.isCategory n = false) :
      Derives g ts p.body i j nodes →
      Derives g ts (.name mark n) i j
        [.composite serial (some (.production n)) nodes span]
  /-- A category yields the node of the member chosen. -/
  | category {i j mark n p node} (hn : Grammar.isToken n = false) (hp : g.get? n = some p)
      (hc : g.isCategory n = true) : Derives g ts p.body i j [node] →
      Derives g ts (.name mark n) i j [node]
  /-- A group yields what its body does. -/
  | group {i j e nodes} : Derives g ts e i j nodes → Derives g ts (.group e) i j nodes
  /-- A sequence yields what its items do, one after the other. -/
  | seq {i j k e f xs ys} : Derives g ts e i j xs → Derives g ts f j k ys →
      Derives g ts (.seq e f) i k (xs ++ ys)
  /-- A choice yields what its first side does. -/
  | altLeft {i j e f nodes} : Derives g ts e i j nodes → Derives g ts (.alt e f) i j nodes
  /-- Or it yields what its other side does. -/
  | altRight {i j e f nodes} : Derives g ts f i j nodes → Derives g ts (.alt e f) i j nodes
  /-- An option may be absent. -/
  | absent {i e} : Derives g ts (.option e) i i []
  /-- Or it may be present. -/
  | present {i j e nodes} : Derives g ts e i j nodes → Derives g ts (.option e) i j nodes
  /-- A repetition may end. -/
  | done {i e} : Derives g ts (.repetition e) i i []
  /-- Or it may go on with one more occurrence. -/
  | more {i j k e xs ys} : Derives g ts e i j xs → Derives g ts (.repetition e) j k ys →
      Derives g ts (.repetition e) i k (xs ++ ys)

namespace Derives

variable {g : Grammar} {ts : List Token} {e : Expr} {i j : Nat} {nodes : List Node}

theorem le (h : Derives g ts e i j nodes) : i ≤ j := by
  induction h with
  | empty | absent | done => exact Nat.le_refl _
  | literal | range | keyword | kind | spelling => exact Nat.le_succ _
  | composite _ _ _ _ ih | category _ _ _ _ ih => exact ih
  | group _ ih | altLeft _ ih | altRight _ ih | present _ ih => exact ih
  | seq _ _ ih₁ ih₂ | more _ _ ih₁ ih₂ => exact Nat.le_trans ih₁ ih₂

/-- A name yields a single node. -/
theorem length_name {mark : Mark} {n : Text} (h : Derives g ts (.name mark n) i j nodes) :
    nodes.length = 1 := by
  cases h <;> rfl

/-- A choice between names yields a single node. -/
theorem length_choiceOfNames (h : Derives g ts e i j nodes) (he : e.choiceOfNames?.isSome) :
    nodes.length = 1 := by
  induction e generalizing nodes with
  | name mark n => exact h.length_name
  | alt a b _ ihb =>
    cases a with
    | name mark n =>
      cases h with
      | altLeft h => exact h.length_name
      | altRight h => exact ihb h (by simpa [Expr.choiceOfNames?] using he)
    | _ => simp [Expr.choiceOfNames?] at he
  | _ => simp [Expr.choiceOfNames?] at he

/-- The body of a category yields a single node. -/
theorem exists_node_of_isCategory {n : Text} {p : Production} (hp : g.get? n = some p)
    (hc : g.isCategory n = true) (h : Derives g ts p.body i j nodes) :
    ∃ node, nodes = [node] := by
  refine List.length_eq_one_iff.mp (h.length_choiceOfNames ?_)
  rw [Grammar.isCategory, Grammar.members?, hp, Option.bind_some, Grammar.membersOf?] at hc
  split at hc
  · exact absurd hc (by simp)
  · exact hc

end Derives

/-! ## The leaves of a derivation -/

/-- Whether a node is the leaf of a token: a token node with all that the token
has, or a terminal of its kind. -/
def Node.IsLeafOf (g : Grammar) (n : Node) (t : Token) : Prop :=
  ∃ serial, n = .token serial t.kind t.literal t.span
    ∨ n = .terminal serial (some (g.tokenRule t.kind)) t.literal t.span

/-- The tokens from one index up to another. -/
def slice (ts : List Token) (i j : Nat) : List Token := (ts.drop i).take (j - i)

@[simp] theorem slice_self (ts : List Token) (i : Nat) : slice ts i i = [] := by
  simp [slice]

theorem slice_append (ts : List Token) {i j k : Nat} (hij : i ≤ j) (hjk : j ≤ k) :
    slice ts i j ++ slice ts j k = slice ts i k := by
  unfold slice
  rw [show k - i = (j - i) + (k - j) by omega, List.take_add, List.drop_drop,
    Nat.add_sub_of_le hij]

theorem slice_succ {ts : List Token} {i : Nat} {t : Token} (h : ts[i]? = some t) :
    slice ts i (i + 1) = [t] := by
  obtain ⟨hi, rfl⟩ := List.getElem?_eq_some_iff.mp h
  rw [slice, List.drop_eq_getElem_cons hi, Nat.add_sub_cancel_left]
  rfl

/-- **A derivation loses no tokens**: its leaves in pre-order are those of the
tokens that it covers. -/
theorem Derives.leaves {g : Grammar} {ts : List Token} {e : Expr} {i j : Nat}
    {nodes : List Node} (h : Derives g ts e i j nodes) :
    List.Forall₂ (Node.IsLeafOf g) ((Node.preorderAll nodes).filter Node.isLeaf)
      (slice ts i j) := by
  induction h with
  | empty | absent | done =>
    rw [slice_self]
    exact .nil
  | literal ht | range ht | keyword _ _ ht | spelling _ ht =>
    rw [slice_succ ht]
    exact .cons ⟨_, .inl rfl⟩ .nil
  | kind _ ht hk =>
    rw [slice_succ ht, ← hk]
    exact .cons ⟨_, .inr rfl⟩ .nil
  | composite _ _ _ _ ih =>
    rw [Node.preorderAll_cons, Node.preorder_composite, Node.preorderAll_nil, List.append_nil]
    exact ih
  | category _ _ _ _ ih => exact ih
  | group _ ih | altLeft _ ih | altRight _ ih | present _ ih => exact ih
  | seq h₁ h₂ ih₁ ih₂ | more h₁ h₂ ih₁ ih₂ =>
    rw [← slice_append ts h₁.le h₂.le, Node.preorderAll_append, List.filter_append]
    exact List.rel_append ih₁ ih₂

/-! ## The parser derives -/

namespace Parse

variable {i : ParseInput}

/-- What the parser derives for a task. -/
def Task.Derives (i : ParseInput) : Task → Nat → Nat → List Node → Prop
  | expr e => Arbor.Derives i.grammar i.tokens.toList e
  | production n => fun pos next nodes =>
    ∀ mark, Arbor.Derives i.grammar i.tokens.toList (.name mark n) pos next nodes
  | many e => Arbor.Derives i.grammar i.tokens.toList (.repetition e)

/-- Whether a task is one that the parser sets itself: it follows the names of
productions only where these are not tokens. -/
def Task.Syntactic : Task → Prop
  | production n => Grammar.isToken n = false
  | _ => True

/-- Whether what the table has for a production is derived from it. -/
def Kept (i : ParseInput) (n : Text) (pos : Nat) (r : Option (Match Node i.size pos)) : Prop :=
  ∀ m, r = some m → Task.Derives i (.production n) pos m.next [m.value]

theorem spelled_eq_some_iff {p : Text → Bool} {t : Token} {build : Nat → Node} :
    spelled p t = some build ↔ p t.literal = true ∧ build = tokenNode t := by
  unfold spelled
  split
  · next h => rw [Option.some.injEq, eq_comm, and_iff_right h]
  · next h => exact ⟨fun hb => absurd hb (by simp), fun hb => absurd hb.1 h⟩

theorem named_eq_some_iff {g : Grammar} {n : Text} {t : Token} {build : Nat → Node} :
    named g n t = some build
      ↔ t.kind = n ∧ (build = fun serial =>
          .terminal serial (some (g.tokenRule n)) t.literal t.span)
        ∨ t.kind ≠ n ∧ t.literal = n ∧ build = tokenNode t := by
  unfold named
  split
  · next h => rw [Option.some.injEq, eq_comm]; simp [h]
  · next h =>
    split
    · next h' => rw [Option.some.injEq, eq_comm]; simp [h, h']
    · next h' => simp [h, h']

/-- The node that a terminal makes of a token is derived from it. -/
theorem derives_terminal {g : Grammar} {ts : List Token} {e : Expr} {x : Expectation}
    {pos : Nat} {t : Token} {build : Nat → Node} (hx : e.terminal? g = some x)
    (ht : ts[pos]? = some t) (hb : x.build g t = some build) (serial : Nat) :
    Arbor.Derives g ts e pos (pos + 1) [build serial] := by
  have ha : x.Accepts t := (Expectation.isSome_build g x t).mp (by rw [hb]; rfl)
  rcases Expr.terminal?_eq_some hx with ⟨v, rfl, rfl⟩ | ⟨lo, hi, rfl, rfl⟩ | ⟨mark, n, rfl, hn, rfl⟩
    | ⟨mark, n, rfl, hn, hp, rfl⟩
  · obtain ⟨-, rfl⟩ := spelled_eq_some_iff.mp (show spelled (· = v) t = some build from hb)
    exact .literal ht ha
  · obtain ⟨-, rfl⟩ := spelled_eq_some_iff.mp hb
    obtain ⟨c, hc, hlo, hhi⟩ := ha
    exact .range ht hc hlo hhi
  · rcases named_eq_some_iff.mp hb with ⟨hk, rfl⟩ | ⟨hk, hv, rfl⟩
    · exact .kind hn ht hk
    · exact .spelling hn ht hk hv
  · obtain ⟨-, rfl⟩ := spelled_eq_some_iff.mp (show spelled (· = n) t = some build from hb)
    exact .keyword hn hp ht ha

/-- The node of a production is derived from it if its body derives the parts. -/
theorem derives_assemble {n : Text} {p : Production} {pos next : Nat} {nodes : List Node}
    {node : Node} {s s' : State i.size} (hn : Grammar.isToken n = false)
    (hp : i.grammar.get? n = some p) (ha : assemble i n pos nodes s = (node, s'))
    (h : Arbor.Derives i.grammar i.tokens.toList p.body pos next nodes) :
    Task.Derives i (.production n) pos next [node] := by
  intro mark
  cases hc : i.grammar.isCategory n with
  | true =>
    obtain ⟨child, rfl⟩ := h.exists_node_of_isCategory hp hc
    rw [assemble_category hc] at ha
    obtain ⟨rfl, -⟩ := Prod.mk.inj ha
    exact .category hn hp hc h
  | false =>
    rw [assemble_composite hc] at ha
    obtain ⟨rfl, -⟩ := Prod.mk.inj ha
    exact .composite hn hp hc h

/-- **The parser derives what it matches**, and so does all that it keeps. -/
theorem Run.derives {opened : Grammar.Opened} {pos : Nat} {task : Task} {s s' : State i.size}
    {r : Option (Match (List Node) i.size pos)} (h : Run i opened pos task s r s')
    (ht : task.Syntactic) (hs : s.Entries (Kept i)) :
    s'.Entries (Kept i) ∧ ∀ m, r = some m → task.Derives i pos m.next m.value := by
  induction h with
  | empty =>
    refine ⟨hs, ?_⟩
    rintro m ⟨⟩
    exact Derives.empty
  | accept hx h hb =>
    refine ⟨hs, ?_⟩
    rintro m ⟨⟩
    exact derives_terminal hx (by rw [Array.getElem?_toList, Array.getElem?_eq_getElem h]) hb _
  | reject hx => exact ⟨hs.fail _ _, fun m hm => absurd hm (by simp)⟩
  | group _ ih =>
    obtain ⟨hs', hd⟩ := ih trivial hs
    exact ⟨hs', fun m hm => .group (hd m hm)⟩
  | @option _ _ _ _ r _ _ ih =>
    obtain ⟨hs', hd⟩ := ih trivial hs
    refine ⟨hs', ?_⟩
    rintro m ⟨⟩
    cases r with
    | none => exact Derives.absent
    | some m => exact Derives.present (hd m rfl)
  | repetition _ ih => exact ih trivial hs
  | alt _ _ ih₁ ih₂ =>
    obtain ⟨hs₁, hd₁⟩ := ih₁ trivial hs
    obtain ⟨hs₂, hd₂⟩ := ih₂ trivial hs₁
    refine ⟨hs₂, fun m hm => ?_⟩
    rcases longer_eq_some hm with ha | hb
    · exact .altLeft (hd₁ m ha)
    · exact .altRight (hd₂ m hb)
  | seqFirst _ ih => exact ⟨(ih trivial hs).1, fun m hm => absurd hm (by simp)⟩
  | seq _ _ ih₁ ih₂ =>
    obtain ⟨hs₁, hd₁⟩ := ih₁ trivial hs
    obtain ⟨hs₂, hd₂⟩ := ih₂ trivial hs₁
    refine ⟨hs₂, fun m hm => ?_⟩
    obtain ⟨k, rfl, rfl⟩ := Option.map_eq_some_iff.mp hm
    exact Derives.seq (hd₁ _ rfl) (hd₂ _ rfl)
  | name hn _ ih =>
    obtain ⟨hs', hd⟩ := ih (Expr.terminal?_name_eq_none_iff.mp hn).1 hs
    exact ⟨hs', fun m hm => hd m hm _⟩
  | hit hr =>
    -- the entry was derived when it was kept
    refine ⟨hs, fun m hm => ?_⟩
    obtain ⟨k, rfl, rfl⟩ := Option.map_eq_some_iff.mp hm
    exact hs _ _ _ hr k rfl
  | guard => exact ⟨hs.fail _ _, fun m hm => absurd hm (by simp)⟩
  | fail _ _ _ _ ih =>
    refine ⟨(ih trivial hs).1.keep fun _ => ?_, fun m hm => absurd hm (by simp)⟩
    exact fun m hm => absurd hm (by simp)
  | @node _ pos _ n _ m _ node _ _ _ hp ha _ ih =>
    obtain ⟨hs', hd⟩ := ih trivial hs
    have hnode : Task.Derives i (.production n) pos m.next [node] :=
      derives_assemble ht hp ha (hd m rfl)
    refine ⟨(hs'.assemble ha).keep fun _ => ?_, ?_⟩
    · rintro k ⟨⟩
      exact hnode
    · rintro k ⟨⟩
      exact hnode
  | manyLast _ _ ih =>
    refine ⟨(ih trivial hs).1, ?_⟩
    rintro m ⟨⟩
    exact Derives.done
  | manyMore _ _ _ ih₁ ih₂ =>
    obtain ⟨hs₁, hd₁⟩ := ih₁ trivial hs
    obtain ⟨hs₂, hd₂⟩ := ih₂ trivial hs₁
    refine ⟨hs₂, ?_⟩
    rintro m ⟨⟩
    exact Derives.more (hd₁ _ rfl) (hd₂ _ rfl)

end Parse

/-- A parsed tree is derived from the start production, over all kept tokens. -/
theorem Parser.derives_root {p : Parser} {tokens : List Token} {start : Text} {root : Node}
    (h : p.parse tokens start = .ok root) (mark : Mark) :
    Derives p.grammar (tokens.filter p.keeps) (.name mark start) 0
      (tokens.filter p.keeps).length [root] := by
  obtain ⟨hn, -, m, s, hrun, hm, hvalue⟩ := run_of_parse_eq_ok h
  have hd := (hrun.derives hn Parse.State.entries_start).2 m rfl mark
  rw [hvalue, hm] at hd
  exact hd

/-- **A parsed tree is a derivation of the start production over all kept
tokens**, and its leaves in pre-order are these tokens, one for one. -/
theorem Parser.derives_of_parse {p : Parser} {tokens : List Token} {start : Text} {root : Node}
    (h : p.parse tokens start = .ok root) :
    (∀ mark, Derives p.grammar (tokens.filter p.keeps) (.name mark start) 0
      (tokens.filter p.keeps).length [root])
      ∧ List.Forall₂ (Node.IsLeafOf p.grammar) root.leaves (tokens.filter p.keeps) := by
  obtain ⟨hn, hq⟩ := start_of_parse (by rw [h]; simp : p.parse tokens start ≠ _)
  obtain ⟨r, s, hrun, hp⟩ := exists_run hn hq tokens
  obtain ⟨m, rfl, hm, rfl⟩ := conclude_eq_ok_iff.mp (hp.symm.trans h)
  have hd : ∀ mark, Derives p.grammar (tokens.filter p.keeps) (.name mark start) 0
      (tokens.filter p.keeps).length [m.value] := by
    have hd := (hrun.derives hn Parse.State.entries_start).2 _ rfl
    rw [show (tokens.filter p.keeps).length = m.next from hm.symm]
    exact hd
  refine ⟨hd, ?_⟩
  have hl := (hd ⟨[], 0, 0⟩).leaves
  rw [slice, List.drop_zero, Nat.sub_zero, List.take_length, Node.preorderAll_cons,
    Node.preorderAll_nil, List.append_nil, ← Node.leaves_eq_filter] at hl
  exact hl

theorem Parser.derives_of_parse_words :
    ∃ root, Sample.parser.parse Sample.words (utf8 "list") = .ok root
      ∧ (∀ mark, Derives Sample.grammar (Sample.words.filter Sample.parser.keeps)
        (.name mark (utf8 "list")) 0 3 [root])
      ∧ List.Forall₂ (Node.IsLeafOf Sample.grammar) root.leaves
        (Sample.words.filter Sample.parser.keeps) := by
  obtain ⟨m, s, h, hm⟩ := Sample.run_words
  obtain ⟨r, hr, hp⟩ := parse_of_run (by decide) Sample.has_list h
  obtain ⟨k, rfl, rfl⟩ := Option.map_eq_some_iff.mp hr
  have hok := hp.trans (conclude_eq_ok_iff.mpr ⟨k, rfl, hm, rfl⟩)
  exact ⟨k.value, hok, derives_of_parse hok⟩

end Arbor
