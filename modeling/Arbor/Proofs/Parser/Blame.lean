import Arbor.Proofs.Parser.Lockstep
import Arbor.Proofs.Text.Quoted

/-!
# What a syntax error blames

A parse that fails is **stuck** at an index, the furthest that any task got to, and
its error names the token there and what was expected in its place. The two
statements of this module say what that is worth.

* What is expected is exact (`Parser.getsPast_iff_expected`): a token put at the
  index gets the parse past it just if it is one of those listed, whatever follows.
* What follows does not matter (`Parser.failsAt_of_take_eq`): inputs that agree up to
  the token blamed, and in that token, have the same error.

Both compare two parses, and `Run.lockstep` says all about the second one but this:
that an expectation which is noted is never met by the token it is noted at. It is
an invariant of the frontier (`Justified`), kept by every join.

An error lists its expectations rendered. That they can be told apart again is due
to quoting, which can be undone, and to the names of tokens, which are not quoted
and begin with a capital letter (`Expectation.render_inj`).
-/

namespace Arbor

/-! ## The terminals of a grammar -/

/-- What the terminals of an expression expect. -/
def Expr.terminals (g : Grammar) : Expr → List Expectation
  | .group e | .option e | .repetition e => e.terminals g
  | .alt e f | .seq e f => e.terminals g ++ f.terminals g
  | e => (e.terminal? g).toList

theorem Expr.mem_terminals {g : Grammar} {e : Expr} {x : Expectation}
    (h : e.terminal? g = some x) : x ∈ e.terminals g := by
  cases e <;> simp_all [terminals, terminal?]

/-- What the terminals of a grammar expect. -/
def Grammar.terminals (g : Grammar) : List Expectation :=
  g.productions.flatMap (·.body.terminals g)

theorem Grammar.mem_terminals_of_get? {g : Grammar} {n : Text} {p : Production}
    {x : Expectation} (hp : g.get? n = some p) (hx : x ∈ p.body.terminals g) :
    x ∈ g.terminals := by
  rw [get?_eq_find?] at hp
  exact List.mem_flatMap.mpr ⟨p, List.mem_of_find?_eq_some hp, hx⟩

/-- A kind is expected only by the name of a token. -/
theorem Expr.isToken_of_mem_terminals {g : Grammar} {e : Expr} {n : Text}
    (h : .kind n ∈ e.terminals g) : Grammar.isToken n = true := by
  induction e with
  | name mark m =>
    replace h : .kind n ∈ (if Grammar.isToken m then some (Expectation.kind m)
      else if g.has m then none else some (.text m)).toList := h
    split at h
    · next hm =>
      simp at h
      rw [h, hm]
    · split at h <;> simp at h
  | group e ih | option e ih | repetition e ih => exact ih h
  | alt e f ihe ihf | seq e f ihe ihf => exact (List.mem_append.mp h).elim ihe ihf
  | empty | literal | range => simp [terminals, terminal?] at h

theorem Grammar.isToken_of_mem_terminals {g : Grammar} {n : Text}
    (h : .kind n ∈ g.terminals) : isToken n = true := by
  obtain ⟨p, -, hp⟩ := List.mem_flatMap.mp h
  exact Expr.isToken_of_mem_terminals hp

namespace Expectation

/-- What is not a kind is rendered in quotes, and nothing follows the quotes but
the other end of a range. -/
theorem render_text (t : Text) : (text t).render = t.quoted ++ [] := (List.append_nil _).symm

theorem render_range (lo hi : Text) :
    (range lo hi).render = lo.quoted ++ (utf8 "…" ++ hi.quoted) := List.append_assoc _ _ _

theorem quoted_append_ne_of_isToken {n : Text} (hn : Grammar.isToken n = true) (t u : Text) :
    t.quoted ++ u ≠ n := by
  rw [Text.quoted_append]
  rintro rfl
  exact absurd hn (by decide : ¬ (65 ≤ (34 : UInt8) && 34 ≤ 90) = true)

/-- **Rendering tells the terminals of a grammar apart.** -/
theorem render_inj {g : Grammar} {x y : Expectation} (hx : x ∈ g.terminals)
    (hy : y ∈ g.terminals) (h : x.render = y.render) : x = y := by
  have hk : ∀ {n}, kind n ∈ g.terminals → ∀ t u, Text.quoted t ++ u ≠ n := fun hn =>
    quoted_append_ne_of_isToken (Grammar.isToken_of_mem_terminals hn)
  have hr : ∀ hi, utf8 "…" ++ Text.quoted hi ≠ [] := fun hi => by simp [utf8]
  match x, y with
  | text t, text t' => exact congrArg text (Text.quoted_inj h)
  | text t, range lo hi =>
    rw [render_text, render_range] at h
    exact absurd (Text.quoted_append_inj h).2.symm (hr hi)
  | range lo hi, text t =>
    rw [render_text, render_range] at h
    exact absurd (Text.quoted_append_inj h).2 (hr hi)
  | range lo hi, range lo' hi' =>
    rw [render_range, render_range] at h
    obtain ⟨rfl, hhi⟩ := Text.quoted_append_inj h
    exact congrArg (range lo) (Text.quoted_inj (List.append_cancel_left hhi))
  | kind n, kind n' => exact congrArg kind h
  | kind n, text t => exact absurd ((render_text t).symm.trans h.symm) (hk hx _ _)
  | kind n, range lo hi => exact absurd ((render_range lo hi).symm.trans h.symm) (hk hx _ _)
  | text t, kind n => exact absurd ((render_text t).symm.trans h) (hk hy _ _)
  | range lo hi, kind n => exact absurd ((render_range lo hi).symm.trans h) (hk hy _ _)

end Expectation

/-! ## Expectations are not met where they are noted -/

namespace Parse

variable {i : ParseInput}

/-- **Whether a frontier is justified by an input**: it lies within the tokens or at
their end, and what is expected are terminals that the token there is not. -/
structure Justified (i : ParseInput) (f : Frontier) : Prop where
  /-- The place is one of the input. -/
  place_le : f.place ≤ i.size
  /-- Only terminals are expected. -/
  terminal : ∀ x ∈ f.expected, x ∈ i.grammar.terminals
  /-- The token at the place is none of them. -/
  rejected : ∀ x ∈ f.expected, ∀ t, i.tokens[f.place]? = some t → ¬ x.Accepts t

namespace Justified

theorem bot : Justified i ⊥ := ⟨Nat.zero_le _, fun _ hx => absurd hx id, fun _ hx => absurd hx id⟩

theorem single_none {pos : Nat} (hpos : pos ≤ i.size) : Justified i (.single pos none) :=
  ⟨hpos, fun _ hx => (nomatch hx), fun _ hx => (nomatch hx)⟩

theorem single_some {pos : Nat} {x : Expectation} (hpos : pos ≤ i.size)
    (hx : x ∈ i.grammar.terminals) (hr : ∀ t, i.tokens[pos]? = some t → ¬ x.Accepts t) :
    Justified i (.single pos (some x)) := by
  refine ⟨hpos, ?_, ?_⟩
  · rintro y ⟨⟩
    exact hx
  · rintro y ⟨⟩
    exact hr

theorem sup {a b : Frontier} (ha : Justified i a) (hb : Justified i b) : Justified i (a ⊔ b) := by
  refine ⟨max_le ha.place_le hb.place_le, ?_, ?_⟩
  · rintro x (⟨hx, -⟩ | ⟨hx, -⟩)
    · exact ha.terminal x hx
    · exact hb.terminal x hx
  · rintro x (⟨hx, hle⟩ | ⟨hx, hle⟩) t ht
    · rw [Frontier.place_sup, max_eq_left hle] at ht
      exact ha.rejected x hx t ht
    · rw [Frontier.place_sup, max_eq_right hle] at ht
      exact hb.rejected x hx t ht

end Justified

/-- What the terminals of a task expect. Those of a production are the grammar's. -/
def Task.terminals (g : Grammar) : Task → List Expectation
  | expr e | many e => e.terminals g
  | production _ => []

/-- A match that starts within the tokens ends there. -/
theorem Match.next_le {α : Type} {size pos : Nat} (m : Match α size pos) (hpos : pos ≤ size) :
    m.next ≤ size := by
  have := m.le
  have := m.within
  omega

/-- **A run notes nothing that is not justified.** -/
theorem Run.justified {opened : Grammar.Opened} {pos : Nat} {task : Task} {s s' : State i.size}
    {r : Option (Match (List Node) i.size pos)} (h : Run i opened pos task s r s')
    (hpos : pos ≤ i.size) (ht : ∀ x ∈ task.terminals i.grammar, x ∈ i.grammar.terminals)
    (hs : Justified i s.frontier) : Justified i s'.frontier := by
  induction h with
  | empty | hit => exact hs
  | accept => exact hs
  | reject hx hr =>
    rw [State.frontier_fail]
    exact hs.sup (.single_some hpos (ht _ (Expr.mem_terminals hx)) hr)
  | group _ ih | option _ ih | repetition _ ih => exact ih hpos ht hs
  | alt _ _ ih₁ ih₂ =>
    refine ih₂ hpos (fun x hx => ht x (List.mem_append_right _ hx)) ?_
    exact ih₁ hpos (fun x hx => ht x (List.mem_append_left _ hx)) hs
  | seqFirst _ ih => exact ih hpos (fun x hx => ht x (List.mem_append_left _ hx)) hs
  | @seq _ _ _ _ _ m _ _ _ _ _ ih₁ ih₂ =>
    refine ih₂ (m.next_le hpos) (fun x hx => ht x (List.mem_append_right _ hx)) ?_
    exact ih₁ hpos (fun x hx => ht x (List.mem_append_left _ hx)) hs
  | name _ _ ih => exact ih hpos (fun x hx => nomatch hx) hs
  | guard =>
    rw [State.frontier_fail]
    exact hs.sup (.single_none hpos)
  | fail _ _ hp _ ih =>
    rw [State.frontier_keep]
    exact ih hpos (fun x hx => Grammar.mem_terminals_of_get? hp hx) hs
  | node _ _ hp ha _ ih =>
    rw [State.frontier_keep, frontier_assemble ha]
    exact ih hpos (fun x hx => Grammar.mem_terminals_of_get? hp hx) hs
  | manyLast _ _ ih => exact ih hpos ht hs
  | @manyMore _ _ _ _ m _ _ _ _ _ _ ih₁ ih₂ =>
    exact ih₂ (m.next_le hpos) ht (ih₁ hpos ht hs)

theorem reach_asList {pos : Nat} (r : Option (Match Node i.size pos)) (s : State i.size) :
    reach (asList r) s = reach r s := by
  cases r <;> rfl

/-- How far a production got from the start is justified. -/
theorem Run.justified_reach {n : Text} {r : Option (Match Node i.size 0)} {s : State i.size}
    (h : Run i ∅ 0 (.production n) (.start _) (asList r) s) : Justified i (reach r s) := by
  have hs := h.justified (Nat.zero_le _) (fun x hx => nomatch hx)
    (State.frontier_start ▸ Justified.bot)
  cases r with
  | none =>
    rw [reach_none]
    exact hs
  | some m => exact hs.sup (.single_none (m.next_le (Nat.zero_le _)))

/-! ## Where a parse is stuck -/

/-- The state that an error is made of. If the match ended beyond every failure,
nothing is expected where it ended. -/
def blamed {α : Type} {size pos : Nat} (r : Option (Match α size pos)) (s : State size) :
    State size :=
  match r with
  | none => s
  | some m => if s.furthest < m.next then { s with furthest := m.next, expected := ∅ } else s

theorem frontier_blamed {α : Type} {size pos : Nat} (r : Option (Match α size pos))
    (s : State size) : (blamed r s).frontier = reach r s := by
  cases r with
  | none => rw [reach_none, blamed]
  | some m =>
    unfold blamed reach
    dsimp only [Option.elim]
    split
    · next hm =>
      rw [sup_eq_right.mpr (Frontier.le_def.mpr (.inl hm))]
      refine Frontier.ext rfl ?_
      ext x
      show x ∈ (∅ : Std.HashSet Expectation) ↔ (none : Option Expectation) = some x
      simp
    · next hm => rw [sup_eq_left.mpr (Frontier.single_none_le.mpr (Nat.le_of_not_lt hm))]

theorem place_reach {α : Type} {size pos : Nat} (m : Match α size pos) (s : State size) :
    (reach (some m) s).place = max s.furthest m.next := rfl

/-- The same is blamed where two runs end alike. -/
theorem Alike.blamed {a b pos : Nat} {s : State a} {t : State b}
    {r : Option (Match Node a pos)} {u : Option (Match Node b pos)} (h : Alike s t)
    (hr : r.map (·.next) = u.map (·.next)) :
    (Parse.blamed r s).furthest = (Parse.blamed u t).furthest
      ∧ (Parse.blamed r s).expected = (Parse.blamed u t).expected := by
  have hf := h.furthest
  have he := h.expected
  match r, u, hr with
  | none, none, _ => exact ⟨hf, he⟩
  | some m, some k, hr =>
    have hmk : m.next = k.next := Option.some.inj hr
    unfold Parse.blamed
    dsimp only
    rw [← hmk, ← hf]
    split
    · exact ⟨rfl, rfl⟩
    · exact ⟨hf, he⟩

end Parse

/-- Whether an error is one at an index of some tokens: it names the token there, or
else it is one at their end. -/
def SyntaxError.IsAt (e : SyntaxError) (ts : List Token) (k : Nat) : Prop :=
  match ts[k]? with
  | some c => e.atEnd = false ∧ e.position = c.span.start ∧ e.got = c.literal
  | none => e.atEnd = true ∧ k = ts.length

namespace Parser

open Parse

/-- The index that a match of the start production did not get past: the furthest of
the failures and of its end. There is none if it consumed all tokens. -/
def stuck? (i : ParseInput) (r : Option (Match Node i.size 0)) (s : State i.size) : Option Nat :=
  match r with
  | none => some s.furthest
  | some m => if m.next = i.size then none else some (max s.furthest m.next)

/-- **The index of the kept token where a parse is stuck**, or their number if it is
stuck at the end. -/
def stuckAt? (p : Parser) (tokens : List Token) (start : Text) : Option Nat :=
  match hq : p.grammar.get? start with
  | none => none
  | some q =>
    if Grammar.isToken start then none
    else
      let i := p.input tokens
      let (r, s) := Parse.production i ∅ 0 start q hq (.start i.size)
      stuck? i r s

/-- Whether a parse fails at an index with an error. -/
def FailsAt (p : Parser) (tokens : List Token) (start : Text) (k : Nat) (e : SyntaxError) :
    Prop :=
  p.parse tokens start = .error (.mismatch e) ∧ p.stuckAt? tokens start = some k

/-- Whether a parse succeeds, or fails beyond an index. -/
def GetsPast (p : Parser) (tokens : List Token) (start : Text) (k : Nat) : Prop :=
  (∃ root, p.parse tokens start = .ok root) ∨ ∃ l e, k < l ∧ p.FailsAt tokens start l e

theorem conclude_eq_error_iff {i : ParseInput} {r : Option (Match Node i.size 0)}
    {s : State i.size} {e : SyntaxError} :
    conclude i r s = .error (.mismatch e)
      ↔ (∀ m, r = some m → m.next ≠ i.size) ∧ syntaxError i (blamed r s) = e := by
  unfold conclude blamed
  cases r with
  | none => simp
  | some m =>
    dsimp only
    by_cases hm : m.next = i.size
    · simp [hm]
    · rw [if_neg hm]
      split <;> simp [hm]

theorem stuck?_eq_some_iff {i : ParseInput} {r : Option (Match Node i.size 0)}
    {s : State i.size} {k : Nat} :
    stuck? i r s = some k ↔ (∀ m, r = some m → m.next ≠ i.size) ∧ (reach r s).place = k := by
  unfold stuck?
  cases r with
  | none => simp
  | some m =>
    rw [place_reach]
    by_cases hm : m.next = i.size <;> simp [hm]

theorem stuckAt?_eq_stuck? {p : Parser} {start : Text} {q : Production}
    (hn : Grammar.isToken start = false) (hq : p.grammar.get? start = some q)
    (tokens : List Token) :
    p.stuckAt? tokens start = stuck? (p.input tokens)
      (production (p.input tokens) ∅ 0 start q hq (.start _)).1
      (production (p.input tokens) ∅ 0 start q hq (.start _)).2 := by
  unfold stuckAt?
  split
  · next h => rw [hq] at h; cases h
  · next q' h =>
    cases hq.symm.trans h
    rw [if_neg (by simp [hn])]

theorem exists_run_stuckAt? {p : Parser} {start : Text} (hn : Grammar.isToken start = false)
    (hq : p.grammar.has start = true) (tokens : List Token) :
    ∃ r s, Run (p.input tokens) ∅ 0 (.production start) (.start _) (asList r) s
      ∧ p.parse tokens start = conclude (p.input tokens) r s
      ∧ p.stuckAt? tokens start = stuck? (p.input tokens) r s := by
  obtain ⟨q, hq⟩ := Option.isSome_iff_exists.mp hq
  exact ⟨_, _, (run_all (p.input tokens)).2.1 ∅ 0 start q hq _, parse_eq_conclude hn hq tokens,
    stuckAt?_eq_stuck? hn hq tokens⟩

section

variable {p : Parser} {tokens : List Token} {start : Text} {k : Nat}
  {r : Option (Match Node (p.input tokens).size 0)} {s : State (p.input tokens).size}

theorem failsAt_iff {e : SyntaxError} (hp : p.parse tokens start = conclude (p.input tokens) r s)
    (hk : p.stuckAt? tokens start = stuck? (p.input tokens) r s) :
    p.FailsAt tokens start k e ↔ (∀ m, r = some m → m.next ≠ (p.input tokens).size)
      ∧ syntaxError (p.input tokens) (blamed r s) = e ∧ (reach r s).place = k := by
  rw [FailsAt, hp, hk, conclude_eq_error_iff, stuck?_eq_some_iff]
  tauto

/-- To get past a token is to have got further than it. -/
theorem getsPast_iff (hp : p.parse tokens start = conclude (p.input tokens) r s)
    (hk : p.stuckAt? tokens start = stuck? (p.input tokens) r s)
    (hlt : k < (p.input tokens).size) :
    p.GetsPast tokens start k ↔ k < (reach r s).place := by
  by_cases hm : ∀ m, r = some m → m.next ≠ (p.input tokens).size
  · constructor
    · rintro (⟨root, hr⟩ | ⟨l, e, hl, hf⟩)
      · obtain ⟨m, rfl, hm', -⟩ := conclude_eq_ok_iff.mp (hp.symm.trans hr)
        exact absurd hm' (hm m rfl)
      · rw [((failsAt_iff hp hk).mp hf).2.2]
        exact hl
    · intro hl
      exact .inr ⟨_, _, hl, (failsAt_iff hp hk).mpr ⟨hm, rfl, rfl⟩⟩
  · push Not at hm
    obtain ⟨m, rfl, hm⟩ := hm
    refine iff_of_true (.inl ⟨m.value, ?_⟩) ?_
    · rw [hp, conclude_eq_ok_iff]
      exact ⟨m, rfl, hm, rfl⟩
    · exact hlt.trans_le (hm.ge.trans (next_le_reach m s))

end

/-- A parse that fails is stuck somewhere. -/
theorem exists_failsAt {p : Parser} {tokens : List Token} {start : Text} {e : SyntaxError}
    (h : p.parse tokens start = .error (.mismatch e)) : ∃ k, p.FailsAt tokens start k e := by
  obtain ⟨hn, hq⟩ := start_of_parse (by rw [h]; simp : p.parse tokens start ≠ _)
  obtain ⟨r, s, -, hp, hs⟩ := exists_run_stuckAt? hn hq tokens
  obtain ⟨hm, he⟩ := conclude_eq_error_iff.mp (hp.symm.trans h)
  exact ⟨_, (failsAt_iff hp hs).mpr ⟨hm, he, rfl⟩⟩

/-- An error at a token. -/
theorem syntaxError_of_token {i : ParseInput} {s : State i.size} {c : Token}
    (hc : i.tokens[s.furthest]? = some c) :
    syntaxError i s
      = ⟨c.span.start, c.literal, false, Text.sort (s.expected.toList.map Expectation.render)⟩ := by
  unfold syntaxError
  rw [hc]

theorem exists_token_of_atEnd_eq_false {i : ParseInput} {s : State i.size}
    (h : (syntaxError i s).atEnd = false) : ∃ c, i.tokens[s.furthest]? = some c := by
  unfold syntaxError at h
  split at h
  · exact absurd h (by simp)
  · next c hc => exact ⟨c, hc⟩

/-- An error at the end names the end of the input, and no token. -/
theorem position_of_atEnd {p : Parser} {tokens : List Token} {start : Text} {e : SyntaxError}
    (h : p.parse tokens start = .error (.mismatch e)) (hend : e.atEnd = true) :
    e.position = (p.input tokens).stop ∧ e.got = [] := by
  obtain ⟨hn, hq⟩ := start_of_parse (by rw [h]; simp : p.parse tokens start ≠ _)
  obtain ⟨r, s, -, hp⟩ := exists_run hn hq tokens
  obtain ⟨-, rfl⟩ := conclude_eq_error_iff.mp (hp.symm.trans h)
  unfold syntaxError at hend ⊢
  split
  · exact ⟨rfl, rfl⟩
  · next c hc =>
    rw [hc] at hend
    exact absurd hend (by simp)

/-- An error lists what the frontier expects. -/
theorem mem_expected_syntaxError {i : ParseInput} {s : State i.size} {u : Text} :
    u ∈ (syntaxError i s).expected ↔ ∃ x ∈ s.frontier.expected, x.render = u := by
  have he : (syntaxError i s).expected = Text.sort (s.expected.toList.map Expectation.render) := by
    unfold syntaxError
    split <;> rfl
  rw [he, Text.sort, List.mem_mergeSort, List.mem_map]
  simp only [Std.HashSet.mem_toList, State.mem_expected_frontier]

theorem getElem?_input (p : Parser) (tokens : List Token) (j : Nat) :
    (p.input tokens).tokens[j]? = (tokens.filter p.keeps)[j]? := List.getElem?_toArray

/-- An error is one at the place of its frontier. -/
theorem isAt_syntaxError {p : Parser} {tokens : List Token} {s : State (p.input tokens).size}
    (hs : s.furthest ≤ (p.input tokens).size) :
    (syntaxError (p.input tokens) s).IsAt (tokens.filter p.keeps) s.furthest := by
  unfold syntaxError SyntaxError.IsAt
  rw [getElem?_input]
  cases hc : (tokens.filter p.keeps)[s.furthest]? with
  | some c => exact ⟨rfl, rfl, rfl⟩
  | none =>
    refine ⟨rfl, Nat.le_antisymm ?_ (List.getElem?_eq_none_iff.mp hc)⟩
    exact hs

theorem isAt_of_failsAt {p : Parser} {tokens : List Token} {start : Text} {k : Nat}
    {e : SyntaxError} (h : p.FailsAt tokens start k e) : e.IsAt (tokens.filter p.keeps) k := by
  obtain ⟨hn, hq⟩ := start_of_parse (by rw [h.1]; simp : p.parse tokens start ≠ _)
  obtain ⟨r, s, hrun, hp, hs⟩ := exists_run_stuckAt? hn hq tokens
  obtain ⟨-, rfl, rfl⟩ := (failsAt_iff hp hs).mp h
  have hle := hrun.justified_reach.place_le
  rw [← frontier_blamed] at hle ⊢
  exact isAt_syntaxError hle

/-- The terminals listed by an error are those that the frontier expects. -/
theorem render_mem_expected_iff {i : ParseInput} {r : Option (Match Node i.size 0)}
    {s : State i.size} (h : Justified i (reach r s)) {x : Expectation}
    (hx : x ∈ i.grammar.terminals) :
    x.render ∈ (syntaxError i (blamed r s)).expected ↔ x ∈ (reach r s).expected := by
  rw [mem_expected_syntaxError, frontier_blamed]
  constructor
  · rintro ⟨y, hy, hr⟩
    rw [← Expectation.render_inj (h.terminal y hy) hx hr]
    exact hy
  · exact fun hx => ⟨x, hx, rfl⟩

/-! ## Two parses of one beginning -/

section

variable {i i' : ParseInput} {r : Option (Match Node i.size 0)} {s : State i.size}
  {u : Option (Match Node i'.size 0)} {t : State i'.size}

/-- Runs that end alike got equally far. -/
theorem reach_eq_of_alike (h : Alike s t) (hr : r.map (·.next) = u.map (·.next)) :
    reach r s = reach u t := by
  obtain ⟨hf, he⟩ := h.blamed hr
  rw [← frontier_blamed, ← frontier_blamed]
  refine Frontier.ext hf ?_
  ext x
  rw [State.mem_expected_frontier, State.mem_expected_frontier, he]

/-- The second of two parses that have the same tokens up to where the first is stuck
is stuck there as well, or it has found one of the tokens expected there. -/
theorem alike_or_exists_accepts {n : Text}
    (h : Run i ∅ 0 (.production n) (.start _) (asList r) s)
    (h' : Run i' ∅ 0 (.production n) (.start _) (asList u) t) (hg : i'.grammar = i.grammar)
    (hk : ∀ j < (reach r s).place, i'.tokens[j]? = i.tokens[j]?) :
    r.map (·.next) = u.map (·.next) ∧ Alike s t
      ∨ (reach r s).place < (reach u t).place ∧ ∃ x ∈ (reach r s).expected, ∃ c,
        i'.tokens[(reach r s).place]? = some c ∧ x.Accepts c := by
  have hr : (reach (asList r) s).place ≤ (reach r s).place := by rw [reach_asList]
  rcases h.lockstep hg hk h' .start State.entries_start State.entries_start hr with
    ⟨he, ha⟩ | ⟨hlt, x, c, hc, hx, hle⟩
  · refine .inl ⟨?_, ha⟩
    rw [Option.map_map, Option.map_map] at he
    exact he
  · rw [reach_asList] at hlt
    refine .inr ⟨hlt, x, ?_, c, hc, hx⟩
    exact (Frontier.mem_of_single_le (hle.trans (frontier_le_reach r s)) le_rfl).2

end

section

variable {p : Parser} {tokens : List Token} {k : Nat} {t : Token}

theorem filter_take_append (ht : p.keeps t = true) (rest : List Token) :
    ((tokens.filter p.keeps).take k ++ t :: rest).filter p.keeps
      = (tokens.filter p.keeps).take k ++ t :: rest.filter p.keeps := by
  rw [List.filter_append, List.filter_cons_of_pos ht, List.filter_eq_self.mpr]
  intro x hx
  exact (List.mem_filter.mp (List.mem_of_mem_take hx)).2

/-- Before a token that is put in, the tokens are the same. -/
theorem getElem?_input_take_append_of_lt (ht : p.keeps t = true) (rest : List Token)
    (hk : k ≤ (tokens.filter p.keeps).length) {j : Nat} (hj : j < k) :
    (p.input ((tokens.filter p.keeps).take k ++ t :: rest)).tokens[j]?
      = (p.input tokens).tokens[j]? := by
  have hl := List.length_take_of_le hk
  rw [getElem?_input, getElem?_input, filter_take_append ht,
    List.getElem?_append_left (by omega), List.getElem?_take_of_lt hj]

theorem getElem?_input_take_append_self (ht : p.keeps t = true) (rest : List Token)
    (hk : k ≤ (tokens.filter p.keeps).length) :
    (p.input ((tokens.filter p.keeps).take k ++ t :: rest)).tokens[k]? = some t := by
  have hl := List.length_take_of_le hk
  rw [getElem?_input, filter_take_append ht, List.getElem?_append_right (by omega), hl,
    Nat.sub_self]
  rfl

end

/-- A run of the start production that ends short of the last token shows where the
parse fails. -/
theorem failsAt_of_run {p : Parser} {tokens : List Token} {start : Text}
    {r : Option (Match (List Node) (p.input tokens).size 0)} {s : State (p.input tokens).size}
    (hn : Grammar.isToken start = false) (hq : p.grammar.has start = true)
    (h : Run (p.input tokens) ∅ 0 (.production start) (.start _) r s)
    (hr : ∀ m, r = some m → m.next ≠ (p.input tokens).size) :
    ∃ e, p.FailsAt tokens start (reach r s).place e := by
  obtain ⟨u, v, h', hp, hs⟩ := exists_run_stuckAt? hn hq tokens
  obtain ⟨rfl, rfl⟩ := h.unique h'
  rw [reach_asList]
  refine ⟨_, (failsAt_iff hp hs).mpr ⟨?_, rfl, rfl⟩⟩
  rintro m rfl
  exact hr _ rfl

/-- A second comma is where a word is expected. -/
theorem exists_failsAt_commas :
    ∃ e, Sample.parser.FailsAt Sample.commas (utf8 "list") 2 e := by
  obtain ⟨m, s, h, hm, hs⟩ := Sample.run_commas
  have hf := failsAt_of_run (by decide) Sample.has_list h (by
    rintro k ⟨⟩
    rw [hm]
    decide)
  rw [place_reach, hm, hs] at hf
  exact hf

/-- **What is expected is exact.** Where a parse fails, a token in place of the one
blamed gets the parse further just if it is among those expected, whatever follows
it. -/
theorem getsPast_iff_expected {p : Parser} {tokens : List Token} {start : Text} {k : Nat}
    {e : SyntaxError} (h : p.FailsAt tokens start k e) :
    e.IsAt (tokens.filter p.keeps) k ∧ ∀ t, p.keeps t = true → ∀ rest,
      (p.GetsPast ((tokens.filter p.keeps).take k ++ t :: rest) start k
        ↔ ∃ x ∈ p.grammar.terminals, x.render ∈ e.expected ∧ x.Accepts t) := by
  obtain ⟨hn, hq⟩ := start_of_parse (by rw [h.1]; simp : p.parse tokens start ≠ _)
  obtain ⟨r, s, hrun, hp, hs⟩ := exists_run_stuckAt? hn hq tokens
  obtain ⟨-, rfl, rfl⟩ := (failsAt_iff hp hs).mp h
  have hj := hrun.justified_reach
  refine ⟨isAt_of_failsAt h, fun t ht rest => ?_⟩
  have hat := getElem?_input_take_append_self ht rest hj.place_le
  obtain ⟨u, v, hrun', hp', hs'⟩ :=
    exists_run_stuckAt? hn hq ((tokens.filter p.keeps).take (reach r s).place ++ t :: rest)
  rw [getsPast_iff hp' hs' (Array.getElem?_eq_some_iff.mp hat).1]
  have hcases := alike_or_exists_accepts hrun hrun' rfl
    fun j hlt => getElem?_input_take_append_of_lt ht rest hj.place_le hlt
  constructor
  · intro hpast
    rcases hcases with ⟨hru, ha⟩ | ⟨-, x, hx, c, hc, hacc⟩
    · have hle := Frontier.place_le (reach_eq_of_alike ha hru).ge
      exact absurd hpast (Nat.not_lt.mpr hle)
    · obtain rfl : t = c := Option.some.inj (hat.symm.trans hc)
      have hxt := hj.terminal x hx
      exact ⟨x, hxt, (render_mem_expected_iff hj hxt).mpr hx, hacc⟩
  · rintro ⟨x, hxt, hx, hacc⟩
    rw [render_mem_expected_iff hj hxt] at hx
    rcases hcases with ⟨hru, ha⟩ | ⟨hpast, -⟩
    · -- a parse that ends alike would have noted that `t` is not accepted
      have hj' := hrun'.justified_reach
      rw [← reach_eq_of_alike ha hru] at hj'
      exact absurd hacc (hj'.rejected x hx t hat)
    · exact hpast

theorem getsPast_iff_expected_commas :
    ∃ e, Sample.parser.FailsAt Sample.commas (utf8 "list") 2 e
      ∧ e.IsAt (Sample.commas.filter Sample.parser.keeps) 2
      ∧ (Sample.parser.GetsPast
          [Sample.token "Word" "x" 0, Sample.token "Comma" "," 1, Sample.token "Word" "x" 2]
          (utf8 "list") 2
        ↔ ∃ x ∈ Sample.grammar.terminals, x.render ∈ e.expected
          ∧ x.Accepts (Sample.token "Word" "x" 2)) := by
  obtain ⟨e, he⟩ := exists_failsAt_commas
  obtain ⟨hat, hiff⟩ := getsPast_iff_expected he
  exact ⟨e, he, hat, hiff (Sample.token "Word" "x" 2) (by decide) []⟩

/-- **What follows the token blamed does not matter.** Inputs with the same tokens up
to it, and the token itself, fail with the same error. -/
theorem failsAt_of_take_eq {p : Parser} {tokens tokens' : List Token} {start : Text} {k : Nat}
    {e : SyntaxError} (h : p.FailsAt tokens start k e) (he : e.atEnd = false)
    (ht : (tokens'.filter p.keeps).take (k + 1) = (tokens.filter p.keeps).take (k + 1)) :
    p.FailsAt tokens' start k e := by
  have hsame : ∀ j < k + 1, (p.input tokens').tokens[j]? = (p.input tokens).tokens[j]? := by
    intro j hj
    rw [getElem?_input, getElem?_input, ← List.getElem?_take_of_lt hj, ht,
      List.getElem?_take_of_lt hj]
  obtain ⟨hn, hq⟩ := start_of_parse (by rw [h.1]; simp : p.parse tokens start ≠ _)
  obtain ⟨r, s, hrun, hp, hs⟩ := exists_run_stuckAt? hn hq tokens
  obtain ⟨u, v, hrun', hp', hs'⟩ := exists_run_stuckAt? hn hq tokens'
  obtain ⟨-, rfl, rfl⟩ := (failsAt_iff hp hs).mp h
  have hj := hrun.justified_reach
  obtain ⟨c, hc⟩ := exists_token_of_atEnd_eq_false he
  rcases alike_or_exists_accepts hrun hrun' rfl (fun j hlt => hsame j (by omega)) with
    ⟨hru, ha⟩ | ⟨-, x, hx, c', hc', hacc⟩
  · obtain ⟨hf, hx⟩ := ha.blamed hru
    have hreach := reach_eq_of_alike ha hru
    have hplace : (blamed r s).furthest = (reach r s).place :=
      congrArg Frontier.place (frontier_blamed r s)
    have hc' : (p.input tokens').tokens[(blamed u v).furthest]? = some c := by
      rw [← hf, hsame _ (hplace ▸ Nat.lt_succ_self _), hc]
    refine (failsAt_iff hp' hs').mpr ⟨?_, ?_, congrArg Frontier.place hreach.symm⟩
    · -- a match of all the tokens would have got past the one blamed
      rintro m rfl hm
      have hlt := (Array.getElem?_eq_some_iff.mp hc').1
      have hle := next_le_reach m v
      rw [← hreach, ← hplace, hf] at hle
      exact absurd hlt (Nat.not_lt.mpr (hm.ge.trans hle))
    · rw [syntaxError_of_token hc, syntaxError_of_token hc', hx]
  · rw [hsame _ (Nat.lt_succ_self _)] at hc'
    exact absurd hacc (hj.rejected x hx c' hc')

theorem failsAt_of_take_eq_commas :
    ∃ e, Sample.parser.FailsAt Sample.commas (utf8 "list") 2 e
      ∧ Sample.parser.FailsAt (Sample.commas.take 3 ++ Sample.words) (utf8 "list") 2 e := by
  obtain ⟨e, he⟩ := exists_failsAt_commas
  have hend : e.atEnd = false := (isAt_of_failsAt he).1
  exact ⟨e, he, failsAt_of_take_eq he hend (by decide)⟩

end Parser

end Arbor
