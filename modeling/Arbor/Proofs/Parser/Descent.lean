import Arbor.Proofs.Grammar.LeftRecursion
import Arbor.Proofs.Parser.Frontier
import Mathlib.Data.List.Nodup
import Mathlib.Data.List.Sort

/-!
# The parser is a recursive descent

`Descent.expr` is what a parser for this notation would be if nobody minded how long
it takes. Every name is followed afresh, nothing is kept, and nothing is forbidden; a
choice takes its longer side, the first of equals; options and repetitions are greedy;
a sequence does not come back. Such a descent need not end, so it is given a bound on
how deep its calls may nest, and what it **returns** is the outcome that it has at
every depth that is deep enough (`Descent.Returns`).

On a grammar that is not left recursive it does return, and what it returns is the tree
or the error of the parser (`Parser.descent_returns_iff`): the table is a cache, and the
opened productions never stop anything.

## What is skipped has been noted

A production that comes out of the table is not run, so the failures that it would note
are not noted. They have been noted before. A descent joins to what is noted a frontier
of its own, the same one whatever was noted (`Descends`), and that of a production in
the table lies below the frontier of the state (`Replays`). Joining it again changes
nothing.

Nodes are compared without their serial numbers. These say in which order nodes were
made, and a descent makes more of them.
-/

namespace Arbor

/-! ## Trees without serial numbers -/

namespace Node

mutual

/-- The same tree with no serial numbers. -/
def unnumbered : Node → Node
  | composite _ r cs sp => composite 0 r (unnumberedAll cs) sp
  | terminal _ r t sp => terminal 0 r t sp
  | token _ k t sp => token 0 k t sp
  | missing _ => missing 0

/-- The same trees with no serial numbers. -/
def unnumberedAll : List Node → List Node
  | [] => []
  | n :: ns => n.unnumbered :: unnumberedAll ns

end

theorem unnumberedAll_eq_map (ns : List Node) : unnumberedAll ns = ns.map unnumbered := by
  induction ns with
  | nil => rfl
  | cons n ns ih => rw [unnumberedAll, List.map_cons, ih]

@[simp] theorem span_unnumbered (n : Node) : n.unnumbered.span = n.span := by
  cases n <;> rfl

end Node

/-! ## The descent -/

namespace Descent

/-- What is noted of failures: the furthest place, and what was expected there. -/
structure Notes where
  /-- The furthest place. -/
  furthest : Nat
  /-- What was expected there, nothing twice. -/
  expected : List Expectation
  /-- Nothing stands there twice. -/
  nodup : expected.Nodup

namespace Notes

/-- Nothing is noted. -/
def start : Notes := ⟨0, [], .nil⟩

/-- Notes a failure. -/
def fail (notes : Notes) (pos : Nat) (x : Expectation) : Notes :=
  if notes.furthest < pos then ⟨pos, [x], List.nodup_singleton x⟩
  else if notes.furthest = pos then ⟨pos, notes.expected.insert x, notes.nodup.insert⟩
  else notes

/-- The error at the furthest place. -/
def error (notes : Notes) (i : ParseInput) : ParseError :=
  let expected := Text.sort (notes.expected.map Expectation.render)
  match i.tokens[notes.furthest]? with
  | none => .mismatch ⟨i.stop, [], true, expected⟩
  | some t => .mismatch ⟨t.span.start, t.literal, false, expected⟩

end Notes

/-- A match: the nodes built, and the place after the last token. -/
abbrev Found := List Node × Nat

/-- One match after another. -/
def Found.append (m k : Found) : Found := (m.1 ++ k.1, k.2)

/-- The longer of two matches, the first of equals. -/
def longest : Option Found → Option Found → Option Found
  | none, b => b
  | a, none => a
  | some m, some k => if m.2 < k.2 then some k else some m

/-- Matches one token. -/
def terminal (i : ParseInput) (x : Expectation) (pos : Nat) (notes : Notes) :
    Option Found × Notes :=
  match i.tokens[pos]?.bind (x.build i.grammar) with
  | some build => (some ([build 0], pos + 1), notes)
  | none => (none, notes.fail pos x)

/-- The node of a production whose body built some nodes. -/
def node (i : ParseInput) (n : Text) (pos : Nat) (nodes : List Node) : Node :=
  match i.grammar.isCategory n, nodes with
  | true, [child] => child
  | _, _ => .composite 0 (some (.production n)) nodes (Parse.spanOf i pos nodes)

/-- **Matches an expression by recursive descent**, or gives up if the calls nest
deeper than `depth`. -/
def expr (i : ParseInput) : (depth : Nat) → Expr → Nat → Notes → Option (Option Found × Notes)
  | 0, _, _, _ => none
  | depth + 1, e, pos, notes =>
    match e with
    | .empty => some (some ([], pos), notes)
    | .literal v => some (terminal i (.text v) pos notes)
    | .range lo hi => some (terminal i (.range lo hi) pos notes)
    | .group e => expr i depth e pos notes
    | .option e => do
      let (r, notes) ← expr i depth e pos notes
      return (some (r.getD ([], pos)), notes)
    | .repetition e => do
      match ← expr i depth e pos notes with
      | (none, notes) => return (some ([], pos), notes)
      | (some m, notes) =>
        if m.2 = pos then return (some ([], pos), notes)
        else
          let (r, notes) ← expr i depth (.repetition e) m.2 notes
          return (r.map m.append, notes)
    | .alt e f => do
      let (a, notes) ← expr i depth e pos notes
      let (b, notes) ← expr i depth f pos notes
      return (longest a b, notes)
    | .seq e f => do
      match ← expr i depth e pos notes with
      | (none, notes) => return (none, notes)
      | (some m, notes) =>
        let (r, notes) ← expr i depth f m.2 notes
        return (r.map m.append, notes)
    | .name _ n =>
      if Grammar.isToken n then some (terminal i (.kind n) pos notes)
      else match i.grammar.get? n with
        | none => some (terminal i (.text n) pos notes)
        | some p => do
          let (r, notes) ← expr i depth p.body pos notes
          return (r.map fun m => ([node i n pos m.1], m.2), notes)

/-- Ends a descent into the start production: it must have consumed all tokens. If it
stopped beyond every failure, nothing in particular was expected there. -/
def conclude (i : ParseInput) (r : Option Found) (start : Text) (notes : Notes) :
    Except ParseError Node :=
  match r with
  | none => .error (notes.error i)
  | some m =>
    if m.2 = i.size then .ok (node i start 0 m.1)
    else if notes.furthest < m.2 then .error (Notes.error ⟨m.2, [], .nil⟩ i)
    else .error (notes.error i)

/-- Parses by recursive descent, with calls nested no deeper than `depth`. -/
def parse (p : Parser) (depth : Nat) (tokens : List Token) (start : Text) :
    Option (Except ParseError Node) :=
  match p.grammar.get? start with
  | none => some (.error (.noProduction start))
  | some q =>
    if Grammar.isToken start then some (.error (.noProduction start))
    else do
      let (r, notes) ← expr (p.input tokens) depth q.body 0 .start
      return conclude (p.input tokens) r start notes

/-- **What a recursive descent returns**: the outcome that it has at every depth that is
deep enough. -/
def Returns (p : Parser) (tokens : List Token) (start : Text) (out : Except ParseError Node) :
    Prop :=
  ∃ depth, ∀ k ≥ depth, parse p k tokens start = some out

/-! ## What a descent adds -/

/-- The frontier of what is noted. -/
def Notes.frontier (notes : Notes) : Frontier := ⟨notes.furthest, {x | x ∈ notes.expected}⟩

theorem Notes.frontier_start : Notes.start.frontier = ⊥ := by
  refine Frontier.ext rfl ?_
  ext x
  exact List.mem_nil_iff x

theorem Notes.frontier_fail (notes : Notes) (pos : Nat) (x : Expectation) :
    (notes.fail pos x).frontier = notes.frontier ⊔ .single pos (some x) := by
  unfold fail
  rcases Nat.lt_trichotomy notes.furthest pos with h | h | h
  · rw [if_pos h, sup_eq_right.mpr (Frontier.le_def.mpr (.inl h))]
    refine Frontier.ext rfl ?_
    ext y
    show y ∈ [x] ↔ some x = some y
    rw [List.mem_singleton, Option.some.injEq, eq_comm]
  · rw [if_neg (by omega), if_pos h]
    refine Frontier.ext ?_ ?_
    · show pos = max notes.furthest pos
      omega
    · ext y
      rw [Frontier.mem_expected_sup]
      show y ∈ notes.expected.insert x ↔ y ∈ notes.expected ∧ pos ≤ notes.furthest
        ∨ some x = some y ∧ notes.furthest ≤ pos
      rw [List.mem_insert_iff, Option.some.injEq]
      have := h.le
      have := h.ge
      tauto
  · rw [if_neg (by omega), if_neg (by omega), sup_eq_left.mpr (Frontier.le_def.mpr (.inl h))]

variable {i : ParseInput} {e f : Expr} {pos : Nat}

/-- **What a descent gives and what it adds to the notes**: where it may go deep enough,
it ends with that match or failure, and joins that frontier to what was noted,
whatever it was. -/
def Descends (i : ParseInput) (e : Expr) (pos : Nat) (r : Option Found) (d : Frontier) : Prop :=
  ∃ depth, ∀ k ≥ depth, ∀ notes, ∃ notes', expr i k e pos notes = some (r, notes')
    ∧ notes'.frontier = notes.frontier ⊔ d

namespace Descends

variable {r : Option Found} {m : Found} {d d' : Frontier}

theorem of_succ (depth : Nat) (h : ∀ k ≥ depth, ∀ notes, ∃ notes',
    expr i (k + 1) e pos notes = some (r, notes') ∧ notes'.frontier = notes.frontier ⊔ d) :
    Descends i e pos r d := by
  refine ⟨depth + 1, fun k hk => ?_⟩
  obtain ⟨k, rfl⟩ := Nat.exists_eq_succ_of_ne_zero (Nat.ne_zero_of_lt hk)
  exact h k (Nat.le_of_succ_le_succ hk)

section Parts

variable {e₁ e₂ : Expr} {pos₁ pos₂ : Nat} {r₁ r₂ : Option Found}

/-- An expression that is matched by its one part, a call deeper, adds what the part
does. -/
theorem of_part (h : Descends i e₁ pos₁ r₁ d)
    (hstep : ∀ k notes notes', expr i k e₁ pos₁ notes = some (r₁, notes') →
      expr i (k + 1) e pos notes = some (r, notes')) : Descends i e pos r d := by
  obtain ⟨depth, h⟩ := h
  refine of_succ depth fun k hk notes => ?_
  obtain ⟨notes', he, hd⟩ := h k hk notes
  exact ⟨notes', hstep k notes notes' he, hd⟩

/-- One that is matched by two parts, one after the other, adds what both do. -/
theorem of_parts (h₁ : Descends i e₁ pos₁ r₁ d) (h₂ : Descends i e₂ pos₂ r₂ d')
    (hstep : ∀ k notes notes₁ notes₂, expr i k e₁ pos₁ notes = some (r₁, notes₁) →
      expr i k e₂ pos₂ notes₁ = some (r₂, notes₂) →
      expr i (k + 1) e pos notes = some (r, notes₂)) : Descends i e pos r (d ⊔ d') := by
  obtain ⟨k₁, h₁⟩ := h₁
  obtain ⟨k₂, h₂⟩ := h₂
  refine of_succ (max k₁ k₂) fun k hk notes => ?_
  obtain ⟨notes₁, he₁, hd₁⟩ := h₁ k (le_of_max_le_left hk) notes
  obtain ⟨notes₂, he₂, hd₂⟩ := h₂ k (le_of_max_le_right hk) notes₁
  exact ⟨notes₂, hstep k notes notes₁ notes₂ he₁ he₂, by rw [hd₂, hd₁, sup_assoc]⟩

end Parts

theorem empty : Descends i .empty pos (some ([], pos)) ⊥ :=
  of_succ 0 fun _ _ notes => ⟨notes, rfl, (sup_bot_eq _).symm⟩

theorem group (h : Descends i e pos r d) : Descends i (.group e) pos r d :=
  h.of_part fun _ _ _ he => he

theorem option (h : Descends i e pos r d) :
    Descends i (.option e) pos (some (r.getD ([], pos))) d := by
  refine h.of_part fun k notes notes' he => ?_
  show (expr i k e pos notes).bind _ = _
  rw [he]
  rfl

theorem alt {a b : Option Found} (ha : Descends i e pos a d) (hb : Descends i f pos b d') :
    Descends i (.alt e f) pos (longest a b) (d ⊔ d') := by
  refine ha.of_parts hb fun k notes notes₁ notes₂ he hf => ?_
  show (expr i k e pos notes).bind _ = _
  rw [he]
  show (expr i k f pos notes₁).bind _ = _
  rw [hf]
  rfl

theorem seqFirst (h : Descends i e pos none d) : Descends i (.seq e f) pos none d := by
  refine h.of_part fun k notes notes' he => ?_
  show (expr i k e pos notes).bind _ = _
  rw [he]
  rfl

theorem seq (h : Descends i e pos (some m) d) (hr : Descends i f m.2 r d') :
    Descends i (.seq e f) pos (r.map m.append) (d ⊔ d') := by
  refine h.of_parts hr fun k notes notes₁ notes₂ he hf => ?_
  show (expr i k e pos notes).bind _ = _
  rw [he]
  show (expr i k f m.2 notes₁).bind _ = _
  rw [hf]
  rfl

theorem repetitionLast (h : Descends i e pos r d) (hr : ∀ m, r = some m → m.2 = pos) :
    Descends i (.repetition e) pos (some ([], pos)) d := by
  refine h.of_part fun k notes notes' he => ?_
  show (expr i k e pos notes).bind _ = _
  rw [he]
  cases r with
  | none => rfl
  | some m =>
    show (if m.2 = pos then _ else _) = _
    rw [if_pos (hr m rfl)]
    rfl

theorem repetitionMore (h : Descends i e pos (some m) d) (hm : m.2 ≠ pos)
    (hr : Descends i (.repetition e) m.2 r d') :
    Descends i (.repetition e) pos (r.map m.append) (d ⊔ d') := by
  refine h.of_parts hr fun k notes notes₁ notes₂ he hf => ?_
  show (expr i k e pos notes).bind _ = _
  rw [he]
  show (if m.2 = pos then _ else (expr i k (.repetition e) m.2 notes₁).bind _) = _
  rw [if_neg hm, hf]
  rfl

theorem name {mark : Mark} {n : Text} {p : Production} (hn : Grammar.isToken n = false)
    (hp : i.grammar.get? n = some p) (h : Descends i p.body pos r d) :
    Descends i (.name mark n) pos (r.map fun m => ([node i n pos m.1], m.2)) d := by
  refine h.of_part fun k notes notes' he => ?_
  show (if Grammar.isToken n then _ else _) = _
  rw [if_neg (by simp [hn]), hp]
  show (expr i k p.body pos notes).bind _ = _
  rw [he]
  rfl

end Descends

/-- A terminal is matched as what it expects. -/
theorem expr_of_terminal? {x : Expectation} (hx : e.terminal? i.grammar = some x)
    (depth : Nat) (notes : Notes) :
    expr i (depth + 1) e pos notes = some (terminal i x pos notes) := by
  rcases Expr.terminal?_eq_some hx with ⟨v, rfl, rfl⟩ | ⟨lo, hi, rfl, rfl⟩ | ⟨mark, n, rfl, hn, rfl⟩
    | ⟨mark, n, rfl, hn, hp, rfl⟩
  · rfl
  · rfl
  · exact if_pos hn
  · show (if Grammar.isToken n then _ else _) = _
    rw [if_neg (by simp [hn]), hp]

theorem Descends.accept {x : Expectation} {t : Token} {build : Nat → Node}
    (hx : e.terminal? i.grammar = some x) (ht : i.tokens[pos]? = some t)
    (hb : x.build i.grammar t = some build) :
    Descends i e pos (some ([build 0], pos + 1)) ⊥ := by
  refine .of_succ 0 fun k _ notes => ⟨notes, ?_, (sup_bot_eq _).symm⟩
  rw [expr_of_terminal? hx, terminal, ht, Option.bind_some, hb]

theorem Descends.reject {x : Expectation} (hx : e.terminal? i.grammar = some x)
    (ht : ∀ t, i.tokens[pos]? = some t → ¬ x.Accepts t) :
    Descends i e pos none (.single pos (some x)) := by
  refine .of_succ 0 fun k _ notes => ⟨notes.fail pos x, ?_, notes.frontier_fail pos x⟩
  have hb : i.tokens[pos]?.bind (x.build i.grammar) = none := by
    rw [Option.bind_eq_none_iff]
    exact fun t h => Expectation.build_eq_none_iff.mpr (ht t h)
  rw [expr_of_terminal? hx, terminal, hb]

/-! ## What a run leaves of its match -/

open Parse (Match State Run Task asList)

/-- A match as a descent has it. -/
def bare {size : Nat} (r : Option (Match (List Node) size pos)) : Option Found :=
  r.map fun m => (m.value.map Node.unnumbered, m.next)

section Bare

variable {size : Nat}

theorem bare_map_append {m : Match (List Node) size pos}
    (r : Option (Match (List Node) size m.next)) :
    bare (r.map m.append) = (bare r).map (Found.append (m.value.map Node.unnumbered, m.next)) := by
  cases r with
  | none => rfl
  | some k =>
    show some ((m.value ++ k.value).map Node.unnumbered, k.next) = _
    rw [List.map_append]
    rfl

theorem bare_longer (a b : Option (Match (List Node) size pos)) :
    bare (Parse.longer a b) = longest (bare a) (bare b) := by
  match a, b with
  | none, b => rfl
  | some m, none => rfl
  | some m, some k =>
    unfold Parse.longer
    show bare (if m.next < k.next then some k else some m)
      = if m.next < k.next then bare (some k) else bare (some m)
    split <;> rfl

theorem bare_getD (r : Option (Match (List Node) size pos)) :
    bare (some (r.getD (.empty []))) = some ((bare r).getD ([], pos)) := by
  cases r <;> rfl

end Bare

theorem unnumbered_build {g : Grammar} {x : Expectation} {t : Token} {build : Nat → Node}
    (hb : x.build g t = some build) (serial : Nat) : (build serial).unnumbered = build 0 := by
  cases x with
  | text v =>
    obtain ⟨-, rfl⟩ := Parse.spelled_eq_some_iff.mp
      (show Parse.spelled (· = v) t = some build from hb)
    rfl
  | range lo hi =>
    obtain ⟨-, rfl⟩ := Parse.spelled_eq_some_iff.mp hb
    rfl
  | kind n =>
    rcases Parse.named_eq_some_iff.mp hb with ⟨-, rfl⟩ | ⟨-, -, rfl⟩
    · rfl
    · rfl

theorem spanOf_unnumbered (nodes : List Node) :
    Parse.spanOf i pos (nodes.map Node.unnumbered) = Parse.spanOf i pos nodes := by
  unfold Parse.spanOf
  rw [List.head?_map, List.getLast?_map]
  cases nodes.head? <;> cases nodes.getLast? <;> simp

/-- The node made of some nodes is the same but for the numbers. -/
theorem node_of_assemble {n : Text} {nodes : List Node} {made : Node} {s s' : State i.size}
    (ha : Parse.assemble i n pos nodes s = (made, s')) :
    node i n pos (nodes.map Node.unnumbered) = made.unnumbered := by
  have hcomposite : ∀ serial, Node.composite 0 (some (.production n)) (nodes.map Node.unnumbered)
      (Parse.spanOf i pos (nodes.map Node.unnumbered))
        = (Node.composite serial (some (.production n)) nodes
          (Parse.spanOf i pos nodes)).unnumbered := by
    intro serial
    rw [Node.unnumbered, Node.unnumberedAll_eq_map, spanOf_unnumbered]
  unfold Parse.assemble at ha
  unfold node
  cases hc : i.grammar.isCategory n with
  | false =>
    rw [hc] at ha
    obtain ⟨rfl, -⟩ := Prod.mk.inj ha
    exact hcomposite _
  | true =>
    rw [hc] at ha
    match nodes with
    | [child] =>
      obtain ⟨rfl, -⟩ := Prod.mk.inj ha
      rfl
    | [] | _ :: _ :: _ =>
      obtain ⟨rfl, -⟩ := Prod.mk.inj ha
      exact hcomposite _

/-! ## The opened productions stop nothing -/

/-- The names that occur leftmost in a task. -/
def Leads (g : Grammar) : Task → Text → Prop
  | .expr e | .many e => Arbor.Leads g e
  | .production n => (· = n)

/-- Whether every opened production has come to what occurs leftmost in a task. -/
def Guarded (g : Grammar) (opened : Grammar.Opened) (task : Task) : Prop :=
  ∀ a ∈ opened, ∀ b, Leads g task b → Relation.TransGen g.LeftRefers a b

theorem guarded_empty {g : Grammar} {task : Task} : Guarded g ∅ task :=
  fun _ ha => absurd ha Std.TreeSet.not_mem_emptyc

theorem Guarded.imp {g : Grammar} {opened : Grammar.Opened} {task task' : Task}
    (h : Guarded g opened task) (himp : ∀ b, Leads g task' b → Leads g task b) :
    Guarded g opened task' :=
  fun a ha b hb => h a ha b (himp b hb)

/-- The body of a production is guarded by the production as well. -/
theorem Guarded.body {g : Grammar} {opened : Grammar.Opened} {n : Text} {p : Production}
    (h : Guarded g opened (.production n)) (hp : g.get? n = some p) :
    Guarded g (opened.insert n) (.expr p.body) := by
  intro a ha b hb
  have hnb : g.LeftRefers n b := ⟨p, hp, hb⟩
  rcases Grammar.mem_insert_opened.mp ha with rfl | ha
  · exact .single hnb
  · exact (h a ha n rfl).tail hnb

/-- What stands behind the first item of a sequence is guarded, since it stands
leftmost if the item consumed nothing. -/
theorem Guarded.rest {g : Grammar} {opened : Grammar.Opened} {next : Nat}
    (h : Guarded g opened (.expr (.seq e f))) (hnull : pos = next → Nullable g e) :
    Guarded g (Parse.openedAt opened pos next) (.expr f) := by
  unfold Parse.openedAt
  split
  · next hnext => exact h.imp fun b hb => .seqRight (hnull hnext.symm) hb
  · exact guarded_empty

/-! ## A run descends -/

/-- What a descent gives for a task, and what it adds. -/
def TaskDescends (i : ParseInput) : Task → Nat → Option Found → Frontier → Prop
  | .expr e => Descends i e
  | .production n => fun pos r d => ∀ mark, Descends i (.name mark n) pos r d
  | .many e => Descends i (.repetition e)

/-- Whether what the table has for a production is what a descent gives, and the state
knows all that the descent would note. -/
def Replays (i : ParseInput) (s : State i.size) (n : Text) (pos : Nat)
    (r : Option (Match Node i.size pos)) : Prop :=
  ∃ d ≤ s.frontier, TaskDescends i (.production n) pos (bare (asList r)) d

theorem entries_replays_of_le {s s' s₀ : State i.size} (h : s₀.Entries (Replays i s))
    (hs : s.frontier ≤ s'.frontier) : s₀.Entries (Replays i s') :=
  h.imp fun _ _ _ ⟨d, hd, hr⟩ => ⟨d, hd.trans hs, hr⟩

/-- **A run gives what a descent gives, and leaves noted what the descent would
note.** -/
theorem run_descends (hg : ¬ i.grammar.LeftRecursive) {opened : Grammar.Opened} {task : Task}
    {s s' : State i.size} {r : Option (Match (List Node) i.size pos)}
    (h : Run i opened pos task s r s') (ht : task.Syntactic) (ho : Guarded i.grammar opened task)
    (hk : s.Entries (Parse.Kept i)) (hs : s.Entries (Replays i s)) :
    s'.Entries (Replays i s')
      ∧ ∃ d, TaskDescends i task pos (bare r) d ∧ s'.frontier = s.frontier ⊔ d := by
  induction h with
  | empty => exact ⟨hs, ⊥, Descends.empty, (sup_bot_eq _).symm⟩
  | @accept _ pos s e x build hx h hb =>
    refine ⟨hs, ⊥, ?_, (sup_bot_eq _).symm⟩
    show Descends i e pos (some ([(build s.serial).unnumbered], pos + 1)) ⊥
    rw [unnumbered_build hb]
    exact .accept hx (Array.getElem?_eq_getElem h) hb
  | @reject _ pos s _ x hx hr =>
    have hf := State.frontier_fail s pos (some x)
    exact ⟨entries_replays_of_le (hs.fail _ _) (hf ▸ le_sup_left), _, Descends.reject hx hr, hf⟩
  | group _ ih =>
    obtain ⟨hs', d, hd, hf⟩ := ih trivial (ho.imp fun _ => .group) hk hs
    exact ⟨hs', d, hd.group, hf⟩
  | @option _ _ _ _ r _ _ ih =>
    obtain ⟨hs', d, hd, hf⟩ := ih trivial (ho.imp fun _ => .option) hk hs
    refine ⟨hs', d, ?_, hf⟩
    rw [bare_getD]
    exact hd.option
  | repetition _ ih => exact ih trivial (ho.imp fun _ => .repetition) hk hs
  | alt h₁ _ ih₁ ih₂ =>
    obtain ⟨hs₁, d₁, hd₁, hf₁⟩ := ih₁ trivial (ho.imp fun _ => .altLeft) hk hs
    obtain ⟨hs₂, d₂, hd₂, hf₂⟩ := ih₂ trivial (ho.imp fun _ => .altRight)
      (h₁.derives trivial hk).1 hs₁
    refine ⟨hs₂, d₁ ⊔ d₂, ?_, by rw [hf₂, hf₁, sup_assoc]⟩
    rw [bare_longer]
    exact hd₁.alt hd₂
  | seqFirst _ ih =>
    obtain ⟨hs', d, hd, hf⟩ := ih trivial (ho.imp fun _ => .seqLeft) hk hs
    exact ⟨hs', d, hd.seqFirst, hf⟩
  | @seq _ _ _ _ _ m _ _ _ h₁ _ ih₁ ih₂ =>
    obtain ⟨hk₁, hderives⟩ := h₁.derives trivial hk
    obtain ⟨hs₁, d₁, hd₁, hf₁⟩ := ih₁ trivial (ho.imp fun _ => .seqLeft) hk hs
    obtain ⟨hs₂, d₂, hd₂, hf₂⟩ := ih₂ trivial (ho.rest (hderives m rfl).nullable) hk₁ hs₁
    refine ⟨hs₂, d₁ ⊔ d₂, ?_, by rw [hf₂, hf₁, sup_assoc]⟩
    rw [bare_map_append]
    exact hd₁.seq hd₂
  | name hn _ ih =>
    obtain ⟨hn, hp⟩ := Expr.terminal?_name_eq_none_iff.mp hn
    obtain ⟨hs', d, hd, hf⟩ := ih hn (ho.imp (by rintro b rfl; exact .name hn hp)) hk hs
    exact ⟨hs', d, hd _, hf⟩
  | hit hr =>
    -- what the entry would note is noted already
    obtain ⟨d, hle, hd⟩ := hs _ _ _ hr
    exact ⟨hs, d, hd, (sup_eq_left.mpr hle).symm⟩
  | @guard _ _ _ n _ hn =>
    -- a production that is open where it is asked for has come to itself
    exact absurd ⟨n, ho n hn n rfl⟩ hg
  | @fail _ pos s n p s' _ _ hp _ ih =>
    obtain ⟨hs', d, hd, hf⟩ := ih trivial (ho.body hp) hk hs
    have hname : TaskDescends i (.production n) pos none d := fun mark => hd.name ht hp
    have hle : d ≤ s'.frontier := hf ▸ le_sup_right
    refine ⟨entries_replays_of_le (hs'.keep fun _ => ⟨d, hle, hname⟩) ?_, d, hname, ?_⟩
    · rw [State.frontier_keep]
    · rw [State.frontier_keep, hf]
  | @node _ pos s n p m s' made s'' _ _ hp ha _ ih =>
    obtain ⟨hs', d, hd, hf⟩ := ih trivial (ho.body hp) hk hs
    have hname : TaskDescends i (.production n) pos (some ([made.unnumbered], m.next)) d := by
      intro mark
      rw [← node_of_assemble ha]
      exact hd.name ht hp
    have hle : d ≤ s'.frontier := hf ▸ le_sup_right
    refine ⟨entries_replays_of_le ((hs'.assemble ha).keep fun _ => ⟨d, hle, hname⟩) ?_, d,
      hname, ?_⟩
    · rw [State.frontier_keep, Parse.frontier_assemble ha]
    · rw [State.frontier_keep, Parse.frontier_assemble ha, hf]
  | @manyLast _ _ _ _ r _ hm _ ih =>
    obtain ⟨hs', d, hd, hf⟩ := ih trivial ho hk hs
    refine ⟨hs', d, hd.repetitionLast ?_, hf⟩
    intro k hr
    obtain ⟨m, rfl, rfl⟩ := Option.map_eq_some_iff.mp hr
    exact hm m rfl
  | @manyMore _ _ _ _ m _ k _ hm h₁ _ ih₁ ih₂ =>
    obtain ⟨hs₁, d₁, hd₁, hf₁⟩ := ih₁ trivial ho hk hs
    -- the round consumed a token, so nothing is open in the next one
    obtain ⟨hs₂, d₂, hd₂, hf₂⟩ := ih₂ trivial guarded_empty (h₁.derives trivial hk).1 hs₁
    refine ⟨hs₂, d₁ ⊔ d₂, ?_, by rw [hf₂, hf₁, sup_assoc]⟩
    show Descends i _ _ (bare ((some k).map m.append)) _
    rw [bare_map_append]
    exact hd₁.repetitionMore hm hd₂

/-! ## The same outcome -/

/-- From the start no production is in the table and none is opened, so its body is
run. -/
theorem exists_run_body {n : Text} {p : Production} {r : Option (Match (List Node) i.size 0)}
    {s : State i.size} (hp : i.grammar.get? n = some p)
    (h : Run i ∅ 0 (.production n) (.start _) r s) :
    ∃ rb sb, Run i ((∅ : Grammar.Opened).insert n) 0 (.expr p.body) (.start _) rb sb
      ∧ s.frontier = sb.frontier
      ∧ bare r = (bare rb).map fun m => ([node i n 0 m.1], m.2) := by
  obtain ⟨s₁, hb, rfl, rfl⟩ | ⟨m, s₁, made, s₂, hb, ha, rfl, rfl⟩ :=
    h.body_cases Std.DHashMap.get?_empty Std.TreeSet.not_mem_emptyc hp
  · exact ⟨_, _, hb, State.frontier_keep .., rfl⟩
  · refine ⟨_, _, hb, ?_, ?_⟩
    · rw [State.frontier_keep, Parse.frontier_assemble ha]
    · show some ([Node.unnumbered _], _) = some ([node ..], _)
      rw [node_of_assemble ha]
      rfl

/-- The same failures make the same error. -/
theorem error_eq_of_frontier_eq {notes : Notes} {s : State i.size}
    (h : notes.frontier = s.frontier) :
    notes.error i = .mismatch (Parser.syntaxError i s) := by
  have hf : notes.furthest = s.furthest := congrArg Frontier.place h
  have hnodup : s.expected.toList.Nodup := by
    refine Std.HashSet.distinct_toList.imp fun hne heq => ?_
    rw [heq, beq_self_eq_true] at hne
    exact absurd hne (by simp)
  have hperm : notes.expected.Perm s.expected.toList := by
    rw [List.perm_ext_iff_of_nodup notes.nodup hnodup]
    intro x
    rw [Std.HashSet.mem_toList, ← State.mem_expected_frontier, ← h]
    rfl
  unfold Notes.error Parser.syntaxError
  rw [hf, Text.sort_eq_of_perm (hperm.map Expectation.render)]
  cases i.tokens[s.furthest]? <;> rfl

theorem conclude_eq {start : Text} {rb : Option Found} {notes : Notes}
    {r : Option (Match Node i.size 0)} {s : State i.size} (hf : notes.frontier = s.frontier)
    (hr : bare (asList r) = rb.map fun m => ([node i start 0 m.1], m.2)) :
    conclude i rb start notes = (Parser.conclude i r s).map Node.unnumbered := by
  have herror := error_eq_of_frontier_eq hf
  have hplace : notes.furthest = s.furthest := congrArg Frontier.place hf
  cases r with
  | none =>
    obtain rfl := Option.map_eq_none_iff.mp hr.symm
    exact congrArg Except.error herror
  | some m =>
    obtain ⟨⟨nodes, next⟩, rfl, hk⟩ := Option.map_eq_some_iff.mp hr.symm
    obtain ⟨hnode, rfl⟩ := Prod.mk.inj
      (show ([node i start 0 nodes], next) = ([m.value.unnumbered], m.next) from hk)
    have hbeyond : Notes.error ⟨m.next, [], .nil⟩ i
        = .mismatch (Parser.syntaxError i { s with furthest := m.next, expected := ∅ }) := by
      refine error_eq_of_frontier_eq (Frontier.ext rfl ?_)
      ext x
      show x ∈ [] ↔ x ∈ (∅ : Std.HashSet Expectation)
      simp
    unfold conclude Parser.conclude
    dsimp only
    rw [hplace, (List.cons.inj hnode).1, hbeyond, herror]
    split
    · rfl
    · split <;> rfl

/-- A descent returns one outcome. -/
theorem Returns.unique {p : Parser} {tokens : List Token} {start : Text}
    {out out' : Except ParseError Node} (h : Returns p tokens start out)
    (h' : Returns p tokens start out') : out = out' := by
  obtain ⟨k₁, h⟩ := h
  obtain ⟨k₂, h'⟩ := h'
  have ho := h (max k₁ k₂) (le_max_left _ _)
  have ho' := h' (max k₁ k₂) (le_max_right _ _)
  exact Option.some.inj (ho.symm.trans ho')

theorem returns_noProduction {p : Parser} {start : Text} (tokens : List Token)
    (h : ¬ (Grammar.isToken start = false ∧ p.grammar.has start = true)) :
    Returns p tokens start (.error (.noProduction start)) := by
  refine ⟨0, fun k _ => ?_⟩
  unfold parse
  split
  · rfl
  · next q hq =>
    have hn : Grammar.isToken start = true := by
      by_contra hn
      exact h ⟨by simpa using hn, by rw [Grammar.has, hq]; rfl⟩
    rw [if_pos hn]

theorem returns_parse {p : Parser} {start : Text} (hg : ¬ p.grammar.LeftRecursive)
    (hn : Grammar.isToken start = false) (hq : p.grammar.has start = true)
    (tokens : List Token) :
    Returns p tokens start ((p.parse tokens start).map Node.unnumbered) := by
  obtain ⟨r, s, hrun, hp⟩ := Parser.exists_run hn hq tokens
  obtain ⟨q, hq⟩ := Option.isSome_iff_exists.mp hq
  obtain ⟨rb, sb, hbody, hs, hr⟩ := exists_run_body hq hrun
  obtain ⟨-, d, ⟨depth, hd⟩, hsb⟩ := run_descends hg hbody trivial (guarded_empty.body hq)
    State.entries_start State.entries_start
  refine ⟨depth, fun k hk => ?_⟩
  obtain ⟨notes, hnotes, hf⟩ := hd k hk .start
  rw [State.frontier_start] at hsb
  rw [Notes.frontier_start, ← hsb, ← hs] at hf
  rw [parse, hq]
  show (if _ then _ else (expr (p.input tokens) k q.body 0 .start).bind _) = _
  rw [if_neg (by simp [hn]), hnotes, hp]
  exact congrArg some (conclude_eq hf hr)

end Descent

/-- **The parser is a recursive descent**: on a grammar that is not left recursive, what
following every name afresh returns is the tree, or the error, of the parser. -/
theorem Parser.descent_returns_iff {p : Parser} (hg : ¬ p.grammar.LeftRecursive)
    (tokens : List Token) (start : Text) (out : Except ParseError Node) :
    Descent.Returns p tokens start out ↔ (p.parse tokens start).map Node.unnumbered = out := by
  have h : Descent.Returns p tokens start ((p.parse tokens start).map Node.unnumbered) := by
    by_cases hs : Grammar.isToken start = false ∧ p.grammar.has start = true
    · exact Descent.returns_parse hg hs.1 hs.2 tokens
    · have hp : p.parse tokens start = .error (.noProduction start) := by
        by_contra hne
        exact hs (start_of_parse hne)
      rw [hp]
      exact Descent.returns_noProduction tokens hs
  constructor
  · exact h.unique
  · rintro rfl
    exact h

theorem Parser.descent_returns_words :
    ¬ Sample.grammar.LeftRecursive
      ∧ Descent.Returns Sample.parser Sample.words (utf8 "list")
        ((Sample.parser.parse Sample.words (utf8 "list")).map Node.unnumbered) :=
  ⟨Sample.not_leftRecursive,
    (descent_returns_iff Sample.not_leftRecursive Sample.words (utf8 "list") _).mpr rfl⟩

end Arbor
