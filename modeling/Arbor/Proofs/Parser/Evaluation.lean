import Arbor.Parser

/-!
# Runs of the parser

`Parse.expr`, `Parse.production` and `Parse.many` call one another, and the
state passes through all of them. What holds of every parse is proved by
following the calls, and following them is one induction, whatever the property.
This module states it once, as an evaluation relation: `Parse.Run` relates a
task and a state to the result and the next state, with one rule for each way a
call can go. `Parse.run_expr`, `Parse.run_production` and `Parse.run_many` say
that the functions run by these rules, so a property of all parses is an
induction on `Run`, and two parses are compared by inverting the second at each
rule of the first.

Four forms of expression consume a single token: a literal, a range, the name of
a token and a name without a production. They are the **terminals**
(`Expr.terminal?`), and they differ only in the expectation they stand for. The
rules have two cases for all of them, `accept` and `reject`.
-/

namespace Arbor

/-! ## Terminals -/

/-- What an expression expects, if it matches a single token by itself. -/
def Expr.terminal? (g : Grammar) : Expr → Option Expectation
  | .literal v => some (.text v)
  | .range lo hi => some (.range lo hi)
  | .name _ n =>
    if Grammar.isToken n then some (.kind n) else if g.has n then none else some (.text n)
  | _ => none

/-- A name that is followed has a production and is not a token's. -/
theorem Expr.terminal?_name_eq_none_iff {g : Grammar} {mark : Mark} {n : Text} :
    terminal? g (.name mark n) = none ↔ Grammar.isToken n = false ∧ g.has n = true := by
  show (if Grammar.isToken n then some (Expectation.kind n)
    else if g.has n then none else some (.text n)) = none ↔ _
  split
  · simp_all
  · split <;> simp_all

/-- What matches a single token by itself is a literal, a range, the name of a token or a name
without a production. -/
theorem Expr.terminal?_eq_some {g : Grammar} {e : Expr} {x : Expectation}
    (h : e.terminal? g = some x) :
    (∃ v, e = .literal v ∧ x = .text v)
      ∨ (∃ lo hi, e = .range lo hi ∧ x = .range lo hi)
      ∨ (∃ mark n, e = .name mark n ∧ Grammar.isToken n = true ∧ x = .kind n)
      ∨ ∃ mark n, e = .name mark n ∧ Grammar.isToken n = false ∧ g.get? n = none ∧ x = .text n := by
  cases e with
  | literal v => exact .inl ⟨v, rfl, (Option.some.inj h).symm⟩
  | range lo hi => exact .inr (.inl ⟨lo, hi, rfl, (Option.some.inj h).symm⟩)
  | name mark n =>
    refine .inr (.inr ?_)
    replace h : (if Grammar.isToken n then some (Expectation.kind n)
      else if g.has n then none else some (.text n)) = some x := h
    split at h
    · next hn => exact .inl ⟨mark, n, rfl, hn, (Option.some.inj h).symm⟩
    · next hn =>
      split at h
      · cases h
      · next hp =>
        have hnone : g.get? n = none := by simpa [Grammar.has] using hp
        exact .inr ⟨mark, n, rfl, by simpa using hn, hnone, (Option.some.inj h).symm⟩
  | _ => cases h

namespace Expectation

/-- **Whether a token is what is expected.** A text is expected of the token's
text, a range of its only character, and a kind of the token's kind or else of its
text. -/
def Accepts : Expectation → Token → Prop
  | text v, t => t.literal = v
  | range lo hi, t =>
    ∃ r, t.literal.pieces = [r] ∧ lo.firstChar ≤ r.toChar ∧ r.toChar ≤ hi.firstChar
  | kind n, t => t.kind = n ∨ t.literal = n

/-- What becomes of a token where something is expected, given a serial number
for the node. -/
def build (g : Grammar) : Expectation → Token → Option (Nat → Node)
  | text v => Parse.spelled (· = v)
  | range lo hi => Parse.spelled (Parse.inRange lo hi)
  | kind n => Parse.named g n

/-- A token becomes a node just where it is what is expected. -/
theorem isSome_build (g : Grammar) (x : Expectation) (t : Token) :
    (x.build g t).isSome ↔ x.Accepts t := by
  cases x with
  | text v =>
    show (Parse.spelled (· = v) t).isSome ↔ t.literal = v
    unfold Parse.spelled
    split <;> simp_all
  | range lo hi =>
    show (Parse.spelled (Parse.inRange lo hi) t).isSome ↔ ∃ r, t.literal.pieces = [r] ∧ _
    have hr : Parse.inRange lo hi t.literal = true
        ↔ ∃ r, t.literal.pieces = [r] ∧ lo.firstChar ≤ r.toChar ∧ r.toChar ≤ hi.firstChar := by
      unfold Parse.inRange
      split <;> simp_all
    rw [← hr, Parse.spelled]
    split <;> simp_all
  | kind n =>
    show (Parse.named g n t).isSome ↔ t.kind = n ∨ t.literal = n
    unfold Parse.named
    split
    · simp_all
    · split <;> simp_all

/-- A token becomes nothing just where it is not what is expected. -/
theorem build_eq_none_iff {g : Grammar} {x : Expectation} {t : Token} :
    x.build g t = none ↔ ¬ x.Accepts t := by
  rw [← isSome_build g, Option.not_isSome_iff_eq_none]

end Expectation

namespace Parse

/-! ## What the table holds

An invariant of the table is a property of every entry. Only `State.keep` makes an
entry, and it makes none for a match that consumed nothing. -/

namespace State

variable {size : Nat} {s : State size}
  {P : Text → (pos : Nat) → Option (Match Node size pos) → Prop}

/-- Whether a property holds of every entry of the table. -/
def Entries (s : State size) (P : Text → (pos : Nat) → Option (Match Node size pos) → Prop) :
    Prop :=
  ∀ n pos r, s.table.get? (n, pos) = some r → P n pos r

theorem entries_start : (start size).Entries P := by
  intro n pos r h
  rw [start, Std.DHashMap.get?_empty] at h
  exact absurd h (by simp)

theorem Entries.imp {Q : Text → (pos : Nat) → Option (Match Node size pos) → Prop}
    (h : s.Entries P) (hPQ : ∀ n pos r, P n pos r → Q n pos r) : s.Entries Q :=
  fun n pos r hr => hPQ n pos r (h n pos r hr)

@[simp] theorem table_fail (s : State size) (pos : Nat) (e : Option Expectation) :
    (s.fail pos e).table = s.table := by
  unfold fail
  cases e <;> grind

theorem Entries.fail (h : s.Entries P) (pos : Nat) (e : Option Expectation) :
    (s.fail pos e).Entries P := by
  intro n pos' r hr
  rw [table_fail] at hr
  exact h n pos' r hr

theorem Entries.insert (h : s.Entries P) {n : Text} {pos : Nat}
    {r : Option (Match Node size pos)} (hr : P n pos r) :
    Entries { s with table := s.table.insert (n, pos) r } P := by
  intro n' pos' r' hr'
  rw [Std.DHashMap.get?_insert] at hr'
  split at hr'
  · next heq =>
    obtain ⟨rfl, rfl⟩ := Prod.mk.inj (eq_of_beq heq)
    rw [← Option.some.inj hr']
    exact hr
  · exact h n' pos' r' hr'

/-- What is kept joins the entries, unless it consumed nothing. -/
theorem Entries.keep (h : s.Entries P) {n : Text} {pos : Nat}
    {r : Option (Match Node size pos)} (hr : (∀ m, r = some m → pos < m.next) → P n pos r) :
    (s.keep n pos r).Entries P := by
  cases r with
  | none => exact h.insert (hr fun m hm => absurd hm (by simp))
  | some m =>
    unfold State.keep
    dsimp only
    split
    · next hm =>
      refine h.insert (hr fun k hk => ?_)
      rw [← Option.some.inj hk]
      exact hm
    · exact h

/-- What is kept is an entry if it consumed something. -/
theorem get?_keep_self {n : Text} {pos : Nat} {m : Match Node size pos} (h : pos < m.next) :
    (s.keep n pos (some m)).table.get? (n, pos) = some (some m) := by
  rw [keep, if_pos h, Std.DHashMap.get?_insert_self]

theorem keep_of_next_eq {n : Text} {pos : Nat} {m : Match Node size pos} (h : m.next = pos) :
    s.keep n pos (some m) = s :=
  if_neg (by rw [h]; exact Nat.lt_irrefl pos)

/-- What is kept is no entry for another name or place. -/
theorem get?_keep_of_ne {n n' : Text} {pos pos' : Nat} {r : Option (Match Node size pos)}
    (h : (n, pos) ≠ (n', pos')) :
    (s.keep n pos r).table.get? (n', pos') = s.table.get? (n', pos') := by
  have hi : ∀ r, (s.table.insert (n, pos) r).get? (n', pos') = s.table.get? (n', pos') := by
    intro r
    rw [Std.DHashMap.get?_insert, dif_neg (by simpa using h)]
  unfold keep
  cases r with
  | none => exact hi none
  | some m =>
    dsimp only
    split
    · exact hi _
    · rfl

end State

/-- Making a node leaves the table as it is. -/
theorem State.Entries.assemble {i : ParseInput} {n : Text} {pos : Nat} {nodes : List Node}
    {node : Node} {s s' : State i.size}
    {P : Text → (pos : Nat) → Option (Match Node i.size pos) → Prop} (h : s.Entries P)
    (ha : assemble i n pos nodes s = (node, s')) : s'.Entries P := by
  unfold Parse.assemble at ha
  split at ha
  all_goals
    obtain ⟨-, rfl⟩ := Prod.mk.inj ha
    exact h

/-- A category gives way to the single node of its choice. -/
theorem assemble_category {i : ParseInput} {n : Text} (hc : i.grammar.isCategory n = true)
    (pos : Nat) (node : Node) (s : State i.size) : assemble i n pos [node] s = (node, s) := by
  unfold assemble
  rw [hc]

/-- Any other production makes a node. -/
theorem assemble_composite {i : ParseInput} {n : Text} (hc : i.grammar.isCategory n = false)
    (pos : Nat) (nodes : List Node) (s : State i.size) :
    assemble i n pos nodes s
      = (.composite s.serial (some (.production n)) nodes (spanOf i pos nodes), s.fresh.2) := by
  unfold assemble
  rw [hc]
  rfl

/-- The longer of two matches is one of them. -/
theorem longer_eq_some {α : Type} {size pos : Nat} {a b : Option (Match α size pos)}
    {m : Match α size pos} (h : longer a b = some m) : a = some m ∨ b = some m := by
  unfold longer at h
  split at h
  · exact .inr h
  · exact .inl h
  · split at h
    · exact .inr h
    · exact .inl h

/-! ## The rules -/

/-- What the parser can be asked to match at a place. -/
inductive Task where
  /-- An expression. -/
  | expr (e : Expr)
  /-- The production of a name. -/
  | production (n : Text)
  /-- As many occurrences of an expression as there are. -/
  | many (e : Expr)

variable {i : ParseInput}

/-- **The runs of the parser**: `Run i opened pos task s r s'` says that the task,
begun at `pos` in state `s` with the given productions opened, ends in state `s'`
with the result `r`. The result of a production is the list of its one node. -/
inductive Run (i : ParseInput) : Grammar.Opened → (pos : Nat) → Task → State i.size →
    Option (Match (List Node) i.size pos) → State i.size → Prop
  /-- The empty body matches nothing. -/
  | empty {opened pos s} : Run i opened pos (.expr .empty) s (some (.empty [])) s
  /-- A terminal consumes a token that it accepts. -/
  | accept {opened pos s e x build} (hx : e.terminal? i.grammar = some x) (h : pos < i.size)
      (hb : x.build i.grammar i.tokens[pos] = some build) :
      Run i opened pos (.expr e) s (some (.one [build s.serial] h)) s.fresh.2
  /-- Any other token, or the end, is a failure of the terminal. -/
  | reject {opened pos s e x} (hx : e.terminal? i.grammar = some x)
      (ht : ∀ t, i.tokens[pos]? = some t → ¬ x.Accepts t) :
      Run i opened pos (.expr e) s none (s.fail pos (some x))
  /-- A group is its body. -/
  | group {opened pos s e r s'} : Run i opened pos (.expr e) s r s' →
      Run i opened pos (.expr (.group e)) s r s'
  /-- An option matches nothing where its body fails. -/
  | option {opened pos s e r s'} : Run i opened pos (.expr e) s r s' →
      Run i opened pos (.expr (.option e)) s (some (r.getD (.empty []))) s'
  /-- A repetition matches as much as it can. -/
  | repetition {opened pos s e m s'} : Run i opened pos (.many e) s (some m) s' →
      Run i opened pos (.expr (.repetition e)) s (some m) s'
  /-- Both sides of a choice are tried. -/
  | alt {opened pos s e f a s₁ b s₂} : Run i opened pos (.expr e) s a s₁ →
      Run i opened pos (.expr f) s₁ b s₂ → Run i opened pos (.expr (.alt e f)) s (longer a b) s₂
  /-- A sequence that fails at its first item. -/
  | seqFirst {opened pos s e f s₁} : Run i opened pos (.expr e) s none s₁ →
      Run i opened pos (.expr (.seq e f)) s none s₁
  /-- A sequence that goes on behind its first item. -/
  | seq {opened pos s e f m s₁ r s₂} : Run i opened pos (.expr e) s (some m) s₁ →
      Run i (openedAt opened pos m.next) m.next (.expr f) s₁ r s₂ →
      Run i opened pos (.expr (.seq e f)) s (r.map m.append) s₂
  /-- A name that has a production. -/
  | name {opened pos s mark n r s'} (hn : Expr.terminal? i.grammar (.name mark n) = none) :
      Run i opened pos (.production n) s r s' → Run i opened pos (.expr (.name mark n)) s r s'
  /-- A production in the table. -/
  | hit {opened pos s n} {r : Option (Match Node i.size pos)}
      (ht : s.table.get? (n, pos) = some r) :
      Run i opened pos (.production n) s (r.map (·.map ([·]))) s
  /-- A production that is opened already. -/
  | guard {opened pos s n} (ht : s.table.get? (n, pos) = none) (ho : n ∈ opened) :
      Run i opened pos (.production n) s none (s.fail pos none)
  /-- A production whose body fails. -/
  | fail {opened pos s n p s'} (ht : s.table.get? (n, pos) = none) (ho : n ∉ opened)
      (hp : i.grammar.get? n = some p) : Run i (opened.insert n) pos (.expr p.body) s none s' →
      Run i opened pos (.production n) s none (s'.keep n pos none)
  /-- A production whose body matches. -/
  | node {opened pos s n p m s' node s''} (ht : s.table.get? (n, pos) = none) (ho : n ∉ opened)
      (hp : i.grammar.get? n = some p) (ha : assemble i n pos m.value s' = (node, s'')) :
      Run i (opened.insert n) pos (.expr p.body) s (some m) s' →
      Run i opened pos (.production n) s (some (m.map fun _ => [node]))
        (s''.keep n pos (some (m.map fun _ => node)))
  /-- A repetition ends where its body fails or consumes nothing. -/
  | manyLast {opened pos s e r s'} (hm : ∀ m, r = some m → m.next = pos) :
      Run i opened pos (.expr e) s r s' → Run i opened pos (.many e) s (some (.empty [])) s'
  /-- It goes on behind a match that consumed something. -/
  | manyMore {opened pos s e m s₁ k s₂} (hm : m.next ≠ pos) :
      Run i opened pos (.expr e) s (some m) s₁ → Run i ∅ m.next (.many e) s₁ (some k) s₂ →
      Run i opened pos (.many e) s (some (m.append k)) s₂

/-! ## The functions run by the rules -/

theorem leaf_of_build {pos : Nat} {accept : Token → Option (Nat → Node)} {x : Expectation}
    {s : State i.size} {build : Nat → Node} (h : pos < i.size)
    (hb : accept i.tokens[pos] = some build) :
    leaf i pos accept x s = (some (.one [build s.serial] h), s.fresh.2) := by
  unfold leaf
  rw [dif_pos h, hb]
  rfl

/-- A terminal runs as its expectation says. -/
theorem run_leaf {opened : Grammar.Opened} {pos : Nat} {e : Expr} {x : Expectation}
    (s : State i.size) (hx : e.terminal? i.grammar = some x) :
    Run i opened pos (.expr e) s (leaf i pos (x.build i.grammar) x s).1
      (leaf i pos (x.build i.grammar) x s).2 := by
  by_cases h : pos < i.size
  · cases hb : x.build i.grammar i.tokens[pos] with
    | some build =>
      rw [leaf_of_build h hb]
      exact .accept hx h hb
    | none =>
      have hl : leaf i pos (x.build i.grammar) x s = (none, s.fail pos (some x)) := by
        rw [leaf, dif_pos h, hb]
      rw [hl]
      refine .reject hx fun t ht => ?_
      rw [Array.getElem?_eq_getElem h, Option.some.injEq] at ht
      rw [← ht]
      exact Expectation.build_eq_none_iff.mp hb
  · have hl : leaf i pos (x.build i.grammar) x s = (none, s.fail pos (some x)) := by
      rw [leaf, dif_neg h]
    rw [hl]
    refine .reject hx fun t ht => ?_
    rw [Array.getElem?_eq_none (Nat.le_of_not_lt h)] at ht
    exact absurd ht (by simp)

/-- The result of a production as that of its task. -/
abbrev asList {pos : Nat} (r : Option (Match Node i.size pos)) :
    Option (Match (List Node) i.size pos) :=
  r.map (·.map ([·]))

theorem run_all (i : ParseInput) :
    (∀ opened pos e s, Run i opened pos (.expr e) s (expr i opened pos e s).1
      (expr i opened pos e s).2) ∧
    (∀ opened pos n p hp s, Run i opened pos (.production n) s
      (asList (production i opened pos n p hp s).1) (production i opened pos n p hp s).2) ∧
    (∀ opened pos e s, Run i opened pos (.many e) s (some (many i opened pos e s).1)
      (many i opened pos e s).2) := by
  apply expr.mutual_induct i
    (fun opened pos e s => Run i opened pos (.expr e) s (expr i opened pos e s).1
      (expr i opened pos e s).2)
    (fun opened pos n p hp s => Run i opened pos (.production n) s
      (asList (production i opened pos n p hp s).1) (production i opened pos n p hp s).2)
    (fun opened pos e s => Run i opened pos (.many e) s (some (many i opened pos e s).1)
      (many i opened pos e s).2)
  case case1 =>
    intro opened pos s
    rw [expr]
    exact .empty
  case case2 =>
    intro opened pos v s
    rw [expr]
    exact run_leaf s rfl
  case case3 =>
    intro opened pos lo hi s
    rw [expr]
    exact run_leaf s rfl
  case case4 =>
    intro opened pos e s ih
    rw [expr]
    exact .group ih
  case case5 =>
    intro opened pos e s m s' h ih
    rw [h] at ih
    rw [expr, h]
    exact .option ih
  case case6 =>
    intro opened pos e s s' h ih
    rw [h] at ih
    rw [expr, h]
    exact .option ih
  case case7 =>
    intro opened pos e s m s' h ih
    rw [expr]
    exact .repetition ih
  case case8 =>
    intro opened pos e f s a s₁ h₁ b s₂ h₂ ih₁ ih₂
    rw [h₁] at ih₁
    rw [h₂] at ih₂
    rw [expr, h₁]
    dsimp only
    rw [h₂]
    exact .alt ih₁ ih₂
  case case9 =>
    intro opened pos e f s s₁ h₁ ih₁
    rw [h₁] at ih₁
    rw [expr, h₁]
    exact .seqFirst ih₁
  case case10 =>
    intro opened pos e f s m s₁ h₁ s₂ h₂ ih₁ ih₂
    rw [h₁] at ih₁
    rw [h₂] at ih₂
    rw [expr, h₁]
    dsimp only
    rw [h₂]
    exact .seq ih₁ ih₂
  case case11 =>
    intro opened pos e f s m s₁ h₁ k s₂ h₂ ih₁ ih₂
    rw [h₁] at ih₁
    rw [h₂] at ih₂
    rw [expr, h₁]
    dsimp only
    rw [h₂]
    exact .seq ih₁ ih₂
  case case12 =>
    intro opened pos mark n s hn
    rw [expr, if_pos hn]
    exact run_leaf s (if_pos hn)
  case case13 =>
    intro opened pos mark n s hn hp
    have hx : Expr.terminal? i.grammar (.name mark n) = some (.text n) := by
      simp [Expr.terminal?, hn, Grammar.has, hp]
    rw [expr, if_neg hn]
    split
    · exact run_leaf s hx
    · next hq => rw [hp] at hq; exact absurd hq (by simp)
  case case14 =>
    intro opened pos mark n s hn p hp r s' h ih
    have hx : Expr.terminal? i.grammar (.name mark n) = none := by
      simp [Expr.terminal?, hn, Grammar.has, hp]
    rw [h] at ih
    rw [expr, if_neg hn]
    split
    · next hq => rw [hp] at hq; exact absurd hq (by simp)
    · next q hq =>
      obtain rfl : p = q := Option.some.inj (hp.symm.trans hq)
      rw [h]
      exact .name hx ih
  case case15 =>
    intro opened pos n p hp s r ht
    rw [production, ht]
    exact .hit ht
  case case16 =>
    intro opened pos n p hp s ht ho
    rw [production, ht]
    dsimp only
    rw [dif_pos ho]
    exact .guard ht ho
  case case17 =>
    intro opened pos n p hp s ht ho _ s' h ih
    rw [h] at ih
    rw [production, ht]
    dsimp only
    rw [dif_neg ho, h]
    exact .fail ht ho hp ih
  case case18 =>
    intro opened pos n p hp s ht ho _ m s' h node s'' ha ih
    rw [h] at ih
    rw [production, ht]
    dsimp only
    rw [dif_neg ho, h]
    dsimp only
    rw [ha]
    exact .node ht ho hp ha ih
  case case19 =>
    intro opened pos e s s' h ih
    rw [h] at ih
    rw [many, h]
    exact .manyLast (fun m hm => absurd hm (by simp)) ih
  case case20 =>
    intro opened pos e s m s' h hm ih
    rw [h] at ih
    rw [many, h]
    dsimp only
    rw [dif_pos hm]
    exact .manyLast (fun k hk => Option.some.inj hk ▸ hm) ih
  case case21 =>
    intro opened pos e s m s₁ h hm _ k s₂ hk ih ihk
    rw [h] at ih
    rw [hk] at ihk
    rw [many, h]
    dsimp only
    rw [dif_neg hm, hk]
    exact .manyMore hm ih ihk

/-! ## The rules leave no choice -/

/-- **What a terminal does**: it consumes a token that it accepts, or else it fails. -/
theorem Run.terminal_cases {opened : Grammar.Opened} {pos : Nat} {e : Expr} {x : Expectation}
    {s s' : State i.size} {r : Option (Match (List Node) i.size pos)}
    (h : Run i opened pos (.expr e) s r s') (hx : e.terminal? i.grammar = some x) :
    (∃ (hpos : pos < i.size) (build : Nat → Node), x.build i.grammar i.tokens[pos] = some build
        ∧ r = some (.one [build s.serial] hpos) ∧ s' = s.fresh.2)
      ∨ (∀ t, i.tokens[pos]? = some t → ¬ x.Accepts t) ∧ r = none ∧ s' = s.fail pos (some x) := by
  cases h with
  | accept hx' hpos hb =>
    cases hx.symm.trans hx'
    exact .inl ⟨hpos, _, hb, rfl, rfl⟩
  | reject hx' hr =>
    cases hx.symm.trans hx'
    exact .inr ⟨hr, rfl, rfl⟩
  | name hn => rw [hx] at hn; cases hn
  | _ => cases hx

/-- **What a production does** where it is neither in the table nor opened: it runs its body, and
keeps that this fails or the node that it makes. -/
theorem Run.body_cases {opened : Grammar.Opened} {pos : Nat} {n : Text} {p : Production}
    {s s' : State i.size} {r : Option (Match (List Node) i.size pos)}
    (h : Run i opened pos (.production n) s r s') (ht : s.table.get? (n, pos) = none)
    (ho : n ∉ opened) (hp : i.grammar.get? n = some p) :
    (∃ s₁, Run i (opened.insert n) pos (.expr p.body) s none s₁ ∧ r = none
        ∧ s' = s₁.keep n pos none)
      ∨ ∃ m s₁ node s₂, Run i (opened.insert n) pos (.expr p.body) s (some m) s₁
        ∧ assemble i n pos m.value s₁ = (node, s₂) ∧ r = some (m.map fun _ => [node])
        ∧ s' = s₂.keep n pos (some (m.map fun _ => node)) := by
  cases h with
  | hit ht' => rw [ht] at ht'; cases ht'
  | guard _ ho' => exact absurd ho' ho
  | fail _ _ hp' hb =>
    cases hp.symm.trans hp'
    exact .inl ⟨_, hb, rfl, rfl⟩
  | node _ _ hp' ha hb =>
    cases hp.symm.trans hp'
    exact .inr ⟨_, _, _, _, hb, ha, rfl, rfl⟩

/-- A token is not accepted and rejected at once. -/
theorem not_accepts_of_build {pos : Nat} {x : Expectation} {build : Nat → Node} (h : pos < i.size)
    (hr : ∀ t, i.tokens[pos]? = some t → ¬ x.Accepts t) :
    x.build i.grammar i.tokens[pos] ≠ some build := by
  intro hb
  refine hr _ (Array.getElem?_eq_getElem h) ?_
  exact (Expectation.isSome_build i.grammar x _).mp (by rw [hb]; rfl)

/-- **A task ends in one way.** -/
theorem Run.unique {opened : Grammar.Opened} {pos : Nat} {task : Task} {s s₁ s₂ : State i.size}
    {r₁ r₂ : Option (Match (List Node) i.size pos)} (h : Run i opened pos task s r₁ s₁)
    (h' : Run i opened pos task s r₂ s₂) : r₁ = r₂ ∧ s₁ = s₂ := by
  induction h generalizing s₂ with
  | empty =>
    cases h' with
    | empty => exact ⟨rfl, rfl⟩
    | accept hx | reject hx => cases hx
  | accept hx h hb =>
    obtain ⟨_, build, hb', rfl, rfl⟩ | ⟨hr, -, -⟩ := h'.terminal_cases hx
    · cases hb.symm.trans hb'
      exact ⟨rfl, rfl⟩
    · exact absurd hb (not_accepts_of_build h hr)
  | reject hx hr =>
    obtain ⟨h, build, hb, -, -⟩ | ⟨-, rfl, rfl⟩ := h'.terminal_cases hx
    · exact absurd hb (not_accepts_of_build h hr)
    · exact ⟨rfl, rfl⟩
  | group _ ih =>
    cases h' with
    | group h' => exact ih h'
    | accept hx | reject hx => cases hx
  | option _ ih =>
    cases h' with
    | option h' =>
      obtain ⟨rfl, rfl⟩ := ih h'
      exact ⟨rfl, rfl⟩
    | accept hx | reject hx => cases hx
  | repetition _ ih =>
    cases h' with
    | repetition h' => exact ih h'
    | accept hx | reject hx => cases hx
  | alt _ _ ih₁ ih₂ =>
    cases h' with
    | alt h₁ h₂ =>
      obtain ⟨rfl, rfl⟩ := ih₁ h₁
      obtain ⟨rfl, rfl⟩ := ih₂ h₂
      exact ⟨rfl, rfl⟩
    | accept hx | reject hx => cases hx
  | seqFirst _ ih =>
    cases h' with
    | seqFirst h₁ => exact ⟨rfl, (ih h₁).2⟩
    | seq h₁ => cases (ih h₁).1
    | accept hx | reject hx => cases hx
  | seq _ _ ih₁ ih₂ =>
    cases h' with
    | seqFirst h₁ => cases (ih₁ h₁).1
    | seq h₁ h₂ =>
      obtain ⟨⟨⟩, rfl⟩ := ih₁ h₁
      obtain ⟨rfl, rfl⟩ := ih₂ h₂
      exact ⟨rfl, rfl⟩
    | accept hx | reject hx => cases hx
  | name hn _ ih =>
    cases h' with
    | name _ h' => exact ih h'
    | accept hx | reject hx => rw [hn] at hx; cases hx
  | hit hr =>
    cases h' with
    | hit hr' =>
      cases hr.symm.trans hr'
      exact ⟨rfl, rfl⟩
    | guard hr' | fail hr' | node hr' => rw [hr] at hr'; cases hr'
  | guard hr ho =>
    cases h' with
    | hit hr' => rw [hr] at hr'; cases hr'
    | guard => exact ⟨rfl, rfl⟩
    | fail _ ho' | node _ ho' => exact absurd ho ho'
  | fail hr ho hp _ ih =>
    obtain ⟨s₁, h₁, rfl, rfl⟩ | ⟨m, s₁, node, s₂, h₁, -⟩ := h'.body_cases hr ho hp
    · exact ⟨rfl, by rw [(ih h₁).2]⟩
    · cases (ih h₁).1
  | node hr ho hp ha _ ih =>
    obtain ⟨s₁, h₁, -⟩ | ⟨m, s₁, node, s₂, h₁, ha', rfl, rfl⟩ := h'.body_cases hr ho hp
    · cases (ih h₁).1
    · obtain ⟨⟨⟩, rfl⟩ := ih h₁
      cases ha.symm.trans ha'
      exact ⟨rfl, rfl⟩
  | manyLast hm _ ih =>
    cases h' with
    | manyLast _ h₁ => exact ⟨rfl, (ih h₁).2⟩
    | manyMore hm' h₁ =>
      obtain ⟨rfl, -⟩ := ih h₁
      exact absurd (hm _ rfl) hm'
  | manyMore hm _ _ ih₁ ih₂ =>
    cases h' with
    | manyLast hm' h₁ =>
      obtain ⟨rfl, -⟩ := ih₁ h₁
      exact absurd (hm' _ rfl) hm
    | manyMore _ h₁ h₂ =>
      obtain ⟨⟨⟩, rfl⟩ := ih₁ h₁
      obtain ⟨⟨⟩, rfl⟩ := ih₂ h₂
      exact ⟨rfl, rfl⟩

end Parse

/-! ## Parses -/

namespace Parser

open Parse

theorem parse_eq_conclude {p : Parser} {start : Text} {q : Production}
    (hn : Grammar.isToken start = false) (hq : p.grammar.get? start = some q)
    (tokens : List Token) :
    p.parse tokens start = conclude (p.input tokens)
      (production (p.input tokens) ∅ 0 start q hq (.start _)).1
      (production (p.input tokens) ∅ 0 start q hq (.start _)).2 := by
  unfold parse
  split
  · next h => rw [hq] at h; cases h
  · next q' h =>
    cases hq.symm.trans h
    rw [if_neg (by simp [hn])]

/-- **A parse is a run of the start production**, if the grammar has one. -/
theorem exists_run {p : Parser} {start : Text} (hn : Grammar.isToken start = false)
    (hq : p.grammar.has start = true) (tokens : List Token) :
    ∃ r s, Run (p.input tokens) ∅ 0 (.production start) (.start _) (asList r) s
      ∧ p.parse tokens start = conclude (p.input tokens) r s := by
  obtain ⟨q, hq⟩ := Option.isSome_iff_exists.mp hq
  exact ⟨_, _, (run_all (p.input tokens)).2.1 ∅ 0 start q hq _, parse_eq_conclude hn hq tokens⟩

/-- A parse that gets to the tokens has a start production. -/
theorem start_of_parse {p : Parser} {tokens : List Token} {start : Text}
    (h : p.parse tokens start ≠ .error (.noProduction start)) :
    Grammar.isToken start = false ∧ p.grammar.has start = true := by
  unfold parse at h
  split at h
  · exact absurd rfl h
  · next q hq =>
    split at h
    · exact absurd rfl h
    · next hn => exact ⟨by simpa using hn, by simp [Grammar.has, hq]⟩

theorem parse_noProduction {p : Parser} {start : Text}
    (h : ¬ (Grammar.isToken start = false ∧ p.grammar.has start = true)) (tokens : List Token) :
    p.parse tokens start = .error (.noProduction start) :=
  Classical.byContradiction fun hne => h (start_of_parse hne)

/-- Whatever way the start production is run, that is the parse. -/
theorem parse_of_run {p : Parser} {tokens : List Token} {start : Text}
    {r : Option (Match (List Node) (p.input tokens).size 0)} {s : State (p.input tokens).size}
    (hn : Grammar.isToken start = false) (hq : p.grammar.has start = true)
    (h : Run (p.input tokens) ∅ 0 (.production start) (.start _) r s) :
    ∃ r', asList r' = r ∧ p.parse tokens start = conclude (p.input tokens) r' s := by
  obtain ⟨r', s', h', hp⟩ := exists_run hn hq tokens
  obtain ⟨rfl, rfl⟩ := h.unique h'
  exact ⟨r', rfl, hp⟩

/-- A parse succeeds just where the start production matches all tokens. -/
theorem conclude_eq_ok_iff {i : ParseInput} {r : Option (Match Node i.size 0)}
    {s : State i.size} {root : Node} :
    conclude i r s = .ok root ↔ ∃ m, r = some m ∧ m.next = i.size ∧ m.value = root := by
  unfold conclude
  split
  · simp
  · next m =>
    split
    · next hm => simp [hm]
    · next hm => split <;> simp [hm]

/-- A run of the start production over all tokens is a parse. -/
theorem exists_parse_of_run {p : Parser} {tokens : List Token} {start : Text}
    {m : Match (List Node) (p.input tokens).size 0} {s : State (p.input tokens).size}
    (hn : Grammar.isToken start = false) (hq : p.grammar.has start = true)
    (h : Run (p.input tokens) ∅ 0 (.production start) (.start _) (some m) s)
    (hm : m.next = (p.input tokens).size) :
    ∃ root, p.parse tokens start = .ok root ∧ m.value = [root] := by
  obtain ⟨r, hr, hp⟩ := parse_of_run hn hq h
  obtain ⟨k, rfl, rfl⟩ := Option.map_eq_some_iff.mp hr
  exact ⟨k.value, hp.trans (conclude_eq_ok_iff.mpr ⟨k, rfl, hm, rfl⟩), rfl⟩

/-- **A tree that is parsed is the node of the start production** over all tokens. -/
theorem run_of_parse_eq_ok {p : Parser} {tokens : List Token} {start : Text} {root : Node}
    (h : p.parse tokens start = .ok root) :
    Grammar.isToken start = false ∧ p.grammar.has start = true
      ∧ ∃ m s, Run (p.input tokens) ∅ 0 (.production start) (.start _) (some m) s
        ∧ m.next = (p.input tokens).size ∧ m.value = [root] := by
  obtain ⟨hn, hq⟩ := start_of_parse (by rw [h]; simp : p.parse tokens start ≠ _)
  obtain ⟨r, s, hrun, hp⟩ := exists_run hn hq tokens
  obtain ⟨m, rfl, hm, rfl⟩ := conclude_eq_ok_iff.mp (hp.symm.trans h)
  exact ⟨hn, hq, _, s, hrun, hm, rfl⟩

section

variable {p : Parser} {tokens : List Token} {n : Text} {q : Production}

/-- A production that is no choice of names makes nodes. -/
theorem isCategory_input (hq : p.grammar.get? n = some q) (hbody : q.body.choiceOfNames? = none) :
    (p.input tokens).grammar.isCategory n = false := by
  show p.grammar.isCategory n = false
  rw [Grammar.isCategory, Grammar.members?, hq, Option.bind_some, Grammar.membersOf?, hbody,
    ite_self]
  rfl

/-- A name of a production is no terminal. -/
theorem terminal?_input {mark : Mark} (hn : Grammar.isToken n = false)
    (hq : p.grammar.get? n = some q) :
    Expr.terminal? (p.input tokens).grammar (.name mark n) = none :=
  Expr.terminal?_name_eq_none_iff.mpr ⟨hn, Grammar.has_of_get? hq⟩

end

end Parser

/-! ## A sample

A grammar of lists with commas, and two inputs run by the rules: one that it parses
and one that it does not. -/

namespace Sample

open Parse

/-- The mark of what stands in no file. -/
def mark : Mark := ⟨[], 1, 1⟩

/-- The production `list = item { "," item } .`, which makes a node. -/
def list : Production :=
  ⟨utf8 "list", mark, .seq (.name mark (utf8 "item"))
    (.repetition (.seq (.literal (utf8 ",")) (.name mark (utf8 "item"))))⟩

/-- The category `item = Word .`, which gives way to its word. -/
def item : Production := ⟨utf8 "item", mark, .name mark (utf8 "Word")⟩

/-- The token `Word = "x" .` -/
def word : Production := ⟨utf8 "Word", mark, .literal (utf8 "x")⟩

def grammar : Grammar := .ofProductions [list, item, word]

def parser : Parser := ⟨grammar, [utf8 "WhiteSpace"]⟩

/-- A token of one byte. -/
def token (kind text : String) (offset : Nat) : Token :=
  ⟨utf8 kind, utf8 text, ⟨⟨offset, 1, offset + 1⟩, ⟨offset + 1, 1, offset + 2⟩⟩⟩

/-- The tokens of `x, x`. -/
def words : List Token :=
  [token "Word" "x" 0, token "Comma" "," 1, token "WhiteSpace" " " 2, token "Word" "x" 3,
    token "EOF" "" 4]

/-- The tokens of `x,,`. -/
def commas : List Token :=
  [token "Word" "x" 0, token "Comma" "," 1, token "Comma" "," 2, token "EOF" "" 3]

theorem productions_grammar : grammar.productions = [word, item, list] := by
  rw [grammar, Grammar.productions_ofProductions]
  rfl

theorem get?_grammar (n : Text) : grammar.get? n = [list, item, word].find? (·.name = n) :=
  Grammar.get?_ofProductions _ n

theorem has_list : grammar.has (utf8 "list") = true := by
  rw [Grammar.has, get?_grammar]
  rfl

theorem isCategory_item : grammar.isCategory (utf8 "item") = true := by
  rw [Grammar.isCategory, Grammar.members?, get?_grammar]
  rfl

theorem terminal?_item {tokens : List Token} :
    Expr.terminal? (parser.input tokens).grammar (.name mark (utf8 "item")) = none :=
  Parser.terminal?_input (by decide) (get?_grammar _)

theorem run_words : ∃ m s, Run (parser.input words) ∅ 0 (.production (utf8 "list")) (.start _)
    (some m) s ∧ m.next = 3 := by
  refine ⟨_, _, Run.node Std.DHashMap.get?_empty Std.TreeSet.not_mem_emptyc (get?_grammar _)
    (assemble_composite (Parser.isCategory_input (get?_grammar _) rfl) _ _ _)
    (.seq (.name terminal?_item (.node Std.DHashMap.get?_empty ?_ (get?_grammar _)
        (assemble_category (i := parser.input words) isCategory_item _ _ _)
        (.accept rfl (show 0 < 3 by decide) rfl)))
      (.repetition (.manyMore ?_ (.seq (.accept rfl (show 1 < 3 by decide) rfl)
        (.name terminal?_item (.node ?_ ?_ (get?_grammar _)
          (assemble_category (i := parser.input words) isCategory_item _ _ _)
          (.accept rfl (show 2 < 3 by decide) rfl))))
        (.manyLast ?_ (.seqFirst (.reject rfl ?_)))))), ?_⟩
  · decide
  · decide
  · exact (State.get?_keep_of_ne (by decide)).trans Std.DHashMap.get?_empty
  · exact Std.TreeSet.not_mem_emptyc
  · simp
  · intro t ht
    cases ht
  · rfl

theorem exists_parse_words : ∃ root, parser.parse words (utf8 "list") = .ok root := by
  obtain ⟨m, s, h, hm⟩ := run_words
  obtain ⟨root, hok, -⟩ := Parser.exists_parse_of_run (by decide) has_list h hm
  exact ⟨root, hok⟩

/-- After the first comma a word is missing: the list ends before the comma, and the
failure behind it is noted. -/
theorem run_commas : ∃ m s, Run (parser.input commas) ∅ 0 (.production (utf8 "list")) (.start _)
    (some m) s ∧ m.next = 1 ∧ s.furthest = 2 := by
  refine ⟨_, _, Run.node Std.DHashMap.get?_empty Std.TreeSet.not_mem_emptyc (get?_grammar _)
    (assemble_composite (Parser.isCategory_input (get?_grammar _) rfl) _ _ _)
    (.seq (.name terminal?_item (.node Std.DHashMap.get?_empty ?_ (get?_grammar _)
        (assemble_category (i := parser.input commas) isCategory_item _ _ _)
        (.accept rfl (show 0 < 3 by decide) rfl)))
      (.repetition (.manyLast ?_ (.seq (.accept rfl (show 1 < 3 by decide) rfl)
        (.name terminal?_item (.fail ?_ ?_ (get?_grammar _) (.reject rfl ?_))))))), ?_, ?_⟩
  · decide
  · simp
  · exact (State.get?_keep_of_ne (by decide)).trans Std.DHashMap.get?_empty
  · exact Std.TreeSet.not_mem_emptyc
  · rintro t ⟨⟩
    exact (by decide : ¬ (utf8 "Comma" = utf8 "Word" ∨ utf8 "," = utf8 "Word"))
  · rfl
  · rfl

end Sample

end Arbor
