import Arbor.Proofs.Grammar.Nesting
import Arbor.Proofs.Parser.Descent

/-!
# A parse ends

`Parse.expr` ends because it was defined so. A match says in its type that it consumes tokens
that are there, the table only takes such matches, and what is opened is forgotten as soon as
something is consumed. Here is the same recursion without any of this. `Recursion.step` is one
call with the calls that it makes left open: a match is some nodes and a place, the table has
whatever it was given, and the productions that are being followed are remembered with their
places for as long as they are. Nothing says that these calls come to an end, so
`Recursion.expr` gives up if they nest deeper than a bound.

It never has to. A call nests no deeper than its **rank** (`Grammar.rank`), which is read off
the tokens that are left, the productions not being followed at the place and the size of the
expression (`Recursion.exists_endsBy`). The argument needs to know that a match ends at or
behind its start and no further than the last token, also if it comes out of the table, so
this is proved along with it. What the recursion returns is what the parser returns
(`Parser.recursion_eq_parse`).
-/

namespace Arbor

namespace Recursion

open Descent (Found longest)
open Grammar (Visit Tracks)
open Parse (State Match Run Task leaf assemble asList openedAt longer)

/-! ## The recursion -/

/-- What a parse remembers: what productions gave at places, which is a node and the place
where it ends, and a state for the failures and the serial numbers. The table of that state is
not used. -/
structure Memory (size : Nat) where
  /-- What productions gave. -/
  table : Std.HashMap Visit (Option (Node × Nat))
  /-- The failures and the serial numbers. -/
  notes : State size

namespace Memory

variable {size : Nat}

/-- Nothing is remembered. -/
def start (size : Nat) : Memory size := ⟨∅, .start size⟩

/-- Notes a failure. -/
def fail (s : Memory size) (pos : Nat) (x : Option Expectation) : Memory size :=
  { s with notes := s.notes.fail pos x }

/-- Keeps what a production gave, unless it consumed nothing. -/
def keep (s : Memory size) (n : Text) (pos : Nat) (r : Option (Node × Nat)) : Memory size :=
  match r with
  | none => { s with table := s.table.insert (n, pos) none }
  | some m => if pos < m.2 then { s with table := s.table.insert (n, pos) (some m) } else s

end Memory

variable {i : ParseInput}

/-- Matches one token. -/
def terminal (i : ParseInput) (x : Expectation) (pos : Nat) (s : Memory i.size) :
    Option Found × Memory i.size :=
  let (r, notes) := leaf i pos (x.build i.grammar) x s.notes
  (r.map fun m => (m.value, m.next), { s with notes })

/-- A call: the productions being followed, an expression, a place and what is remembered. It
may fail to come back. -/
abbrev Calls (i : ParseInput) :=
  List Visit → Expr → Nat → Memory i.size → Option (Option Found × Memory i.size)

/-- Matches a production, given how expressions are matched. -/
def production (i : ParseInput) (call : Calls i) (visits : List Visit) (n : Text) (p : Production)
    (pos : Nat) (s : Memory i.size) : Option (Option (Node × Nat) × Memory i.size) :=
  match s.table[(n, pos)]? with
  | some r => some (r, s)
  | none =>
    if (n, pos) ∈ visits then some (none, s.fail pos none)
    else do
      match ← call ((n, pos) :: visits) p.body pos s with
      | (none, s) => return (none, s.keep n pos none)
      | (some m, s) =>
        let (node, notes) := assemble i n pos m.1 s.notes
        return (some (node, m.2), Memory.keep ⟨s.table, notes⟩ n pos (some (node, m.2)))

/-- **Matches an expression**, given how the parts of it are matched and what comes behind
them. -/
def step (i : ParseInput) (call : Calls i) : Calls i := fun visits e pos s =>
  match e with
  | .empty => some (some ([], pos), s)
  | .literal v => some (terminal i (.text v) pos s)
  | .range lo hi => some (terminal i (.range lo hi) pos s)
  | .group e => call visits e pos s
  | .option e => do
    let (r, s) ← call visits e pos s
    return (some (r.getD ([], pos)), s)
  | .repetition e => do
    match ← call visits e pos s with
    | (none, s) => return (some ([], pos), s)
    | (some m, s) =>
      if m.2 = pos then return (some ([], pos), s)
      else
        let (r, s) ← call visits (.repetition e) m.2 s
        return (r.map m.append, s)
  | .alt e f => do
    let (a, s) ← call visits e pos s
    let (b, s) ← call visits f pos s
    return (longest a b, s)
  | .seq e f => do
    match ← call visits e pos s with
    | (none, s) => return (none, s)
    | (some m, s) =>
      let (r, s) ← call visits f m.2 s
      return (r.map m.append, s)
  | .name _ n =>
    if Grammar.isToken n then some (terminal i (.kind n) pos s)
    else match i.grammar.get? n with
      | none => some (terminal i (.text n) pos s)
      | some p => do
        let (r, s) ← production i call visits n p pos s
        return (r.map fun m => ([m.1], m.2), s)

/-- **Matches an expression**, or gives up if the calls nest deeper than `depth`. -/
def expr (i : ParseInput) : (depth : Nat) → Calls i
  | 0 => fun _ _ _ _ => none
  | depth + 1 => step i (expr i depth)

/-- Ends a parse: the start production must have consumed all tokens. -/
def conclude (i : ParseInput) (r : Option (Node × Nat)) (s : State i.size) :
    Except ParseError Node :=
  match r with
  | none => .error (.mismatch (Parser.syntaxError i s))
  | some m =>
    if m.2 = i.size then .ok m.1
    else if s.furthest < m.2 then
      .error (.mismatch (Parser.syntaxError i { s with furthest := m.2, expected := ∅ }))
    else .error (.mismatch (Parser.syntaxError i s))

/-- Parses tokens, with calls nested no deeper than `depth`. -/
def parse (p : Parser) (depth : Nat) (tokens : List Token) (start : Text) :
    Option (Except ParseError Node) :=
  match p.grammar.get? start with
  | none => some (.error (.noProduction start))
  | some q =>
    if Grammar.isToken start then some (.error (.noProduction start))
    else do
      let (r, s) ← production (p.input tokens) (expr (p.input tokens) depth) [] start q 0 (.start _)
      return conclude (p.input tokens) r s.notes

/-! ## Calls that come back -/

/-- Whether a call comes back with that outcome, if calls may nest as deep as `depth` or
deeper. -/
def EndsBy (i : ParseInput) (depth : Nat) (visits : List Visit) (e : Expr) (pos : Nat)
    (s : Memory i.size) (out : Option Found × Memory i.size) : Prop :=
  ∀ k ≥ depth, expr i k visits e pos s = some out

/-- The same of a production. -/
def Followed (i : ParseInput) (depth : Nat) (visits : List Visit) (n : Text) (p : Production)
    (pos : Nat) (s : Memory i.size) (out : Option (Node × Nat) × Memory i.size) : Prop :=
  ∀ k ≥ depth, production i (expr i k) visits n p pos s = some out

variable {d d' : Nat} {visits : List Visit} {e f : Expr} {pos : Nat} {s s₁ s₂ : Memory i.size}
  {r : Option Found} {m : Found}

namespace EndsBy

theorem mono {out : Option Found × Memory i.size} (h : EndsBy i d visits e pos s out)
    (hd : d ≤ d') : EndsBy i d' visits e pos s out :=
  fun k hk => h k (Nat.le_trans hd hk)

theorem of_step {out : Option Found × Memory i.size}
    (h : ∀ k ≥ d, step i (expr i k) visits e pos s = some out) :
    EndsBy i (d + 1) visits e pos s out := by
  intro k hk
  obtain ⟨k, rfl⟩ := Nat.exists_eq_succ_of_ne_zero (Nat.ne_zero_of_lt hk)
  exact h k (Nat.le_of_succ_le_succ hk)

theorem empty : EndsBy i (d + 1) visits .empty pos s (some ([], pos), s) :=
  of_step fun _ _ => rfl

theorem terminal {x : Expectation} (hx : e.terminal? i.grammar = some x) :
    EndsBy i (d + 1) visits e pos s (terminal i x pos s) := by
  refine of_step fun k _ => ?_
  rcases Expr.terminal?_eq_some hx with ⟨v, rfl, rfl⟩ | ⟨lo, hi, rfl, rfl⟩ | ⟨mark, n, rfl, hn, rfl⟩
    | ⟨mark, n, rfl, hn, hp, rfl⟩
  · rfl
  · rfl
  · exact if_pos hn
  · show (if Grammar.isToken n then _ else _) = _
    rw [if_neg (by simp [hn]), hp]

theorem group {out : Option Found × Memory i.size} (h : EndsBy i d visits e pos s out) :
    EndsBy i (d + 1) visits (.group e) pos s out :=
  of_step h

theorem option (h : EndsBy i d visits e pos s (r, s₁)) :
    EndsBy i (d + 1) visits (.option e) pos s (some (r.getD ([], pos)), s₁) := by
  refine of_step fun k hk => ?_
  show (expr i k visits e pos s).bind _ = _
  rw [h k hk]
  rfl

theorem alt {a b : Option Found} (ha : EndsBy i d visits e pos s (a, s₁))
    (hb : EndsBy i d visits f pos s₁ (b, s₂)) :
    EndsBy i (d + 1) visits (.alt e f) pos s (longest a b, s₂) := by
  refine of_step fun k hk => ?_
  show (expr i k visits e pos s).bind _ = _
  rw [ha k hk]
  show (expr i k visits f pos s₁).bind _ = _
  rw [hb k hk]
  rfl

theorem seqFirst (h : EndsBy i d visits e pos s (none, s₁)) :
    EndsBy i (d + 1) visits (.seq e f) pos s (none, s₁) := by
  refine of_step fun k hk => ?_
  show (expr i k visits e pos s).bind _ = _
  rw [h k hk]
  rfl

theorem seq (h : EndsBy i d visits e pos s (some m, s₁))
    (hr : EndsBy i d visits f m.2 s₁ (r, s₂)) :
    EndsBy i (d + 1) visits (.seq e f) pos s (r.map m.append, s₂) := by
  refine of_step fun k hk => ?_
  show (expr i k visits e pos s).bind _ = _
  rw [h k hk]
  show (expr i k visits f m.2 s₁).bind _ = _
  rw [hr k hk]
  rfl

theorem repetitionLast (h : EndsBy i d visits e pos s (r, s₁)) (hr : ∀ m, r = some m → m.2 = pos) :
    EndsBy i (d + 1) visits (.repetition e) pos s (some ([], pos), s₁) := by
  refine of_step fun k hk => ?_
  show (expr i k visits e pos s).bind _ = _
  rw [h k hk]
  cases r with
  | none => rfl
  | some m =>
    show (if m.2 = pos then _ else _) = _
    rw [if_pos (hr m rfl)]
    rfl

theorem repetitionMore (h : EndsBy i d visits e pos s (some m, s₁)) (hm : m.2 ≠ pos)
    (hr : EndsBy i d visits (.repetition e) m.2 s₁ (r, s₂)) :
    EndsBy i (d + 1) visits (.repetition e) pos s (r.map m.append, s₂) := by
  refine of_step fun k hk => ?_
  show (expr i k visits e pos s).bind _ = _
  rw [h k hk]
  show (if m.2 = pos then _ else (expr i k visits (.repetition e) m.2 s₁).bind _) = _
  rw [if_neg hm, hr k hk]
  rfl

theorem name {mark : Mark} {n : Text} {p : Production} {made : Option (Node × Nat)}
    (hn : Grammar.isToken n = false) (hp : i.grammar.get? n = some p)
    (h : Followed i d visits n p pos s (made, s₁)) :
    EndsBy i (d + 1) visits (.name mark n) pos s (made.map fun m => ([m.1], m.2), s₁) := by
  refine of_step fun k hk => ?_
  show (if Grammar.isToken n then _ else _) = _
  rw [if_neg (by simp [hn]), hp]
  show (production i (expr i k) visits n p pos s).bind _ = _
  rw [h k hk]
  rfl

end EndsBy

namespace Followed

variable {n : Text} {p : Production}

theorem hit {made : Option (Node × Nat)} (ht : s.table[(n, pos)]? = some made) :
    Followed i d visits n p pos s (made, s) := by
  intro k _
  rw [production, ht]

theorem guard (ht : s.table[(n, pos)]? = none) (hv : (n, pos) ∈ visits) :
    Followed i d visits n p pos s (none, s.fail pos none) := by
  intro k _
  rw [production, ht]
  exact if_pos hv

theorem fail (ht : s.table[(n, pos)]? = none) (hv : (n, pos) ∉ visits)
    (h : EndsBy i d ((n, pos) :: visits) p.body pos s (none, s₁)) :
    Followed i d visits n p pos s (none, s₁.keep n pos none) := by
  intro k hk
  rw [production, ht]
  show (if _ then _ else (expr i k ((n, pos) :: visits) p.body pos s).bind _) = _
  rw [if_neg hv, h k hk]
  rfl

theorem node {made : Node} {notes : State i.size} (ht : s.table[(n, pos)]? = none)
    (hv : (n, pos) ∉ visits) (h : EndsBy i d ((n, pos) :: visits) p.body pos s (some m, s₁))
    (ha : assemble i n pos m.1 s₁.notes = (made, notes)) :
    Followed i d visits n p pos s
      (some (made, m.2), Memory.keep ⟨s₁.table, notes⟩ n pos (some (made, m.2))) := by
  intro k hk
  rw [production, ht]
  show (if _ then _ else (expr i k ((n, pos) :: visits) p.body pos s).bind _) = _
  rw [if_neg hv, h k hk]
  show some (some ((assemble i n pos m.1 s₁.notes).1, m.2),
    Memory.keep ⟨s₁.table, (assemble i n pos m.1 s₁.notes).2⟩ n pos
      (some ((assemble i n pos m.1 s₁.notes).1, m.2))) = _
  rw [ha]

end Followed

/-! ## Every call comes back -/

/-- Whether a place is at or behind another, and no further than the last token. -/
def Between (size pos next : Nat) : Prop := pos ≤ next ∧ next ≤ size

/-- Whether what is remembered of productions ends where it can. -/
def Memory.Within {size : Nat} (s : Memory size) : Prop :=
  ∀ (n : Text) (pos : Nat) (m : Node × Nat), s.table[(n, pos)]? = some (some m) →
    Between size pos m.2

namespace Memory

variable {size : Nat} {s : Memory size}

theorem within_start : (start size).Within := by
  intro n pos m h
  rw [start, Std.HashMap.getElem?_empty] at h
  cases h

theorem Within.keep (h : s.Within) {n : Text} {pos : Nat} {r : Option (Node × Nat)}
    (hr : ∀ m, r = some m → Between size pos m.2) : (s.keep n pos r).Within := by
  have hinsert : Within { s with table := s.table.insert (n, pos) r } := by
    intro n' pos' m hm
    rw [Std.HashMap.getElem?_insert] at hm
    split at hm
    · next heq =>
      obtain ⟨rfl, rfl⟩ := Prod.mk.inj (eq_of_beq heq)
      exact hr m (Option.some.inj hm)
    · exact h n' pos' m hm
  cases r with
  | none => exact hinsert
  | some m =>
    unfold Memory.keep
    dsimp only
    split
    · exact hinsert
    · exact h

end Memory

/-- **Whether a call comes back** at every depth from `d` on, with one outcome: a match that
ends where it can, or a failure, and a memory that is as good as before. -/
def Returns (i : ParseInput) (d : Nat) (visits : List Visit) (e : Expr) (pos : Nat)
    (s : Memory i.size) : Prop :=
  ∃ r s', EndsBy i d visits e pos s (r, s') ∧ s'.Within
    ∧ ∀ m, r = some m → Between i.size pos m.2

theorem within_terminal (x : Expectation) (pos : Nat) (hs : s.Within) :
    (terminal i x pos s).2.Within
      ∧ ∀ m, (terminal i x pos s).1 = some m → Between i.size pos m.2 := by
  refine ⟨hs, fun m hm => ?_⟩
  obtain ⟨k, hk, rfl⟩ := Option.map_eq_some_iff.mp
    (show (leaf i pos (x.build i.grammar) x s.notes).1.map _ = some m from hm)
  unfold leaf at hk
  split at hk
  · next hpos =>
    split at hk
    · cases hk
      exact ⟨Nat.le_succ _, hpos⟩
    · cases hk
  · cases hk

theorem between_longest {a b : Option Found}
    (ha : ∀ m, a = some m → Between i.size pos m.2)
    (hb : ∀ m, b = some m → Between i.size pos m.2) :
    ∀ m, longest a b = some m → Between i.size pos m.2 := by
  intro m hm
  match a, b with
  | none, b => exact hb m hm
  | some x, none => exact ha m hm
  | some x, some y =>
    replace hm : (if x.2 < y.2 then some y else some x) = some m := hm
    split at hm
    · exact hb m hm
    · exact ha m hm

/-- A production comes back if its body does where it is entered. -/
theorem exists_followed {n : Text} {p : Production} (hs : s.Within)
    (hbody : (n, pos) ∉ visits → Returns i d ((n, pos) :: visits) p.body pos s) :
    ∃ made s', Followed i d visits n p pos s (made, s') ∧ s'.Within
      ∧ ∀ m, made = some m → Between i.size pos m.2 := by
  cases ht : s.table[(n, pos)]? with
  | some made =>
    refine ⟨made, s, .hit ht, hs, ?_⟩
    rintro m rfl
    exact hs n pos m ht
  | none =>
    by_cases hv : (n, pos) ∈ visits
    · exact ⟨none, _, .guard ht hv, hs, fun m hm => absurd hm (by simp)⟩
    · obtain ⟨r, s', h, hs', hm⟩ := hbody hv
      cases r with
      | none =>
        exact ⟨none, _, .fail ht hv h, hs'.keep fun m hm => absurd hm (by simp),
          fun m hm => absurd hm (by simp)⟩
      | some m =>
        obtain ⟨made, notes, ha⟩ : ∃ made notes,
            assemble i n pos m.1 s'.notes = (made, notes) := ⟨_, _, rfl⟩
        refine ⟨_, _, .node ht hv h ha, ?_, ?_⟩
        · refine Memory.Within.keep (s := ⟨s'.table, notes⟩) hs' ?_
          rintro k ⟨⟩
          exact hm m rfl
        · rintro k ⟨⟩
          exact hm m rfl

/-- **A call nests no deeper than its rank**, and its match ends where it can. -/
theorem exists_endsBy {width : Nat} (hwidth : i.grammar.widest ≤ width)
    (hrank : i.grammar.rank width (i.size - pos) (i.grammar.unfollowed visits pos) e.size ≤ d)
    (he : e.size ≤ width) (hpos : pos ≤ i.size) (hs : s.Within) :
    Returns i d visits e pos s := by
  -- the rank is more than the ranks of all the calls that are made
  induction d generalizing visits e pos s with
  | zero => exact absurd (Nat.le_trans Grammar.size_le_rank hrank) (Nat.not_le.mpr e.size_pos)
  | succ d ih =>
    have part {f : Expr} {s : Memory i.size} (hf : f.size < e.size) (hs : s.Within) :
        Returns i d visits f pos s :=
      ih (Nat.le_of_lt_succ (Nat.lt_of_lt_of_le (Grammar.rank_part hf) hrank))
        (Nat.le_trans (Nat.le_of_lt hf) he) hpos hs
    have behind {f : Expr} {next : Nat} {s : Memory i.size} (hnext : Between i.size pos next)
        (hne : next ≠ pos) (hf : f.size ≤ e.size) (hs : s.Within) :
        Returns i d visits f next s := by
      have hle := hnext.1
      have hsize := hnext.2
      have hlt : i.size - next < i.size - pos := by omega
      exact ih (Nat.le_of_lt_succ (Nat.lt_of_lt_of_le
        (Grammar.rank_behind hlt (Grammar.unvisited_le _ _) (Nat.le_trans hf he)) hrank))
        (Nat.le_trans hf he) hsize hs
    cases hx : e.terminal? i.grammar with
    | some x =>
      obtain ⟨hs', hm⟩ := within_terminal x pos hs
      exact ⟨_, _, .terminal hx, hs', hm⟩
    | none =>
      cases e with
      | literal | range => cases hx
      | empty =>
        refine ⟨_, _, .empty, hs, ?_⟩
        rintro m ⟨⟩
        exact ⟨Nat.le_refl _, hpos⟩
      | group f =>
        obtain ⟨r, s', h, hs', hm⟩ := part (f := f) (by simp only [Expr.size]; omega) hs
        exact ⟨r, s', h.group, hs', hm⟩
      | option f =>
        obtain ⟨r, s', h, hs', hm⟩ := part (f := f) (by simp only [Expr.size]; omega) hs
        refine ⟨_, s', h.option, hs', ?_⟩
        rintro m ⟨⟩
        cases r with
        | none => exact ⟨Nat.le_refl _, hpos⟩
        | some m => exact hm m rfl
      | alt f f' =>
        obtain ⟨a, s₁, h₁, hs₁, hm₁⟩ := part (f := f) (by simp only [Expr.size]; omega) hs
        obtain ⟨b, s₂, h₂, hs₂, hm₂⟩ := part (f := f') (by simp only [Expr.size]; omega) hs₁
        exact ⟨_, s₂, h₁.alt h₂, hs₂, between_longest hm₁ hm₂⟩
      | seq f f' =>
        obtain ⟨r, s₁, h₁, hs₁, hm₁⟩ := part (f := f) (by simp only [Expr.size]; omega) hs
        cases r with
        | none => exact ⟨none, s₁, h₁.seqFirst, hs₁, fun m hm => absurd hm (by simp)⟩
        | some m =>
          have hm := hm₁ m rfl
          have hrest : Returns i d visits f' m.2 s₁ := by
            by_cases hne : m.2 = pos
            · rw [hne]
              exact part (by simp only [Expr.size]; omega) hs₁
            · exact behind hm hne (by simp only [Expr.size]; omega) hs₁
          obtain ⟨r, s₂, h₂, hs₂, hm₂⟩ := hrest
          refine ⟨_, s₂, h₁.seq h₂, hs₂, fun k hk => ?_⟩
          obtain ⟨k, rfl, rfl⟩ := Option.map_eq_some_iff.mp hk
          exact ⟨Nat.le_trans hm.1 (hm₂ k rfl).1, (hm₂ k rfl).2⟩
      | repetition f =>
        obtain ⟨r, s₁, h₁, hs₁, hm₁⟩ := part (f := f) (by simp only [Expr.size]; omega) hs
        by_cases hlast : ∀ m, r = some m → m.2 = pos
        · refine ⟨_, s₁, h₁.repetitionLast hlast, hs₁, ?_⟩
          rintro m ⟨⟩
          exact ⟨Nat.le_refl _, hpos⟩
        · obtain ⟨m, rfl, hne⟩ : ∃ m, r = some m ∧ m.2 ≠ pos := by simpa using hlast
          have hm := hm₁ m rfl
          obtain ⟨r, s₂, h₂, hs₂, hm₂⟩ := behind hm hne (Nat.le_refl _) hs₁
          refine ⟨_, s₂, h₁.repetitionMore hne h₂, hs₂, fun k hk => ?_⟩
          obtain ⟨k, rfl, rfl⟩ := Option.map_eq_some_iff.mp hk
          exact ⟨Nat.le_trans hm.1 (hm₂ k rfl).1, (hm₂ k rfl).2⟩
      | name mark n =>
        obtain ⟨hn, hp⟩ := Expr.terminal?_name_eq_none_iff.mp hx
        obtain ⟨p, hp⟩ := Option.isSome_iff_exists.mp hp
        have hbody (hv : (n, pos) ∉ visits) : Returns i d ((n, pos) :: visits) p.body pos s :=
          ih (Nat.le_of_lt_succ (Nat.lt_of_lt_of_le
            (Grammar.rank_body (Grammar.unfollowed_cons_lt hp hv)
              (Nat.le_trans (Grammar.size_le_widest hp) hwidth)) hrank))
            (Nat.le_trans (Grammar.size_le_widest hp) hwidth) hpos hs
        obtain ⟨made, s', h, hs', hm⟩ := exists_followed hs hbody
        refine ⟨_, s', .name hn hp h, hs', fun m hmap => ?_⟩
        obtain ⟨k, rfl, rfl⟩ := Option.map_eq_some_iff.mp hmap
        exact hm k rfl

/-! ## The parser is this recursion -/

/-- A match without what its type says of it. -/
def plain {size : Nat} (r : Option (Match (List Node) size pos)) : Option Found :=
  r.map fun m => (m.value, m.next)

theorem plain_map_append {size : Nat} {m : Match (List Node) size pos}
    (r : Option (Match (List Node) size m.next)) :
    plain (r.map m.append) = (plain r).map (Found.append (m.value, m.next)) := by
  cases r <;> rfl

theorem plain_longer {size : Nat} (a b : Option (Match (List Node) size pos)) :
    plain (longer a b) = longest (plain a) (plain b) := by
  match a, b with
  | none, b => rfl
  | some m, none => rfl
  | some m, some k =>
    unfold longer
    show plain (if m.next < k.next then some k else some m)
      = if m.next < k.next then plain (some k) else plain (some m)
    split <;> rfl

/-- What stands behind a match is followed with what is opened there. -/
theorem tracks_openedAt {opened : Grammar.Opened} {next : Nat}
    (h : Tracks visits pos opened) (hle : pos ≤ next) :
    Tracks visits next (openedAt opened pos next) := by
  unfold openedAt
  split
  · next heq => exact heq ▸ h
  · next hne => exact h.behind (Nat.lt_of_le_of_ne hle (Ne.symm hne))

/-- **Whether a memory is that of a state.** -/
structure Memory.Mirrors {size : Nat} (s : Memory size) (t : State size) : Prop where
  /-- The failures and the serial numbers are the same. -/
  notes : s.notes = { t with table := ∅ }
  /-- The tables have the same nodes, which end at the same places. -/
  table : ∀ n pos, s.table[(n, pos)]? = (t.table.get? (n, pos)).map
    fun r => r.map fun m => (m.value, m.next)

namespace Memory.Mirrors

variable {size : Nat} {s : Memory size} {t : State size}

theorem start : (Memory.start size).Mirrors (.start size) where
  notes := rfl
  table n pos := by
    show (∅ : Std.HashMap Visit (Option (Node × Nat)))[(n, pos)]? = _
    rw [Std.HashMap.getElem?_empty, State.start, Std.DHashMap.get?_empty]
    rfl

theorem serial (h : s.Mirrors t) : s.notes.serial = t.serial := by
  rw [h.notes]

theorem fail (h : s.Mirrors t) (pos : Nat) (x : Option Expectation) :
    (s.fail pos x).Mirrors (t.fail pos x) where
  notes := by
    show s.notes.fail pos x = _
    rw [h.notes]
    unfold State.fail
    cases x <;> grind
  table n pos' := by
    rw [State.table_fail]
    exact h.table n pos'

theorem fresh (h : s.Mirrors t) : Mirrors ⟨s.table, s.notes.fresh.2⟩ t.fresh.2 where
  notes := by
    show s.notes.fresh.2 = _
    rw [h.notes]
    rfl
  table := h.table

/-- Both make the same node. -/
theorem assemble {i : ParseInput} {s : Memory i.size} {t t' : State i.size} (h : s.Mirrors t)
    {n : Text} {pos : Nat} {nodes : List Node} {node : Node}
    (ha : assemble i n pos nodes t = (node, t')) :
    ∃ notes, Parse.assemble i n pos nodes s.notes = (node, notes)
      ∧ Mirrors ⟨s.table, notes⟩ t' := by
  unfold Parse.assemble at ha ⊢
  split at ha
  · obtain ⟨rfl, rfl⟩ := Prod.mk.inj ha
    exact ⟨_, rfl, h⟩
  · obtain ⟨rfl, rfl⟩ := Prod.mk.inj ha
    refine ⟨s.notes.fresh.2, ?_, h.fresh⟩
    show (Node.composite s.notes.serial _ _ _, s.notes.fresh.2) = _
    rw [h.serial]

theorem insert (h : s.Mirrors t) {n : Text} {pos : Nat} (r : Option (Match Node size pos)) :
    Mirrors ⟨s.table.insert (n, pos) (r.map fun m => (m.value, m.next)), s.notes⟩
      { t with table := t.table.insert (n, pos) r } where
  notes := h.notes
  table n' pos' := by
    rw [Std.HashMap.getElem?_insert, Std.DHashMap.get?_insert]
    split
    · next heq =>
      obtain ⟨rfl, rfl⟩ := Prod.mk.inj (eq_of_beq heq)
      rfl
    · exact h.table n' pos'

theorem keep (h : s.Mirrors t) (n : Text) {pos : Nat} (r : Option (Match Node size pos)) :
    (s.keep n pos (r.map fun m => (m.value, m.next))).Mirrors (t.keep n pos r) := by
  cases r with
  | none => exact h.insert none
  | some m =>
    show Mirrors (if pos < m.next then _ else _) (if pos < m.next then _ else _)
    split
    · exact h.insert (some m)
    · exact h

end Memory.Mirrors

theorem terminal_of_build {t : State i.size} {x : Expectation} {build : Nat → Node}
    (h : s.Mirrors t) (hpos : pos < i.size)
    (hb : x.build i.grammar i.tokens[pos] = some build) :
    terminal i x pos s = (some ([build t.serial], pos + 1), ⟨s.table, s.notes.fresh.2⟩) := by
  unfold terminal
  rw [Parse.leaf_of_build hpos hb, h.serial]
  rfl

theorem terminal_of_reject {x : Expectation}
    (ht : ∀ t, i.tokens[pos]? = some t → ¬ x.Accepts t) :
    terminal i x pos s = (none, s.fail pos (some x)) := by
  have hleaf : leaf i pos (x.build i.grammar) x s.notes = (none, s.notes.fail pos (some x)) := by
    unfold leaf
    split
    · next hpos =>
      rw [Expectation.build_eq_none_iff.mpr (ht _ (Array.getElem?_eq_getElem hpos))]
    · rfl
  unfold terminal
  rw [hleaf]
  rfl

/-- Whether a task comes back with that outcome. -/
def TaskEnds (i : ParseInput) (visits : List Visit) (pos : Nat) (s : Memory i.size)
    (out : Option Found × Memory i.size) : Task → Prop
  | .expr e => ∃ d, EndsBy i d visits e pos s out
  | .production n => ∀ p, i.grammar.get? n = some p → ∃ d made,
      Followed i d visits n p pos s (made, out.2) ∧ out.1 = made.map fun m => ([m.1], m.2)
  | .many e => ∃ d, EndsBy i d visits (.repetition e) pos s out

/-- **The parser does what the recursion does.** -/
theorem exists_taskEnds {opened : Grammar.Opened} {task : Task} {t t' : State i.size}
    {r : Option (Match (List Node) i.size pos)} (h : Run i opened pos task t r t')
    (hv : Tracks visits pos opened) (hs : s.Mirrors t) :
    ∃ s', s'.Mirrors t' ∧ TaskEnds i visits pos s (plain r, s') task := by
  induction h generalizing visits s with
  | empty => exact ⟨s, hs, 1, EndsBy.empty⟩
  | @accept _ pos t _ x build hx hpos hb =>
    refine ⟨_, hs.fresh, 1, ?_⟩
    have hout := terminal_of_build hs hpos hb
    exact hout ▸ EndsBy.terminal hx
  | @reject _ pos t _ x hx ht =>
    refine ⟨_, hs.fail pos (some x), 1, ?_⟩
    exact terminal_of_reject ht ▸ EndsBy.terminal hx
  | group _ ih =>
    obtain ⟨s', hs', d, h⟩ := ih hv hs
    exact ⟨s', hs', d + 1, h.group⟩
  | @option _ _ _ _ r _ _ ih =>
    obtain ⟨s', hs', d, h⟩ := ih hv hs
    refine ⟨s', hs', d + 1, ?_⟩
    cases r with
    | none => exact h.option
    | some m => exact h.option
  | repetition _ ih => exact ih hv hs
  | alt _ _ ih₁ ih₂ =>
    obtain ⟨s₁, hs₁, d₁, h₁⟩ := ih₁ hv hs
    obtain ⟨s₂, hs₂, d₂, h₂⟩ := ih₂ hv hs₁
    refine ⟨s₂, hs₂, max d₁ d₂ + 1, ?_⟩
    rw [plain_longer]
    exact (h₁.mono (Nat.le_max_left _ _)).alt (h₂.mono (Nat.le_max_right _ _))
  | seqFirst _ ih =>
    obtain ⟨s', hs', d, h⟩ := ih hv hs
    exact ⟨s', hs', d + 1, h.seqFirst⟩
  | @seq _ _ _ _ _ m _ _ _ _ _ ih₁ ih₂ =>
    obtain ⟨s₁, hs₁, d₁, h₁⟩ := ih₁ hv hs
    obtain ⟨s₂, hs₂, d₂, h₂⟩ := ih₂ (tracks_openedAt hv m.le) hs₁
    refine ⟨s₂, hs₂, max d₁ d₂ + 1, ?_⟩
    rw [plain_map_append]
    exact (h₁.mono (Nat.le_max_left _ _)).seq (h₂.mono (Nat.le_max_right _ _))
  | name hn _ ih =>
    obtain ⟨hn, hp⟩ := Expr.terminal?_name_eq_none_iff.mp hn
    obtain ⟨p, hp⟩ := Option.isSome_iff_exists.mp hp
    obtain ⟨s', hs', h⟩ := ih hv hs
    obtain ⟨d, made, hmade, hr⟩ := h p hp
    refine ⟨s', hs', d + 1, ?_⟩
    rw [show plain _ = _ from hr]
    exact .name hn hp hmade
  | @hit _ pos t n r ht =>
    refine ⟨s, hs, fun p _ => ⟨0, r.map fun m => (m.value, m.next), .hit ?_, ?_⟩⟩
    · rw [hs.table, ht]
      rfl
    · cases r <;> rfl
  | @guard _ pos t n ht ho =>
    refine ⟨_, hs.fail pos none, fun p _ => ⟨0, none, .guard ?_ ((hv.here n).mpr ho), rfl⟩⟩
    rw [hs.table, ht]
    rfl
  | @fail _ pos t n p t' ht ho hp _ ih =>
    obtain ⟨s', hs', d, h⟩ := ih (hv.insert n) hs
    refine ⟨_, hs'.keep n none, fun q hq => ⟨d, none, ?_, rfl⟩⟩
    obtain rfl := Option.some.inj (hp.symm.trans hq)
    refine .fail ?_ (fun hmem => ho ((hv.here n).mp hmem)) h
    rw [hs.table, ht]
    rfl
  | @node _ pos t n p m t' node t'' ht ho hp ha _ ih =>
    obtain ⟨s', hs', d, h⟩ := ih (hv.insert n) hs
    obtain ⟨notes, hnotes, hs''⟩ := hs'.assemble ha
    refine ⟨_, hs''.keep n (some (m.map fun _ => node)),
      fun q hq => ⟨d, some (node, m.next), ?_, rfl⟩⟩
    obtain rfl := Option.some.inj (hp.symm.trans hq)
    refine .node ?_ (fun hmem => ho ((hv.here n).mp hmem)) h hnotes
    rw [hs.table, ht]
    rfl
  | @manyLast _ _ _ _ r _ hm _ ih =>
    obtain ⟨s', hs', d, h⟩ := ih hv hs
    refine ⟨s', hs', d + 1, h.repetitionLast fun k hk => ?_⟩
    obtain ⟨m, rfl, rfl⟩ := Option.map_eq_some_iff.mp hk
    exact hm m rfl
  | @manyMore _ pos _ _ m _ k _ hm _ _ ih₁ ih₂ =>
    obtain ⟨s₁, hs₁, d₁, h₁⟩ := ih₁ hv hs
    obtain ⟨s₂, hs₂, d₂, h₂⟩ := ih₂ (hv.behind (Nat.lt_of_le_of_ne m.le (Ne.symm hm))) hs₁
    refine ⟨s₂, hs₂, max d₁ d₂ + 1, ?_⟩
    show EndsBy i _ _ _ _ _ (plain ((some k).map m.append), s₂)
    rw [plain_map_append]
    exact (h₁.mono (Nat.le_max_left _ _)).repetitionMore hm (h₂.mono (Nat.le_max_right _ _))

/-! ## The same outcome -/

theorem Followed.unique {n : Text} {p : Production} {out out' : Option (Node × Nat) × Memory i.size}
    (h : Followed i d visits n p pos s out) (h' : Followed i d' visits n p pos s out') :
    out = out' := by
  have ho := h (max d d') (Nat.le_max_left _ _)
  have ho' := h' (max d d') (Nat.le_max_right _ _)
  exact Option.some.inj (ho.symm.trans ho')

theorem conclude_eq {t : State i.size} {made : Option (Node × Nat)}
    {r : Option (Match Node i.size 0)} (hs : s.Mirrors t)
    (hr : plain (asList r) = made.map fun m => ([m.1], m.2)) :
    conclude i made s.notes = Parser.conclude i r t := by
  rw [hs.notes]
  cases r with
  | none =>
    obtain rfl := Option.map_eq_none_iff.mp hr.symm
    rfl
  | some m =>
    obtain ⟨⟨node, next⟩, rfl, hk⟩ := Option.map_eq_some_iff.mp hr.symm
    obtain ⟨hnode, rfl⟩ := Prod.mk.inj (show ([node], next) = ([m.value], m.next) from hk)
    obtain rfl := (List.cons.inj hnode).1
    rfl

/-- The start production comes back with what the parser gives. -/
theorem parse_eq {p : Parser} {start : Text} (hn : Grammar.isToken start = false)
    (hq : p.grammar.has start = true) (tokens : List Token) {depth : Nat}
    (hdepth : ((p.input tokens).size + 1) * (p.grammar.names.length + 1) * (p.grammar.widest + 1)
      ≤ depth) :
    parse p depth tokens start = some (p.parse tokens start) := by
  obtain ⟨r, t, hrun, hp⟩ := Parser.exists_run hn hq tokens
  obtain ⟨q, hq⟩ := Option.isSome_iff_exists.mp hq
  -- it comes back early enough
  have hsize : q.body.size ≤ p.grammar.widest := Grammar.size_le_widest hq
  have hbody : Returns (p.input tokens) depth [(start, 0)] q.body 0 (.start _) :=
    exists_endsBy (Nat.le_refl p.grammar.widest)
      (Nat.le_trans (Grammar.rank_le (Nat.le_refl _) (Grammar.unvisited_le _ _) hsize) hdepth)
      hsize (Nat.zero_le _) Memory.within_start
  obtain ⟨made, s, hmade, -⟩ := exists_followed Memory.within_start fun _ => hbody
  -- and what it comes back with is the parser's
  obtain ⟨s', hs', h⟩ := exists_taskEnds hrun .nil .start
  obtain ⟨d, made', hmade', hr⟩ := h q hq
  obtain ⟨rfl, rfl⟩ := Prod.mk.inj (hmade.unique hmade')
  rw [parse, hq]
  show (if Grammar.isToken start then _ else
    (production (p.input tokens) (expr (p.input tokens) depth) [] start q 0 (.start _)).bind _) = _
  rw [if_neg (by simp [hn]), hmade depth (Nat.le_refl _), hp, ← conclude_eq hs' hr]
  rfl

theorem parse_noProduction {p : Parser} {start : Text} (tokens : List Token) (depth : Nat)
    (h : ¬ (Grammar.isToken start = false ∧ p.grammar.has start = true)) :
    parse p depth tokens start = some (.error (.noProduction start)) := by
  unfold parse
  split
  · rfl
  · next q hq =>
    have hn : Grammar.isToken start = true := by
      by_contra hn
      exact h ⟨by simpa using hn, Grammar.has_of_get? hq⟩
    rw [if_pos hn]

end Recursion

/-- **A parse ends.** The recursion without its measure returns what the parser returns, if its
calls may nest as deep as the tokens, the productions and the largest body allow. Every call of
it, whatever is being followed, comes back at every depth from its rank on, and a match
ends at or behind the place of the call and no further than the last token. -/
theorem Parser.recursion_eq_parse (p : Parser) (tokens : List Token) (start : Text) :
    (∀ depth ≥ ((p.input tokens).size + 1) * (p.grammar.names.length + 1) * (p.grammar.widest + 1),
      Recursion.parse p depth tokens start = some (p.parse tokens start))
      ∧ ∀ visits e pos (s : Recursion.Memory (p.input tokens).size),
        pos ≤ (p.input tokens).size → s.Within →
        ∃ r s', (∀ depth ≥ p.grammar.rank (max p.grammar.widest e.size)
            ((p.input tokens).size - pos) (p.grammar.unfollowed visits pos) e.size,
            Recursion.expr (p.input tokens) depth visits e pos s = some (r, s'))
          ∧ s'.Within ∧ ∀ m, r = some m → pos ≤ m.2 ∧ m.2 ≤ (p.input tokens).size := by
  refine ⟨fun depth hdepth => ?_, fun visits e pos s hpos hs => ?_⟩
  · by_cases h : Grammar.isToken start = false ∧ p.grammar.has start = true
    · exact Recursion.parse_eq h.1 h.2 tokens hdepth
    · rw [parse_noProduction h, Recursion.parse_noProduction tokens depth h]
  · exact Recursion.exists_endsBy (Nat.le_max_left _ _) (Nat.le_refl _) (Nat.le_max_right _ _)
      hpos hs

/-! ## A sample

A grammar in which every production leads back to itself without a token. -/

namespace Sample

/-- The production `sum = [ term ] sum "x" | { [ "," ] } .`, which is left recursive behind an
option and has a repetition of what can match nothing. -/
def sum : Production :=
  ⟨utf8 "sum", mark, .alt (.seq (.option (.name mark (utf8 "term")))
    (.seq (.name mark (utf8 "sum")) (.literal (utf8 "x"))))
    (.repetition (.option (.literal (utf8 ","))))⟩

/-- The category `term = sum | factor .` -/
def term : Production :=
  ⟨utf8 "term", mark, .alt (.name mark (utf8 "sum")) (.name mark (utf8 "factor"))⟩

/-- The category `factor = term .` -/
def factor : Production := ⟨utf8 "factor", mark, .name mark (utf8 "term")⟩

def loops : Grammar := .ofProductions [sum, term, factor]

theorem productions_loops : loops.productions = [factor, sum, term] := by
  rw [loops, Grammar.productions_ofProductions]
  rfl

theorem leftRecursive_loops : loops.LeftRecursive := by
  have hsum : loops.get? (utf8 "sum") = some sum := Grammar.get?_ofProductions _ _
  refine ⟨utf8 "sum", .single ⟨sum, hsum, .altLeft (.seqRight .option (.seqLeft (.name ?_ ?_)))⟩⟩
  · decide
  · exact Grammar.has_of_get? hsum

theorem length_names_loops : loops.names.length = 3 := by
  rw [Grammar.names, productions_loops]
  rfl

theorem widest_loops : loops.widest = 10 := by
  rw [Grammar.widest, productions_loops]
  rfl

end Sample

theorem Parser.recursion_eq_parse_loops :
    Sample.loops.LeftRecursive
      ∧ Recursion.parse ⟨Sample.loops, []⟩ 200 (Sample.commas.drop 1) (utf8 "sum")
        = some (parse ⟨Sample.loops, []⟩ (Sample.commas.drop 1) (utf8 "sum"))
      ∧ ∃ r s', Recursion.expr (input ⟨Sample.loops, []⟩ (Sample.commas.drop 1)) 200
          [(utf8 "term", 0)] Sample.sum.body 0 (.start _) = some (r, s')
        ∧ ∀ m, r = some m → m.2 ≤ 2 := by
  obtain ⟨hparse, hcall⟩ := recursion_eq_parse ⟨Sample.loops, []⟩ (Sample.commas.drop 1)
    (utf8 "sum")
  refine ⟨Sample.leftRecursive_loops, hparse 200 ?_, ?_⟩
  · show 3 * (Sample.loops.names.length + 1) * (Sample.loops.widest + 1) ≤ 200
    rw [Sample.length_names_loops, Sample.widest_loops]
    decide
  · obtain ⟨r, s', hr, -, hm⟩ := hcall [(utf8 "term", 0)] Sample.sum.body 0 (.start _)
      (Nat.zero_le _) Recursion.Memory.within_start
    refine ⟨r, s', hr 200 ?_, fun m h => (hm m h).2⟩
    refine Nat.le_trans (Grammar.rank_le (Nat.le_refl _) (Grammar.unvisited_le _ _)
      (Nat.le_max_right _ _)) ?_
    show 3 * (Sample.loops.names.length + 1) * (max Sample.loops.widest Sample.sum.body.size + 1)
      ≤ 200
    rw [Sample.length_names_loops, Sample.widest_loops]
    decide

end Arbor
