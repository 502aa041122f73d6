import Arbor.Proofs.Token.Language
import Mathlib.Logic.Relation

/-!
# A plain scan

`Scan.expr` is the matcher that one would write down first. It says **how many bytes** an
expression takes at the start of a text, or that it fails; an empty match and a failure are
different answers. Every name is followed afresh, nothing is kept and nothing is
forbidden. Such a scan need not end, so it is given a bound on how deep its calls may
nest, and what it **returns** is the answer that it has at every depth that is deep enough
(`Scan.Returns`).

The two answers that take no bytes are told apart by nullability: an expression that is
nullable never fails (`Scan.Returns.nullable_eq_false`), and one that is not never matches
the empty text (`Scan.Returns.matches_nil`). That needs no more than an induction on the
depth, and holds of every grammar.

Whether a scan returns at all is another matter. It can come back to a production without
having taken a byte, and then it comes back again. A grammar in which this is possible is
**left recursive** (`Scan.LeftRecursive`).
-/

namespace Arbor

namespace Scan

/-! ## The scan -/

/-- How many bytes a literal takes. -/
def literal (v rest : Text) : Option Nat := if v <+: rest then some v.length else none

/-- How many bytes a character between two bounds takes. The replacement character is
between no bounds. -/
def range (lo hi rest : Text) : Option Nat :=
  match rest.firstPiece? with
  | some (.char c, width) =>
    if c ≠ Piece.replacement ∧ lo.firstChar ≤ c ∧ c ≤ hi.firstChar then some width else none
  | _ => none

/-- The longer of two matches. -/
def longest : Option Nat → Option Nat → Option Nat
  | none, b => b
  | a, none => a
  | some n, some k => some (max n k)

/-- **How many bytes an expression takes** at the start of a text, if it does not fail. The
scan gives up if its calls nest deeper than `depth`. -/
def expr (g : Grammar) : (depth : Nat) → Expr → Text → Option (Option Nat)
  | 0, _, _ => none
  | depth + 1, e, rest =>
    match e with
    | .empty => some (some 0)
    | .literal v => some (literal v rest)
    | .range lo hi => some (range lo hi rest)
    | .group e => expr g depth e rest
    | .option e => do
      let r ← expr g depth e rest
      return some (r.getD 0)
    | .repetition e => do
      match ← expr g depth e rest with
      | none => return some 0
      | some n =>
        if n = 0 then return some 0
        else
          let r ← expr g depth (.repetition e) (rest.drop n)
          return r.map (n + ·)
    | .alt e f => do
      let a ← expr g depth e rest
      let b ← expr g depth f rest
      return longest a b
    | .seq e f => do
      match ← expr g depth e rest with
      | none => return none
      | some n =>
        let r ← expr g depth f (rest.drop n)
        return r.map (n + ·)
    | .name _ n =>
      match g.get? n with
      | none => some none
      | some p => expr g depth p.body rest

/-- **What a scan returns**: the answer that it has at every depth that is deep enough. -/
def Returns (g : Grammar) (e : Expr) (rest : Text) (out : Option Nat) : Prop :=
  ∃ depth, ∀ k ≥ depth, expr g k e rest = some out

namespace Returns

variable {g : Grammar} {e f : Expr} {rest : Text} {out : Option Nat} {n : Nat}

/-- A scan returns one answer. -/
theorem unique {out' : Option Nat} (h : Returns g e rest out) (h' : Returns g e rest out') :
    out = out' := by
  obtain ⟨k₁, h⟩ := h
  obtain ⟨k₂, h'⟩ := h'
  have ho := h (max k₁ k₂) (Nat.le_max_left _ _)
  have ho' := h' (max k₁ k₂) (Nat.le_max_right _ _)
  exact Option.some.inj (ho.symm.trans ho')

/-! ### What a scan returns for each form -/

theorem of_succ (depth : Nat) (h : ∀ k ≥ depth, expr g (k + 1) e rest = some out) :
    Returns g e rest out := by
  refine ⟨depth + 1, fun k hk => ?_⟩
  obtain ⟨k, rfl⟩ := Nat.exists_eq_succ_of_ne_zero (Nat.ne_zero_of_lt hk)
  exact h k (Nat.le_of_succ_le_succ hk)

section Parts

variable {e₁ e₂ : Expr} {rest₁ rest₂ : Text} {out₁ out₂ : Option Nat}

/-- An expression that is scanned by its one part, a call deeper. -/
theorem of_part (h : Returns g e₁ rest₁ out₁)
    (hstep : ∀ k, expr g k e₁ rest₁ = some out₁ → expr g (k + 1) e rest = some out) :
    Returns g e rest out := by
  obtain ⟨depth, h⟩ := h
  exact of_succ depth fun k hk => hstep k (h k hk)

/-- One that is scanned by two parts. -/
theorem of_parts (h₁ : Returns g e₁ rest₁ out₁) (h₂ : Returns g e₂ rest₂ out₂)
    (hstep : ∀ k, expr g k e₁ rest₁ = some out₁ → expr g k e₂ rest₂ = some out₂ →
      expr g (k + 1) e rest = some out) : Returns g e rest out := by
  obtain ⟨k₁, h₁⟩ := h₁
  obtain ⟨k₂, h₂⟩ := h₂
  refine of_succ (max k₁ k₂) fun k hk => hstep k (h₁ k ?_) (h₂ k ?_)
  · exact Nat.le_trans (Nat.le_max_left _ _) hk
  · exact Nat.le_trans (Nat.le_max_right _ _) hk

end Parts

theorem empty : Returns g .empty rest (some 0) := of_succ 0 fun _ _ => rfl

theorem literal {v : Text} : Returns g (.literal v) rest (Scan.literal v rest) :=
  of_succ 0 fun _ _ => rfl

theorem range {lo hi : Text} : Returns g (.range lo hi) rest (Scan.range lo hi rest) :=
  of_succ 0 fun _ _ => rfl

theorem group (h : Returns g e rest out) : Returns g (.group e) rest out :=
  h.of_part fun _ he => he

theorem option (h : Returns g e rest out) : Returns g (.option e) rest (some (out.getD 0)) := by
  refine h.of_part fun k he => ?_
  show (expr g k e rest).bind _ = _
  rw [he]
  rfl

theorem alt {a b : Option Nat} (ha : Returns g e rest a) (hb : Returns g f rest b) :
    Returns g (.alt e f) rest (longest a b) := by
  refine ha.of_parts hb fun k he hf => ?_
  show (expr g k e rest).bind _ = _
  rw [he]
  show (expr g k f rest).bind _ = _
  rw [hf]
  rfl

theorem seqFirst (h : Returns g e rest none) : Returns g (.seq e f) rest none := by
  refine h.of_part fun k he => ?_
  show (expr g k e rest).bind _ = _
  rw [he]
  rfl

theorem seq (h : Returns g e rest (some n)) (hr : Returns g f (rest.drop n) out) :
    Returns g (.seq e f) rest (out.map (n + ·)) := by
  refine h.of_parts hr fun k he hf => ?_
  show (expr g k e rest).bind _ = _
  rw [he]
  show (expr g k f (rest.drop n)).bind _ = _
  rw [hf]
  rfl

theorem repetitionLast (h : Returns g e rest out) (hout : out.getD 0 = 0) :
    Returns g (.repetition e) rest (some 0) := by
  refine h.of_part fun k he => ?_
  show (expr g k e rest).bind _ = _
  rw [he]
  cases out with
  | none => rfl
  | some n =>
    obtain rfl : n = 0 := hout
    rfl

theorem repetitionMore (h : Returns g e rest (some n)) (hn : n ≠ 0)
    (hr : Returns g (.repetition e) (rest.drop n) out) :
    Returns g (.repetition e) rest (out.map (n + ·)) := by
  refine h.of_parts hr fun k he hf => ?_
  show (expr g k e rest).bind _ = _
  rw [he]
  show (if n = 0 then _ else (expr g k (.repetition e) (rest.drop n)).bind _) = _
  rw [if_neg hn, hf]
  rfl

theorem undefined {mark : Mark} {m : Text} (hp : g.get? m = none) :
    Returns g (.name mark m) rest none := by
  refine of_succ 0 fun k _ => ?_
  show (match g.get? m with | none => _ | some p => _) = _
  rw [hp]

theorem name {mark : Mark} {m : Text} {p : Production} (hp : g.get? m = some p)
    (h : Returns g p.body rest out) : Returns g (.name mark m) rest out := by
  refine h.of_part fun k he => ?_
  show (match g.get? m with | none => _ | some p => _) = _
  rw [hp]
  exact he

/-! ### Empty matches and failures -/

theorem longest_eq_some_zero {a b : Option Nat} (h : longest a b = some 0) :
    a = some 0 ∨ b = some 0 := by
  match a, b with
  | none, b => exact .inr h
  | some n, none => exact .inl h
  | some n, some k =>
    have hmax : max n k = 0 := Option.some.inj h
    exact .inl (congrArg some (by omega))

theorem longest_eq_none {a b : Option Nat} (h : longest a b = none) : a = none ∧ b = none := by
  match a, b with
  | none, b => exact ⟨rfl, h⟩

theorem range_ne_some_zero (lo hi rest : Text) : Scan.range lo hi rest ≠ some 0 := by
  cases rest with
  | nil => exact nofun
  | cons b rest =>
    unfold Scan.range Text.firstPiece?
    dsimp only
    intro h
    split at h
    · next heq =>
      obtain ⟨-, rfl⟩ := Prod.mk.inj (Option.some.inj heq)
      split at h
      · exact absurd (Option.some.inj h) (Nat.succ_ne_zero _)
      · exact absurd h (by simp)
    · exact absurd h (by simp)

theorem matches_nil_of_expr {k : Nat} (h : expr g k e rest = some (some 0)) : Matches g e [] := by
  induction k generalizing e rest with
  | zero => exact absurd h (by simp [expr])
  | succ k ih =>
    cases e with
    | empty => exact .empty
    | option e => exact .absent
    | repetition e => exact .done
    | literal v =>
      replace h : (if v <+: rest then some v.length else none) = some 0 := Option.some.inj h
      split at h
      · rw [← List.length_eq_zero_iff.mp (Option.some.inj h)]
        exact .literal
      · exact absurd h (by simp)
    | range lo hi => exact absurd (Option.some.inj h) (range_ne_some_zero lo hi rest)
    | group e => exact .group (ih h)
    | alt e f =>
      obtain ⟨a, ha, h⟩ := Option.bind_eq_some_iff.mp h
      obtain ⟨b, hb, h⟩ := Option.bind_eq_some_iff.mp h
      rcases longest_eq_some_zero (Option.some.inj h) with rfl | rfl
      · exact .altLeft (ih ha)
      · exact .altRight (ih hb)
    | seq e f =>
      obtain ⟨a, ha, h⟩ := Option.bind_eq_some_iff.mp h
      cases a with
      | none => exact absurd h (by simp)
      | some n =>
        obtain ⟨b, hb, h⟩ := Option.bind_eq_some_iff.mp h
        obtain ⟨m, rfl, hm⟩ := Option.map_eq_some_iff.mp (Option.some.inj h)
        obtain ⟨rfl, rfl⟩ : n = 0 ∧ m = 0 := Nat.add_eq_zero_iff.mp hm
        exact .seq (ih ha) (ih hb)
    | name mark m =>
      replace h : (match g.get? m with
        | none => some none
        | some p => expr g k p.body rest) = some (some 0) := h
      split at h
      · exact absurd h (by simp)
      · next p hp => exact .name hp (ih h)

/-- **An empty match** is a match of the empty text. -/
theorem matches_nil (h : Returns g e rest (some 0)) : Matches g e [] := by
  obtain ⟨depth, h⟩ := h
  exact matches_nil_of_expr (h depth (Nat.le_refl _))

theorem expr_ne_none {k : Nat} (h : g.nullable e = true) : expr g k e rest ≠ some none := by
  induction k generalizing e rest with
  | zero =>
    intro hnone
    cases hnone
  | succ k ih =>
    intro hnone
    cases e with
    | empty => cases hnone
    | literal v =>
      rw [Grammar.nullable, Grammar.nullableFrom_literal] at h
      obtain rfl := List.isEmpty_iff.mp h
      cases hnone
    | range lo hi =>
      rw [Grammar.nullable, Grammar.nullableFrom_range] at h
      exact absurd h (by simp)
    | group e =>
      rw [Grammar.nullable, Grammar.nullableFrom_group] at h
      exact ih h hnone
    | option e =>
      obtain ⟨a, ha, hnone⟩ := Option.bind_eq_some_iff.mp hnone
      exact absurd hnone (by simp)
    | repetition e =>
      -- the rest of a repetition is one again
      obtain ⟨a, ha, hnone⟩ := Option.bind_eq_some_iff.mp hnone
      cases a with
      | none => exact absurd hnone (by simp)
      | some n =>
        dsimp only at hnone
        split at hnone
        · exact absurd hnone (by simp)
        · obtain ⟨b, hb, hnone⟩ := Option.bind_eq_some_iff.mp hnone
          obtain rfl := Option.map_eq_none_iff.mp (Option.some.inj hnone)
          exact ih h hb
    | alt e f =>
      rw [Grammar.nullable, Grammar.nullableFrom_alt, Bool.or_eq_true] at h
      obtain ⟨a, ha, hnone⟩ := Option.bind_eq_some_iff.mp hnone
      obtain ⟨b, hb, hnone⟩ := Option.bind_eq_some_iff.mp hnone
      obtain ⟨rfl, rfl⟩ := longest_eq_none (Option.some.inj hnone)
      exact h.elim (fun he => ih he ha) fun hf => ih hf hb
    | seq e f =>
      rw [Grammar.nullable, Grammar.nullableFrom_seq, Bool.and_eq_true] at h
      obtain ⟨a, ha, hnone⟩ := Option.bind_eq_some_iff.mp hnone
      cases a with
      | none => exact ih h.1 ha
      | some n =>
        obtain ⟨b, hb, hnone⟩ := Option.bind_eq_some_iff.mp hnone
        obtain rfl := Option.map_eq_none_iff.mp (Option.some.inj hnone)
        exact ih h.2 hb
    | name mark m =>
      obtain ⟨-, p, hp, hbody⟩ := Grammar.nullableFrom_name_iff.mp h
      replace hnone : (match g.get? m with
        | none => some none
        | some p => expr g k p.body rest) = some none := hnone
      rw [hp] at hnone
      refine ih (Grammar.nullableFrom_of_subset hbody fun _ hm => ?_) hnone
      exact absurd hm Std.TreeSet.not_mem_emptyc

/-- **A failure** is one of an expression that is not nullable. -/
theorem nullable_eq_false (h : Returns g e rest none) : g.nullable e = false := by
  obtain ⟨depth, h⟩ := h
  cases hn : g.nullable e with
  | false => rfl
  | true => exact absurd (h depth (Nat.le_refl _)) (expr_ne_none hn)

end Returns

/-! ## Left recursion -/

/-- **Whether a name occurs leftmost in an expression**: what stands before it in a
sequence can match the empty text. -/
inductive Leads (g : Grammar) : Expr → Text → Prop
  | name {mark n} : Leads g (.name mark n) n
  | group {e n} : Leads g e n → Leads g (.group e) n
  | option {e n} : Leads g e n → Leads g (.option e) n
  | repetition {e n} : Leads g e n → Leads g (.repetition e) n
  | altLeft {e f n} : Leads g e n → Leads g (.alt e f) n
  | altRight {e f n} : Leads g f n → Leads g (.alt e f) n
  | seqLeft {e f n} : Leads g e n → Leads g (.seq e f) n
  | seqRight {e f n} : Matches g e [] → Leads g f n → Leads g (.seq e f) n

/-- Whether a production refers leftmost to another. -/
def LeftRefers (g : Grammar) (a b : Text) : Prop := ∃ p, g.get? a = some p ∧ Leads g p.body b

/-- **Whether a scan can come to where it started**: some production refers leftmost to
itself, perhaps through others. -/
def LeftRecursive (g : Grammar) : Prop := ∃ a, Relation.TransGen (LeftRefers g) a a

/-- No scan comes to where it started if references leave some productions and do not come
back to them. -/
theorem not_leftRecursive_of_leaves {g : Grammar} {P : Text → Prop}
    (h : ∀ a b, LeftRefers g a b → P a ∧ ¬ P b) : ¬ LeftRecursive g := by
  rintro ⟨a, ha⟩
  obtain ⟨b, hab, -⟩ := Relation.TransGen.head'_iff.mp ha
  obtain ⟨c, -, hca⟩ := Relation.TransGen.tail'_iff.mp ha
  exact (h c a hca).2 (h a b hab).1

/-- Nor if every reference leads to a production of a lower rank. -/
theorem not_leftRecursive_of_rank {g : Grammar} (rank : Text → Nat)
    (h : ∀ a b, LeftRefers g a b → rank b < rank a) : ¬ LeftRecursive g := by
  rintro ⟨a, ha⟩
  have hlower : ∀ b, Relation.TransGen (LeftRefers g) a b → rank b < rank a := by
    intro b hab
    induction hab with
    | single hab => exact h _ _ hab
    | tail _ hbc ih => exact Nat.lt_trans (h _ _ hbc) ih
  exact Nat.lt_irrefl _ (hlower a ha)

/-- Whether every opened production has come to what occurs leftmost in an
expression. -/
def Guarded (g : Grammar) (opened : Grammar.Opened) (e : Expr) : Prop :=
  ∀ a ∈ opened, ∀ b, Leads g e b → Relation.TransGen (LeftRefers g) a b

section Guarded

variable {g : Grammar} {opened : Grammar.Opened} {e f : Expr}

theorem guarded_empty : Guarded g ∅ e := fun _ ha => absurd ha Std.TreeSet.not_mem_emptyc

theorem Guarded.imp (h : Guarded g opened e) (himp : ∀ b, Leads g f b → Leads g e b) :
    Guarded g opened f :=
  fun a ha b hb => h a ha b (himp b hb)

/-- The body of a production is guarded by the production as well. -/
theorem Guarded.body {mark : Mark} {n : Text} {p : Production}
    (h : Guarded g opened (.name mark n)) (hp : g.get? n = some p) :
    Guarded g (opened.insert n) p.body := by
  intro a ha b hb
  have hnb : LeftRefers g n b := ⟨p, hp, hb⟩
  rcases Grammar.mem_insert_opened.mp ha with rfl | ha
  · exact .single hnb
  · exact (h a ha n .name).tail hnb

end Guarded

end Scan

end Arbor
