import Arbor.Proofs.Parser.Evaluation
import Mathlib.Data.Set.Lattice
import Mathlib.Order.Lattice
import Mathlib.Order.MinMax

/-!
# The frontier of a parse

Of all the failures of a parse only the furthest count: the state keeps one place
and what was expected there, and a failure further on drops the rest. Read as a
**frontier**, a place with a set of expectations, that is a join. Frontiers are
ordered by their places first and by their sets at equal places, and noting a
failure joins a frontier with the one of that single failure
(`State.frontier_fail`). Nothing is ever forgotten but what a further place
supersedes.

A match has a frontier as well, the place where it ends with nothing expected
there, and the parser blames just the join of the two (`reach`). Two facts about
runs carry the study of errors:

* the frontier of the state only grows (`Run.frontier_le`), and
* whatever fails has pushed it to its own start (`Run.start_le_of_none`), also
  where the failure comes out of the table.
-/

namespace Arbor

/-- A place and what is expected there. -/
@[ext] structure Frontier where
  /-- The place. -/
  place : Nat
  /-- What is expected at the place. -/
  expected : Set Expectation

namespace Frontier

/-- A further place supersedes all that is expected before it. -/
instance : LE Frontier where
  le a b := a.place < b.place ∨ a.place = b.place ∧ a.expected ⊆ b.expected

theorem le_def {a b : Frontier} :
    a ≤ b ↔ a.place < b.place ∨ a.place = b.place ∧ a.expected ⊆ b.expected := Iff.rfl

theorem place_le {a b : Frontier} (h : a ≤ b) : a.place ≤ b.place := by
  rcases le_def.mp h with h | ⟨h, -⟩
  · exact Nat.le_of_lt h
  · exact Nat.le_of_eq h

/-- What is expected at the place of a smaller frontier is expected still. -/
theorem expected_subset {a b : Frontier} (h : a ≤ b) (hp : b.place ≤ a.place) :
    a.place = b.place ∧ a.expected ⊆ b.expected := by
  rcases le_def.mp h with h | h
  · omega
  · exact h

instance : PartialOrder Frontier where
  le_refl a := .inr ⟨rfl, subset_rfl⟩
  le_trans a b c hab hbc := by
    rcases le_def.mp hab with hab | ⟨hab, sab⟩
    · exact .inl (Nat.lt_of_lt_of_le hab (place_le hbc))
    · rcases le_def.mp hbc with hbc | ⟨hbc, sbc⟩
      · exact .inl (hab ▸ hbc)
      · exact .inr ⟨hab.trans hbc, sab.trans sbc⟩
  le_antisymm a b hab hba := by
    obtain ⟨hp, sab⟩ := expected_subset hab (place_le hba)
    obtain ⟨-, sba⟩ := expected_subset hba (place_le hab)
    exact Frontier.ext hp (sab.antisymm sba)

/-- The join: the further place, and at equal places all that is expected. -/
instance : SemilatticeSup Frontier where
  sup a b :=
    ⟨max a.place b.place,
      {x | x ∈ a.expected ∧ b.place ≤ a.place ∨ x ∈ b.expected ∧ a.place ≤ b.place}⟩
  le_sup_left a b := by
    rcases Nat.lt_or_ge a.place b.place with h | h
    · exact .inl (lt_max_iff.mpr (.inr h))
    · exact .inr ⟨(max_eq_left h).symm, fun x hx => .inl ⟨hx, h⟩⟩
  le_sup_right a b := by
    rcases Nat.lt_or_ge b.place a.place with h | h
    · exact .inl (lt_max_iff.mpr (.inl h))
    · exact .inr ⟨(max_eq_right h).symm, fun x hx => .inr ⟨hx, h⟩⟩
  sup_le a b c hac hbc := by
    rcases Nat.lt_or_eq_of_le (max_le (place_le hac) (place_le hbc)) with h | h
    · exact .inl h
    · refine .inr ⟨h, ?_⟩
      rintro x (⟨hx, hle⟩ | ⟨hx, hle⟩)
      · exact (expected_subset hac (h ▸ (max_eq_left hle).le)).2 hx
      · exact (expected_subset hbc (h ▸ (max_eq_right hle).le)).2 hx

instance : OrderBot Frontier where
  bot := ⟨0, ∅⟩
  bot_le a := by
    rcases Nat.eq_zero_or_pos a.place with h | h
    · exact .inr ⟨h.symm, Set.empty_subset _⟩
    · exact .inl h

@[simp] theorem place_sup (a b : Frontier) : (a ⊔ b).place = max a.place b.place := rfl

theorem mem_expected_sup {a b : Frontier} {x : Expectation} :
    x ∈ (a ⊔ b).expected
      ↔ x ∈ a.expected ∧ b.place ≤ a.place ∨ x ∈ b.expected ∧ a.place ≤ b.place := Iff.rfl

/-- The frontier of one failure, which may go without an expectation. -/
def single (pos : Nat) (x : Option Expectation) : Frontier := ⟨pos, {y | x = some y}⟩

/-- A place alone lies before every frontier that has got there. -/
theorem single_none_le {pos : Nat} {a : Frontier} : single pos none ≤ a ↔ pos ≤ a.place := by
  constructor
  · exact place_le
  · intro h
    rcases Nat.lt_or_eq_of_le h with h | h
    · exact .inl h
    · exact .inr ⟨h, fun y hy => absurd hy (by simp [single])⟩

/-- An expectation before a frontier is one of its own unless it is superseded. -/
theorem mem_of_single_le {pos : Nat} {x : Expectation} {a : Frontier}
    (h : single pos (some x) ≤ a) (hp : a.place ≤ pos) : a.place = pos ∧ x ∈ a.expected := by
  obtain ⟨he, hs⟩ := expected_subset h hp
  exact ⟨he.symm, hs rfl⟩

end Frontier

namespace Parse

namespace State

variable {size : Nat}

/-- The frontier of a state. -/
def frontier (s : State size) : Frontier := ⟨s.furthest, {x | x ∈ s.expected}⟩

@[simp] theorem place_frontier (s : State size) : s.frontier.place = s.furthest := rfl

theorem mem_expected_frontier {s : State size} {x : Expectation} :
    x ∈ s.frontier.expected ↔ x ∈ s.expected := Iff.rfl

@[simp] theorem frontier_start : (start size).frontier = ⊥ := by
  refine Frontier.ext rfl ?_
  ext x
  show x ∈ (∅ : Std.HashSet Expectation) ↔ x ∈ (∅ : Set Expectation)
  simp

/-- **Noting a failure is a join.** -/
theorem frontier_fail (s : State size) (pos : Nat) (e : Option Expectation) :
    (s.fail pos e).frontier = s.frontier ⊔ .single pos e := by
  refine Frontier.ext ?_ ?_
  · show (s.fail pos e).furthest = max s.furthest pos
    unfold fail
    cases e <;> grind
  · ext x
    rw [Frontier.mem_expected_sup]
    show x ∈ (s.fail pos e).expected ↔ x ∈ s.expected ∧ pos ≤ s.furthest
      ∨ e = some x ∧ s.furthest ≤ pos
    unfold fail
    cases e <;> grind

@[simp] theorem frontier_keep (s : State size) (n : Text) (pos : Nat)
    (r : Option (Match Node size pos)) : (s.keep n pos r).frontier = s.frontier := by
  cases r with
  | none => rfl
  | some m =>
    unfold keep
    dsimp only
    split <;> rfl

end State

variable {i : ParseInput}

theorem frontier_assemble {n : Text} {pos : Nat} {nodes : List Node} {node : Node}
    {s s' : State i.size} (ha : assemble i n pos nodes s = (node, s')) :
    s'.frontier = s.frontier := by
  unfold assemble at ha
  split at ha
  all_goals
    obtain ⟨-, rfl⟩ := Prod.mk.inj ha
    rfl

/-! ## The frontier grows -/

/-- **The frontier of the state only grows.** -/
theorem Run.frontier_le {opened : Grammar.Opened} {pos : Nat} {task : Task}
    {s s' : State i.size} {r : Option (Match (List Node) i.size pos)}
    (h : Run i opened pos task s r s') : s.frontier ≤ s'.frontier := by
  induction h with
  | empty | hit => exact le_rfl
  | accept => exact le_rfl
  | reject | guard =>
    rw [State.frontier_fail]
    exact le_sup_left
  | group _ ih | option _ ih | repetition _ ih | seqFirst _ ih => exact ih
  | name _ _ ih | manyLast _ _ ih => exact ih
  | alt _ _ ih₁ ih₂ | seq _ _ ih₁ ih₂ | manyMore _ _ _ ih₁ ih₂ => exact ih₁.trans ih₂
  | fail _ _ _ _ ih =>
    rw [State.frontier_keep]
    exact ih
  | node _ _ _ ha _ ih =>
    rw [State.frontier_keep, frontier_assemble ha]
    exact ih

/-- Whether a failure in the table lies within what the state knows. -/
def Noted (s : State i.size) (_ : Text) (pos : Nat) (r : Option (Match Node i.size pos)) :
    Prop :=
  r = none → pos ≤ s.furthest

theorem entries_noted_of_le {s s' s₀ : State i.size} (h : s₀.Entries (Noted s))
    (hs : s.frontier ≤ s'.frontier) : s₀.Entries (Noted s') :=
  h.imp fun _ _ _ hr he => (hr he).trans (Frontier.place_le hs)

/-- **Whatever fails has pushed the frontier to its own start**, and so has all
that failed before. -/
theorem Run.start_le_of_none {opened : Grammar.Opened} {pos : Nat} {task : Task}
    {s s' : State i.size} {r : Option (Match (List Node) i.size pos)}
    (h : Run i opened pos task s r s') (hs : s.Entries (Noted s)) :
    s'.Entries (Noted s') ∧ (r = none → pos ≤ s'.furthest) := by
  induction h with
  | empty => exact ⟨hs, fun hr => absurd hr (by simp)⟩
  | accept => exact ⟨hs, fun hr => absurd hr (by simp)⟩
  | @reject _ pos s _ x =>
    have hf := State.frontier_fail s pos (some x)
    refine ⟨entries_noted_of_le (hs.fail _ _) (hf ▸ le_sup_left), fun _ => ?_⟩
    rw [← State.place_frontier, hf]
    exact le_max_right _ _
  | group _ ih => exact ih hs
  | repetition _ ih => exact ih hs
  | option _ ih => exact ⟨(ih hs).1, fun hr => absurd hr (by simp)⟩
  | @alt _ pos _ _ _ a _ b _ _ h₂ ih₁ ih₂ =>
    obtain ⟨hs₁, -⟩ := ih₁ hs
    obtain ⟨hs₂, hb⟩ := ih₂ hs₁
    refine ⟨hs₂, fun hr => hb ?_⟩
    cases a with
    | none => exact hr
    | some m =>
      cases b with
      | none => rfl
      | some k =>
        unfold longer at hr
        dsimp only at hr
        split at hr <;> exact absurd hr (by simp)
  | seqFirst _ ih => exact ih hs
  | @seq _ pos _ _ _ m _ _ _ _ _ ih₁ ih₂ =>
    obtain ⟨hs₂, hr⟩ := ih₂ (ih₁ hs).1
    exact ⟨hs₂, fun he => m.le.trans (hr (Option.map_eq_none_iff.mp he))⟩
  | name _ _ ih => exact ih hs
  | hit hr =>
    refine ⟨hs, fun he => hs _ _ _ hr ?_⟩
    exact Option.map_eq_none_iff.mp he
  | @guard _ pos s =>
    have hf := State.frontier_fail s pos none
    refine ⟨entries_noted_of_le (hs.fail _ _) (hf ▸ le_sup_left), fun _ => ?_⟩
    rw [← State.place_frontier, hf]
    exact le_max_right _ _
  | @fail _ pos _ n _ s' _ _ _ _ ih =>
    obtain ⟨hs', hr⟩ := ih hs
    have hf : s'.frontier ≤ (s'.keep n pos none).frontier := (State.frontier_keep ..).ge
    refine ⟨entries_noted_of_le (hs'.keep fun _ _ => hr rfl) hf, fun _ => ?_⟩
    exact (hr rfl).trans (Frontier.place_le hf)
  | @node _ pos _ n _ m s' node s'' _ _ _ ha _ ih =>
    have hf : s'.frontier ≤ (s''.keep n pos (some (m.map fun _ => node))).frontier := by
      rw [State.frontier_keep, frontier_assemble ha]
    refine ⟨entries_noted_of_le ?_ hf, fun hr => absurd hr (by simp)⟩
    exact ((ih hs).1.assemble ha).keep fun _ hr => absurd hr (by simp)
  | manyLast _ _ ih => exact ⟨(ih hs).1, fun hr => absurd hr (by simp)⟩
  | manyMore _ _ _ ih₁ ih₂ => exact ⟨(ih₂ (ih₁ hs).1).1, fun hr => absurd hr (by simp)⟩

end Parse

end Arbor
