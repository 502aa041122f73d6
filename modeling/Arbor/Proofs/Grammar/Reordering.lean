import Arbor.Proofs.Grammar.LeftRecursion
import Mathlib.Data.List.Forall2

/-!
# Grammars with their alternatives in another order

Two expressions are **reorderings** of each other if one comes out of the other by
permuting the alternatives of choices, as often as one likes and as deep inside as one
likes. A grammar is a reordering of another if its syntactic productions have the same
names and reordered bodies. Where a name stands in its file counts for nothing, and
neither do the bodies of tokens, which a parser does not follow.

A reordering can match no tokens where the expression could, and the same names occur
leftmost in it. Both are read off a choice as disjunctions over its alternatives, which
know nothing of an order (`Expr.iff_of_perm_alternatives`). So a grammar does not become
left recursive by being reordered (`Grammar.Reordered.not_leftRecursive`).
-/

namespace Arbor

/-! ## Reordered expressions -/

namespace Expr

/-- **Whether an expression is a reordering of another.** -/
inductive Reordered : Expr → Expr → Prop
  /-- The alternatives of a choice are permuted. -/
  | permute {e f} : e.alternatives.Perm f.alternatives → Reordered e f
  | trans {e f h} : Reordered e f → Reordered f h → Reordered e h
  /-- A name stands elsewhere in the file. -/
  | name {mark mark' n} : Reordered (.name mark n) (.name mark' n)
  | group {e e'} : Reordered e e' → Reordered (.group e) (.group e')
  | option {e e'} : Reordered e e' → Reordered (.option e) (.option e')
  | repetition {e e'} : Reordered e e' → Reordered (.repetition e) (.repetition e')
  | seq {e e' f f'} : Reordered e e' → Reordered f f' → Reordered (.seq e f) (.seq e' f')
  | alt {e e' f f'} : Reordered e e' → Reordered f f' → Reordered (.alt e f) (.alt e' f')

theorem Reordered.symm {e f : Expr} (h : Reordered e f) : Reordered f e := by
  induction h with
  | permute h => exact .permute h.symm
  | trans _ _ ih₁ ih₂ => exact .trans ih₂ ih₁
  | name => exact .name
  | group _ ih => exact .group ih
  | option _ ih => exact .option ih
  | repetition _ ih => exact .repetition ih
  | seq _ _ ih₁ ih₂ => exact .seq ih₁ ih₂
  | alt _ _ ih₁ ih₂ => exact .alt ih₁ ih₂

/-- What holds of a choice if it holds of a side holds if it holds of an
alternative. -/
theorem iff_exists_alternatives {P : Expr → Prop} (hP : ∀ e f, P (.alt e f) ↔ P e ∨ P f)
    (e : Expr) : P e ↔ ∃ a ∈ e.alternatives, P a := by
  induction e with
  | alt e f _ ih =>
    rw [hP, alternatives, List.exists_mem_cons_iff, ih]
  | _ => simp [alternatives]

theorem iff_of_perm_alternatives {P : Expr → Prop} (hP : ∀ e f, P (.alt e f) ↔ P e ∨ P f)
    {e f : Expr} (h : e.alternatives.Perm f.alternatives) : P e ↔ P f := by
  rw [iff_exists_alternatives hP e, iff_exists_alternatives hP f]
  exact exists_congr fun a => and_congr_left' h.mem_iff

end Expr

/-! ## Within one grammar -/

section Within

variable {g : Grammar} {e f : Expr}

theorem nullable_alt_iff : Nullable g (.alt e f) ↔ Nullable g e ∨ Nullable g f := by
  constructor
  · intro h
    cases h with
    | altLeft h => exact .inl h
    | altRight h => exact .inr h
  · rintro (h | h)
    · exact .altLeft h
    · exact .altRight h

theorem leads_alt_iff {n : Text} : Leads g (.alt e f) n ↔ Leads g e n ∨ Leads g f n := by
  constructor
  · intro h
    cases h with
    | altLeft h => exact .inl h
    | altRight h => exact .inr h
  · rintro (h | h)
    · exact .altLeft h
    · exact .altRight h

/-- A reordering of what can match no tokens can match none. -/
theorem Nullable.reordered (h : Nullable g e) (hr : e.Reordered f) : Nullable g f := by
  induction hr with
  | permute hp => exact (Expr.iff_of_perm_alternatives (fun _ _ => nullable_alt_iff) hp).mp h
  | trans _ _ ih₁ ih₂ => exact ih₂ (ih₁ h)
  | name =>
    cases h with
    | name hn hp h => exact .name hn hp h
  | group _ ih =>
    cases h with
    | group h => exact .group (ih h)
  | option => exact .option
  | repetition => exact .repetition
  | seq _ _ ih₁ ih₂ =>
    cases h with
    | seq h₁ h₂ => exact .seq (ih₁ h₁) (ih₂ h₂)
  | alt _ _ ih₁ ih₂ => exact nullable_alt_iff.mpr ((nullable_alt_iff.mp h).imp ih₁ ih₂)

/-- What occurs leftmost in an expression does so in its reorderings. -/
theorem Leads.reordered {n : Text} (h : Leads g e n) (hr : e.Reordered f) : Leads g f n := by
  induction hr with
  | permute hp =>
    exact (Expr.iff_of_perm_alternatives (P := (Leads g · n)) (fun _ _ => leads_alt_iff) hp).mp h
  | trans _ _ ih₁ ih₂ => exact ih₂ (ih₁ h)
  | name =>
    cases h with
    | name hn hp => exact .name hn hp
  | group _ ih =>
    cases h with
    | group h => exact .group (ih h)
  | option _ ih =>
    cases h with
    | option h => exact .option (ih h)
  | repetition _ ih =>
    cases h with
    | repetition h => exact .repetition (ih h)
  | seq hr _ ih₁ ih₂ =>
    cases h with
    | seqLeft h => exact .seqLeft (ih₁ h)
    | seqRight he h => exact .seqRight (he.reordered hr) (ih₂ h)
  | alt _ _ ih₁ ih₂ => exact leads_alt_iff.mpr ((leads_alt_iff.mp h).imp ih₁ ih₂)

end Within

/-! ## Reordered grammars -/

/-- Whether a production is a reordering of another: of the body of a token nothing is
asked. -/
def Production.Reordered (p q : Production) : Prop :=
  p.name = q.name ∧ (Grammar.isToken p.name = false → p.body.Reordered q.body)

/-- **Whether a grammar is a reordering of another.** -/
def Grammar.Reordered (g g' : Grammar) : Prop :=
  List.Forall₂ Production.Reordered g.productions g'.productions

theorem Production.Reordered.symm {p q : Production} (h : p.Reordered q) : q.Reordered p :=
  ⟨h.1.symm, fun hn => (h.2 (h.1 ▸ hn)).symm⟩

namespace Grammar.Reordered

variable {g g' : Grammar} {n : Text}

theorem symm (h : g.Reordered g') : g'.Reordered g :=
  List.Forall₂.flip (List.Forall₂.imp (fun _ _ => Production.Reordered.symm) h)

/-- A name that has a production has a reordered one. -/
theorem exists_get? {p : Production} (h : g.Reordered g') (hp : g.get? n = some p) :
    ∃ q, g'.get? n = some q ∧ (isToken n = false → p.body.Reordered q.body) := by
  obtain ⟨hmem, rfl⟩ := get?_eq_some_iff.mp hp
  obtain ⟨⟨k, hk⟩, rfl⟩ := List.get_of_mem hmem
  have hk' : k < g'.productions.length := h.length_eq ▸ hk
  have hpq := h.get hk hk'
  exact ⟨_, get?_eq_some_iff.mpr ⟨List.get_mem _ _, hpq.1.symm⟩, hpq.2⟩

theorem has_of_has (h : g.Reordered g') (hn : g.has n = true) : g'.has n = true := by
  obtain ⟨p, hp⟩ := Option.isSome_iff_exists.mp hn
  obtain ⟨q, hq, -⟩ := h.exists_get? hp
  exact has_of_get? hq

theorem has_eq (h : g.Reordered g') : g'.has n = g.has n :=
  Bool.eq_iff_iff.mpr ⟨h.symm.has_of_has, h.has_of_has⟩

/-- A terminal is one in a reordered grammar. -/
theorem terminal?_eq (h : g.Reordered g') (e : Expr) : e.terminal? g' = e.terminal? g := by
  cases e with
  | name mark n =>
    simp only [Expr.terminal?, h.has_eq]
  | _ => rfl

/-- **The same expressions can match no tokens.** -/
theorem nullable (h : g.Reordered g') {e : Expr} (he : Nullable g e) : Nullable g' e := by
  induction he with
  | empty => exact .empty
  | option => exact .option
  | repetition => exact .repetition
  | group _ ih => exact .group ih
  | seq _ _ ih₁ ih₂ => exact .seq ih₁ ih₂
  | altLeft _ ih => exact .altLeft ih
  | altRight _ ih => exact .altRight ih
  | name hn hp _ ih =>
    obtain ⟨q, hq, hbody⟩ := h.exists_get? hp
    exact .name hn hq (ih.reordered (hbody hn))

/-- **The same names occur leftmost in an expression.** -/
theorem leads (h : g.Reordered g') {e : Expr} (he : Leads g e n) : Leads g' e n := by
  induction he with
  | name hn hp => exact .name hn (h.has_of_has hp)
  | group _ ih => exact .group ih
  | option _ ih => exact .option ih
  | repetition _ ih => exact .repetition ih
  | altLeft _ ih => exact .altLeft ih
  | altRight _ ih => exact .altRight ih
  | seqLeft _ ih => exact .seqLeft ih
  | seqRight hnull _ ih => exact .seqRight (h.nullable hnull) ih

/-- A production refers leftmost to the same others. -/
theorem leftRefers {a b : Text} (h : g.Reordered g') (ha : isToken a = false)
    (hab : g.LeftRefers a b) : g'.LeftRefers a b := by
  obtain ⟨p, hp, hb⟩ := hab
  obtain ⟨q, hq, hbody⟩ := h.exists_get? hp
  exact ⟨q, hq, (h.leads hb).reordered (hbody ha)⟩

end Grammar.Reordered

/-- What occurs leftmost is no token. -/
theorem Leads.isToken_eq_false {g : Grammar} {e : Expr} {n : Text} (h : Leads g e n) :
    Grammar.isToken n = false := by
  induction h with
  | name hn => exact hn
  | group _ ih | option _ ih | repetition _ ih => exact ih
  | altLeft _ ih | altRight _ ih | seqLeft _ ih | seqRight _ _ ih => exact ih

/-- **A reordering does not make a grammar left recursive.** -/
theorem Grammar.Reordered.not_leftRecursive {g g' : Grammar} (h : g.Reordered g')
    (hg : ¬ g.LeftRecursive) : ¬ g'.LeftRecursive := by
  have hsyntactic : ∀ {a b}, g'.LeftRefers a b → isToken b = false :=
    fun ⟨_, _, hb⟩ => hb.isToken_eq_false
  rintro ⟨a, ha⟩
  -- all productions on a cycle are referred to, so none is a token's
  obtain ⟨_, -, hca⟩ := Relation.TransGen.tail'_iff.mp ha
  have hchain : ∀ {b}, Relation.TransGen g'.LeftRefers a b →
      Relation.TransGen g.LeftRefers a b := by
    intro b hb
    induction hb with
    | single hab => exact .single (h.symm.leftRefers (hsyntactic hca) hab)
    | @tail b c hab hbc ih =>
      obtain ⟨_, -, hb⟩ := Relation.TransGen.tail'_iff.mp hab
      exact ih.tail (h.symm.leftRefers (hsyntactic hb) hbc)
  exact hg ⟨a, hchain ha⟩

end Arbor
