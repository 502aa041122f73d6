import Arbor.Proofs.Parser.Derivation
import Mathlib.Logic.Relation

/-!
# Left recursion

A production **refers leftmost** to another if the other one's name occurs in its
body with only items before it that can match no tokens at all. A parser that
descends into the first production gets to the second without having consumed
anything, so a grammar is **left recursive** if these references form a cycle.

Which items can match no tokens is said by `Nullable`, and a derivation over no
tokens shows that an item is one of them (`Derives.nullable`).
-/

namespace Arbor

/-- **Whether an expression can match no tokens.** -/
inductive Nullable (g : Grammar) : Expr → Prop
  /-- The empty body matches nothing else. -/
  | empty : Nullable g .empty
  /-- An option may be absent. -/
  | option {e} : Nullable g (.option e)
  /-- A repetition may have no occurrence. -/
  | repetition {e} : Nullable g (.repetition e)
  | group {e} : Nullable g e → Nullable g (.group e)
  | seq {e f} : Nullable g e → Nullable g f → Nullable g (.seq e f)
  | altLeft {e f} : Nullable g e → Nullable g (.alt e f)
  | altRight {e f} : Nullable g f → Nullable g (.alt e f)
  /-- The name of a token always matches one. -/
  | name {mark n p} (hn : Grammar.isToken n = false) (hp : g.get? n = some p) :
      Nullable g p.body → Nullable g (.name mark n)

/-- **Whether a name occurs leftmost in an expression**: it is the name of a
production, and what stands before it in a sequence can match no tokens. -/
inductive Leads (g : Grammar) : Expr → Text → Prop
  | name {mark n} (hn : Grammar.isToken n = false) (hp : g.has n = true) :
      Leads g (.name mark n) n
  | group {e n} : Leads g e n → Leads g (.group e) n
  | option {e n} : Leads g e n → Leads g (.option e) n
  | repetition {e n} : Leads g e n → Leads g (.repetition e) n
  | altLeft {e f n} : Leads g e n → Leads g (.alt e f) n
  | altRight {e f n} : Leads g f n → Leads g (.alt e f) n
  | seqLeft {e f n} : Leads g e n → Leads g (.seq e f) n
  | seqRight {e f n} : Nullable g e → Leads g f n → Leads g (.seq e f) n

namespace Grammar

/-- Whether a production refers leftmost to another. -/
def LeftRefers (g : Grammar) (a b : Text) : Prop :=
  ∃ p, g.get? a = some p ∧ Leads g p.body b

/-- **Whether a grammar is left recursive.** -/
def LeftRecursive (g : Grammar) : Prop := ∃ a, Relation.TransGen g.LeftRefers a a

/-- A grammar is not left recursive if its references leave some productions and do not
come back to them. -/
theorem not_leftRecursive_of_leaves {g : Grammar} {P : Text → Prop}
    (h : ∀ a b, g.LeftRefers a b → P a ∧ ¬ P b) : ¬ g.LeftRecursive := by
  rintro ⟨a, ha⟩
  obtain ⟨b, hab, -⟩ := Relation.TransGen.head'_iff.mp ha
  obtain ⟨c, -, hca⟩ := Relation.TransGen.tail'_iff.mp ha
  exact (h c a hca).2 (h a b hab).1

end Grammar

/-- What derives nodes from no tokens can match no tokens. -/
theorem Derives.nullable {g : Grammar} {ts : List Token} {e : Expr} {i j : Nat}
    {nodes : List Node} (h : Derives g ts e i j nodes) (hij : i = j) : Nullable g e := by
  induction h with
  | empty => exact .empty
  | absent | present => exact .option
  | done | more => exact .repetition
  | literal | range | keyword | kind | spelling => omega
  | composite hn hp _ _ ih | category hn hp _ _ ih => exact .name hn hp (ih hij)
  | group _ ih => exact .group (ih hij)
  | altLeft _ ih => exact .altLeft (ih hij)
  | altRight _ ih => exact .altRight (ih hij)
  | seq h₁ h₂ ih₁ ih₂ =>
    have := h₁.le
    have := h₂.le
    exact .seq (ih₁ (by omega)) (ih₂ (by omega))

namespace Sample

/-- Only lists refer leftmost to anything, and to their items only. -/
theorem eq_of_leftRefers {a b : Text} (h : grammar.LeftRefers a b) :
    a = utf8 "list" ∧ b = utf8 "item" := by
  obtain ⟨p, hp, hb⟩ := h
  obtain ⟨hm, ha⟩ := Grammar.mem_of_get?_ofProductions hp
  simp only [List.mem_cons, List.not_mem_nil, or_false] at hm
  rcases hm with rfl | rfl | rfl
  · refine ⟨ha.symm, ?_⟩
    cases hb with
    | seqLeft hb =>
      cases hb
      rfl
    | seqRight he =>
      -- an item is a word, and no word is empty
      cases he with
      | name _ hq he =>
        obtain rfl := Option.some.inj ((get?_grammar _).symm.trans hq)
        cases he with
        | name hn => exact absurd hn (by decide)
  · cases hb with
    | name hn => exact absurd hn (by decide)
  · cases hb

theorem not_leftRecursive : ¬ grammar.LeftRecursive := by
  refine Grammar.not_leftRecursive_of_leaves (P := (· = utf8 "list")) fun a b h => ?_
  obtain ⟨rfl, rfl⟩ := eq_of_leftRefers h
  decide

end Sample

end Arbor
