import Arbor.Grammar.Opened

/-!
# Nullable expressions

An expression is **nullable** if it can match the empty text. A name asks its
production, and a production that is being asked already counts as not
nullable: an empty match that needs itself is no match.

One set of names goes through the whole question. A name is opened before its
production is asked, and closed again when there is an answer. The question
ends because nothing that is open is lost on the way, so that much is part of
its type (`Asked`).
-/

namespace Arbor

namespace Grammar

/-- What is open after a question that was asked with `opened`: nothing of
that is lost. -/
structure Asked (opened : Opened) where
  /-- The names. -/
  names : Opened
  /-- What was open still is. -/
  kept : ∀ n, n ∈ opened → n ∈ names

namespace Asked

/-- Nothing was opened or closed. -/
def same (opened : Opened) : Asked opened := ⟨opened, fun _ h => h⟩

/-- After one more question. -/
def followed {opened : Opened} (first : Asked opened) (last : Asked first.names) : Asked opened :=
  ⟨last.names, fun n h => last.kept n (first.kept n h)⟩

/-- What was open before a name was opened is not lost by closing it. -/
theorem mem_erase {opened : Opened} {n : Text} (hn : n ∉ opened) (asked : Asked (opened.insert n)) :
    ∀ m, m ∈ opened → m ∈ asked.names.erase n := by
  intro m hm
  refine Std.TreeSet.mem_erase.mpr ⟨fun h => hn ?_, asked.kept m (mem_insert_opened.mpr (.inr hm))⟩
  rwa [Std.LawfulEqCmp.compare_eq_iff_eq.mp h]

/-- After a name has been closed. -/
def close {opened : Opened} {n : Text} (hn : n ∉ opened) (asked : Asked (opened.insert n)) :
    Asked opened :=
  ⟨asked.names.erase n, asked.mem_erase hn⟩

end Asked

/-- **Asks whether an expression can match the empty text** without entering
the productions in `opened`. A sequence is asked up to the first item that
cannot, and a choice up to the first alternative that can. -/
def ask (g : Grammar) (opened : Opened) : Expr → Bool × Asked opened
  | .empty => (true, .same opened)
  | .option _ => (true, .same opened)
  | .repetition _ => (true, .same opened)
  | .literal v => (v.isEmpty, .same opened)
  | .range _ _ => (false, .same opened)
  | .group e => g.ask opened e
  | .seq e f =>
    let first := g.ask opened e
    if first.1 then
      have := g.unopened_le first.2.kept
      let last := g.ask first.2.names f
      (last.1, first.2.followed last.2)
    else first
  | .alt e f =>
    let first := g.ask opened e
    if first.1 then first
    else
      have := g.unopened_le first.2.kept
      let last := g.ask first.2.names f
      (last.1, first.2.followed last.2)
  | .name _ n =>
    if ho : n ∈ opened then (false, .same opened)
    else match hp : g.get? n with
      | none => (false, .same opened)
      | some p =>
        have := unopened_insert_lt (mem_names_of_get? hp) ho
        let inner := g.ask (opened.insert n) p.body
        (inner.1, inner.2.close ho)
termination_by e => (g.unopened opened, sizeOf e)
decreasing_by
  · exact .right _ (by simp +arith)
  · exact .right _ (by simp +arith)
  · exact .right' _ this (by simp +arith)
  · exact .right _ (by simp +arith)
  · exact .right' _ this (by simp +arith)
  · exact .left _ _ this

/-- Whether an expression can match the empty text without entering the
productions in `opened`. -/
def nullableFrom (g : Grammar) (opened : Opened) (e : Expr) : Bool := (g.ask opened e).1

/-- **Whether an expression can match the empty text.** -/
def nullable (g : Grammar) (e : Expr) : Bool := g.nullableFrom ∅ e

end Grammar

end Arbor
