import Arbor.Grammar.Verify
import Arbor.Proofs.Reach
import Mathlib.Data.List.Nodup

/-!
# What verifying a grammar finds

Verifying a grammar is a search along the references in its productions, which reports
undefined names on its way. What it ought to report can be said without a search, from the
expressions in the bodies (`Expr.parts`) and from which productions can be reached at all
(`Grammar.Reaches`): what is wrong with the start, then every undefined name in a production
that can be reached, then every production that cannot (`Grammar.verify_eq_append`).

That the names in a production are reported once, although cycles lead to it again and
again, is a property of the search: it comes upon no production twice (`nodup_breadthFirst`).
That no name is missed, wherever in a body it stands, is one of the references: they are the
names among all parts of the body (`Expr.references_eq_filterMap`).
-/

namespace Arbor

namespace Expr

/-- **All expressions in an expression**, itself included, in the order of the source. -/
def parts : Expr → List Expr
  | empty => [empty]
  | name m n => [name m n]
  | literal value => [literal value]
  | range lo hi => [range lo hi]
  | group e => group e :: e.parts
  | option e => option e :: e.parts
  | repetition e => repetition e :: e.parts
  | seq e f => seq e f :: (e.parts ++ f.parts)
  | alt e f => alt e f :: (e.parts ++ f.parts)

/-- The reference that an expression is, if it is a name. -/
def reference? : Expr → Option (Mark × Text)
  | name m n => some (m, n)
  | _ => none

theorem reference?_eq_some_iff {e : Expr} {r : Mark × Text} :
    e.reference? = some r ↔ e = name r.1 r.2 := by
  cases e with
  | name m n => simp [reference?, Prod.ext_iff]
  | _ => simp [reference?]

/-- **The references are the names among the parts**, in the same order. -/
theorem references_eq_filterMap (e : Expr) : e.references = e.parts.filterMap reference? := by
  induction e with
  | empty | name | literal | range => rfl
  | group e ih | option e ih | repetition e ih => exact ih
  | seq e f ihe ihf | alt e f ihe ihf =>
    show e.references ++ f.references = (e.parts ++ f.parts).filterMap reference?
    rw [ihe, ihf, List.filterMap_append]

theorem mem_references_iff {e : Expr} {r : Mark × Text} :
    r ∈ e.references ↔ name r.1 r.2 ∈ e.parts := by
  rw [references_eq_filterMap, List.mem_filterMap]
  simp only [reference?_eq_some_iff, exists_eq_right]

end Expr

namespace Grammar

/-- **The productions that can be reached**: the start, if it is a syntactic production, all
token productions, and what is referred to anywhere in the body of one that can be reached. -/
inductive Reaches (g : Grammar) (start : Text) : Text → Prop
  | start (hp : g.has start = true) (ht : isToken start = false) : Reaches g start start
  | token {n} (hp : g.has n = true) (ht : isToken n = true) : Reaches g start n
  | step {n p m k} (hp : g.get? n = some p) (hr : Expr.name m k ∈ p.body.parts)
      (hk : g.has k = true) : Reaches g start n → Reaches g start k

/-- **What is wrong with a start**: that there is no such production, or that it is a token. -/
inductive StartFlaws (g : Grammar) (start : Text) : List Flaw → Prop
  | none (h : g.has start = false) : StartFlaws g start [.noStart start]
  | token {p} (hp : g.get? start = some p) (ht : isToken start = true) :
      StartFlaws g start [.tokenStart p.mark start]
  | fit (hp : g.has start = true) (ht : isToken start = false) : StartFlaws g start []

/-- The flaw of an expression that is a name without a production. -/
def undefined? (g : Grammar) : Expr → Option Flaw
  | .name m n => if g.has n then none else some (.undefined m n)
  | _ => none

variable {g : Grammar} {start : Text}

/-! ## The search -/

theorem startFlaws_startFlaws : g.StartFlaws start (g.startFlaws start) := by
  cases hp : g.get? start with
  | none =>
    rw [startFlaws, hp]
    exact .none (by rw [has, hp]; rfl)
  | some p =>
    rw [startFlaws, hp]
    cases ht : isToken start with
    | true => exact .token hp ht
    | false => exact .fit (has_of_get? hp) ht

theorem StartFlaws.eq_nil_iff {flaws : List Flaw} (h : g.StartFlaws start flaws) :
    flaws = [] ↔ g.has start = true ∧ isToken start = false := by
  cases h with
  | none h => simp [h]
  | token hp ht => simp [ht]
  | fit hp ht => simp [hp, ht]

theorem mem_names_iff_mem_ofList {n : Text} :
    n ∈ Std.HashSet.ofList g.names ↔ g.has n = true := by
  rw [Std.HashSet.mem_ofList, List.contains_iff_mem, has_iff_mem_names]

theorem mem_roots_iff {n : Text} :
    n ∈ g.roots start ↔ n = start ∧ g.has start = true ∧ isToken start = false
      ∨ g.has n = true ∧ isToken n = true := by
  rw [roots, List.mem_append, tokenNames, List.mem_filter, has_iff_mem_names (n := n)]
  refine or_congr_left ?_
  rw [← startFlaws_startFlaws.eq_nil_iff]
  by_cases h : g.startFlaws start = []
  · simp [h]
  · simp [h]

theorem mem_referencesOf_iff {n k : Text} :
    k ∈ (g.referencesOf n).map (·.2)
      ↔ ∃ p m, g.get? n = some p ∧ Expr.name m k ∈ p.body.parts := by
  cases hp : g.get? n with
  | none => simp [referencesOf, hp]
  | some p => simp [referencesOf, hp, Expr.mem_references_iff]

/-- **The search comes upon the productions that can be reached.** -/
theorem mem_reached_iff {n : Text} : n ∈ g.reached start ↔ g.Reaches start n := by
  rw [reached, mem_breadthFirst_iff]
  constructor
  · intro h
    induction h with
    | root hr hv =>
      rcases mem_roots_iff.mp hr with ⟨rfl, hp, ht⟩ | ⟨hp, ht⟩
      · exact .start hp ht
      · exact .token hp ht
    | step hw hn _ ih =>
      obtain ⟨p, m, hp, hr⟩ := mem_referencesOf_iff.mp hn
      exact .step hp hr (mem_names_iff_mem_ofList.mp hw) ih
  · intro h
    induction h with
    | start hp ht =>
      exact .root (mem_roots_iff.mpr (.inl ⟨rfl, hp, ht⟩)) (mem_names_iff_mem_ofList.mpr hp)
    | token hp ht =>
      exact .root (mem_roots_iff.mpr (.inr ⟨hp, ht⟩)) (mem_names_iff_mem_ofList.mpr hp)
    | step hp hr hk _ ih =>
      exact .step (mem_names_iff_mem_ofList.mpr hk) (mem_referencesOf_iff.mpr ⟨_, _, hp, hr⟩) ih

/-- The productions in the order the search comes upon them. -/
def reachedProductions (g : Grammar) (start : Text) : List Production :=
  (g.reached start).filterMap g.get?

theorem mem_reachedProductions {p : Production} :
    p ∈ g.reachedProductions start ↔ p ∈ g.productions ∧ g.Reaches start p.name := by
  rw [reachedProductions, List.mem_filterMap]
  constructor
  · rintro ⟨n, hn, hp⟩
    obtain ⟨hmem, rfl⟩ := get?_eq_some_iff.mp hp
    exact ⟨hmem, mem_reached_iff.mp hn⟩
  · rintro ⟨hmem, hreach⟩
    exact ⟨p.name, mem_reached_iff.mpr hreach, get?_of_mem hmem⟩

theorem nodup_reachedProductions : (g.reachedProductions start).Nodup := by
  refine List.Nodup.filterMap ?_ nodup_breadthFirst
  intro n k p hn hk
  -- two names with one production are the name of it
  rw [← (get?_eq_some_iff.mp hn).2, ← (get?_eq_some_iff.mp hk).2]

/-! ## The flaws -/

theorem undefinedIn_of_get?_eq_none {n : Text} (h : g.get? n = none) : g.undefinedIn n = [] := by
  rw [undefinedIn, referencesOf, h]
  rfl

/-- The undefined names of a production are found part by part. -/
theorem undefinedIn_eq_filterMap {n : Text} {p : Production} (hp : g.get? n = some p) :
    g.undefinedIn n = p.body.parts.filterMap g.undefined? := by
  rw [undefinedIn, referencesOf, hp]
  show (p.body.references.filter _).map _ = _
  rw [Expr.references_eq_filterMap, List.filter_filterMap, List.map_filterMap]
  refine List.filterMap_congr fun e _ => ?_
  cases e with
  | name m n => cases h : g.has n <;> simp [Expr.reference?, undefined?, h]
  | _ => rfl

theorem flatMap_undefinedIn :
    (g.reached start).flatMap g.undefinedIn
      = (g.reachedProductions start).flatMap fun p => p.body.parts.filterMap g.undefined? := by
  rw [reachedProductions, List.filterMap_eq_flatMap_toList, List.flatMap_assoc]
  congr 1
  funext n
  cases hp : g.get? n with
  | none => exact undefinedIn_of_get?_eq_none hp
  | some p => simp [undefinedIn_eq_filterMap hp]

/-- The productions that cannot be reached are those that the search does not come upon. -/
theorem mem_unreached_iff {p : Production} :
    p ∈ g.productions.filter (·.name ∉ g.reached start)
      ↔ p ∈ g.productions ∧ ¬ g.Reaches start p.name := by
  simp [mem_reached_iff]

theorem undefinedIn_eq_nil_iff {n : Text} {p : Production} (hp : g.get? n = some p) :
    g.undefinedIn n = [] ↔ ∀ r ∈ p.body.references, g.has r.2 = true := by
  have hreferences : g.referencesOf n = p.body.references := by rw [referencesOf, hp]
  rw [undefinedIn, hreferences, List.map_eq_nil_iff, List.filter_eq_nil_iff]
  simp

/-- **A grammar has no flaws** just if there is nothing wrong with its start, every name that
is referred to has a production, and every production is reached. -/
theorem verify_eq_nil_iff :
    g.verify start = [] ↔ g.startFlaws start = []
      ∧ (∀ n p, g.get? n = some p → ∀ r ∈ p.body.references, g.has r.2 = true)
      ∧ ∀ p ∈ g.productions, p.name ∈ g.reached start := by
  have hunreached : ((g.productions.filter (·.name ∉ g.reached start)).map fun p =>
      Flaw.unreachable p.mark p.name) = [] ↔ ∀ p ∈ g.productions, p.name ∈ g.reached start := by
    rw [List.map_eq_nil_iff, List.filter_eq_nil_iff]
    simp
  show g.startFlaws start ++ (g.reached start).flatMap g.undefinedIn ++ _ = [] ↔ _
  rw [List.append_eq_nil_iff, List.append_eq_nil_iff, hunreached, List.flatMap_eq_nil_iff,
    and_assoc]
  refine and_congr_right fun _ => and_congr_left fun hreached => ?_
  constructor
  · intro h n p hp
    obtain ⟨hmem, rfl⟩ := get?_eq_some_iff.mp hp
    exact (undefinedIn_eq_nil_iff hp).mp (h _ (hreached p hmem))
  · intro h n _
    cases hp : g.get? n with
    | none => exact undefinedIn_of_get?_eq_none hp
    | some p => exact (undefinedIn_eq_nil_iff hp).mpr (h n p hp)

/-- **What verifying a grammar finds**, in this order: what is wrong with the start; every
undefined name in the body of a production that can be reached, production by production, each
of them once, and from left to right in it; every production that cannot be reached, in
the order of their names. So nothing is found just if there is nothing of the kind. -/
theorem verify_eq_append (g : Grammar) (start : Text) :
    ∃ (opening : List Flaw) (reached lost : List Production), g.StartFlaws start opening
      ∧ (reached.Nodup ∧ ∀ p, p ∈ reached ↔ p ∈ g.productions ∧ g.Reaches start p.name)
      ∧ (lost.Pairwise (fun p q => p.name < q.name)
        ∧ ∀ p, p ∈ lost ↔ p ∈ g.productions ∧ ¬ g.Reaches start p.name)
      ∧ g.verify start = opening
          ++ reached.flatMap (fun p => p.body.parts.filterMap g.undefined?)
          ++ lost.map (fun p => .unreachable p.mark p.name)
      ∧ (g.verify start = [] ↔ (g.has start = true ∧ isToken start = false)
        ∧ (∀ p ∈ g.productions, g.Reaches start p.name →
          ∀ m n, Expr.name m n ∈ p.body.parts → g.has n = true)
        ∧ ∀ p ∈ g.productions, g.Reaches start p.name) := by
  have heq : g.verify start = g.startFlaws start
      ++ (g.reachedProductions start).flatMap (fun p => p.body.parts.filterMap g.undefined?)
      ++ (g.productions.filter (·.name ∉ g.reached start)).map
        (fun p => .unreachable p.mark p.name) := by
    rw [verify, flatMap_undefinedIn]
  refine ⟨_, _, _, startFlaws_startFlaws,
    ⟨nodup_reachedProductions, fun p => mem_reachedProductions⟩,
    ⟨g.ordered.filter _, fun p => mem_unreached_iff⟩, heq, ?_⟩
  rw [verify_eq_nil_iff, startFlaws_startFlaws.eq_nil_iff]
  refine and_congr_right fun _ => ?_
  simp only [mem_reached_iff]
  refine and_congr_left fun hall => ?_
  constructor
  · intro h p hp _ m n hn
    exact h p.name p (get?_of_mem hp) (m, n) (Expr.mem_references_iff.mpr hn)
  · intro h n p hp r hr
    have hmem := (get?_eq_some_iff.mp hp).1
    exact h p hmem (hall p hmem) r.1 r.2 (Expr.mem_references_iff.mp hr)

end Grammar

end Arbor
