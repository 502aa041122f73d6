import Arbor.Token.Nullable

/-!
# The question whether an expression is nullable

A question opens and closes names on its way, and the next one is asked with what is open then.
In fact that is always what was open before: every name that a question opens is closed again, and
it was not open (`Grammar.mem_ask`). So the answer to a question does not depend on those asked
before it, and can be computed with the names handed down: a sequence is nullable if its items are,
a choice if one of its alternatives is, and a name if the body of its production is nullable when
the name is open too (`Grammar.nullableFrom_seq`, `Grammar.nullableFrom_alt`,
`Grammar.nullableFrom_name_iff`).

All of this goes by induction along a question (`Grammar.ask_induction`), from an expression to its
parts and from a name to the body of its production.
-/

namespace Arbor

namespace Grammar

variable {g : Grammar} {opened opened' : Opened} {e f : Expr} {n : Text} {p : Production}

/-- **Induction along a question.** A name that is not open leads to its production, and fewer
productions are left then. -/
theorem ask_induction (g : Grammar) {motive : Opened → Expr → Prop}
    (empty : ∀ opened, motive opened .empty)
    (literal : ∀ opened v, motive opened (.literal v))
    (range : ∀ opened lo hi, motive opened (.range lo hi))
    (option : ∀ opened e, motive opened (.option e))
    (repetition : ∀ opened e, motive opened (.repetition e))
    (group : ∀ opened e, motive opened e → motive opened (.group e))
    (seq : ∀ opened e f, motive opened e → motive opened f → motive opened (.seq e f))
    (alt : ∀ opened e f, motive opened e → motive opened f → motive opened (.alt e f))
    (name : ∀ opened mark n, (∀ p, g.get? n = some p → n ∉ opened →
      motive (opened.insert n) p.body) → motive opened (.name mark n))
    (opened : Opened) (e : Expr) : motive opened e := by
  induction hk : g.unopened opened using Nat.strongRecOn generalizing opened e with
  | ind k entered =>
    induction e with
    | empty => exact empty opened
    | literal v => exact literal opened v
    | range lo hi => exact range opened lo hi
    | option e _ => exact option opened e
    | repetition e _ => exact repetition opened e
    | group e ih => exact group opened e ih
    | seq e f ihe ihf => exact seq opened e f ihe ihf
    | alt e f ihe ihf => exact alt opened e f ihe ihf
    | name mark n =>
      refine name opened mark n fun p hp ho => ?_
      exact entered _ (hk ▸ unopened_insert_lt (mem_names_of_get? hp) ho) _ _ rfl

/-! ## One question after the other -/

theorem ask_seq : g.ask opened (.seq e f) = if (g.ask opened e).1 then
      ((g.ask (g.ask opened e).2.names f).1,
        (g.ask opened e).2.followed (g.ask (g.ask opened e).2.names f).2)
    else g.ask opened e := by
  rw [ask]

theorem ask_alt : g.ask opened (.alt e f) = if (g.ask opened e).1 then g.ask opened e
    else ((g.ask (g.ask opened e).2.names f).1,
      (g.ask opened e).2.followed (g.ask (g.ask opened e).2.names f).2) := by
  rw [ask]

theorem ask_name_of_mem {mark : Mark} (ho : n ∈ opened) :
    g.ask opened (.name mark n) = (false, .same opened) := by
  rw [ask, dif_pos ho]

theorem ask_name_of_none {mark : Mark} (hp : g.get? n = none) :
    g.ask opened (.name mark n) = (false, .same opened) := by
  rw [ask]
  split
  · rfl
  · split
    · rfl
    · next hq => exact absurd (hp.symm.trans hq) (by simp)

theorem ask_name {mark : Mark} (ho : n ∉ opened) (hp : g.get? n = some p) :
    g.ask opened (.name mark n)
      = ((g.ask (opened.insert n) p.body).1, (g.ask (opened.insert n) p.body).2.close ho) := by
  rw [ask, dif_neg ho]
  split
  · next hq => exact absurd (hp.symm.trans hq) (by simp)
  · next q hq =>
    obtain rfl := Option.some.inj (hp.symm.trans hq)
    rfl

/-- What is open after a name has been closed. -/
theorem Asked.mem_close (ho : n ∉ opened) {asked : Asked (opened.insert n)}
    (hasked : ∀ m, m ∈ asked.names ↔ m ∈ opened.insert n) (m : Text) :
    m ∈ (asked.close ho).names ↔ m ∈ opened := by
  have hclose : m ∈ (asked.close ho).names ↔ n ≠ m ∧ m ∈ asked.names :=
    Std.TreeSet.mem_erase.trans (and_congr_left' (not_congr Std.LawfulEqCmp.compare_eq_iff_eq))
  rw [hclose, hasked, mem_insert_opened]
  constructor
  · rintro ⟨hne, rfl | hm⟩
    · exact absurd rfl hne
    · exact hm
  · exact fun hm => ⟨fun h => ho (h ▸ hm), .inr hm⟩

/-- A question leaves open what was open, and its answer depends on nothing else. -/
theorem ask_congr (h : ∀ n, n ∈ opened' ↔ n ∈ opened) :
    (∀ n, n ∈ (g.ask opened' e).2.names ↔ n ∈ opened)
      ∧ (g.ask opened' e).1 = (g.ask opened e).1 := by
  induction opened, e using g.ask_induction generalizing opened' with
  | empty | literal | range | option | repetition =>
    rw [ask, ask]
    exact ⟨h, rfl⟩
  | group opened e ih =>
    rw [ask, ask]
    exact ih h
  | seq opened e f ihe ihf =>
    obtain ⟨hnames, hanswer⟩ := ihe h
    rw [ask_seq, ask_seq, hanswer]
    by_cases he : (g.ask opened e).1 = true
    · -- both last items are asked with names that are open before the sequence, too
      rw [if_pos he, if_pos he]
      obtain ⟨hlast, hthen⟩ := ihf hnames
      exact ⟨hlast, hthen.trans (ihf (ihe fun _ => .rfl).1).2.symm⟩
    · rw [if_neg he, if_neg he]
      exact ⟨hnames, hanswer⟩
  | alt opened e f ihe ihf =>
    obtain ⟨hnames, hanswer⟩ := ihe h
    rw [ask_alt, ask_alt, hanswer]
    by_cases he : (g.ask opened e).1 = true
    · rw [if_pos he, if_pos he]
      exact ⟨hnames, hanswer⟩
    · rw [if_neg he, if_neg he]
      obtain ⟨hlast, hthen⟩ := ihf hnames
      exact ⟨hlast, hthen.trans (ihf (ihe fun _ => .rfl).1).2.symm⟩
  | name opened mark n ih =>
    by_cases ho : n ∈ opened
    · rw [ask_name_of_mem ho, ask_name_of_mem ((h n).mpr ho)]
      exact ⟨h, rfl⟩
    · cases hp : g.get? n with
      | none =>
        rw [ask_name_of_none hp, ask_name_of_none hp]
        exact ⟨h, rfl⟩
      | some p =>
        have ho' : n ∉ opened' := fun hn => ho ((h n).mp hn)
        have hinsert : ∀ m, m ∈ opened'.insert n ↔ m ∈ opened.insert n := fun m => by
          rw [mem_insert_opened, mem_insert_opened, h]
        obtain ⟨hnames, hanswer⟩ := ih p hp ho hinsert
        rw [ask_name ho' hp, ask_name ho hp]
        refine ⟨fun m => ?_, hanswer⟩
        exact (Asked.mem_close ho' (fun k => (hnames k).trans (hinsert k).symm) m).trans (h m)

/-- **A question leaves open what was open.** -/
theorem mem_ask : n ∈ (g.ask opened e).2.names ↔ n ∈ opened :=
  (ask_congr fun _ => .rfl).1 n

/-! ## Answers -/

theorem nullableFrom_congr (h : ∀ n, n ∈ opened' ↔ n ∈ opened) :
    g.nullableFrom opened' e = g.nullableFrom opened e :=
  (ask_congr h).2

@[simp] theorem nullableFrom_empty : g.nullableFrom opened .empty = true := by
  rw [nullableFrom, ask]

@[simp] theorem nullableFrom_option : g.nullableFrom opened (.option e) = true := by
  rw [nullableFrom, ask]

@[simp] theorem nullableFrom_repetition : g.nullableFrom opened (.repetition e) = true := by
  rw [nullableFrom, ask]

@[simp] theorem nullableFrom_literal {v : Text} :
    g.nullableFrom opened (.literal v) = v.isEmpty := by
  rw [nullableFrom, ask]

@[simp] theorem nullableFrom_range {lo hi : Text} :
    g.nullableFrom opened (.range lo hi) = false := by
  rw [nullableFrom, ask]

@[simp] theorem nullableFrom_group :
    g.nullableFrom opened (.group e) = g.nullableFrom opened e := by
  rw [nullableFrom, ask, nullableFrom]

/-- A sequence is nullable if its items are. -/
@[simp] theorem nullableFrom_seq :
    g.nullableFrom opened (.seq e f) = (g.nullableFrom opened e && g.nullableFrom opened f) := by
  have hlast : (g.ask (g.ask opened e).2.names f).1 = g.nullableFrom opened f :=
    nullableFrom_congr fun _ => mem_ask
  unfold nullableFrom at hlast ⊢
  rw [ask_seq, ← hlast]
  cases he : (g.ask opened e).1 with
  | true => rfl
  | false => exact he

/-- A choice is nullable if one of its alternatives is. -/
@[simp] theorem nullableFrom_alt :
    g.nullableFrom opened (.alt e f) = (g.nullableFrom opened e || g.nullableFrom opened f) := by
  have hlast : (g.ask (g.ask opened e).2.names f).1 = g.nullableFrom opened f :=
    nullableFrom_congr fun _ => mem_ask
  unfold nullableFrom at hlast ⊢
  rw [ask_alt, ← hlast]
  cases he : (g.ask opened e).1 with
  | true => exact he
  | false => rfl

/-- A name is nullable if it is not opened and has a production whose body is. -/
theorem nullableFrom_name_iff {mark : Mark} :
    g.nullableFrom opened (.name mark n) = true
      ↔ n ∉ opened ∧ ∃ p, g.get? n = some p ∧ g.nullableFrom (opened.insert n) p.body = true := by
  unfold nullableFrom
  by_cases ho : n ∈ opened
  · rw [ask_name_of_mem ho]
    exact iff_of_false Bool.false_ne_true fun h => h.1 ho
  · cases hp : g.get? n with
    | none =>
      rw [ask_name_of_none hp]
      simp
    | some p =>
      rw [ask_name ho hp]
      simp [ho]

end Grammar

end Arbor
