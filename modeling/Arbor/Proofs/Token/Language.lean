import Arbor.Text.Piece
import Arbor.Proofs.Token.Asking

/-!
# The language of an expression

What an expression means as a pattern of texts can be said without a matcher:
`Matches g e t` is the least relation that is closed under one rule for each form of
expression. A choice may take either side and a repetition may stop anywhere. A name
stands for the body of its production, and a name without a production matches
nothing.

`Grammar.nullable` decides whether the empty text is one of them
(`Grammar.matches_nil_of_nullable`, `Grammar.nullable_of_matches_nil`). The second
half has to do with the productions that are opened while a name is followed: an empty
match of a production that needs the production itself can do without the outer one.
So opening a production changes the answer only where the production is not nullable
even when it is opened (`Grammar.nullableFrom_insert`).
-/

namespace Arbor

/-- **The language of an expression**: the texts that it matches. -/
inductive Matches (g : Grammar) : Expr → Text → Prop
  /-- The empty body matches the empty text. -/
  | empty : Matches g .empty []
  /-- A literal matches itself. -/
  | literal {v} : Matches g (.literal v) v
  /-- A range matches one character between the first characters of its bounds. -/
  | range {lo hi c} (hlo : lo.firstChar ≤ c) (hhi : c ≤ hi.firstChar) :
      Matches g (.range lo hi) (String.utf8EncodeChar c)
  /-- A name matches what the body of its production does. -/
  | name {mark n p t} (hp : g.get? n = some p) : Matches g p.body t → Matches g (.name mark n) t
  /-- A group matches what its body does. -/
  | group {e t} : Matches g e t → Matches g (.group e) t
  /-- A sequence matches what its items do, one after the other. -/
  | seq {e f t u} : Matches g e t → Matches g f u → Matches g (.seq e f) (t ++ u)
  /-- A choice matches what its first side does. -/
  | altLeft {e f t} : Matches g e t → Matches g (.alt e f) t
  /-- Or it matches what its other side does. -/
  | altRight {e f t} : Matches g f t → Matches g (.alt e f) t
  /-- An option may be absent. -/
  | absent {e} : Matches g (.option e) []
  /-- Or it may be present. -/
  | present {e t} : Matches g e t → Matches g (.option e) t
  /-- A repetition may end. -/
  | done {e} : Matches g (.repetition e) []
  /-- Or it may go on with one more occurrence. -/
  | more {e t u} : Matches g e t → Matches g (.repetition e) u → Matches g (.repetition e) (t ++ u)

namespace Grammar

variable {g : Grammar} {opened opened' : Opened} {e : Expr} {n : Text} {p : Production}

/-! ## What is nullable matches the empty text -/

theorem matches_nil_of_nullableFrom (h : g.nullableFrom opened e = true) : Matches g e [] := by
  induction opened, e using g.ask_induction with
  | empty => exact .empty
  | option => exact .absent
  | repetition => exact .done
  | literal opened v =>
    rw [nullableFrom_literal] at h
    rw [← List.isEmpty_iff.mp h]
    exact .literal
  | range => exact absurd h (by simp)
  | group opened e ih =>
    rw [nullableFrom_group] at h
    exact .group (ih h)
  | seq opened e f ihe ihf =>
    rw [nullableFrom_seq] at h
    obtain ⟨he, hf⟩ := Bool.and_eq_true_iff.mp h
    exact .seq (ihe he) (ihf hf)
  | alt opened e f ihe ihf =>
    rw [nullableFrom_alt] at h
    rcases Bool.or_eq_true_iff.mp h with he | hf
    · exact .altLeft (ihe he)
    · exact .altRight (ihf hf)
  | name opened mark n ih =>
    obtain ⟨ho, p, hp, hbody⟩ := nullableFrom_name_iff.mp h
    exact .name hp (ih p hp ho hbody)

theorem matches_nil_of_nullable (h : g.nullable e = true) : Matches g e [] :=
  matches_nil_of_nullableFrom h

/-! ## What matches the empty text is nullable -/

/-- With fewer productions opened no less is nullable. -/
theorem nullableFrom_of_subset (h : g.nullableFrom opened e = true)
    (hsub : ∀ m, m ∈ opened' → m ∈ opened) : g.nullableFrom opened' e = true := by
  induction opened, e using g.ask_induction generalizing opened' with
  | empty | option | repetition => simp
  | literal =>
    rw [nullableFrom_literal] at h ⊢
    exact h
  | range => exact absurd h (by simp)
  | group opened e ih =>
    rw [nullableFrom_group] at h ⊢
    exact ih h hsub
  | seq opened e f ihe ihf =>
    rw [nullableFrom_seq] at h
    obtain ⟨he, hf⟩ := Bool.and_eq_true_iff.mp h
    rw [nullableFrom_seq, ihe he hsub, ihf hf hsub, Bool.true_and]
  | alt opened e f ihe ihf =>
    rw [nullableFrom_alt] at h
    rw [nullableFrom_alt, Bool.or_eq_true]
    exact (Bool.or_eq_true_iff.mp h).imp (fun he => ihe he hsub) fun hf => ihf hf hsub
  | name opened mark n ih =>
    obtain ⟨ho, p, hp, hbody⟩ := nullableFrom_name_iff.mp h
    have hinsert : ∀ m, m ∈ opened'.insert n → m ∈ opened.insert n := fun m hm => by
      rw [mem_insert_opened] at hm ⊢
      exact hm.imp_right (hsub m)
    exact nullableFrom_name_iff.mpr ⟨fun hn => ho (hsub n hn), p, hp, ih p hp ho hbody hinsert⟩

/-- **Opening one more production** leaves nullable what is nullable, unless the
production is nullable when it is opened itself. -/
theorem nullableFrom_insert (hp : g.get? n = some p) (h : g.nullableFrom opened e = true) :
    g.nullableFrom (opened.insert n) e = true
      ∨ g.nullableFrom (opened.insert n) p.body = true := by
  induction opened, e using g.ask_induction with
  | empty | option | repetition => exact .inl (by simp)
  | literal =>
    rw [nullableFrom_literal] at h ⊢
    exact .inl h
  | range => exact absurd h (by simp)
  | group opened e ih =>
    rw [nullableFrom_group] at h ⊢
    exact ih h
  | seq opened e f ihe ihf =>
    rw [nullableFrom_seq] at h
    obtain ⟨he, hf⟩ := Bool.and_eq_true_iff.mp h
    rw [nullableFrom_seq, Bool.and_eq_true]
    exact (ihe he).elim (fun he => (ihf hf).imp_left fun hf => ⟨he, hf⟩) .inr
  | alt opened e f ihe ihf =>
    rw [nullableFrom_alt] at h
    rw [nullableFrom_alt, Bool.or_eq_true]
    rcases Bool.or_eq_true_iff.mp h with he | hf
    · exact (ihe he).imp_left .inl
    · exact (ihf hf).imp_left .inr
  | name opened mark m ih =>
    obtain ⟨ho, q, hq, hbody⟩ := nullableFrom_name_iff.mp h
    by_cases hm : n = m
    · -- this is the production that is opened, and its body is nullable here
      subst hm
      obtain rfl := Option.some.inj (hp.symm.trans hq)
      exact .inr hbody
    · refine (ih q hq ho hbody).imp (fun hb => ?_) fun hb =>
        nullableFrom_of_subset hb fun k hk => ?_
      · refine nullableFrom_name_iff.mpr ⟨?_, q, hq, nullableFrom_of_subset hb fun k hk => ?_⟩
        · rw [mem_insert_opened]
          exact fun hk => hk.elim (fun hk => hm hk.symm) ho
        · rw [mem_insert_opened, mem_insert_opened] at hk ⊢
          exact or_left_comm.mp hk
      · rw [mem_insert_opened] at hk ⊢
        exact hk.imp_right fun hk => mem_insert_opened.mpr (.inr hk)

theorem nullable_name {mark : Mark} (hp : g.get? n = some p) (h : g.nullable p.body = true) :
    g.nullable (.name mark n) = true :=
  nullableFrom_name_iff.mpr
    ⟨Std.TreeSet.not_mem_emptyc, p, hp, (nullableFrom_insert hp h).elim id id⟩

/-- **What matches the empty text is nullable.** -/
theorem nullable_of_matches_nil {t : Text} (h : Matches g e t) (ht : t = []) :
    g.nullable e = true := by
  induction h with
  | empty | absent | present | done | more => simp [nullable]
  | literal => simp [nullable, ht]
  | range => exact absurd ht String.utf8EncodeChar_ne_nil
  | name hp _ ih => exact nullable_name hp (ih ht)
  | group _ ih =>
    rw [nullable, nullableFrom_group]
    exact ih ht
  | seq _ _ ih₁ ih₂ =>
    obtain ⟨rfl, rfl⟩ := List.append_eq_nil_iff.mp ht
    rw [nullable, nullableFrom_seq, Bool.and_eq_true]
    exact ⟨ih₁ rfl, ih₂ rfl⟩
  | altLeft _ ih =>
    rw [nullable, nullableFrom_alt, Bool.or_eq_true]
    exact .inl (ih ht)
  | altRight _ ih =>
    rw [nullable, nullableFrom_alt, Bool.or_eq_true]
    exact .inr (ih ht)

/-- **The question is answered exactly.** Asked with nothing open, it is answered by yes just if the
expression matches the empty text, whatever cycles there are among the productions; and nothing is
left open. -/
theorem ask_iff_matches_nil (g : Grammar) (e : Expr) :
    ((g.ask ∅ e).1 = true ↔ Matches g e []) ∧ (g.ask ∅ e).2.names.isEmpty = true := by
  refine ⟨⟨matches_nil_of_nullable, fun h => nullable_of_matches_nil h rfl⟩, ?_⟩
  refine Std.TreeSet.isEmpty_iff_forall_not_mem.mpr fun n hn => ?_
  exact Std.TreeSet.not_mem_emptyc (mem_ask.mp hn)

end Grammar

end Arbor
