import Arbor.Proofs.Token.Evaluation
import Arbor.Proofs.Token.Scan

/-!
# The matcher is a plain scan

The matcher of the tokenizer has one answer, a length, for both an empty match and a
failure, and asks `Grammar.nullable` where they must be told apart. It keeps a cache, and it
does not enter a production that is opened. On a grammar that is not left recursive nothing
is lost by any of that: the length and nullability together are the answer of the scan, and
the next token is the one that the scans find (`Munch.refines_scan`).

The argument for the cache and for the opened productions is the one of the parser. A
production that is opened where it is asked for has come to itself, and what the cache has
for a name is what a scan returns for it (`Munch.Replays`). A run is finite, so it also shows
that the scan returns.
-/

namespace Arbor

/-! ## A run is a scan -/

namespace Munch

open Scan (Returns Guarded)

variable {g : Grammar} {t : Text} {r s u : Rest t}

theorem literalLength_eq (v rest : Text) : literalLength v rest = (Scan.literal v rest).getD 0 := by
  unfold literalLength Scan.literal
  by_cases h : v <+: rest
  · rw [if_pos (List.isPrefixOf_iff_prefix.mpr h), if_pos h]
    rfl
  · rw [if_neg (mt List.isPrefixOf_iff_prefix.mp h), if_neg h]
    rfl

theorem rangeLength_eq (lo hi rest : Text) :
    rangeLength lo hi rest = (Scan.range lo hi rest).getD 0 := by
  unfold rangeLength Scan.range
  match rest.firstPiece? with
  | none => rfl
  | some (.stray b, width) => exact if_pos (.inl rfl)
  | some (.char c, width) =>
    dsimp only [Piece.toChar]
    by_cases h : c = Piece.replacement ∨ c < lo.firstChar ∨ hi.firstChar < c
    · rw [if_pos h, if_neg]
      · rfl
      · rintro ⟨hc, hlo, hhi⟩
        exact h.elim hc fun h => h.elim (Char.not_lt.mpr hlo) (Char.not_lt.mpr hhi)
    · rw [if_neg h, if_pos (by simpa only [not_or, Char.not_lt] using h)]
      rfl

/-- How many bytes lie before a place that is reached, if one is. -/
def lengthTo (r : Rest t) (o : Option (Rest t)) : Option Nat := o.map fun s => r.left - s.left

theorem lengthTo_via {o : Option (Rest t)} (hsr : s.left ≤ r.left)
    (ho : ∀ u ∈ o, u.left ≤ s.left) :
    (lengthTo s o).map (r.left - s.left + ·) = lengthTo r o := by
  cases o with
  | none => rfl
  | some u =>
    have hus := ho u rfl
    exact congrArg some (show r.left - s.left + (s.left - u.left) = r.left - u.left by omega)

/-- The expression that a task is about. -/
def Task.subject : Task → Expr
  | expr e | item e | many e => e

/-- Whether what a run gives for a task is what a scan returns. An expression gives the
same for an empty match and a failure. -/
def Task.Agrees (g : Grammar) (r : Rest t) (o : Option (Rest t)) : Task → Prop
  | expr e => ∃ out, Returns g e r.bytes out ∧ (lengthTo r o).getD 0 = out.getD 0
  | item e => Returns g e r.bytes (lengthTo r o)
  | many e => Returns g (.repetition e) r.bytes (lengthTo r o)

/-- Whether what the cache has for a name is what a scan returns. -/
def Replays (g : Grammar) (n : Text) (r s : Rest t) : Prop :=
  ∀ mark, Task.Agrees g r (some s) (.expr (.name mark n))

theorem agrees_here {e : Expr} {out : Option Nat} (h : Returns g e r.bytes out)
    (hout : out.getD 0 = 0) : Task.Agrees g r (some r) (.expr e) :=
  ⟨out, h, (Nat.sub_self r.left).trans hout.symm⟩

theorem agrees_drop {e : Expr} {n : Nat} {out : Option Nat} (h : Returns g e r.bytes out)
    (hn : n ≤ r.bytes.length) (hout : n = out.getD 0) :
    Task.Agrees g r (some (r.drop n)) (.expr e) := by
  refine ⟨out, h, ?_⟩
  rw [r.length_bytes] at hn
  rw [← hout]
  show r.left - (r.left - n) = n
  omega

/-- **A run gives what a scan returns**, and so does all that the cache has, if the grammar
is not left recursive. -/
theorem Run.agrees (hg : ¬ Scan.LeftRecursive g) {opened : Grammar.Opened} {task : Task}
    {c c' : PlaceCache t} {o : Option (Rest t)} (h : Run g opened r task c o c')
    (ho : Guarded g opened task.subject) (hc : c.Entries (Replays g)) :
    c'.Entries (Replays g) ∧ task.Agrees g r o := by
  induction h with
  | empty => exact ⟨hc, agrees_here .empty rfl⟩
  | literal => exact ⟨hc, agrees_drop .literal (literalLength_le ..) (literalLength_eq ..)⟩
  | range => exact ⟨hc, agrees_drop .range (rangeLength_le ..) (rangeLength_eq ..)⟩
  | group _ ih =>
    obtain ⟨hc', out, hr, hlen⟩ := ih (ho.imp fun _ => .group) hc
    exact ⟨hc', out, hr.group, hlen⟩
  | option _ ih =>
    obtain ⟨hc', out, hr, hlen⟩ := ih (ho.imp fun _ => .option) hc
    exact ⟨hc', _, hr.option, hlen⟩
  | repetition _ ih =>
    obtain ⟨hc', hr⟩ := ih (ho.imp fun _ => .repetition) hc
    exact ⟨hc', _, hr, rfl⟩
  | @alt _ r _ _ _ a _ b _ h₁ h₂ ih₁ ih₂ =>
    obtain ⟨hc₁, x, hx, hxa⟩ := ih₁ (ho.imp fun _ => .altLeft) hc
    obtain ⟨hc₂, y, hy, hyb⟩ := ih₂ (ho.imp fun _ => .altRight) hc₁
    refine ⟨hc₂, _, hx.alt hy, ?_⟩
    have ha := h₁.left_le a rfl
    have hb := h₂.left_le b rfl
    replace hxa : r.left - a.left = x.getD 0 := hxa
    replace hyb : r.left - b.left = y.getD 0 := hyb
    have hmax : (Scan.longest x y).getD 0 = max (x.getD 0) (y.getD 0) := by
      cases x <;> cases y <;> simp [Scan.longest]
    rw [hmax, ← hxa, ← hyb]
    show r.left - (if b.left < a.left then b else a).left = _
    split <;> omega
  | @seq _ r _ _ _ o _ _ ih =>
    obtain ⟨hc', hr⟩ := ih ho hc
    refine ⟨hc', _, hr, ?_⟩
    cases o with
    | none => exact Nat.sub_self r.left
    | some s => rfl
  | hit hs => exact ⟨hc, hc _ _ _ hs _⟩
  | @guard _ _ _ n _ _ hn =>
    -- a production that is open where it is asked for has come to itself
    exact absurd ⟨n, ho n hn n .name⟩ hg
  | undefined _ _ hp => exact ⟨hc, agrees_here (.undefined hp) rfl⟩
  | @enter _ r _ n _ p s _ _ _ hp hle _ ih =>
    obtain ⟨hc', out, hr, hlen⟩ := ih (ho.body hp) hc
    have hname : Replays g n r s := fun mark => ⟨out, hr.name hp, hlen⟩
    exact ⟨hc'.insert hle hname, hname _⟩
  | @item _ r e _ s _ _ hn h ih =>
    obtain ⟨hc', out, hr, hlen⟩ := ih ho hc
    refine ⟨hc', ?_⟩
    replace hlen : r.left - s.left = out.getD 0 := hlen
    have hsr := h.left_le s rfl
    show Returns g e r.bytes (some (r.left - s.left))
    cases out with
    | some n =>
      rw [hlen]
      exact hr
    | none =>
      -- the item leads nowhere, so it is nullable and does not fail
      have hnull := hn (by have : r.left - s.left = 0 := hlen; omega)
      rw [hr.nullable_eq_false] at hnull
      exact absurd hnull (by simp)
  | @itemFail _ r e _ _ _ hn _ ih =>
    obtain ⟨hc', out, hr, hlen⟩ := ih ho hc
    refine ⟨hc', ?_⟩
    replace hlen : r.left - r.left = out.getD 0 := hlen
    show Returns g e r.bytes none
    cases out with
    | none => exact hr
    | some n =>
      -- the item is not nullable, so this is no empty match
      obtain rfl : n = 0 := by
        have : r.left - r.left = n := hlen
        omega
      rw [Grammar.nullable_of_matches_nil hr.matches_nil rfl] at hn
      exact absurd hn (by simp)
  | bothFirst _ ih =>
    obtain ⟨hc', hr⟩ := ih (ho.imp fun _ => .seqLeft) hc
    exact ⟨hc', Returns.seqFirst hr⟩
  | @bothHere _ r e f _ _ o _ h₁ h₂ ih₁ ih₂ =>
    obtain ⟨hc₁, hr₁⟩ := ih₁ (ho.imp fun _ => .seqLeft) hc
    replace hr₁ : Returns g e r.bytes (some (r.left - r.left)) := hr₁
    have hnil : Matches g e [] := by
      rw [Nat.sub_self] at hr₁
      exact hr₁.matches_nil
    obtain ⟨hc₂, hr₂⟩ := ih₂ (ho.imp fun _ => .seqRight hnil) hc₁
    refine ⟨hc₂, ?_⟩
    replace hr₂ : Returns g f r.bytes (lengthTo r o) := hr₂
    show Returns g (.seq e f) r.bytes (lengthTo r o)
    rw [← lengthTo_via (Nat.le_refl r.left) h₂.left_le]
    rw [← Rest.drop_bytes (Nat.le_refl r.left)] at hr₂
    exact hr₁.seq hr₂
  | @bothThere _ r e f _ s _ o _ hlt _ h₂ ih₁ ih₂ =>
    obtain ⟨hc₁, hr₁⟩ := ih₁ (ho.imp fun _ => .seqLeft) hc
    -- the first item took a byte, so nothing is open in the second
    obtain ⟨hc₂, hr₂⟩ := ih₂ Scan.guarded_empty hc₁
    refine ⟨hc₂, ?_⟩
    replace hr₁ : Returns g e r.bytes (some (r.left - s.left)) := hr₁
    replace hr₂ : Returns g f s.bytes (lengthTo s o) := hr₂
    show Returns g (.seq e f) r.bytes (lengthTo r o)
    rw [← lengthTo_via (Nat.le_of_lt hlt) h₂.left_le]
    rw [← Rest.drop_bytes (Nat.le_of_lt hlt)] at hr₂
    exact hr₁.seq hr₂
  | @manyLast _ r e _ _ _ ih =>
    obtain ⟨hc', out, hr, hlen⟩ := ih ho hc
    refine ⟨hc', ?_⟩
    replace hlen : r.left - r.left = out.getD 0 := hlen
    show Returns g (.repetition e) r.bytes (some (r.left - r.left))
    rw [Nat.sub_self] at hlen ⊢
    exact hr.repetitionLast hlen.symm
  | @manyMore _ r e _ s _ o _ hlt _ h₂ ih₁ ih₂ =>
    obtain ⟨hc₁, out, hr₁, hlen⟩ := ih₁ ho hc
    obtain ⟨hc₂, hr₂⟩ := ih₂ Scan.guarded_empty hc₁
    refine ⟨hc₂, ?_⟩
    replace hlen : r.left - s.left = out.getD 0 := hlen
    replace hr₂ : Returns g (.repetition e) s.bytes (lengthTo s o) := hr₂
    show Returns g (.repetition e) r.bytes (lengthTo r o)
    obtain rfl : out = some (r.left - s.left) := by
      cases out with
      | none => exact absurd hlen (by simp; omega)
      | some n => exact congrArg some hlen.symm
    rw [← lengthTo_via (Nat.le_of_lt hlt) h₂.left_le]
    rw [← Rest.drop_bytes (Nat.le_of_lt hlt)] at hr₂
    exact hr₁.repetitionMore (by omega) hr₂

/-- **The caches that come about**: matches share the cache of those before them, and the
first one starts with nothing. -/
inductive Warmed (g : Grammar) {t : Text} : PlaceCache t → Prop
  | cold : Warmed g ∅
  | after {c} (r : Rest t) (e : Expr) : Warmed g c → Warmed g (expr g ∅ r e c).2

theorem Warmed.replays (hg : ¬ Scan.LeftRecursive g) {c : PlaceCache t} (h : Warmed g c) :
    c.Entries (Replays g) := by
  induction h with
  | cold => exact PlaceCache.entries_empty
  | after r e _ ih => exact ((run_expr g ∅ r e _).agrees hg Scan.guarded_empty ih).1

/-- The length that a match has is the one that a scan returns, if it does not fail. -/
theorem exists_returns (hg : ¬ Scan.LeftRecursive g) {c : PlaceCache t} (hc : Warmed g c)
    (r : Rest t) (e : Expr) :
    ∃ out, Returns g e r.bytes out ∧ (expr g ∅ r e c).1.length = out.getD 0 :=
  ((run_expr g ∅ r e c).agrees hg Scan.guarded_empty (hc.replays hg)).2

end Munch

/-! ## Tokens -/

namespace Scan

/-- **The token that a scan finds** at the start of a text, its kind and its bytes: that of
the token production with the longest match, the first name of equals, or one byte of an
error if none of them matches anything. -/
inductive Finds (g : Grammar) (rest : Text) : (kind literal : Text) → Prop
  | winner {p n} (hp : p ∈ g.tokenProductions) (hn : 0 < n)
      (hr : Returns g p.body rest (some n))
      (hfirst : ∀ q ∈ g.tokenProductions, ∀ k, Returns g q.body rest (some k) →
        k < n ∨ k = n ∧ p.name ≤ q.name) : Finds g rest p.name (rest.take n)
  | error (h : ∀ q ∈ g.tokenProductions, ∀ k, Returns g q.body rest (some k) → k = 0) :
      Finds g rest Token.errorKind (rest.take 1)

/-- It is the choice by what scans return. -/
theorem finds_iff_chooses {g : Grammar} {rest kind literal : Text} :
    Finds g rest kind literal ↔ ∃ n,
      g.Chooses (fun q k => Returns g q.body rest (some k)) kind n ∧ literal = rest.take n := by
  constructor
  · rintro (⟨hp, hn, hr, hfirst⟩ | h)
    · exact ⟨_, .winner hp hn hr hfirst, rfl⟩
    · exact ⟨_, .error h, rfl⟩
  · rintro ⟨n, ⟨hp, hn, hr, hfirst⟩ | h, rfl⟩
    · exact .winner hp hn hr hfirst
    · exact .error h

/-- There is one such token. -/
theorem Finds.unique {g : Grammar} {rest kind kind' literal literal' : Text}
    (h : Finds g rest kind literal) (h' : Finds g rest kind' literal') :
    kind = kind' ∧ literal = literal' := by
  obtain ⟨n, hn, rfl⟩ := finds_iff_chooses.mp h
  obtain ⟨n', hn', rfl⟩ := finds_iff_chooses.mp h'
  obtain ⟨rfl, rfl⟩ := hn.unique hn'
  exact ⟨rfl, rfl⟩

/-- A literal that does not stand there is not matched. -/
theorem not_returns_literal {g : Grammar} {rest w : Text} {k : Nat} (hw : ¬ w <+: rest) :
    ¬ Returns g (.literal w) rest (some k) := by
  intro hk
  have hnone : some k = literal w rest := hk.unique .literal
  rw [literal, if_neg hw] at hnone
  cases hnone

/-- Where no literal stands there is an error. -/
theorem finds_error {g : Grammar} {rest : Text}
    (h : ∀ q ∈ g.tokenProductions, ∃ w, q.body = .literal w ∧ ¬ w <+: rest) :
    Finds g rest Token.errorKind (rest.take 1) := by
  refine .error fun q hq k hk => ?_
  obtain ⟨w, hw, hno⟩ := h q hq
  rw [hw] at hk
  exact absurd hk (not_returns_literal hno)

/-- A literal is found where it stands and no other token does. -/
theorem finds_literal {g : Grammar} {rest v : Text} {p : Production} (hp : p ∈ g.tokenProductions)
    (hbody : p.body = .literal v) (hv : 0 < v.length) (hrest : v <+: rest)
    (hothers : ∀ q ∈ g.tokenProductions, q ≠ p → ∃ w, q.body = .literal w ∧ ¬ w <+: rest) :
    Finds g rest p.name v := by
  have hfound : Returns g p.body rest (some v.length) := by
    have hreturns : Returns g (.literal v) rest (literal v rest) := .literal
    rwa [literal, if_pos hrest, ← hbody] at hreturns
  have hfinds : Finds g rest p.name (rest.take v.length) := by
    refine .winner hp hv hfound fun q hq k hk => ?_
    by_cases hqp : q = p
    · subst hqp
      exact .inr ⟨Option.some.inj (hk.unique hfound), List.le_refl _⟩
    · obtain ⟨w, hw, hno⟩ := hothers q hq hqp
      rw [hw] at hk
      exact absurd hk (not_returns_literal hno)
  rwa [← List.prefix_iff_eq_take.mp hrest] at hfinds

end Scan

namespace Candidate

open Scan (Returns)

variable {t : Text} {r : Rest t}

/-- **Whether a candidate is the best of the productions tried**: none of them takes a byte
in a scan, or it is that of the first one with the longest scan. -/
def IsBestOf (g : Grammar) (tried : List Production) (best : Candidate r) : Prop :=
  (best.stop.length = 0 ∧ best.kind = Token.errorKind
      ∧ ∀ q ∈ tried, ∀ k, Returns g q.body r.bytes (some k) → k = 0)
    ∨ ∃ p ∈ tried, best.kind = p.name ∧ 0 < best.stop.length
      ∧ Returns g p.body r.bytes (some best.stop.length)
      ∧ ∀ q ∈ tried, ∀ k, Returns g q.body r.bytes (some k) →
        k < best.stop.length ∨ k = best.stop.length ∧ p.name ≤ q.name

end Candidate

/-- **The longest match is the best of all token productions.** -/
theorem Grammar.isBestOf_longest {g : Grammar} {t : Text} (hg : ¬ Scan.LeftRecursive g)
    (r : Rest t) : (g.longest r).IsBestOf g g.tokenProductions := by
  refine isFirstOf_longest (P := fun c => c.Entries (Munch.Replays g)) PlaceCache.entries_empty ?_
  intro p _ c s c' hc hrun
  obtain ⟨hc', out, hr, hlen⟩ := hrun.agrees hg Scan.guarded_empty hc
  replace hlen : r.left - s.left = out.getD 0 := hlen
  refine ⟨hc', fun k hk => ?_, fun hpos => ?_⟩
  · obtain rfl := hr.unique hk
    exact hlen.symm
  · cases out with
    | none => exact absurd hlen (Nat.ne_of_gt hpos)
    | some n => rwa [hlen]

namespace Tokenizer

variable {t : Text} {z : Tokenizer t}

/-- The next token is the one that a scan finds, and an error if the scans take
nothing. -/
theorem next_finds (hg : ¬ Scan.LeftRecursive z.grammar) (he : z.atEnd = false) :
    Scan.Finds z.grammar z.rest.bytes z.next.1.kind z.next.1.literal
      ∧ (z.isStuck = true ↔ ∀ q ∈ z.grammar.tokenProductions, ∀ k,
        Scan.Returns z.grammar q.body z.rest.bytes (some k) → k = 0) := by
  obtain ⟨hchoice, hliteral, hstuck⟩ := next_chooses he (Grammar.isBestOf_longest hg z.rest)
  exact ⟨Scan.finds_iff_chooses.mpr ⟨_, hchoice, hliteral⟩, hstuck⟩

end Tokenizer

/-! ## A sample

Identifiers whose tail is a token of its own, and may be empty. At the start of `ab` both
take all of the text, and the identifier has the first name. -/

namespace Sample

open Scan (Returns)

/-- The token `Ident = letter Tail .` -/
def ident : Production :=
  ⟨utf8 "Ident", ⟨[], 1, 1⟩,
    .seq (.name ⟨[], 1, 9⟩ (utf8 "letter")) (.name ⟨[], 1, 16⟩ (utf8 "Tail"))⟩

/-- The token `Tail = { letter } .` -/
def tail : Production :=
  ⟨utf8 "Tail", ⟨[], 2, 1⟩, .repetition (.name ⟨[], 2, 10⟩ (utf8 "letter"))⟩

/-- The production `letter = "a" … "z" .` -/
def letter : Production := ⟨utf8 "letter", ⟨[], 3, 1⟩, .range (utf8 "a") (utf8 "z")⟩

def identifiers : Grammar := .ofProductions [ident, tail, letter]

theorem tokenProductions_identifiers : identifiers.tokenProductions = [ident, tail] :=
  Grammar.tokenProductions_ofProductions _

theorem get?_identifiers (n : Text) :
    identifiers.get? n = [ident, tail, letter].find? (·.name = n) :=
  Grammar.get?_ofProductions _ n

/-- Identifiers and tails refer leftmost to letters, and letters to nothing. -/
theorem eq_of_scan_leftRefers (a b : Text) (h : Scan.LeftRefers identifiers a b) :
    a ≠ utf8 "letter" ∧ b = utf8 "letter" := by
  obtain ⟨p, hp, hb⟩ := h
  obtain ⟨hm, ha⟩ := Grammar.mem_of_get?_ofProductions hp
  simp only [List.mem_cons, List.not_mem_nil, or_false] at hm
  rcases hm with rfl | rfl | rfl
  · refine ⟨ha ▸ by decide, ?_⟩
    cases hb with
    | seqLeft hb =>
      cases hb
      rfl
    | seqRight he =>
      -- no letter is empty
      obtain ⟨-, q, hq, hn⟩ :=
        Grammar.nullableFrom_name_iff.mp (Grammar.nullable_of_matches_nil he rfl)
      obtain rfl := Option.some.inj ((get?_identifiers _).symm.trans hq)
      rw [letter, Grammar.nullableFrom_range] at hn
      exact absurd hn (by simp)
  · refine ⟨ha ▸ by decide, ?_⟩
    cases hb with
    | repetition hb =>
      cases hb
      rfl
  · cases hb

theorem not_scan_leftRecursive : ¬ Scan.LeftRecursive identifiers :=
  Scan.not_leftRecursive_of_leaves fun a b h =>
    (eq_of_scan_leftRefers a b h).imp_right not_not_intro

theorem returns_letter {mark : Mark} (rest : Text) :
    Returns identifiers (.name mark (utf8 "letter")) rest
      (Scan.range (utf8 "a") (utf8 "z") rest) :=
  .name (get?_identifiers _) .range

theorem returns_tail_b : Returns identifiers tail.body (utf8 "b") (some 1) :=
  .repetitionMore (returns_letter (utf8 "b")) (by decide)
    (.repetitionLast (returns_letter []) rfl)

theorem returns_tail : Returns identifiers tail.body (utf8 "ab") (some 2) :=
  .repetitionMore (returns_letter (utf8 "ab")) (by decide) returns_tail_b

theorem returns_ident : Returns identifiers ident.body (utf8 "ab") (some 2) :=
  .seq (returns_letter (utf8 "ab")) (.name (get?_identifiers _) returns_tail_b)

theorem finds_ident : Scan.Finds identifiers (utf8 "ab") (utf8 "Ident") (utf8 "ab") := by
  refine .winner (p := ident) (n := 2) ?_ (by decide) returns_ident ?_
  · rw [tokenProductions_identifiers]
    exact List.mem_cons_self
  · intro q hq k hk
    rw [tokenProductions_identifiers] at hq
    rcases List.mem_cons.mp hq with rfl | hq
    · exact .inr ⟨Option.some.inj (hk.unique returns_ident), List.le_refl _⟩
    · obtain rfl := List.mem_singleton.mp hq
      exact .inr ⟨Option.some.inj (hk.unique returns_tail), by decide⟩

end Sample

/-! ## The refinement -/

/-- **The matcher is a plain scan.** On a grammar that is not left recursive, the length that
an expression matches, whatever the cache, and whether it is nullable are together the answer
of the scan: a positive length, an empty match, or a failure. So the next token is the one
that the scans find, and it is an error just where none of them takes a byte. -/
theorem Munch.refines_scan {g : Grammar} (hg : ¬ Scan.LeftRecursive g) {t : Text} :
    (∀ c : PlaceCache t, Warmed g c → ∀ (e : Expr) (r : Rest t),
      (∀ n, 0 < n → ((expr g ∅ r e c).1.length = n ↔ Scan.Returns g e r.bytes (some n)))
        ∧ ((expr g ∅ r e c).1.length = 0 ∧ g.nullable e = true
          ↔ Scan.Returns g e r.bytes (some 0))
        ∧ ((expr g ∅ r e c).1.length = 0 ∧ g.nullable e = false
          ↔ Scan.Returns g e r.bytes none))
      ∧ ∀ z : Tokenizer t, z.grammar = g → z.atEnd = false →
        (∀ kind literal, z.next.1.kind = kind ∧ z.next.1.literal = literal
          ↔ Scan.Finds g z.rest.bytes kind literal)
        ∧ (z.isStuck = true ↔ ∀ q ∈ g.tokenProductions, ∀ k,
          Scan.Returns g q.body z.rest.bytes (some k) → k = 0) := by
  refine ⟨fun c hc e r => ?_, ?_⟩
  · obtain ⟨out, hr, hlen⟩ := exists_returns hg hc r e
    rw [hlen]
    cases out with
    | none =>
      have hnull := hr.nullable_eq_false
      refine ⟨fun n hn => iff_of_false (Nat.ne_of_lt hn) fun h => ?_,
        iff_of_false (fun h => ?_) fun h => ?_, iff_of_true ⟨rfl, hnull⟩ hr⟩
      · exact absurd (hr.unique h) (by simp)
      · rw [hnull] at h
        exact absurd h.2 (by simp)
      · exact absurd (hr.unique h) (by simp)
    | some n =>
      have hsome : ∀ k, n = k ↔ Scan.Returns g e r.bytes (some k) := by
        intro k
        constructor
        · rintro rfl
          exact hr
        · exact fun h => Option.some.inj (hr.unique h)
      refine ⟨fun k _ => hsome k, ⟨fun h => (hsome 0).mp h.1, fun h => ?_⟩,
        iff_of_false (fun h => ?_) fun h => absurd (hr.unique h) (by simp)⟩
      · exact ⟨(hsome 0).mpr h, Grammar.nullable_of_matches_nil h.matches_nil rfl⟩
      · obtain ⟨rfl, hnull⟩ : n = 0 ∧ g.nullable e = false := h
        rw [Grammar.nullable_of_matches_nil hr.matches_nil rfl] at hnull
        exact absurd hnull (by simp)
  · rintro z rfl he
    obtain ⟨hfinds, hstuck⟩ := Tokenizer.next_finds hg he
    refine ⟨fun kind literal => ⟨?_, hfinds.unique⟩, hstuck⟩
    rintro ⟨rfl, rfl⟩
    exact hfinds

theorem Munch.refines_scan_identifiers :
    ¬ Scan.LeftRecursive Sample.identifiers
      ∧ (expr Sample.identifiers ∅ (.start (utf8 "ab")) Sample.ident.body ∅).1.length = 2
      ∧ (Tokenizer.start Sample.identifiers (utf8 "ab")).next.1.kind = utf8 "Ident"
      ∧ (Tokenizer.start Sample.identifiers (utf8 "ab")).next.1.literal = utf8 "ab" := by
  obtain ⟨hmunch, hnext⟩ := refines_scan Sample.not_scan_leftRecursive (t := utf8 "ab")
  refine ⟨Sample.not_scan_leftRecursive, ?_, ?_⟩
  · exact ((hmunch ∅ .cold Sample.ident.body (.start _)).1 2 (by decide)).mpr Sample.returns_ident
  · exact ((hnext (.start Sample.identifiers _) rfl rfl).1 _ _).mpr Sample.finds_ident

end Arbor
