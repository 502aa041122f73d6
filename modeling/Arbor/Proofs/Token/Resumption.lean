import Arbor.Proofs.Token.Lossless

/-!
# Going on with a text

A tokenizer that has taken some tokens goes on as if the text began where it stands. The
tokens from there on are those of what is left of the text, cut on its own, with every
position counted from the one that was reached (`Tokenizer.tokens_resumed`).

There are two things to see. What the matcher finds depends only on the bytes from its place
on: a run in a text is a run in every text that ends with it, and the caches of the two runs
have the same places in them, because they are kept by the number of bytes left and not by the
offset (`Munch.Run.within`). That holds of every rule of the matcher, and so of every grammar.
And to advance a position that is counted from another is to advance and then count
(`Position.shift_after`).
-/

namespace Arbor

/-! ## Positions counted from another -/

namespace Position

/-- **A position counted from another**: where the position `q` of a text is, if the text
itself starts at `p`. On the first line the columns go on from that of `p`. -/
def shift (p q : Position) : Position where
  offset := p.offset + q.offset
  line := p.line + (q.line - 1)
  column := if q.line = 1 then p.column + (q.column - 1) else q.column

@[simp] theorem shift_origin (p : Position) : p.shift .origin = p := by
  simp [shift, origin]

theorem shift_advance (p : Position) {q : Position} (hq : 1 ≤ q.line) (b : UInt8) :
    p.shift (q.advance b) = (p.shift q).advance b := by
  unfold advance
  split
  · -- behind a newline the first line is over
    have hline : q.line + 1 ≠ 1 := by omega
    rw [shift, shift]
    simp only [hline, ↓reduceIte, mk.injEq, and_true]
    omega
  · rw [shift, shift]
    simp only [mk.injEq, true_and]
    split <;> omega

theorem one_le_line_after {q : Position} (hq : 1 ≤ q.line) (u : Text) : 1 ≤ (q.after u).line := by
  induction u generalizing q with
  | nil => exact hq
  | cons b u ih =>
    refine ih (q := q.advance b) ?_
    unfold advance
    split
    · show 1 ≤ q.line + 1
      omega
    · exact hq

/-- **To go on is to be counted from there.** -/
theorem shift_after (p : Position) {q : Position} (hq : 1 ≤ q.line) (u : Text) :
    p.shift (q.after u) = (p.shift q).after u := by
  induction u generalizing q with
  | nil => rfl
  | cons b u ih =>
    have hb : 1 ≤ (q.advance b).line := one_le_line_after hq [b]
    show p.shift ((q.advance b).after u) = ((p.shift q).advance b).after u
    rw [ih hb, shift_advance p hq]

end Position

/-- A span counted from a position. -/
def Span.shift (p : Position) (s : Span) : Span := ⟨p.shift s.start, p.shift s.stop⟩

/-- A token of a text that starts at a position: only its span is another one. -/
def Token.shift (p : Position) (a : Token) : Token := { a with span := a.span.shift p }

section Within

variable {u t : Text}

/-! ## Places of a text that ends another -/

/-- A place of a text, in a text that ends with it. -/
def Rest.within (h : u <:+ t) (r : Rest u) : Rest t where
  bytes := r.bytes
  left := r.left
  left_le := Nat.le_trans r.left_le h.length_le
  bytes_eq := by
    obtain ⟨before, rfl⟩ := h
    rw [r.bytes_eq, List.length_append, Nat.add_sub_assoc r.left_le, List.drop_append]
    simp

/-- **Whether a cache has what another one has**, as places of the longer text. -/
def PlaceCache.Within (h : u <:+ t) (c : PlaceCache u) (c' : PlaceCache t) : Prop :=
  ∀ (n : Text) (r : Rest u), (c'.get? (n, r.left)).map Subtype.val
    = (c.get? (n, r.left)).map fun s => s.val.within h

variable {h : u <:+ t}

namespace PlaceCache.Within

variable {c : PlaceCache u} {c' : PlaceCache t} {n : Text} {r s : Rest u}

theorem empty : Within h ∅ ∅ := by
  intro n r
  rw [Std.DHashMap.get?_empty, Std.DHashMap.get?_empty]
  rfl

theorem get?_eq_none (hc : Within h c c') (hs : c.get? (n, r.left) = none) :
    c'.get? (n, r.left) = none := by
  have hsame := hc n r
  rw [hs] at hsame
  exact Option.map_eq_none_iff.mp hsame

theorem exists_get?_eq_some (hc : Within h c c') {s : { s : Rest u // s.left ≤ r.left }}
    (hs : c.get? (n, r.left) = some s) :
    ∃ s', c'.get? (n, r.left) = some s' ∧ s'.val = s.val.within h := by
  have hsame := hc n r
  rw [hs] at hsame
  exact Option.map_eq_some_iff.mp hsame

theorem insert (hc : Within h c c') (n : Text) (hle : s.left ≤ r.left) :
    Within h (c.insert (n, r.left) ⟨s, hle⟩) (c'.insert (n, r.left) ⟨s.within h, hle⟩) := by
  intro m r'
  rw [Std.DHashMap.get?_insert, Std.DHashMap.get?_insert]
  by_cases heq : n = m ∧ r.left = r'.left
  · -- the key tells the place
    obtain ⟨rfl, hleft⟩ := heq
    obtain rfl := Rest.ext_left hleft
    simp
  · have hkey : ¬ ((n, r.left) == (m, r'.left)) = true :=
      fun hkey => heq (Prod.mk.inj (eq_of_beq hkey))
    rw [dif_neg hkey, dif_neg hkey]
    exact hc m r'

end PlaceCache.Within

/-! ## The matcher does not see what lies before -/

namespace Munch

variable {g : Grammar} {opened : Grammar.Opened} {r : Rest u} {task : Task} {c c₁ : PlaceCache u}
  {c' : PlaceCache t} {o : Option (Rest u)}

/-- **A run in a text is one in every text that ends with it.** -/
theorem Run.within (hrun : Run g opened r task c o c₁) (hc : c.Within h c') :
    ∃ c₁', c₁.Within h c₁' ∧ Run g opened (r.within h) task c' (o.map (Rest.within h)) c₁' := by
  induction hrun generalizing c' with
  | empty => exact ⟨c', hc, .empty⟩
  | literal => exact ⟨c', hc, .literal⟩
  | range => exact ⟨c', hc, .range⟩
  | group _ ih =>
    obtain ⟨c₁', hc₁, h₁⟩ := ih hc
    exact ⟨c₁', hc₁, .group h₁⟩
  | option _ ih =>
    obtain ⟨c₁', hc₁, h₁⟩ := ih hc
    exact ⟨c₁', hc₁, .option h₁⟩
  | repetition _ ih =>
    obtain ⟨c₁', hc₁, h₁⟩ := ih hc
    exact ⟨c₁', hc₁, .repetition h₁⟩
  | alt _ _ ih₁ ih₂ =>
    obtain ⟨c₁', hc₁, h₁⟩ := ih₁ hc
    obtain ⟨c₂', hc₂, h₂⟩ := ih₂ hc₁
    refine ⟨c₂', hc₂, ?_⟩
    rw [Option.map_some, apply_ite (Rest.within h)]
    exact .alt h₁ h₂
  | @seq _ _ _ _ _ o _ _ ih =>
    obtain ⟨c₁', hc₁, h₁⟩ := ih hc
    refine ⟨c₁', hc₁, ?_⟩
    have hseq := Run.seq h₁
    cases o with
    | none => exact hseq
    | some s => exact hseq
  | hit hs =>
    obtain ⟨s', hs', hval⟩ := hc.exists_get?_eq_some hs
    refine ⟨c', hc, ?_⟩
    rw [Option.map_some, ← hval]
    exact .hit hs'
  | guard hs ho => exact ⟨c', hc, .guard (hc.get?_eq_none hs) ho⟩
  | undefined hs ho hp => exact ⟨c', hc, .undefined (hc.get?_eq_none hs) ho hp⟩
  | @enter _ r _ n _ _ s _ hs ho hp hle _ ih =>
    obtain ⟨c₁', hc₁, h₁⟩ := ih hc
    exact ⟨_, hc₁.insert n hle,
      Run.enter (r := r.within h) (s := s.within h) (hc.get?_eq_none hs) ho hp hle h₁⟩
  | item he hn _ ih =>
    obtain ⟨c₁', hc₁, h₁⟩ := ih hc
    exact ⟨c₁', hc₁, .item he hn h₁⟩
  | itemFail he hn _ ih =>
    obtain ⟨c₁', hc₁, h₁⟩ := ih hc
    exact ⟨c₁', hc₁, .itemFail he hn h₁⟩
  | bothFirst _ ih =>
    obtain ⟨c₁', hc₁, h₁⟩ := ih hc
    exact ⟨c₁', hc₁, .bothFirst h₁⟩
  | bothHere _ _ ih₁ ih₂ =>
    obtain ⟨c₁', hc₁, h₁⟩ := ih₁ hc
    obtain ⟨c₂', hc₂, h₂⟩ := ih₂ hc₁
    exact ⟨c₂', hc₂, .bothHere h₁ h₂⟩
  | bothThere hlt _ _ ih₁ ih₂ =>
    obtain ⟨c₁', hc₁, h₁⟩ := ih₁ hc
    obtain ⟨c₂', hc₂, h₂⟩ := ih₂ hc₁
    exact ⟨c₂', hc₂, .bothThere hlt h₁ h₂⟩
  | manyLast _ ih =>
    obtain ⟨c₁', hc₁, h₁⟩ := ih hc
    exact ⟨c₁', hc₁, .manyLast h₁⟩
  | manyMore hlt _ _ ih₁ ih₂ =>
    obtain ⟨c₁', hc₁, h₁⟩ := ih₁ hc
    obtain ⟨c₂', hc₂, h₂⟩ := ih₂ hc₁
    exact ⟨c₂', hc₂, .manyMore hlt h₁ h₂⟩

/-- The matcher leads to the same place. -/
theorem expr_within (g : Grammar) (opened : Grammar.Opened) (r : Rest u) (hc : c.Within h c')
    (e : Expr) :
    (expr g opened (r.within h) e c').1.val = (expr g opened r e c).1.val.within h
      ∧ (expr g opened r e c).2.Within h (expr g opened (r.within h) e c').2 := by
  obtain ⟨c₁', hc₁, hrun⟩ := (run_expr g opened r e c).within hc
  obtain ⟨hplace, rfl⟩ := hrun.unique (run_expr g opened (r.within h) e c')
  exact ⟨(Option.some.inj hplace).symm, hc₁⟩

end Munch

/-! ## The tokens from there on -/

/-- **Whether a candidate is the other one**, in the longer text. -/
structure Candidate.Within (h : u <:+ t) {r : Rest u} (best : Candidate r)
    (best' : Candidate (r.within h)) : Prop where
  /-- They have the same kind. -/
  kind : best'.kind = best.kind
  /-- They lead to the same place. -/
  stop : best'.stop.val = best.stop.val.within h
  /-- They have the same places in their caches. -/
  cache : best.cache.Within h best'.cache

section Longest

variable {g : Grammar} {r : Rest u}

theorem Candidate.Within.improve {best : Candidate r} {best' : Candidate (r.within h)}
    (hbest : best.Within h best') (p : Production) :
    (g.improve r best p).Within h (g.improve (r.within h) best' p) := by
  obtain ⟨hplace, hcache⟩ := Munch.expr_within g ∅ r hbest.cache p.body
  have hiff : (Munch.expr g ∅ (r.within h) p.body best'.cache).1.val.left < best'.stop.val.left
      ↔ (Munch.expr g ∅ r p.body best.cache).1.val.left < best.stop.val.left := by
    rw [hplace, hbest.stop]
    rfl
  unfold Grammar.improve
  dsimp only
  by_cases hlt : (Munch.expr g ∅ r p.body best.cache).1.val.left < best.stop.val.left
  · rw [if_pos hlt, if_pos (hiff.mpr hlt)]
    exact ⟨rfl, hplace, hcache⟩
  · rw [if_neg hlt, if_neg (mt hiff.mp hlt)]
    exact ⟨hbest.kind, hbest.stop, hcache⟩

theorem Grammar.longest_within (g : Grammar) (h : u <:+ t) (r : Rest u) :
    (g.longest r).Within h (g.longest (r.within h)) := by
  suffices hfold : ∀ (ps : List Production) (best : Candidate r) (best' : Candidate (r.within h)),
      best.Within h best' →
      Candidate.Within h (ps.foldl (g.improve r) best) (ps.foldl (g.improve (r.within h)) best') from
    hfold _ _ _ ⟨rfl, rfl, .empty⟩
  intro ps
  induction ps with
  | nil => exact fun _ _ hbest => hbest
  | cons p ps ih => exact fun _ _ hbest => ih _ _ (hbest.improve p)

end Longest

namespace Tokenizer

/-- **Whether a tokenizer is the other one**, in the longer text: it stands at the same place,
and at the position of the other one counted from `p`. -/
structure Within (h : u <:+ t) (p : Position) (w : Tokenizer u) (z : Tokenizer t) : Prop where
  /-- They have the same grammar. -/
  grammar : z.grammar = w.grammar
  /-- They stand at the same place. -/
  rest : z.rest = w.rest.within h
  /-- The one position is counted from `p`. -/
  position : z.position = p.shift w.position
  /-- The other one is in a text. -/
  line : 1 ≤ w.position.line

namespace Within

variable {p : Position} {w : Tokenizer u} {z : Tokenizer t}

theorem atEnd_eq (hz : Within h p w z) : z.atEnd = w.atEnd := by
  rw [atEnd, atEnd, hz.rest]
  rfl

theorem isStuck_eq (hz : Within h p w z) : z.isStuck = w.isStuck := by
  have hstop := (w.grammar.longest_within h w.rest).stop
  rw [isStuck, isStuck, hz.grammar, hz.rest, Rest.Reached.isEmpty, Rest.Reached.isEmpty, hstop]
  rfl

/-- **A step** takes the same token, and leads to the same place. -/
theorem next (hz : Within h p w z) (he : w.atEnd = false) :
    z.next.1 = w.next.1.shift p ∧ Within h p w.next.2 z.next.2 := by
  have hstuck := hz.isStuck_eq
  have hez := hz.atEnd_eq.trans he
  obtain ⟨g, r, q⟩ := z
  obtain ⟨rfl, rfl, rfl, hline⟩ := hz
  have hbest := w.grammar.longest_within h w.rest
  obtain ⟨s, -, hs, hw⟩ := next_eq he
  obtain ⟨s', -, hs', hz⟩ := next_eq hez
  obtain rfl : s' = s.within h := by
    rw [hstuck] at hs'
    rcases hs with ⟨hyes, rfl⟩ | ⟨hno, rfl⟩
    · rcases hs' with ⟨-, rfl⟩ | ⟨hno, -⟩
      · rfl
      · rw [hyes] at hno
        cases hno
    · rcases hs' with ⟨hyes, -⟩ | ⟨-, rfl⟩
      · rw [hno] at hyes
        cases hyes
      · exact hbest.stop
  have hstop := p.shift_after hline (w.rest.upTo s)
  rw [hz, hw]
  refine ⟨?_, rfl, rfl, hstop.symm, Position.one_le_line_after hline _⟩
  rw [Token.shift, Span.shift]
  dsimp only
  rw [hbest.kind, hstop]
  rfl

/-- **All tokens from there on are the same**, with their positions counted from `p`. -/
theorem tokens_eq (hz : Within h p w z) : z.tokens = w.tokens.map (Token.shift p) := by
  induction hn : w.rest.left using Nat.strongRecOn generalizing w z with
  | ind n ih =>
    cases he : w.atEnd with
    | true =>
      rw [tokens_of_atEnd he, tokens_of_atEnd (hz.atEnd_eq.trans he), hz.position]
      rfl
    | false =>
      obtain ⟨hnext, hgo⟩ := hz.next he
      rw [tokens_of_not_atEnd he, tokens_of_not_atEnd (hz.atEnd_eq.trans he), hnext, List.map_cons,
        ih _ (hn ▸ left_next_lt (by simp [he])) hgo rfl]

end Within

end Tokenizer

end Within

namespace Tokenizer

/-- A tokenizer goes on as one that starts with what is left. -/
theorem tokens_eq_map_shift {t : Text} (z : Tokenizer t) :
    z.tokens = (tokenize z.grammar z.rest.bytes).map (Token.shift z.position) := by
  have hsuffix : z.rest.bytes <:+ t := by
    rw [z.rest.bytes_eq]
    exact List.drop_suffix _ _
  have hstart : Within hsuffix z.position (start z.grammar z.rest.bytes) z :=
    ⟨rfl, Rest.ext_left z.rest.length_bytes.symm, (Position.shift_origin z.position).symm,
      Int.le_refl 1⟩
  exact hstart.tokens_eq

/-- A tokenizer after some calls for the next token. -/
def afterCalls {t : Text} (z : Tokenizer t) : (calls : Nat) → Tokenizer t
  | 0 => z
  | calls + 1 => (z.afterCalls calls).next.2

/-- However often it is called, a tokenizer stands at the position of its place. -/
theorem placed_afterCalls (g : Grammar) (t : Text) (calls : Nat) :
    ((start g t).afterCalls calls).Placed ∧ ((start g t).afterCalls calls).grammar = g := by
  induction calls with
  | zero => exact ⟨placed_start g t, rfl⟩
  | succ calls ih =>
    rw [afterCalls]
    generalize (start g t).afterCalls calls = z at ih ⊢
    cases he : z.atEnd with
    | true =>
      -- the end token is there to stay
      have hnext : z.next.2 = z := by rw [next, if_pos he]
      rw [hnext]
      exact ih
    | false =>
      obtain ⟨hplaced, hgrammar, -⟩ := ih.1.next he
      exact ⟨hplaced, hgrammar.trans ih.2⟩

/-- **A tokenizer has no memory.** Whatever the grammar, and however many tokens have been
taken, the tokenizer stands at the position of some offset of the text, and the tokens from
there on are those of the text behind that offset, cut on its own: they have the same kinds and
the same bytes, and every position in their spans is counted from the one that was reached. -/
theorem tokens_resumed (g : Grammar) (t : Text) (calls : Nat) :
    ∃ o : Nat, o ≤ t.length ∧ ((start g t).afterCalls calls).position = t.positionAt o
      ∧ ((start g t).afterCalls calls).tokens
        = (tokenize g (t.drop o)).map (Token.shift ((start g t).afterCalls calls).position) := by
  obtain ⟨hplaced, hgrammar⟩ := placed_afterCalls g t calls
  refine ⟨_, Nat.sub_le .., hplaced, ?_⟩
  have hbytes := ((start g t).afterCalls calls).rest.bytes_eq
  rw [tokens_eq_map_shift, hgrammar, hbytes]

end Tokenizer

end Arbor
