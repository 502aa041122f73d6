import Arbor.Token.Tokenizer

/-!
# Runs of the matcher

`Munch.expr`, `Munch.item`, `Munch.both` and `Munch.many` call one another, and the
cache passes through all of them. As with the parser, what holds of every match is an
induction over the calls, and it is stated once: `Munch.Run` relates a task and a cache
to the place reached and the next cache, with one rule for each way a call can go.
`Munch.run_expr` says that the matcher runs by these rules.

A result is a place in the text and no longer a place that is *reached*: that it does
not lie before the start is a consequence of the rules (`Munch.Run.left_le`). A sequence
is an item of its own, so that `both` needs no task.
-/

namespace Arbor

/-! ## Texts between places -/

namespace Rest

variable {t : Text} {r s u : Rest t}

/-- The text between two places. -/
def upTo (r s : Rest t) : Text := r.bytes.take (r.left - s.left)

theorem upTo_of_left_eq (h : s.left = r.left) : r.upTo s = [] := by
  rw [upTo, h, Nat.sub_self, List.take_zero]

/-- What is left at a place is what is left behind the text that leads there. -/
theorem drop_bytes (h : s.left ≤ r.left) : r.bytes.drop (r.left - s.left) = s.bytes := by
  have hr := r.left_le
  rw [r.bytes_eq, s.bytes_eq, List.drop_drop]
  congr 1
  omega

/-- One stretch after another. -/
theorem upTo_append (hsr : s.left ≤ r.left) (hus : u.left ≤ s.left) :
    r.upTo s ++ s.upTo u = r.upTo u := by
  unfold upTo
  rw [← drop_bytes hsr, show r.left - u.left = (r.left - s.left) + (s.left - u.left) by omega,
    List.take_add]

@[simp] theorem left_drop (r : Rest t) (n : Nat) : (r.drop n).left = r.left - n := rfl

theorem upTo_drop (r : Rest t) {n : Nat} (h : n ≤ r.bytes.length) :
    r.upTo (r.drop n) = r.bytes.take n := by
  rw [r.length_bytes] at h
  rw [upTo, left_drop, show r.left - (r.left - n) = n by omega]

end Rest

/-! ## What the cache holds -/

namespace PlaceCache

variable {t : Text} {cache : PlaceCache t} {P : Text → Rest t → Rest t → Prop}

/-- Whether a property holds of every entry: of the name, the place where it was tried,
and the place it leads to. -/
def Entries (cache : PlaceCache t) (P : Text → Rest t → Rest t → Prop) : Prop :=
  ∀ n r s, cache.get? (n, r.left) = some s → P n r s.val

theorem entries_empty : Entries (∅ : PlaceCache t) P := by
  intro n r s h
  rw [Std.DHashMap.get?_empty] at h
  exact absurd h (by simp)

theorem Entries.insert (h : Entries cache P) {n : Text} {r s : Rest t} (hle : s.left ≤ r.left)
    (hs : P n r s) : Entries (cache.insert (n, r.left) ⟨s, hle⟩) P := by
  intro n' r' s' hs'
  rw [Std.DHashMap.get?_insert] at hs'
  split at hs'
  · next heq =>
    -- the key tells the place
    obtain ⟨rfl, hleft⟩ := Prod.mk.inj (eq_of_beq heq)
    obtain rfl := Rest.ext_left hleft
    rw [← Option.some.inj hs']
    exact hs
  · exact h n' r' s' hs'

end PlaceCache

namespace Munch

/-! ## The rules -/

/-- What the matcher can be asked for at a place. -/
inductive Task where
  /-- How far an expression matches. -/
  | expr (e : Expr)
  /-- How far an item of a sequence matches; it can fail. -/
  | item (e : Expr)
  /-- How far as many occurrences of an expression as there are match. -/
  | many (e : Expr)

variable {t : Text} {g : Grammar}

/-- **The runs of the matcher**: `Run g opened r task cache o cache'` says that the task,
begun at the place `r` with the given productions opened, leads to the place `o`, or
fails, and turns the one cache into the other. -/
inductive Run (g : Grammar) : Grammar.Opened → Rest t → Task → PlaceCache t →
    Option (Rest t) → PlaceCache t → Prop
  /-- The empty body leads nowhere. -/
  | empty {opened r c} : Run g opened r (.expr .empty) c (some r) c
  /-- A literal leads behind itself, where it stands. -/
  | literal {opened r v c} :
      Run g opened r (.expr (.literal v)) c (some (r.drop (literalLength v r.bytes))) c
  /-- A range leads behind a character, where one in it stands. -/
  | range {opened r lo hi c} :
      Run g opened r (.expr (.range lo hi)) c (some (r.drop (rangeLength lo hi r.bytes))) c
  /-- A group is its body. -/
  | group {opened r e c o c'} : Run g opened r (.expr e) c o c' →
      Run g opened r (.expr (.group e)) c o c'
  /-- An option is its body: to match nothing leads nowhere. -/
  | option {opened r e c o c'} : Run g opened r (.expr e) c o c' →
      Run g opened r (.expr (.option e)) c o c'
  /-- A repetition matches as much as it can. -/
  | repetition {opened r e c o c'} : Run g opened r (.many e) c o c' →
      Run g opened r (.expr (.repetition e)) c o c'
  /-- Both sides of a choice are tried, and the further one counts. -/
  | alt {opened r e f c a c₁ b c₂} : Run g opened r (.expr e) c (some a) c₁ →
      Run g opened r (.expr f) c₁ (some b) c₂ →
      Run g opened r (.expr (.alt e f)) c (some (if b.left < a.left then b else a)) c₂
  /-- A sequence that fails leads nowhere. -/
  | seq {opened r e f c o c'} : Run g opened r (.item (.seq e f)) c o c' →
      Run g opened r (.expr (.seq e f)) c (some (o.getD r)) c'
  /-- A name in the cache. -/
  | hit {opened r mark n c s} (hs : c.get? (n, r.left) = some s) :
      Run g opened r (.expr (.name mark n)) c (some s.val) c
  /-- A name that is opened already. -/
  | guard {opened r mark n c} (hs : c.get? (n, r.left) = none) (ho : n ∈ opened) :
      Run g opened r (.expr (.name mark n)) c (some r) c
  /-- A name without a production. -/
  | undefined {opened r mark n c} (hs : c.get? (n, r.left) = none) (ho : n ∉ opened)
      (hp : g.get? n = none) : Run g opened r (.expr (.name mark n)) c (some r) c
  /-- A name whose production is entered, and what it leads to is kept. -/
  | enter {opened r mark n c p s c'} (hs : c.get? (n, r.left) = none) (ho : n ∉ opened)
      (hp : g.get? n = some p) (hle : s.left ≤ r.left) :
      Run g (opened.insert n) r (.expr p.body) c (some s) c' →
      Run g opened r (.expr (.name mark n)) c (some s) (c'.insert (n, r.left) ⟨s, hle⟩)
  /-- An item that leads somewhere, or that is nullable. -/
  | item {opened r e c s c'} (he : ∀ a b, e ≠ .seq a b)
      (hn : s.left = r.left → g.nullable e = true) : Run g opened r (.expr e) c (some s) c' →
      Run g opened r (.item e) c (some s) c'
  /-- An item that leads nowhere and is not nullable. -/
  | itemFail {opened r e c c'} (he : ∀ a b, e ≠ .seq a b) (hn : g.nullable e = false) :
      Run g opened r (.expr e) c (some r) c' → Run g opened r (.item e) c none c'
  /-- A sequence that fails at its first item. -/
  | bothFirst {opened r e f c c'} : Run g opened r (.item e) c none c' →
      Run g opened r (.item (.seq e f)) c none c'
  /-- A sequence whose first item leads nowhere. -/
  | bothHere {opened r e f c c₁ o c₂} : Run g opened r (.item e) c (some r) c₁ →
      Run g opened r (.item f) c₁ o c₂ → Run g opened r (.item (.seq e f)) c o c₂
  /-- A sequence that goes on further right, where nothing is opened. -/
  | bothThere {opened r e f c s c₁ o c₂} (hlt : s.left < r.left) :
      Run g opened r (.item e) c (some s) c₁ → Run g ∅ s (.item f) c₁ o c₂ →
      Run g opened r (.item (.seq e f)) c o c₂
  /-- A repetition ends where its body leads nowhere. -/
  | manyLast {opened r e c c'} : Run g opened r (.expr e) c (some r) c' →
      Run g opened r (.many e) c (some r) c'
  /-- It goes on further right. -/
  | manyMore {opened r e c s c₁ o c₂} (hlt : s.left < r.left) :
      Run g opened r (.expr e) c (some s) c₁ → Run g ∅ s (.many e) c₁ o c₂ →
      Run g opened r (.many e) c o c₂

/-- A run does not lead back. -/
theorem Run.left_le {opened : Grammar.Opened} {r : Rest t} {task : Task} {c c' : PlaceCache t}
    {o : Option (Rest t)} (h : Run g opened r task c o c') : ∀ s ∈ o, s.left ≤ r.left := by
  induction h with
  | empty | guard | undefined | manyLast =>
    rintro s ⟨⟩
    exact Nat.le_refl _
  | literal | range =>
    rintro s ⟨⟩
    exact Nat.sub_le ..
  | group _ ih | option _ ih | repetition _ ih => exact ih
  | alt _ _ ih₁ ih₂ =>
    rintro s ⟨⟩
    split
    · exact ih₂ _ rfl
    · exact ih₁ _ rfl
  | @seq _ _ _ _ _ o _ _ ih =>
    rintro s ⟨⟩
    cases o with
    | none => exact Nat.le_refl _
    | some s => exact ih s rfl
  | @hit _ _ _ _ _ s =>
    rintro _ ⟨⟩
    exact s.property
  | enter _ _ _ hle =>
    rintro s ⟨⟩
    exact hle
  | item _ _ _ ih => exact ih
  | itemFail | bothFirst => exact fun s hs => absurd hs (by simp)
  | bothHere _ _ _ ih => exact ih
  | bothThere hlt _ _ _ ih | manyMore hlt _ _ _ ih =>
    exact fun s hs => Nat.le_of_lt (Nat.lt_of_le_of_lt (ih s hs) hlt)

/-! ## The matcher runs by the rules -/

/-- A place that is reached without a byte is where one started. -/
theorem val_eq_of_isEmpty {r : Rest t} {s : r.Reached} (h : s.isEmpty = true) : s.val = r :=
  Rest.ext_left (by simpa [Rest.Reached.isEmpty] using h)

theorem run_all (g : Grammar) (t : Text) :
    (∀ opened (r : Rest t) e c, Run g opened r (.expr e) c (some (expr g opened r e c).1.val)
      (expr g opened r e c).2) ∧
    (∀ opened (r : Rest t) e f c, Run g opened r (.item (.seq e f)) c
      ((both g opened r e f c).1.map Subtype.val) (both g opened r e f c).2) ∧
    (∀ opened (r : Rest t) e c, Run g opened r (.item e) c
      ((item g opened r e c).1.map Subtype.val) (item g opened r e c).2) ∧
    (∀ opened (r : Rest t) e c, Run g opened r (.many e) c (some (many g opened r e c).1.val)
      (many g opened r e c).2) := by
  apply expr.mutual_induct g
    (fun opened r e c => Run g opened r (.expr e) c (some (expr g opened r e c).1.val)
      (expr g opened r e c).2)
    (fun opened r e f c => Run g opened r (.item (.seq e f)) c
      ((both g opened r e f c).1.map Subtype.val) (both g opened r e f c).2)
    (fun opened r e c => Run g opened r (.item e) c
      ((item g opened r e c).1.map Subtype.val) (item g opened r e c).2)
    (fun opened r e c => Run g opened r (.many e) c (some (many g opened r e c).1.val)
      (many g opened r e c).2)
  case case1 =>
    intro opened r c
    rw [expr]
    exact .empty
  case case2 =>
    intro opened r v c
    rw [expr]
    exact .literal
  case case3 =>
    intro opened r lo hi c
    rw [expr]
    exact .range
  case case4 =>
    intro opened r e c ih
    rw [expr]
    exact .group ih
  case case5 =>
    intro opened r e c ih
    rw [expr]
    exact .option ih
  case case6 =>
    intro opened r e c ih
    rw [expr]
    exact .repetition ih
  case case7 =>
    intro opened r e f c a c₁ h₁ b c₂ h₂ ih₁ ih₂
    rw [h₁] at ih₁
    rw [h₂] at ih₂
    rw [expr, h₁]
    dsimp only
    rw [h₂]
    dsimp only
    rw [apply_ite Subtype.val]
    exact .alt ih₁ ih₂
  case case8 =>
    intro opened r e f c s c' h ih
    rw [h] at ih
    rw [expr, h]
    have hseq := Run.seq ih
    cases s with
    | none => exact hseq
    | some s => exact hseq
  case case9 =>
    intro opened r mark n c s hs
    rw [expr, hs]
    exact .hit hs
  case case10 =>
    intro opened r mark n c hs ho
    rw [expr, hs]
    dsimp only
    rw [dif_pos ho]
    exact .guard hs ho
  case case11 =>
    intro opened r mark n c hs ho hp
    rw [expr, hs]
    dsimp only
    rw [dif_neg ho]
    split
    · exact .undefined hs ho hp
    · next hq => rw [hp] at hq; exact absurd hq (by simp)
  case case12 =>
    intro opened r mark n c hs ho p hp _ s c' h ih
    rw [h] at ih
    rw [expr, hs]
    dsimp only
    rw [dif_neg ho]
    split
    · next hq => rw [hp] at hq; exact absurd hq (by simp)
    · next q hq =>
      obtain rfl : p = q := Option.some.inj (hp.symm.trans hq)
      rw [h]
      exact .enter hs ho hp s.property ih
  case case13 =>
    intro opened r e f c c' h ih
    rw [h] at ih
    rw [both, h]
    exact .bothFirst ih
  case case14 =>
    intro opened r e f c s c₁ h hs ih₁ ih₂
    rw [h] at ih₁
    rw [both, h]
    dsimp only
    rw [dif_pos hs]
    have hhere : Run g opened r (.item e) c (some s.val) c₁ := ih₁
    rw [val_eq_of_isEmpty hs] at hhere
    exact .bothHere hhere ih₂
  case case15 =>
    intro opened r e f c s c₁ h hs hlt u c₂ hu ih₁ ih₂
    rw [h] at ih₁
    rw [hu] at ih₂
    rw [both, h]
    dsimp only
    rw [dif_neg hs, hu]
    dsimp only
    rw [Option.map_map]
    exact .bothThere hlt ih₁ ih₂
  case case16 =>
    intro opened r e f c ih
    rw [item]
    exact ih
  case case17 =>
    intro opened r e c he s c' h ih
    rw [h] at ih
    rw [item, h]
    · dsimp only
      split
      · next hf =>
        obtain ⟨hs, hn⟩ := Bool.and_eq_true_iff.mp hf
        have hhere : Run g opened r (.expr e) c (some s.val) c' := ih
        rw [val_eq_of_isEmpty hs] at hhere
        exact .itemFail he (by simpa using hn) hhere
      · next hf =>
        refine .item he (fun hs => ?_) ih
        simpa [Rest.Reached.isEmpty, hs] using hf
    · exact he
  case case18 =>
    intro opened r e c s c' h hs ih
    rw [h] at ih
    rw [many, h]
    dsimp only
    rw [dif_pos hs]
    have hhere : Run g opened r (.expr e) c (some s.val) c' := ih
    show Run g opened r (.many e) c (some s.val) c'
    rw [val_eq_of_isEmpty hs] at hhere ⊢
    exact .manyLast hhere
  case case19 =>
    intro opened r e c s c₁ h hs hlt u c₂ hu ih₁ ih₂
    rw [h] at ih₁
    rw [hu] at ih₂
    rw [many, h]
    dsimp only
    rw [dif_neg hs, hu]
    exact .manyMore hlt ih₁ ih₂

/-- **The matcher runs by the rules.** -/
theorem run_expr (g : Grammar) (opened : Grammar.Opened) (r : Rest t) (e : Expr)
    (c : PlaceCache t) :
    Run g opened r (.expr e) c (some (expr g opened r e c).1.val) (expr g opened r e c).2 :=
  (run_all g t).1 opened r e c

/-! ## The rules leave no choice -/

/-- **A task ends in one way.** -/
theorem Run.unique {opened : Grammar.Opened} {r : Rest t} {task : Task} {c c₁ c₂ : PlaceCache t}
    {o₁ o₂ : Option (Rest t)} (h : Run g opened r task c o₁ c₁)
    (h' : Run g opened r task c o₂ c₂) : o₁ = o₂ ∧ c₁ = c₂ := by
  induction h generalizing o₂ c₂ with
  | empty | literal | range =>
    cases h'
    exact ⟨rfl, rfl⟩
  | group _ ih =>
    cases h' with
    | group h' => exact ih h'
  | option _ ih =>
    cases h' with
    | option h' => exact ih h'
  | repetition _ ih =>
    cases h' with
    | repetition h' => exact ih h'
  | alt _ _ ih₁ ih₂ =>
    cases h' with
    | alt h₁ h₂ =>
      obtain ⟨⟨⟩, rfl⟩ := ih₁ h₁
      obtain ⟨⟨⟩, rfl⟩ := ih₂ h₂
      exact ⟨rfl, rfl⟩
  | seq _ ih =>
    cases h' with
    | seq h' =>
      obtain ⟨rfl, rfl⟩ := ih h'
      exact ⟨rfl, rfl⟩
  | hit hs =>
    cases h' with
    | hit hs' =>
      cases hs.symm.trans hs'
      exact ⟨rfl, rfl⟩
    | guard hs' | undefined hs' | enter hs' => rw [hs] at hs'; cases hs'
  | guard hs ho =>
    cases h' with
    | hit hs' => rw [hs] at hs'; cases hs'
    | guard => exact ⟨rfl, rfl⟩
    | undefined _ ho' | enter _ ho' => exact absurd ho ho'
  | undefined hs ho hp =>
    cases h' with
    | hit hs' => rw [hs] at hs'; cases hs'
    | guard _ ho' => exact absurd ho' ho
    | undefined => exact ⟨rfl, rfl⟩
    | enter _ _ hp' => rw [hp] at hp'; cases hp'
  | enter hs ho hp hle _ ih =>
    cases h' with
    | hit hs' => rw [hs] at hs'; cases hs'
    | guard _ ho' => exact absurd ho' ho
    | undefined _ _ hp' => rw [hp] at hp'; cases hp'
    | enter _ _ hp' _ h' =>
      cases hp.symm.trans hp'
      obtain ⟨⟨⟩, rfl⟩ := ih h'
      exact ⟨rfl, rfl⟩
  | item he hn _ ih =>
    cases h' with
    | item _ _ h' => exact ih h'
    | itemFail _ hn' h' =>
      obtain ⟨⟨⟩, -⟩ := ih h'
      rw [hn rfl] at hn'
      cases hn'
    | bothFirst | bothHere | bothThere => exact absurd rfl (he _ _)
  | itemFail he hn _ ih =>
    cases h' with
    | item _ hn' h' =>
      obtain ⟨⟨⟩, -⟩ := ih h'
      rw [hn' rfl] at hn
      cases hn
    | itemFail _ _ h' => exact ⟨rfl, (ih h').2⟩
    | bothFirst | bothHere | bothThere => exact absurd rfl (he _ _)
  | bothFirst _ ih =>
    cases h' with
    | item he | itemFail he => exact absurd rfl (he _ _)
    | bothFirst h₁ => exact ⟨rfl, (ih h₁).2⟩
    | bothHere h₁ | bothThere _ h₁ => cases (ih h₁).1
  | bothHere _ _ ih₁ ih₂ =>
    cases h' with
    | item he | itemFail he => exact absurd rfl (he _ _)
    | bothFirst h₁ => cases (ih₁ h₁).1
    | bothHere h₁ h₂ =>
      obtain ⟨-, rfl⟩ := ih₁ h₁
      exact ih₂ h₂
    | bothThere hlt h₁ =>
      obtain ⟨⟨⟩, -⟩ := ih₁ h₁
      exact absurd hlt (Nat.lt_irrefl _)
  | bothThere hlt _ _ ih₁ ih₂ =>
    cases h' with
    | item he | itemFail he => exact absurd rfl (he _ _)
    | bothFirst h₁ => cases (ih₁ h₁).1
    | bothHere h₁ =>
      obtain ⟨⟨⟩, -⟩ := ih₁ h₁
      exact absurd hlt (Nat.lt_irrefl _)
    | bothThere _ h₁ h₂ =>
      obtain ⟨⟨⟩, rfl⟩ := ih₁ h₁
      exact ih₂ h₂
  | manyLast _ ih =>
    cases h' with
    | manyLast h₁ => exact ⟨rfl, (ih h₁).2⟩
    | manyMore hlt h₁ =>
      obtain ⟨⟨⟩, -⟩ := ih h₁
      exact absurd hlt (Nat.lt_irrefl _)
  | manyMore hlt _ _ ih₁ ih₂ =>
    cases h' with
    | manyLast h₁ =>
      obtain ⟨⟨⟩, -⟩ := ih₁ h₁
      exact absurd hlt (Nat.lt_irrefl _)
    | manyMore _ h₁ h₂ =>
      obtain ⟨⟨⟩, rfl⟩ := ih₁ h₁
      exact ih₂ h₂

/-- What the rules say is what the matcher gives. -/
theorem expr_eq_of_run {opened : Grammar.Opened} {r s : Rest t} {e : Expr} {c c' : PlaceCache t}
    (h : Run g opened r (.expr e) c (some s) c') :
    expr g opened r e c = (⟨s, h.left_le s rfl⟩, c') := by
  obtain ⟨hs, hc⟩ := (run_expr g opened r e c).unique h
  exact Prod.ext (Subtype.ext (Option.some.inj hs)) hc

end Munch

/-! ## The longest match -/

namespace Grammar

variable {g : Grammar} {t : Text} {r : Rest t}

/-- What holds of the search for the longest match before any production is tried, and
goes on to hold when one more is tried, holds of its outcome. -/
theorem longest_induction {P : List Production → Candidate r → Prop}
    (hstart : P [] ⟨Token.errorKind, r.here, ∅⟩)
    (hstep : ∀ tried p rest best, g.tokenProductions = tried ++ p :: rest → P tried best →
      P (tried ++ [p]) (g.improve r best p)) :
    P g.tokenProductions (g.longest r) := by
  suffices h : ∀ rest tried best, g.tokenProductions = tried ++ rest → P tried best →
      P g.tokenProductions (rest.foldl (g.improve r) best) from h _ [] _ rfl hstart
  intro rest
  induction rest with
  | nil =>
    intro tried best htried hbest
    rw [htried, List.append_nil]
    exact hbest
  | cons p rest ih =>
    intro tried best htried hbest
    exact ih (tried ++ [p]) _ (by rw [htried, List.append_assoc]; rfl)
      (hstep tried p rest best htried hbest)

/-- A production that is tried wins if it gets further. -/
theorem improve_cases (best : Candidate r) (p : Production) :
    ∃ s : Rest t, ∃ c, Munch.Run g ∅ r (.expr p.body) best.cache (some s) c
      ∧ (g.improve r best p).cache = c
      ∧ (s.left < best.stop.val.left ∧ (g.improve r best p).kind = p.name
          ∧ (g.improve r best p).stop.val = s
        ∨ best.stop.val.left ≤ s.left ∧ (g.improve r best p).kind = best.kind
          ∧ (g.improve r best p).stop = best.stop) := by
  refine ⟨_, _, Munch.run_expr g ∅ r p.body best.cache, ?_⟩
  unfold improve
  dsimp only
  split
  · next h => exact ⟨rfl, .inl ⟨h, rfl, rfl⟩⟩
  · next h => exact ⟨rfl, .inr ⟨Nat.le_of_not_lt h, rfl, rfl⟩⟩

theorem ordered_tokenProductions (g : Grammar) : Production.Ordered g.tokenProductions :=
  g.ordered.filter _

end Grammar

namespace Candidate

variable {t : Text} {r : Rest t} {takes : Production → Nat → Prop} {tried : List Production}
  {p : Production} {best best' : Candidate r}

/-- **Whether a candidate is the first of the longest** among the productions tried, if
`takes` says how many bytes a production takes: none of them takes a byte, or it is that of the
first one which takes the most. -/
def IsFirstOf (takes : Production → Nat → Prop) (tried : List Production) (best : Candidate r) :
    Prop :=
  (best.stop.length = 0 ∧ best.kind = Token.errorKind ∧ ∀ q ∈ tried, ∀ k, takes q k → k = 0)
    ∨ ∃ p ∈ tried, best.kind = p.name ∧ 0 < best.stop.length ∧ takes p best.stop.length
      ∧ ∀ q ∈ tried, ∀ k, takes q k →
        k < best.stop.length ∨ k = best.stop.length ∧ p.name ≤ q.name

/-- No production tried takes more than the best. -/
theorem IsFirstOf.le_length (h : best.IsFirstOf takes tried) {q : Production} (hq : q ∈ tried)
    {k : Nat} (hk : takes q k) : k ≤ best.stop.length := by
  rcases h with ⟨-, -, hzero⟩ | ⟨b, -, -, -, -, hfirst⟩
  · rw [hzero q hq k hk]
    exact Nat.zero_le _
  · exact (hfirst q hq k hk).elim Nat.le_of_lt fun h => Nat.le_of_eq h.1

/-- A production that takes more is the best. -/
theorem IsFirstOf.overtaken (h : best.IsFirstOf takes tried) (hkind : best'.kind = p.name)
    (hlt : best.stop.length < best'.stop.length) (ht : takes p best'.stop.length)
    (hp : ∀ k, takes p k → k = best'.stop.length) : best'.IsFirstOf takes (tried ++ [p]) := by
  refine .inr ⟨p, by simp, hkind, Nat.zero_lt_of_lt hlt, ht, fun q hq k hk => ?_⟩
  rcases List.mem_append.mp hq with hq | hq
  · exact .inl (Nat.lt_of_le_of_lt (h.le_length hq hk) hlt)
  · obtain rfl := List.mem_singleton.mp hq
    exact .inr ⟨hp k hk, List.le_refl _⟩

/-- One that does not, and whose name comes later, is not. -/
theorem IsFirstOf.unbeaten (h : best.IsFirstOf takes tried) (hkind : best'.kind = best.kind)
    (hstop : best'.stop = best.stop) (hp : ∀ k, takes p k → k ≤ best.stop.length)
    (hname : ∀ b ∈ tried, b.name < p.name) : best'.IsFirstOf takes (tried ++ [p]) := by
  unfold IsFirstOf
  rw [hkind, hstop]
  refine h.imp ?_ ?_
  · rintro ⟨hlen, hkind, hzero⟩
    refine ⟨hlen, hkind, fun q hq k hk => ?_⟩
    rcases List.mem_append.mp hq with hq | hq
    · exact hzero q hq k hk
    · obtain rfl := List.mem_singleton.mp hq
      exact Nat.le_zero.mp (hlen ▸ hp k hk)
  · rintro ⟨b, hb, hkind, hlen, hrb, hfirst⟩
    refine ⟨b, List.mem_append_left _ hb, hkind, hlen, hrb, fun q hq k hk => ?_⟩
    rcases List.mem_append.mp hq with hq | hq
    · exact hfirst q hq k hk
    · obtain rfl := List.mem_singleton.mp hq
      exact (Nat.lt_or_eq_of_le (hp k hk)).imp_right fun h => ⟨h, List.le_of_lt (hname b hb)⟩

end Candidate

/-- **The longest match is the first of the longest**, by what the productions take when they
are matched with the caches that come about (`P`). -/
theorem Grammar.isFirstOf_longest {g : Grammar} {t : Text} {r : Rest t}
    {takes : Production → Nat → Prop} {P : PlaceCache t → Prop} (hcold : P ∅)
    (hrun : ∀ p ∈ g.tokenProductions, ∀ c s c', P c →
      Munch.Run g ∅ r (.expr p.body) c (some s) c' → P c'
        ∧ (∀ k, takes p k → k = r.left - s.left)
        ∧ (0 < r.left - s.left → takes p (r.left - s.left))) :
    (g.longest r).IsFirstOf takes g.tokenProductions := by
  refine (longest_induction (P := fun tried best => P best.cache ∧ best.IsFirstOf takes tried)
    ?_ ?_).2
  · exact ⟨hcold, .inl ⟨Nat.sub_self r.left, rfl, fun q hq => absurd hq (by simp)⟩⟩
  · rintro tried p rest best htried ⟨hc, hbest⟩
    obtain ⟨s, c, hp, hcache, hcases⟩ := improve_cases (g := g) best p
    have hmem : p ∈ g.tokenProductions := by
      rw [htried]
      exact List.mem_append_right _ List.mem_cons_self
    obtain ⟨hc', heq, htakes⟩ := hrun p hmem _ s c hc hp
    refine ⟨hcache ▸ hc', ?_⟩
    have hbestlen : best.stop.length = r.left - best.stop.val.left := rfl
    have hstop := best.stop.property
    rcases hcases with ⟨hlt, hkind, hs⟩ | ⟨hle, hkind, hs⟩
    · have hlen' : (g.improve r best p).stop.length = r.left - s.left := by
        rw [Rest.Reached.length, hs]
      refine hbest.overtaken hkind (by omega) ?_ ?_
      · rw [hlen']
        exact htakes (by omega)
      · rw [hlen']
        exact heq
    · refine hbest.unbeaten hkind hs (fun k hk => ?_) fun b hb => ?_
      · have := heq k hk
        omega
      · -- the token productions come in the order of their names
        have hord := g.ordered_tokenProductions
        rw [htried] at hord
        exact (List.pairwise_append.mp hord).2.2 b hb p (by simp)

/-! ## The next token -/

namespace Tokenizer

variable {t : Text} {z : Tokenizer t}

/-- Whether no token production leads anywhere, so that the next byte is an error. -/
def isStuck (z : Tokenizer t) : Bool := (z.grammar.longest z.rest).stop.isEmpty

/-- **The next token** covers the text up to some place further right, and there the
tokenizer goes on: where the longest match leads, or behind one byte. -/
theorem next_eq (h : z.atEnd = false) :
    ∃ s : Rest t, s.left < z.rest.left
      ∧ (z.isStuck = true ∧ s = z.rest.drop 1
        ∨ z.isStuck = false ∧ s = (z.grammar.longest z.rest).stop.val)
      ∧ z.next = (⟨(z.grammar.longest z.rest).kind, z.rest.upTo s,
          ⟨z.position, z.position.after (z.rest.upTo s)⟩⟩,
        { z with rest := s, position := z.position.after (z.rest.upTo s) }) := by
  have hlt := left_next_lt (z := z) (by simp [h])
  unfold next at hlt ⊢
  rw [if_neg (by simp [h])] at hlt ⊢
  dsimp only at hlt
  refine ⟨_, hlt, ?_, rfl⟩
  unfold isStuck
  cases (z.grammar.longest z.rest).stop.isEmpty with
  | true => exact .inl ⟨rfl, rfl⟩
  | false => exact .inr ⟨rfl, rfl⟩

end Tokenizer

/-- **The choice of a token**, its kind and how many bytes it has, if `takes` says how many a
token production takes: the one that takes the most, the first name of equals, or one byte of an
error if none of them takes any. -/
inductive Grammar.Chooses (g : Grammar) (takes : Production → Nat → Prop) :
    (kind : Text) → (length : Nat) → Prop
  | winner {p n} (hp : p ∈ g.tokenProductions) (hn : 0 < n) (ht : takes p n)
      (hfirst : ∀ q ∈ g.tokenProductions, ∀ k, takes q k → k < n ∨ k = n ∧ p.name ≤ q.name) :
      Chooses g takes p.name n
  | error (h : ∀ q ∈ g.tokenProductions, ∀ k, takes q k → k = 0) :
      Chooses g takes Token.errorKind 1

/-- There is one such choice. -/
theorem Grammar.Chooses.unique {g : Grammar} {takes : Production → Nat → Prop} {kind kind' : Text}
    {n n' : Nat} (h : g.Chooses takes kind n) (h' : g.Chooses takes kind' n') :
    kind = kind' ∧ n = n' := by
  cases h with
  | winner hp hn ht hfirst =>
    cases h' with
    | winner hq hk hs hfirst' =>
      rcases hfirst _ hq _ hs with hlt | ⟨rfl, hpq⟩
      · rcases hfirst' _ hp _ ht with hlt' | ⟨rfl, -⟩
        · exact absurd hlt (Nat.lt_asymm hlt')
        · exact absurd hlt (Nat.lt_irrefl _)
      · rcases hfirst' _ hp _ ht with hlt' | ⟨-, hqp⟩
        · exact absurd hlt' (Nat.lt_irrefl _)
        · exact ⟨List.le_antisymm hpq hqp, rfl⟩
    | error h' => exact absurd (h' _ hp _ ht) (Nat.ne_of_gt hn)
  | error h =>
    cases h' with
    | winner hq hk hs => exact absurd (h _ hq _ hs) (Nat.ne_of_gt hk)
    | error => exact ⟨rfl, rfl⟩

/-- **The next token is the choice** by what the longest match is the first of. It is an error
if no token production takes a byte. -/
theorem Tokenizer.next_chooses {t : Text} {z : Tokenizer t} {takes : Production → Nat → Prop}
    (he : z.atEnd = false)
    (h : (z.grammar.longest z.rest).IsFirstOf takes z.grammar.tokenProductions) :
    z.grammar.Chooses takes z.next.1.kind z.next.1.literal.length
      ∧ z.next.1.literal = z.rest.bytes.take z.next.1.literal.length
      ∧ (z.isStuck = true ↔ ∀ q ∈ z.grammar.tokenProductions, ∀ k, takes q k → k = 0) := by
  obtain ⟨s, hlt, hs, hnext⟩ := next_eq he
  have hlength : (z.rest.upTo s).length = z.rest.left - s.left := by
    rw [Rest.upTo, List.length_take, z.rest.length_bytes]
    exact Nat.min_eq_left (Nat.sub_le ..)
  rw [hnext]
  dsimp only
  rw [hlength]
  refine and_left_comm.mp ⟨rfl, ?_⟩
  have hstuck : z.isStuck = true ↔ (z.grammar.longest z.rest).stop.length = 0 := by
    have := (z.grammar.longest z.rest).stop.property
    simp only [isStuck, Rest.Reached.isEmpty, Rest.Reached.length, decide_eq_true_eq]
    omega
  rcases h with ⟨hlen, hkind, hzero⟩ | ⟨p, hp, hkind, hlen, ht, hfirst⟩
  · rcases hs with ⟨-, rfl⟩ | ⟨hns, -⟩
    · have hone : z.rest.left - (z.rest.drop 1).left = 1 := by
        rw [Rest.left_drop] at hlt ⊢
        omega
      rw [hkind, hone]
      exact ⟨.error hzero, iff_of_true (hstuck.mpr hlen) hzero⟩
    · rw [hstuck.mpr hlen] at hns
      exact absurd hns (by simp)
  · rcases hs with ⟨hst, -⟩ | ⟨hns, rfl⟩
    · exact absurd (hstuck.mp hst) (Nat.ne_of_gt hlen)
    · rw [hkind]
      refine ⟨.winner hp hlen ht hfirst, iff_of_false (by simp [hns]) fun hzero => ?_⟩
      exact absurd (hzero p hp _ ht) (Nat.ne_of_gt hlen)

end Arbor
