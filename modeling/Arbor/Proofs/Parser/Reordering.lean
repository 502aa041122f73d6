import Arbor.Proofs.Grammar.Reordering
import Arbor.Proofs.Parser.Descent

/-!
# The order of alternatives

A choice takes its longest alternative, the first of equals. So the order of the
alternatives says which tree is built where two of them end at the same place. It says
nothing else: whether the tokens match, and the error if they do not, are the same in
every order (`Parser.parse_reordered_iff`).

Of a descent all that matters for this is an **attempt**: the place where the match
ends, if there is one, and the frontier of the failures on the way. Which nodes were
built is left out, and nothing that a descent does depends on them. An attempt at a
choice is the join of the attempts at its alternatives, in both components, and a join
does not know an order (`Attempts.perm`). From there a reordering goes up through an
expression, one construct at a time (`Attempt.reordered`), and down through the names
into the bodies of the other grammar (`Attempt.in_reordered`).
-/

namespace Arbor

namespace Descent

/-! ## Attempts -/

/-- Where a match ends. -/
def ends (r : Option Found) : Option Nat := r.map (·.2)

/-- What follows a match ends where the whole does. -/
theorem ends_map_append (m : Found) (r : Option Found) : ends (r.map m.append) = ends r := by
  cases r <;> rfl

theorem ends_getD (pos : Nat) (r : Option Found) :
    ends (some (r.getD ([], pos))) = some ((ends r).getD pos) := by
  cases r <;> rfl

theorem ends_node (i : ParseInput) (n : Text) (pos : Nat) (r : Option Found) :
    ends (r.map fun m => ([node i n pos m.1], m.2)) = ends r := by
  cases r <;> rfl

/-- The further of two ends. -/
def further : Option Nat → Option Nat → Option Nat
  | none, b => b
  | a, none => a
  | some m, some k => some (max m k)

theorem further_none (a : Option Nat) : further a none = a := by
  cases a <;> rfl

theorem further_left_comm (a b c : Option Nat) :
    further a (further b c) = further b (further a c) := by
  match a, b, c with
  | none, b, c => rfl
  | some m, none, c => rfl
  | some m, some k, none => exact congrArg some (max_comm m k)
  | some m, some k, some l => exact congrArg some (max_left_comm m k l)

/-- The longer of two matches ends at the further end. -/
theorem ends_longest (a b : Option Found) : ends (longest a b) = further (ends a) (ends b) := by
  match a, b with
  | none, b => rfl
  | some m, none => rfl
  | some m, some k =>
    show ends (if m.2 < k.2 then some k else some m) = some (max m.2 k.2)
    split
    · next h => exact congrArg some (max_eq_right h.le).symm
    · next h => exact congrArg some (max_eq_left (not_lt.mp h)).symm

/-- **What comes of an attempt to match an expression**: where the match ends, and the
frontier of what failed. -/
inductive Attempt (i : ParseInput) : Expr → Nat → Option Nat → Frontier → Prop
  | empty {pos : Nat} : Attempt i .empty pos (some pos) ⊥
  | accept {e x t} {pos : Nat} (hx : e.terminal? i.grammar = some x)
      (ht : i.tokens[pos]? = some t) (ha : x.Accepts t) : Attempt i e pos (some (pos + 1)) ⊥
  | reject {e x} {pos : Nat} (hx : e.terminal? i.grammar = some x)
      (ht : ∀ t, i.tokens[pos]? = some t → ¬ x.Accepts t) :
      Attempt i e pos none (.single pos (some x))
  | group {e pos o d} : Attempt i e pos o d → Attempt i (.group e) pos o d
  | option {e pos o d} : Attempt i e pos o d →
      Attempt i (.option e) pos (some (o.getD pos)) d
  /-- The body fails or consumes nothing: that is no further occurrence. -/
  | repetitionLast {e pos o d} (ho : ∀ next, o = some next → next = pos) :
      Attempt i e pos o d → Attempt i (.repetition e) pos (some pos) d
  | repetitionMore {e pos next o d d'} (hnext : next ≠ pos) :
      Attempt i e pos (some next) d → Attempt i (.repetition e) next o d' →
      Attempt i (.repetition e) pos o (d ⊔ d')
  | alt {e f pos o o' d d'} : Attempt i e pos o d → Attempt i f pos o' d' →
      Attempt i (.alt e f) pos (further o o') (d ⊔ d')
  | seqFirst {e f pos d} : Attempt i e pos none d → Attempt i (.seq e f) pos none d
  | seq {e f pos next o d d'} : Attempt i e pos (some next) d → Attempt i f next o d' →
      Attempt i (.seq e f) pos o (d ⊔ d')
  | name {mark n p pos o d} (hn : Grammar.isToken n = false) (hp : i.grammar.get? n = some p) :
      Attempt i p.body pos o d → Attempt i (.name mark n) pos o d

variable {i : ParseInput} {e f : Expr} {pos : Nat} {o o' : Option Nat} {d d' : Frontier}

/-- A terminal that is matched is attempted. -/
theorem exists_attempt_terminal {x : Expectation} {notes notes' : Notes} {r : Option Found}
    (hx : e.terminal? i.grammar = some x) (h : terminal i x pos notes = (r, notes')) :
    ∃ d, Attempt i e pos (ends r) d ∧ notes'.frontier = notes.frontier ⊔ d := by
  unfold terminal at h
  cases hb : i.tokens[pos]?.bind (x.build i.grammar) with
  | some build =>
    rw [hb] at h
    obtain ⟨rfl, rfl⟩ := Prod.mk.inj h
    obtain ⟨t, ht, hb⟩ := Option.bind_eq_some_iff.mp hb
    have ha : x.Accepts t := (Expectation.isSome_build ..).mp (Option.isSome_of_eq_some hb)
    exact ⟨⊥, .accept hx ht ha, (sup_bot_eq _).symm⟩
  | none =>
    rw [hb] at h
    obtain ⟨rfl, rfl⟩ := Prod.mk.inj h
    refine ⟨_, .reject hx fun t ht => ?_, notes.frontier_fail pos x⟩
    exact Expectation.build_eq_none_iff.mp (Option.bind_eq_none_iff.mp hb t ht)

/-- **A descent is an attempt**, and what it notes does not depend on what was noted
before. -/
theorem exists_attempt {depth : Nat} {notes notes' : Notes} {r : Option Found}
    (h : expr i depth e pos notes = some (r, notes')) :
    ∃ d, Attempt i e pos (ends r) d ∧ notes'.frontier = notes.frontier ⊔ d := by
  induction depth generalizing e pos notes notes' r with
  | zero => cases h
  | succ depth ih =>
    cases hx : e.terminal? i.grammar with
    | some x =>
      rw [expr_of_terminal? hx, Option.some_inj] at h
      exact exists_attempt_terminal hx h
    | none =>
      cases e with
      | empty =>
        cases h
        exact ⟨⊥, .empty, (sup_bot_eq _).symm⟩
      | literal | range => cases hx
      | group e =>
        obtain ⟨d, ha, hd⟩ := ih h
        exact ⟨d, .group ha, hd⟩
      | option e =>
        obtain ⟨⟨a, notes₁⟩, he, h⟩ := Option.bind_eq_some_iff.mp h
        obtain ⟨rfl, rfl⟩ := Prod.mk.inj (Option.some_inj.mp h)
        obtain ⟨d, ha, hd⟩ := ih he
        refine ⟨d, ?_, hd⟩
        rw [ends_getD]
        exact .option ha
      | repetition e =>
        obtain ⟨⟨a, notes₁⟩, he, h⟩ := Option.bind_eq_some_iff.mp h
        obtain ⟨d, ha, hd⟩ := ih he
        cases a with
        | none =>
          obtain ⟨rfl, rfl⟩ := Prod.mk.inj (Option.some_inj.mp h)
          exact ⟨d, .repetitionLast (fun _ h => absurd h (by simp [ends])) ha, hd⟩
        | some m =>
          dsimp only at h
          split at h
          · next hm =>
            obtain ⟨rfl, rfl⟩ := Prod.mk.inj (Option.some_inj.mp h)
            exact ⟨d, .repetitionLast (fun _ h => Option.some_inj.mp h ▸ hm) ha, hd⟩
          · next hm =>
            obtain ⟨⟨b, notes₂⟩, hf, h⟩ := Option.bind_eq_some_iff.mp h
            obtain ⟨rfl, rfl⟩ := Prod.mk.inj (Option.some_inj.mp h)
            obtain ⟨d', hb, hd'⟩ := ih hf
            refine ⟨d ⊔ d', ?_, by rw [hd', hd, sup_assoc]⟩
            rw [ends_map_append]
            exact .repetitionMore hm ha hb
      | alt e f =>
        obtain ⟨⟨a, notes₁⟩, he, h⟩ := Option.bind_eq_some_iff.mp h
        obtain ⟨⟨b, notes₂⟩, hf, h⟩ := Option.bind_eq_some_iff.mp h
        obtain ⟨rfl, rfl⟩ := Prod.mk.inj (Option.some_inj.mp h)
        obtain ⟨d, ha, hd⟩ := ih he
        obtain ⟨d', hb, hd'⟩ := ih hf
        refine ⟨d ⊔ d', ?_, by rw [hd', hd, sup_assoc]⟩
        rw [ends_longest]
        exact .alt ha hb
      | seq e f =>
        obtain ⟨⟨a, notes₁⟩, he, h⟩ := Option.bind_eq_some_iff.mp h
        obtain ⟨d, ha, hd⟩ := ih he
        cases a with
        | none =>
          obtain ⟨rfl, rfl⟩ := Prod.mk.inj (Option.some_inj.mp h)
          exact ⟨d, .seqFirst ha, hd⟩
        | some m =>
          obtain ⟨⟨b, notes₂⟩, hf, h⟩ := Option.bind_eq_some_iff.mp h
          obtain ⟨rfl, rfl⟩ := Prod.mk.inj (Option.some_inj.mp h)
          obtain ⟨d', hb, hd'⟩ := ih hf
          refine ⟨d ⊔ d', ?_, by rw [hd', hd, sup_assoc]⟩
          rw [ends_map_append]
          exact .seq ha hb
      | name mark n =>
        obtain ⟨hn, hp⟩ := Expr.terminal?_name_eq_none_iff.mp hx
        obtain ⟨p, hp⟩ := Option.isSome_iff_exists.mp hp
        replace h : (if Grammar.isToken n then _ else _) = _ := h
        rw [if_neg (by simp [hn]), hp] at h
        obtain ⟨⟨a, notes₁⟩, he, h⟩ := Option.bind_eq_some_iff.mp h
        obtain ⟨rfl, rfl⟩ := Prod.mk.inj (Option.some_inj.mp h)
        obtain ⟨d, ha, hd⟩ := ih he
        refine ⟨d, ?_, hd⟩
        rw [ends_node]
        exact .name hn hp ha

/-- **An attempt is that of a descent.** -/
theorem Attempt.exists_descends (h : Attempt i e pos o d) :
    ∃ r, ends r = o ∧ Descends i e pos r d := by
  induction h with
  | empty => exact ⟨_, rfl, .empty⟩
  | accept hx ht ha =>
    obtain ⟨build, hb⟩ := Option.isSome_iff_exists.mp ((Expectation.isSome_build _ _ _).mpr ha)
    exact ⟨_, rfl, .accept hx ht hb⟩
  | reject hx ht => exact ⟨none, rfl, .reject hx ht⟩
  | group _ ih =>
    obtain ⟨r, hr, hd⟩ := ih
    exact ⟨r, hr, hd.group⟩
  | option _ ih =>
    obtain ⟨r, rfl, hd⟩ := ih
    exact ⟨_, ends_getD _ r, hd.option⟩
  | repetitionLast ho _ ih =>
    obtain ⟨r, rfl, hd⟩ := ih
    refine ⟨_, rfl, hd.repetitionLast fun m hm => ?_⟩
    exact ho m.2 (by rw [hm]; rfl)
  | repetitionMore hnext _ _ ih₁ ih₂ =>
    obtain ⟨r, hr, hd⟩ := ih₁
    obtain ⟨m, rfl, rfl⟩ := Option.map_eq_some_iff.mp hr
    obtain ⟨r', hr', hd'⟩ := ih₂
    exact ⟨_, (ends_map_append m r').trans hr', hd.repetitionMore hnext hd'⟩
  | alt _ _ ih₁ ih₂ =>
    obtain ⟨a, rfl, hd⟩ := ih₁
    obtain ⟨b, rfl, hd'⟩ := ih₂
    exact ⟨_, ends_longest a b, hd.alt hd'⟩
  | seqFirst _ ih =>
    obtain ⟨r, hr, hd⟩ := ih
    obtain rfl := Option.map_eq_none_iff.mp hr
    exact ⟨none, rfl, hd.seqFirst⟩
  | seq _ _ ih₁ ih₂ =>
    obtain ⟨r, hr, hd⟩ := ih₁
    obtain ⟨m, rfl, rfl⟩ := Option.map_eq_some_iff.mp hr
    obtain ⟨r', hr', hd'⟩ := ih₂
    exact ⟨_, (ends_map_append m r').trans hr', hd.seq hd'⟩
  | name hn hp _ ih =>
    obtain ⟨r, hr, hd⟩ := ih
    exact ⟨_, (ends_node ..).trans hr, hd.name hn hp⟩

/-- A descent gives one match and adds one frontier. -/
theorem Descends.unique {r r' : Option Found} (h : Descends i e pos r d)
    (h' : Descends i e pos r' d') : r = r' ∧ d = d' := by
  obtain ⟨k₁, h⟩ := h
  obtain ⟨k₂, h'⟩ := h'
  obtain ⟨notes, he, hd⟩ := h (max k₁ k₂) (le_max_left _ _) .start
  obtain ⟨notes', he', hd'⟩ := h' (max k₁ k₂) (le_max_right _ _) .start
  obtain ⟨rfl, rfl⟩ := Prod.mk.inj (Option.some_inj.mp (he.symm.trans he'))
  rw [Notes.frontier_start, bot_sup_eq] at hd hd'
  exact ⟨rfl, hd.symm.trans hd'⟩

/-- One thing comes of an attempt. -/
theorem Attempt.unique (h : Attempt i e pos o d) (h' : Attempt i e pos o' d') :
    o = o' ∧ d = d' := by
  obtain ⟨r, rfl, hr⟩ := h.exists_descends
  obtain ⟨r', rfl, hr'⟩ := h'.exists_descends
  obtain ⟨rfl, rfl⟩ := hr.unique hr'
  exact ⟨rfl, rfl⟩

/-! ## A choice is a join -/

/-- What comes of the attempts at some alternatives together. -/
inductive Attempts (i : ParseInput) (pos : Nat) : List Expr → Option Nat → Frontier → Prop
  | nil : Attempts i pos [] none ⊥
  | cons {e es o o' d d'} : Attempt i e pos o d → Attempts i pos es o' d' →
      Attempts i pos (e :: es) (further o o') (d ⊔ d')

theorem attempts_singleton_iff : Attempts i pos [e] o d ↔ Attempt i e pos o d := by
  constructor
  · intro h
    cases h with
    | cons h hnil =>
      cases hnil
      rw [further_none, sup_bot_eq]
      exact h
  · intro h
    rw [← further_none o, ← sup_bot_eq d]
    exact .cons h .nil

/-- **An attempt at a choice is one at its alternatives.** -/
theorem attempt_iff_alternatives :
    Attempt i e pos o d ↔ Attempts i pos e.alternatives o d := by
  induction e generalizing o d with
  | alt e f _ ih =>
    constructor
    · intro h
      cases h with
      | accept hx | reject hx => cases hx
      | alt h₁ h₂ => exact .cons h₁ (ih.mp h₂)
    · intro h
      cases h with
      | cons h₁ h₂ => exact .alt h₁ (ih.mpr h₂)
  | _ => exact attempts_singleton_iff.symm

/-- **The order of alternatives is lost in a join.** -/
theorem Attempts.perm {es fs : List Expr} (h : Attempts i pos es o d) (hp : es.Perm fs) :
    Attempts i pos fs o d := by
  induction hp generalizing o d with
  | nil => exact h
  | cons e _ ih =>
    cases h with
    | cons h hs => exact .cons h (ih hs)
  | swap e f es =>
    cases h with
    | @cons _ _ o₁ _ d₁ _ h₁ hs =>
      cases hs with
      | cons h₂ hs =>
        rw [further_left_comm o₁, sup_left_comm d₁]
        exact .cons h₂ (.cons h₁ hs)
  | trans _ _ ih₁ ih₂ => exact ih₂ (ih₁ h)

/-! ## Reordering -/

/-- **The same comes of an attempt at a reordering.** -/
theorem Attempt.reordered (h : Attempt i e pos o d) (hr : e.Reordered f) :
    Attempt i f pos o d := by
  induction hr generalizing pos o d with
  | permute hp => exact attempt_iff_alternatives.mpr ((attempt_iff_alternatives.mp h).perm hp)
  | trans _ _ ih₁ ih₂ => exact ih₂ (ih₁ h)
  | name =>
    cases h with
    | accept hx ht ha => exact .accept hx ht ha
    | reject hx ht => exact .reject hx ht
    | name hn hp h => exact .name hn hp h
  | group _ ih =>
    cases h with
    | accept hx | reject hx => cases hx
    | group h => exact .group (ih h)
  | option _ ih =>
    cases h with
    | accept hx | reject hx => cases hx
    | option h => exact .option (ih h)
  | @repetition e e' _ ih =>
    -- the occurrences follow each other, so this is an induction on the attempt
    generalize he : Expr.repetition e = rep at h
    induction h with
    | repetitionLast ho h =>
      cases he
      exact .repetitionLast ho (ih h)
    | repetitionMore hnext h _ _ ih₂ =>
      cases he
      exact .repetitionMore hnext (ih h) (ih₂ rfl)
    | accept hx | reject hx =>
      cases he
      cases hx
    | _ => cases he
  | seq _ _ ih₁ ih₂ =>
    cases h with
    | accept hx | reject hx => cases hx
    | seqFirst h => exact .seqFirst (ih₁ h)
    | seq h₁ h₂ => exact .seq (ih₁ h₁) (ih₂ h₂)
  | alt _ _ ih₁ ih₂ =>
    cases h with
    | accept hx | reject hx => cases hx
    | alt h₁ h₂ => exact .alt (ih₁ h₁) (ih₂ h₂)

/-- **The same comes of an attempt in a reordered grammar.** -/
theorem Attempt.in_reordered {g : Grammar} (h : Attempt i e pos o d)
    (hr : i.grammar.Reordered g) : Attempt { i with grammar := g } e pos o d := by
  induction h with
  | empty => exact .empty
  | accept hx ht ha => exact .accept ((hr.terminal?_eq _).trans hx) ht ha
  | reject hx ht => exact .reject ((hr.terminal?_eq _).trans hx) ht
  | group _ ih => exact .group ih
  | option _ ih => exact .option ih
  | repetitionLast ho _ ih => exact .repetitionLast ho ih
  | repetitionMore hnext _ _ ih₁ ih₂ => exact .repetitionMore hnext ih₁ ih₂
  | alt _ _ ih₁ ih₂ => exact .alt ih₁ ih₂
  | seqFirst _ ih => exact .seqFirst ih
  | seq _ _ ih₁ ih₂ => exact .seq ih₁ ih₂
  | name hn hp _ ih =>
    obtain ⟨q, hq, hbody⟩ := hr.exists_get? hp
    exact .name hn hq (ih.reordered (hbody hn))

/-! ## The verdict -/

/-- What an outcome says but for the tree. -/
def verdict (out : Except ParseError Node) : Except ParseError Unit := out.map fun _ => ()

theorem verdict_map (f : Node → Node) (out : Except ParseError Node) :
    verdict (out.map f) = verdict out := by
  cases out <;> rfl

theorem ok_iff_of_verdict_eq {out out' : Except ParseError Node} (h : verdict out = verdict out') :
    (∃ root, out = .ok root) ↔ ∃ root, out' = .ok root := by
  cases out <;> cases out' <;> simp_all [verdict, Except.map]

theorem error_iff_of_verdict_eq {out out' : Except ParseError Node}
    (h : verdict out = verdict out') (e : ParseError) : out = .error e ↔ out' = .error e := by
  cases out <;> cases out' <;> simp_all [verdict, Except.map]

/-- The same failures make the same error, whatever the grammar. -/
theorem Notes.error_congr {notes notes' : Notes} (h : notes.frontier = notes'.frontier)
    (i : ParseInput) (g : Grammar) : notes.error i = notes'.error { i with grammar := g } := by
  have hf : notes.furthest = notes'.furthest := congrArg Frontier.place h
  have hperm : notes.expected.Perm notes'.expected :=
    (List.perm_ext_iff_of_nodup notes.nodup notes'.nodup).mpr
      (Set.ext_iff.mp (congrArg Frontier.expected h))
  unfold Notes.error
  rw [hf, Text.sort_eq_of_perm (hperm.map Expectation.render)]

/-- **The verdict depends on the attempt alone.** -/
theorem verdict_conclude_congr {r r' : Option Found} {notes notes' : Notes}
    (hr : ends r = ends r') (hf : notes.frontier = notes'.frontier) (i : ParseInput)
    (g : Grammar) (start : Text) :
    verdict (conclude i r start notes)
      = verdict (conclude { i with grammar := g } r' start notes') := by
  have herror := Notes.error_congr hf i g
  have hplace : notes.furthest = notes'.furthest := congrArg Frontier.place hf
  cases r with
  | none =>
    obtain rfl := Option.map_eq_none_iff.mp hr.symm
    exact congrArg Except.error herror
  | some m =>
    obtain ⟨m', rfl, hm⟩ := Option.map_eq_some_iff.mp hr.symm
    unfold conclude
    dsimp only
    rw [hplace, herror, hm]
    split
    · rfl
    · split <;> rfl

section Parse

variable {p : Parser} {start : Text} {q : Production}

/-- **A parse comes to an attempt** at the body of the start production, and its verdict
is the conclusion from it. -/
theorem exists_attempt_parse (hg : ¬ p.grammar.LeftRecursive) (hn : Grammar.isToken start = false)
    (hq : p.grammar.get? start = some q) (tokens : List Token) :
    ∃ r notes, Attempt (p.input tokens) q.body 0 (ends r) notes.frontier
      ∧ verdict (p.parse tokens start) = verdict (conclude (p.input tokens) r start notes) := by
  obtain ⟨depth, hreturns⟩ := returns_parse hg hn (Grammar.has_of_get? hq) tokens
  have hparse := hreturns depth le_rfl
  rw [parse, hq] at hparse
  replace hparse : (if Grammar.isToken start then _ else _) = _ := hparse
  rw [if_neg (by simp [hn])] at hparse
  obtain ⟨⟨r, notes⟩, hexpr, hout⟩ := Option.bind_eq_some_iff.mp hparse
  obtain ⟨d, ha, hd⟩ := exists_attempt hexpr
  rw [Notes.frontier_start, bot_sup_eq] at hd
  refine ⟨r, notes, hd ▸ ha, ?_⟩
  rw [← verdict_map Node.unnumbered, ← Option.some_inj.mp hout]

/-- The verdict of a parse is the conclusion from any attempt. -/
theorem verdict_parse_of_attempt (hg : ¬ p.grammar.LeftRecursive)
    (hn : Grammar.isToken start = false) (hq : p.grammar.get? start = some q)
    {tokens : List Token} {r : Option Found} {notes : Notes}
    (h : Attempt (p.input tokens) q.body 0 (ends r) notes.frontier) :
    verdict (p.parse tokens start) = verdict (conclude (p.input tokens) r start notes) := by
  obtain ⟨r', notes', h', hv⟩ := exists_attempt_parse hg hn hq tokens
  obtain ⟨hends, hf⟩ := h'.unique h
  exact hv.trans (verdict_conclude_congr hends hf _ _ _)

end Parse

/-- **A reordered grammar has the same verdicts.** -/
theorem verdict_parse_reordered {g g' : Grammar} (hg : ¬ g.LeftRecursive) (hr : g.Reordered g')
    (skip : List Text) (tokens : List Token) (start : Text) :
    verdict (Parser.parse ⟨g, skip⟩ tokens start)
      = verdict (Parser.parse ⟨g', skip⟩ tokens start) := by
  by_cases hs : Grammar.isToken start = false ∧ g.has start = true
  · obtain ⟨hn, hq⟩ := hs
    obtain ⟨q, hq⟩ := Option.isSome_iff_exists.mp hq
    obtain ⟨q', hq', hbody⟩ := hr.exists_get? hq
    obtain ⟨r, notes, ha, hv⟩ := exists_attempt_parse (p := ⟨g, skip⟩) hg hn hq tokens
    have ha' := (ha.in_reordered hr).reordered (hbody hn)
    rw [hv, verdict_parse_of_attempt (p := ⟨g', skip⟩) (hr.not_leftRecursive hg) hn hq' ha']
    exact verdict_conclude_congr rfl rfl _ g' start
  · -- there is no such production in either
    rw [Parser.parse_noProduction (p := ⟨g, skip⟩) hs]
    rw [← hr.has_eq] at hs
    rw [Parser.parse_noProduction (p := ⟨g', skip⟩) hs]

end Descent

/-- **The order of alternatives decides only ties**: on a grammar that is not left
recursive, and on its reorderings, the same tokens match, and the others have the same
error. -/
theorem Parser.parse_reordered_iff {g g' : Grammar} (hg : ¬ g.LeftRecursive)
    (hr : g.Reordered g') (skip : List Text) (tokens : List Token) (start : Text) :
    ((∃ root, Parser.parse ⟨g, skip⟩ tokens start = .ok root)
        ↔ ∃ root, Parser.parse ⟨g', skip⟩ tokens start = .ok root)
      ∧ ∀ e, Parser.parse ⟨g, skip⟩ tokens start = .error e
        ↔ Parser.parse ⟨g', skip⟩ tokens start = .error e := by
  have h := Descent.verdict_parse_reordered hg hr skip tokens start
  exact ⟨Descent.ok_iff_of_verdict_eq h, Descent.error_iff_of_verdict_eq h⟩

namespace Sample

open Descent

/-- The production `way = "left" | "right" .` -/
def way : Production :=
  ⟨utf8 "way", mark, .alt (.literal (utf8 "left")) (.literal (utf8 "right"))⟩

/-- The production `move = way | way "now" | "halt" .` -/
def move : Production :=
  ⟨utf8 "move", mark, .alt (.name mark (utf8 "way"))
    (.alt (.seq (.name mark (utf8 "way")) (.literal (utf8 "now"))) (.literal (utf8 "halt")))⟩

def moves : Grammar := .ofProductions [move, way]

def moveParser : Parser := ⟨moves, []⟩

/-- The grammar with all alternatives in reverse: `way = "right" | "left" .` and
`move = "halt" | way "now" | way .` -/
def movesReversed : Grammar := .ofProductions
  [⟨utf8 "move", mark, .alt (.literal (utf8 "halt"))
    (.alt (.seq (.name mark (utf8 "way")) (.literal (utf8 "now"))) (.name mark (utf8 "way")))⟩,
  ⟨utf8 "way", mark, .alt (.literal (utf8 "right")) (.literal (utf8 "left"))⟩]

/-- The tokens of `left soon`. -/
def moveTokens : List Token :=
  [token "Word" "left" 0, token "Word" "soon" 5, token "EOF" "" 9]

theorem get?_moves (n : Text) : moves.get? n = [move, way].find? (·.name = n) :=
  Grammar.get?_ofProductions _ n

theorem reordered_moves : moves.Reordered movesReversed := by
  unfold Grammar.Reordered
  rw [moves, movesReversed, Grammar.productions_ofProductions, Grammar.productions_ofProductions]
  refine .cons ⟨rfl, fun _ => .permute ?_⟩ (.cons ⟨rfl, fun _ => .permute ?_⟩ .nil)
  · exact (List.reverse_perm move.body.alternatives).symm
  · exact (List.reverse_perm way.body.alternatives).symm

/-- Only a move refers leftmost to anything, and not to itself. -/
theorem eq_of_leftRefers_moves (a b : Text) (h : moves.LeftRefers a b) :
    a = utf8 "move" ∧ b ≠ utf8 "move" := by
  obtain ⟨p, hp, hb⟩ := h
  obtain ⟨hm, rfl⟩ := Grammar.mem_of_get?_ofProductions hp
  simp only [List.mem_cons, List.not_mem_nil, or_false] at hm
  rcases hm with rfl | rfl
  · have hway : ∀ {c}, Leads moves (.name mark (utf8 "way")) c → c ≠ utf8 "move" := by
      rintro _ ⟨⟩
      decide
    refine ⟨rfl, ?_⟩
    rcases leads_alt_iff.mp hb with hb | hb
    · exact hway hb
    · rcases leads_alt_iff.mp hb with hb | hb
      · cases hb with
        | seqLeft hb => exact hway hb
        | seqRight _ hb => cases hb
      · cases hb
  · rcases leads_alt_iff.mp hb with hb | hb <;> cases hb

theorem not_leftRecursive_moves : ¬ moves.LeftRecursive :=
  Grammar.not_leftRecursive_of_leaves eq_of_leftRefers_moves

/-- A literal that is not the text of the token fails. -/
theorem attempt_literal {v : Text} {pos : Nat} {t : Token}
    (ht : (moveParser.input moveTokens).tokens[pos]? = some t) (hv : t.literal ≠ v) :
    Attempt (moveParser.input moveTokens) (.literal v) pos none (.single pos (some (.text v))) := by
  refine .reject rfl fun t' ht' => ?_
  obtain rfl := Option.some_inj.mp (ht.symm.trans ht')
  exact hv

/-- The way is `left`, and `right` has failed. -/
theorem attempt_way : Attempt (moveParser.input moveTokens) (.name mark (utf8 "way")) 0 (some 1)
    (.single 0 (some (.text (utf8 "right")))) := by
  have hleft : Attempt (moveParser.input moveTokens) (.literal (utf8 "left")) 0 (some 1) ⊥ :=
    .accept rfl rfl rfl
  have h := Attempt.alt hleft (attempt_literal rfl (by decide : utf8 "left" ≠ utf8 "right"))
  rw [bot_sup_eq] at h
  exact .name (by decide) (get?_moves _) h

/-- The move ends behind the way, and `now` has failed there. -/
theorem attempt_move : Attempt (moveParser.input moveTokens) move.body 0 (some 1)
    (.single 1 (some (.text (utf8 "now")))) := by
  have hlt : ∀ x y, Frontier.single 0 x ≤ .single 1 y := fun x y => .inl Nat.one_pos
  have hnow := Attempt.seq attempt_way
    (attempt_literal rfl (by decide : utf8 "soon" ≠ utf8 "now"))
  have h := attempt_way.alt
    (hnow.alt (attempt_literal rfl (by decide : utf8 "left" ≠ utf8 "halt")))
  rw [sup_eq_right.mpr (hlt _ _), sup_eq_left.mpr (hlt _ _), sup_eq_right.mpr (hlt _ _)] at h
  exact h

/-- The error of `left soon`. -/
def moveError : ParseError :=
  .mismatch ⟨⟨5, 1, 6⟩, utf8 "soon", false, [(utf8 "now").quoted]⟩

theorem parse_moves : moveParser.parse moveTokens (utf8 "move") = .error moveError := by
  have hnotes : (Notes.start.fail 1 (.text (utf8 "now"))).frontier
      = .single 1 (some (.text (utf8 "now"))) := by
    rw [Notes.frontier_fail, Notes.frontier_start, bot_sup_eq]
  have hattempt : Attempt (moveParser.input moveTokens) move.body 0 (ends (some ([], 1)))
      (Notes.start.fail 1 (.text (utf8 "now"))).frontier := hnotes ▸ attempt_move
  have hv := verdict_parse_of_attempt not_leftRecursive_moves (by decide)
    (get?_moves (utf8 "move")) hattempt
  refine (error_iff_of_verdict_eq hv moveError).mpr ?_
  show Except.error (ParseError.mismatch ⟨_, _, _, Text.sort [(utf8 "now").quoted]⟩) = _
  rw [Text.sort, List.mergeSort_singleton]
  rfl

end Sample

/-- The reversed grammar has the error of `left soon`, which is that of the first. -/
theorem Parser.parse_reordered_iff_moves :
    ¬ Sample.moves.LeftRecursive ∧ Sample.moves.Reordered Sample.movesReversed
      ∧ Parser.parse ⟨Sample.movesReversed, []⟩ Sample.moveTokens (utf8 "move")
        = .error Sample.moveError :=
  ⟨Sample.not_leftRecursive_moves, Sample.reordered_moves,
    ((parse_reordered_iff Sample.not_leftRecursive_moves Sample.reordered_moves []
      Sample.moveTokens (utf8 "move")).2 Sample.moveError).mp Sample.parse_moves⟩

end Arbor
