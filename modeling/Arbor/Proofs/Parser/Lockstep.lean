import Arbor.Proofs.Parser.Frontier

/-!
# Two parses side by side

What does a parse depend on? Let two inputs have the same grammar and the same
tokens before an index `k`, and let the first parse get no further than `k`. Then
the two do the same things one after the other, up to the moment when the second
consumes the token at `k`, and from then on it has got further than the first
(`Run.lockstep`). If that never happens, they end alike.

To be alike is to agree on all that steers a parse (`Alike`): the frontier, and
where the matches in the table end. The nodes are left out. They differ where the
tokens do, and no step of the parser asks what is in them.

The theorem rests on one property of the parser: how far a task got is never
forgotten by the task that it is a part of. A choice drops its shorter side, and a
sequence may drop what its first items matched; but in the first case the result
ends further on, and in the second the item that failed has left its mark on the
frontier.
-/

namespace Arbor

namespace Parse

variable {i i' : ParseInput}

/-! ## How far a run got -/

/-- **How far a task got**: the frontier of the state joined with the end of the
match. -/
def reach {α : Type} {size pos : Nat} (r : Option (Match α size pos)) (s : State size) :
    Frontier :=
  s.frontier ⊔ r.elim ⊥ fun m => .single m.next none

section Reach

variable {α : Type} {size pos : Nat}

theorem frontier_le_reach (r : Option (Match α size pos)) (s : State size) :
    s.frontier ≤ reach r s := le_sup_left

@[simp] theorem reach_none (s : State size) :
    reach (none : Option (Match α size pos)) s = s.frontier := sup_bot_eq _

theorem reach_le_iff {r : Option (Match α size pos)} {s : State size} {a : Frontier} :
    reach r s ≤ a ↔ s.frontier ≤ a ∧ ∀ m, r = some m → m.next ≤ a.place := by
  unfold reach
  rw [sup_le_iff]
  cases r with
  | none => simp
  | some m =>
    show _ ∧ Frontier.single m.next none ≤ a ↔ _
    rw [Frontier.single_none_le]
    simp

theorem next_le_reach (m : Match α size pos) (s : State size) :
    m.next ≤ (reach (some m) s).place :=
  (reach_le_iff.mp le_rfl).2 m rfl

/-- What is appended to a match ends where the whole does. -/
@[simp] theorem reach_map_append {m : Match (List α) size pos}
    (r : Option (Match (List α) size m.next)) (s : State size) :
    reach (r.map m.append) s = reach r s := by
  cases r <;> rfl

/-- A choice gets as far as either side. -/
theorem next_le_longer {a b : Option (Match α size pos)} {m : Match α size pos}
    (h : a = some m ∨ b = some m) : ∃ k, longer a b = some k ∧ m.next ≤ k.next := by
  unfold longer
  rcases h with rfl | rfl
  · cases b with
    | none => exact ⟨m, rfl, le_rfl⟩
    | some k =>
      by_cases hk : m.next < k.next
      · exact ⟨k, if_pos hk, hk.le⟩
      · exact ⟨m, if_neg hk, le_rfl⟩
  · cases a with
    | none => exact ⟨m, rfl, le_rfl⟩
    | some k =>
      by_cases hk : k.next < m.next
      · exact ⟨m, if_pos hk, le_rfl⟩
      · exact ⟨k, if_neg hk, Nat.le_of_not_lt hk⟩

theorem reach_le_longer_left {a b : Option (Match α size pos)} {s s' : State size}
    (h : s.frontier ≤ s'.frontier) : reach a s ≤ reach (longer a b) s' := by
  refine reach_le_iff.mpr ⟨h.trans (frontier_le_reach _ _), fun m hm => ?_⟩
  obtain ⟨k, hk, hle⟩ := next_le_longer (b := b) (.inl hm)
  rw [hk]
  exact hle.trans (next_le_reach k s')

theorem reach_le_longer_right (a b : Option (Match α size pos)) (s : State size) :
    reach b s ≤ reach (longer a b) s := by
  refine reach_le_iff.mpr ⟨frontier_le_reach _ _, fun m hm => ?_⟩
  obtain ⟨k, hk, hle⟩ := next_le_longer (a := a) (.inr hm)
  rw [hk]
  exact hle.trans (next_le_reach k s)

theorem reach_le_getD (r : Option (Match (List α) size pos)) (s : State size) :
    reach r s ≤ reach (some (r.getD (.empty []))) s := by
  cases r with
  | none =>
    rw [reach_none]
    exact frontier_le_reach _ _
  | some m => exact le_rfl

/-- A repetition gets as far as its last occurrence, which consumed nothing. -/
theorem reach_le_empty {r : Option (Match (List α) size pos)}
    (hr : ∀ m, r = some m → m.next = pos) (s : State size) :
    reach r s ≤ reach (some (Match.empty [] : Match (List α) size pos)) s := by
  refine reach_le_iff.mpr ⟨frontier_le_reach _ _, fun m hm => ?_⟩
  rw [hr m hm]
  exact next_le_reach (Match.empty [] : Match (List α) size pos) s

theorem map_next_longer {size' : Nat} {a b : Option (Match α size pos)}
    {a' b' : Option (Match α size' pos)} (ha : a.map (·.next) = a'.map (·.next))
    (hb : b.map (·.next) = b'.map (·.next)) :
    (longer a b).map (·.next) = (longer a' b').map (·.next) := by
  match a, a', ha, b, b', hb with
  | none, none, _, _, _, hb => exact hb
  | some m, some m', ha, none, none, _ => exact ha
  | some m, some m', ha, some k, some k', hb =>
    have hm : m.next = m'.next := Option.some.inj ha
    have hk : k.next = k'.next := Option.some.inj hb
    unfold longer
    dsimp only
    rw [← hm, ← hk]
    split
    · exact hb
    · exact ha

end Reach

/-- A task gets at least to its own start. -/
theorem Run.le_reach {opened : Grammar.Opened} {pos : Nat} {task : Task} {s s' : State i.size}
    {r : Option (Match (List Node) i.size pos)} (h : Run i opened pos task s r s')
    (hs : s.Entries (Noted s)) : pos ≤ (reach r s').place := by
  cases r with
  | none =>
    rw [reach_none]
    exact (h.start_le_of_none hs).2 rfl
  | some m => exact m.le.trans (next_le_reach m s')

/-- What goes on behind a match gets further than the match. -/
theorem Run.reach_le {opened : Grammar.Opened} {pos : Nat} {task : Task} {s s' : State i.size}
    {m : Match (List Node) i.size pos} {r : Option (Match (List Node) i.size m.next)}
    (h : Run i opened m.next task s r s') (hs : s.Entries (Noted s)) :
    reach (some m) s ≤ reach r s' := by
  refine reach_le_iff.mpr ⟨h.frontier_le.trans (frontier_le_reach _ _), ?_⟩
  rintro k ⟨⟩
  exact h.le_reach hs

/-- A production gets as far as its body. -/
theorem reach_node {n : Text} {pos : Nat} {m : Match (List Node) i.size pos} {node : Node}
    {s s' : State i.size} (ha : assemble i n pos m.value s = (node, s')) :
    reach (some (m.map fun _ => [node])) (s'.keep n pos (some (m.map fun _ => node)))
      = reach (some m) s := by
  unfold reach
  rw [State.frontier_keep, frontier_assemble ha]
  rfl

theorem reach_fail (n : Text) (pos : Nat) (s : State i.size) :
    reach (none : Option (Match (List Node) i.size pos)) (s.keep n pos none)
      = reach (none : Option (Match (List Node) i.size pos)) s := by
  unfold reach
  rw [State.frontier_keep]

/-! ## States that steer alike -/

/-- Where the match of a production at a place ends, as the table has it. -/
def State.ends {size : Nat} (s : State size) (n : Text) (pos : Nat) : Option (Option Nat) :=
  (s.table.get? (n, pos)).map (·.map (·.next))

/-- Whether two states agree on all that steers a parse. -/
structure Alike {a b : Nat} (s : State a) (t : State b) : Prop where
  /-- The failures are at the same place. -/
  furthest : s.furthest = t.furthest
  /-- The same is expected there. -/
  expected : s.expected = t.expected
  /-- The tables have matches of the same tokens. -/
  ends : ∀ n pos, s.ends n pos = t.ends n pos

namespace Alike

variable {a b : Nat} {s : State a} {t : State b}

theorem start : Alike (.start a) (.start b) where
  furthest := rfl
  expected := rfl
  ends n pos := by
    unfold State.ends State.start
    rw [Std.DHashMap.get?_empty, Std.DHashMap.get?_empty]
    rfl

theorem fail (h : Alike s t) (pos : Nat) (e : Option Expectation) :
    Alike (s.fail pos e) (t.fail pos e) where
  furthest := by
    have hs := congrArg Frontier.place (State.frontier_fail s pos e)
    have ht := congrArg Frontier.place (State.frontier_fail t pos e)
    exact hs.trans ((congrArg (max · pos) h.furthest).trans ht.symm)
  expected := by
    have hf := h.furthest
    have he := h.expected
    unfold State.fail
    cases e <;> grind
  ends n pos' := by
    have he := h.ends n pos'
    unfold State.ends at he ⊢
    rw [State.table_fail, State.table_fail]
    exact he

/-- What the one table lacks the other one lacks, too. -/
theorem get?_eq_none (h : Alike s t) {n : Text} {pos : Nat}
    (hs : s.table.get? (n, pos) = none) : t.table.get? (n, pos) = none := by
  have he := h.ends n pos
  rw [State.ends, hs] at he
  exact Option.map_eq_none_iff.mp he.symm

theorem fresh (h : Alike s t) : Alike s.fresh.2 t.fresh.2 := ⟨h.furthest, h.expected, h.ends⟩

theorem insert (h : Alike s t) (n : Text) {pos : Nat} {r : Option (Match Node a pos)}
    {u : Option (Match Node b pos)} (hr : r.map (·.next) = u.map (·.next)) :
    Alike { s with table := s.table.insert (n, pos) r }
      { t with table := t.table.insert (n, pos) u } where
  furthest := h.furthest
  expected := h.expected
  ends n' pos' := by
    have he := h.ends n' pos'
    unfold State.ends at he ⊢
    rw [Std.DHashMap.get?_insert, Std.DHashMap.get?_insert]
    by_cases heq : (n, pos) = (n', pos')
    · obtain ⟨rfl, rfl⟩ := Prod.mk.inj heq
      rw [dif_pos BEq.rfl, dif_pos BEq.rfl]
      exact congrArg some hr
    · rw [dif_neg (by simpa using heq), dif_neg (by simpa using heq)]
      exact he

theorem keep (h : Alike s t) (n : Text) {pos : Nat} {r : Option (Match Node a pos)}
    {u : Option (Match Node b pos)} (hr : r.map (·.next) = u.map (·.next)) :
    Alike (s.keep n pos r) (t.keep n pos u) := by
  match r, u, hr with
  | none, none, hr => exact h.insert n hr
  | some m, some k, hr =>
    have hmk : m.next = k.next := Option.some.inj hr
    unfold State.keep
    dsimp only
    rw [← hmk]
    split
    · exact h.insert n hr
    · exact h

end Alike

/-- Making nodes does not steer. -/
theorem Alike.assemble {n : Text} {pos : Nat} {nodes nodes' : List Node} {node node' : Node}
    {s₁ s₂ : State i.size} {t₁ t₂ : State i'.size} (h : Alike s₁ t₁)
    (ha : Parse.assemble i n pos nodes s₁ = (node, s₂))
    (ha' : Parse.assemble i' n pos nodes' t₁ = (node', t₂)) : Alike s₂ t₂ := by
  unfold Parse.assemble at ha ha'
  split at ha <;> split at ha'
  all_goals
    obtain ⟨-, rfl⟩ := Prod.mk.inj ha
    obtain ⟨-, rfl⟩ := Prod.mk.inj ha'
    exact ⟨h.furthest, h.expected, h.ends⟩

/-! ## Lockstep -/

/-- Whether a run has got beyond the index `k` where another one is stuck: there
was a token that the other one lacks, and the other one has noted a failure where
it would have been accepted. -/
def Overtakes (k : Nat) (s : State i.size) {pos : Nat}
    (u : Option (Match (List Node) i'.size pos)) (t : State i'.size) : Prop :=
  k < (reach u t).place ∧ ∃ x c, i'.tokens[k]? = some c ∧ x.Accepts c
    ∧ Frontier.single k (some x) ≤ s.frontier

/-- Nothing that follows undoes it. -/
theorem Overtakes.mono {k pos pos' : Nat} {s s' : State i.size} {t t' : State i'.size}
    {u : Option (Match (List Node) i'.size pos)} {u' : Option (Match (List Node) i'.size pos')}
    (h : Overtakes k s u t) (hs : s.frontier ≤ s'.frontier) (ht : reach u t ≤ reach u' t') :
    Overtakes k s' u' t' := by
  obtain ⟨hk, x, c, hc, hx, hf⟩ := h
  exact ⟨hk.trans_le (Frontier.place_le ht), x, c, hc, hx, hf.trans hs⟩

/-- A token that only the second run accepts can stand nowhere but at `k`, and takes it beyond
that. -/
theorem Overtakes.of_accepts {k pos : Nat} {x : Expectation} {build : Nat → Node}
    {s : State i.size} {t : State i'.size} (hk : ∀ j < k, i'.tokens[j]? = i.tokens[j]?)
    (hpos : pos ≤ k) (hrej : ∀ c, i.tokens[pos]? = some c → ¬ x.Accepts c) (h : pos < i'.size)
    (hb : x.build i'.grammar i'.tokens[pos] = some build) :
    Overtakes k (s.fail pos (some x)) (some (.one [build t.serial] h)) t.fresh.2 := by
  have hc := Array.getElem?_eq_getElem h
  have hacc : x.Accepts i'.tokens[pos] :=
    (Expectation.isSome_build i'.grammar x _).mp (by rw [hb]; rfl)
  obtain rfl : pos = k :=
    Nat.le_antisymm hpos (Nat.le_of_not_lt fun hlt => hrej _ ((hk pos hlt).symm.trans hc) hacc)
  refine ⟨next_le_reach (Match.one [build t.serial] h) t.fresh.2, x, _, hc, hacc, ?_⟩
  rw [State.frontier_fail]
  exact le_sup_right

/-- **Two parses go in lockstep until the second overtakes the first.** -/
theorem Run.lockstep {k : Nat} (hg : i'.grammar = i.grammar)
    (hk : ∀ j < k, i'.tokens[j]? = i.tokens[j]?) {opened : Grammar.Opened} {pos : Nat}
    {task : Task} {s s' : State i.size} {t t' : State i'.size}
    {r : Option (Match (List Node) i.size pos)} {u : Option (Match (List Node) i'.size pos)}
    (h : Run i opened pos task s r s') (h' : Run i' opened pos task t u t') (hst : Alike s t)
    (hs : s.Entries (Noted s)) (ht : t.Entries (Noted t)) (hr : (reach r s').place ≤ k) :
    r.map (·.next) = u.map (·.next) ∧ Alike s' t' ∨ Overtakes k s' u t' := by
  induction h generalizing t t' with
  | empty =>
    cases h' with
    | empty => exact .inl ⟨rfl, hst⟩
    | accept hx | reject hx => cases hx
  | @accept _ pos s e x build hx h hb =>
    obtain ⟨_, build', -, rfl, rfl⟩ | ⟨hrej, -, -⟩ := h'.terminal_cases (hg ▸ hx)
    · exact .inl ⟨rfl, hst.fresh⟩
    · -- the token consumed lies before `k`, where the inputs agree
      have hc := hk pos ((next_le_reach _ _).trans hr)
      exact absurd hb (not_accepts_of_build h fun c hpos => hrej c (hc.trans hpos))
  | @reject _ pos s e x hx hrej =>
    have hpos : pos ≤ k := by
      refine le_trans ?_ hr
      rw [reach_none, State.frontier_fail]
      exact le_max_right _ _
    obtain ⟨hsize, build, hb, rfl, rfl⟩ | ⟨-, rfl, rfl⟩ := h'.terminal_cases (hg ▸ hx)
    · exact .inr (.of_accepts hk hpos hrej hsize hb)
    · exact .inl ⟨rfl, hst.fail _ _⟩
  | group _ ih =>
    cases h' with
    | group h' => exact ih h' hst hs ht hr
    | accept hx | reject hx => cases hx
  | @option _ pos _ _ r s' _ ih =>
    cases h' with
    | @option _ _ _ _ u _ h' =>
      rcases ih h' hst hs ht ((Frontier.place_le (reach_le_getD r s')).trans hr) with
        ⟨he, hst'⟩ | ho
      · refine .inl ⟨?_, hst'⟩
        match r, u, he with
        | none, none, _ => rfl
        | some m, some k, he => exact he
      · exact .inr (ho.mono le_rfl (reach_le_getD u t'))
    | accept hx | reject hx => cases hx
  | repetition _ ih =>
    cases h' with
    | repetition h' => exact ih h' hst hs ht hr
    | accept hx | reject hx => cases hx
  | @alt _ _ _ _ _ a s₁ b s₂ h₁ h₂ ih₁ ih₂ =>
    cases h' with
    | @alt _ _ _ _ _ a' t₁ b' t₂ h₁' h₂' =>
      have hs₁ := (h₁.start_le_of_none hs).1
      have ht₁ := (h₁'.start_le_of_none ht).1
      have hr₁ := (Frontier.place_le (reach_le_longer_left h₂.frontier_le)).trans hr
      have hr₂ := (Frontier.place_le (reach_le_longer_right a b s₂)).trans hr
      rcases ih₁ h₁' hst hs ht hr₁ with ⟨ha, hst₁⟩ | ho
      · rcases ih₂ h₂' hst₁ hs₁ ht₁ hr₂ with ⟨hb, hst₂⟩ | ho
        · exact .inl ⟨map_next_longer ha hb, hst₂⟩
        · exact .inr (ho.mono le_rfl (reach_le_longer_right a' b' _))
      · exact .inr (ho.mono h₂.frontier_le (reach_le_longer_left h₂'.frontier_le))
    | accept hx | reject hx => cases hx
  | seqFirst _ ih =>
    cases h' with
    | seqFirst h₁' => exact ih h₁' hst hs ht hr
    | @seq _ _ _ _ _ m' t₁ u t₂ h₁' h₂' =>
      have ht₁ := (h₁'.start_le_of_none ht).1
      rcases ih h₁' hst hs ht hr with ⟨he, -⟩ | ho
      · cases he
      · refine .inr (ho.mono le_rfl ?_)
        rw [reach_map_append]
        exact h₂'.reach_le ht₁
    | accept hx | reject hx => cases hx
  | @seq _ _ _ _ _ m s₁ r s₂ h₁ h₂ ih₁ ih₂ =>
    have hs₁ := (h₁.start_le_of_none hs).1
    rw [reach_map_append] at hr
    have hr₁ := (Frontier.place_le (h₂.reach_le hs₁)).trans hr
    cases h' with
    | seqFirst h₁' =>
      rcases ih₁ h₁' hst hs ht hr₁ with ⟨he, -⟩ | ho
      · cases he
      · exact .inr (ho.mono h₂.frontier_le le_rfl)
    | @seq _ _ _ _ _ m' t₁ u t₂ h₁' h₂' =>
      have ht₁ := (h₁'.start_le_of_none ht).1
      rcases ih₁ h₁' hst hs ht hr₁ with ⟨he, hst₁⟩ | ho
      · -- both first items end at one place, so the rest begins at one place
        obtain ⟨v, next, le, within⟩ := m'
        obtain rfl : m.next = next := Option.some.inj he
        rcases ih₂ h₂' hst₁ hs₁ ht₁ hr with ⟨he₂, hst₂⟩ | ho
        · refine .inl ⟨?_, hst₂⟩
          rw [Option.map_map, Option.map_map]
          exact he₂
        · refine .inr (ho.mono le_rfl ?_)
          rw [reach_map_append]
      · refine .inr (ho.mono h₂.frontier_le ?_)
        rw [reach_map_append]
        exact h₂'.reach_le ht₁
    | accept hx | reject hx => cases hx
  | name hn _ ih =>
    cases h' with
    | name _ h' => exact ih h' hst hs ht hr
    | accept hx | reject hx => rw [hg, hn] at hx; cases hx
  | @hit _ pos s n r hit =>
    have he := hst.ends n pos
    rw [State.ends, hit] at he
    cases h' with
    | @hit _ _ _ _ u hit' =>
      rw [State.ends, hit'] at he
      refine .inl ⟨?_, hst⟩
      rw [Option.map_map, Option.map_map]
      exact Option.some.inj he
    | guard hit' | fail hit' | node hit' => rw [State.ends, hit'] at he; cases he
  | guard hit ho =>
    cases h' with
    | hit hit' => rw [hst.get?_eq_none hit] at hit'; cases hit'
    | guard => exact .inl ⟨rfl, hst.fail _ _⟩
    | fail _ ho' | node _ ho' => exact absurd ho ho'
  | @fail _ pos s n p s' hit ho hp _ ih =>
    rw [reach_fail] at hr
    obtain ⟨t₁, h₁, rfl, rfl⟩ | ⟨m, t₁, node, t₂, h₁, ha, rfl, rfl⟩ :=
      h'.body_cases (hst.get?_eq_none hit) ho (hg ▸ hp)
    · rcases ih h₁ hst hs ht hr with ⟨-, hst'⟩ | ho
      · exact .inl ⟨rfl, hst'.keep n rfl⟩
      · exact .inr (ho.mono (State.frontier_keep ..).ge (reach_fail ..).ge)
    · rcases ih h₁ hst hs ht hr with ⟨he, -⟩ | ho
      · cases he
      · exact .inr (ho.mono (State.frontier_keep ..).ge (reach_node ha).ge)
  | @node _ pos s n p m s' node s'' hit ho hp ha _ ih =>
    rw [reach_node ha] at hr
    have hf : s'.frontier ≤ (s''.keep n pos (some (m.map fun _ => node))).frontier := by
      rw [State.frontier_keep, frontier_assemble ha]
    obtain ⟨t₁, h₁, rfl, rfl⟩ | ⟨m', t₁, node', t₂, h₁, ha', rfl, rfl⟩ :=
      h'.body_cases (hst.get?_eq_none hit) ho (hg ▸ hp)
    · rcases ih h₁ hst hs ht hr with ⟨he, -⟩ | ho
      · cases he
      · exact .inr (ho.mono hf (reach_fail ..).ge)
    · rcases ih h₁ hst hs ht hr with ⟨he, hst'⟩ | ho
      · exact .inl ⟨he, (hst'.assemble ha ha').keep n he⟩
      · exact .inr (ho.mono hf (reach_node ha').ge)
  | @manyLast _ pos _ _ r s' hm _ ih =>
    have hr' := (Frontier.place_le (reach_le_empty hm s')).trans hr
    cases h' with
    | @manyLast _ _ _ _ u _ hm' h' =>
      rcases ih h' hst hs ht hr' with ⟨-, hst'⟩ | ho
      · exact .inl ⟨rfl, hst'⟩
      · exact .inr (ho.mono le_rfl (reach_le_empty hm' t'))
    | @manyMore _ _ _ _ m' t₁ _ _ hm' h₁' h₂' =>
      rcases ih h₁' hst hs ht hr' with ⟨he, -⟩ | ho
      · obtain ⟨m, hm₁, hm₂⟩ := Option.map_eq_some_iff.mp he
        exact absurd (hm₂.symm.trans (hm m hm₁)) hm'
      · exact .inr (ho.mono le_rfl (h₂'.reach_le (h₁'.start_le_of_none ht).1))
  | @manyMore _ _ _ _ m s₁ k₁ s₂ hm h₁ h₂ ih₁ ih₂ =>
    have hs₁ := (h₁.start_le_of_none hs).1
    have hr₂ : (reach (some k₁) s₂).place ≤ k := hr
    have hr₁ := (Frontier.place_le (h₂.reach_le hs₁)).trans hr₂
    cases h' with
    | manyLast hm' h' =>
      rcases ih₁ h' hst hs ht hr₁ with ⟨he, -⟩ | ho
      · obtain ⟨m', hm₁, hm₂⟩ := Option.map_eq_some_iff.mp he.symm
        exact absurd (hm₂.symm.trans (hm' m' hm₁)) hm
      · exact .inr (ho.mono h₂.frontier_le (reach_le_empty hm' t'))
    | @manyMore _ _ _ _ m' t₁ k' _ hm' h₁' h₂' =>
      have ht₁ := (h₁'.start_le_of_none ht).1
      rcases ih₁ h₁' hst hs ht hr₁ with ⟨he, hst₁⟩ | ho
      · obtain ⟨v, next, le, within⟩ := m'
        obtain rfl : m.next = next := Option.some.inj he
        exact ih₂ h₂' hst₁ hs₁ ht₁ hr₂
      · exact .inr (ho.mono h₂.frontier_le (h₂'.reach_le ht₁))

end Parse

end Arbor
