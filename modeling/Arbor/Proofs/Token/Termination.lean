import Arbor.Proofs.Token.Recursion

/-!
# Cutting a text ends

From a memory that is that of a place and a cache, the recursion with offsets and lengths does what
the matcher does (`Munch.Recursion.does_of_run`), and its calls nest no deeper than their rank. No
call goes astray there.

Where a token is looked for, the known lengths are forgotten, and what is being followed is
forgotten before each production is tried. So it makes no difference what the memory holds of the
tokens before, except for the names being asked; and of those there are none, because every question
closes the names it opens. With its memory handed on from token to token, the recursion therefore
cuts a text as the tokenizer does, which starts every token anew
(`Tokenizer.recursion_eq_tokens`). Each token but the last takes a byte, so that there is at most
one token more than there are bytes.
-/

namespace Arbor

namespace Munch

namespace Recursion

open Filter (atTop)

/-! ## The matcher is this recursion -/

open Grammar (Visit Tracks)

/-- The size of a task. Items and repetitions lie between an expression and the next larger
one. -/
def weight : Task → Nat
  | .expr e => 2 * e.size
  | .item e => 2 * e.size + 1
  | .many e => 2 * e.size + 1

theorem weight_pos (task : Task) : 0 < weight task := by
  cases task with
  | expr e => exact Nat.mul_pos Nat.two_pos e.size_pos
  | item e => exact Nat.succ_pos _
  | many e => exact Nat.succ_pos _

section Matcher

variable {t : Text} {g : Grammar} {r s : Rest t} {o : Option (Rest t)} {mem : Memory}
  {visits : List Visit} {cache cache' : PlaceCache t} {opened : Grammar.Opened} {task : Task}
  {e f : Expr}

/-- **Whether the memory holds what a cache holds**, and nothing is being asked. -/
structure Memory.Knows (mem : Memory) (cache : PlaceCache t) : Prop where
  /-- At every offset of the text the lengths lead where the cache leads. -/
  lengths : ∀ (n : Text) (r : Rest t), mem.lengths[(n, (r.offset : Int))]?
    = (cache.get? (n, r.left)).map fun s => (s.val.offset : Int) - r.offset
  /-- Nothing is being asked. -/
  emptying : ∀ n, n ∉ mem.emptying

/-- Whether these are the productions being followed, too. -/
structure Memory.Shows (mem : Memory) (visits : List Visit) (cache : PlaceCache t) : Prop
    extends mem.Knows cache where
  /-- What is being followed. -/
  active : mem.active = visits.map fun v => (v.1, (v.2 : Int))

/-- How many bytes lie before a place that is reached, if one is. -/
def reach (r : Rest t) (o : Option (Rest t)) : Option Int :=
  o.map fun s => (s.offset : Int) - r.offset

@[simp] theorem reach_none (r : Rest t) : reach r none = none := rfl

@[simp] theorem reach_here (r : Rest t) : reach r (some r) = some 0 :=
  congrArg some (Int.sub_self _)

/-- At all depths from `d` on. -/
abbrev fromDepth (d : Nat) : Filter Nat := Filter.principal (Set.Ici d)

/-- Whether an action comes to what a run of the matcher comes to. -/
abbrev Does (d : Nat) (act : Nat → Action (Option Int)) (mem : Memory) (visits : List Visit)
    (o : Option Int) (cache : PlaceCache t) : Prop :=
  Ends (fromDepth d) act mem (fun _ => False) fun a mem' => a = o ∧ mem'.Shows visits cache

theorem Ends.succ {d : Nat} {off : Int} {F : Int → Prop} {P : Option Int → Memory → Prop}
    (h : Ends (fromDepth d) (fun k => step g t (run g t k) task off) mem F P) :
    Ends (fromDepth (d + 1)) (fun k => run g t k task off) mem F P := by
  refine h.of_step.mono ?_
  rw [Filter.map_principal, Filter.principal_mono]
  intro k hk
  obtain ⟨j, rfl⟩ := Nat.exists_eq_add_of_le' hk
  exact ⟨j + d, Nat.le_add_left _ _, rfl⟩

theorem Ends.exists_back {α : Type} {d : Nat} {act : Nat → Action α} {P : α → Memory → Prop}
    (h : Ends (fromDepth d) act mem (fun _ => False) P) :
    ∃ a mem', (∀ k ≥ d, act k mem = some (.ok (a, mem'))) ∧ P a mem' := by
  cases h with
  | back h hp => exact ⟨_, _, Filter.eventually_principal.mp h, hp⟩
  | astray _ hf => exact hf.elim

theorem coe_offset (r : Rest t) : (r.offset : Int) = t.length - r.left := by
  have := r.left_le
  unfold Rest.offset
  omega

theorem reach_drop {n : Nat} (h : n ≤ r.bytes.length) :
    reach r (some (r.drop n)) = some (n : Int) := by
  rw [r.length_bytes] at h
  refine congrArg some ?_
  show ((r.drop n).offset : Int) - r.offset = n
  rw [coe_offset, coe_offset, Rest.left_drop]
  omega

/-- The way to a place goes by any other. -/
theorem reach_via (r s : Rest t) (o : Option (Rest t)) :
    (reach s o).map (((s.offset : Int) - r.offset) + ·) = reach r o := by
  cases o with
  | none => rfl
  | some u =>
    refine congrArg some ?_
    show (s.offset : Int) - r.offset + (u.offset - s.offset) = u.offset - r.offset
    omega

theorem Memory.Knows.unknown {n : Text} (h : mem.Knows cache)
    (hs : cache.get? (n, r.left) = none) : mem.lengths[(n, (r.offset : Int))]? = none := by
  rw [h.lengths, hs]
  rfl

namespace Memory.Shows

theorem mem_active (h : mem.Shows visits cache) (hv : Tracks visits r.offset opened) (n : Text) :
    (n, (r.offset : Int)) ∈ mem.active ↔ n ∈ opened := by
  rw [h.active, ← hv.here, List.mem_map]
  constructor
  · rintro ⟨v, hmem, heq⟩
    obtain ⟨rfl, hoff⟩ := Prod.mk.inj heq
    rwa [← Int.ofNat.inj hoff]
  · exact fun hmem => ⟨_, hmem, rfl⟩

theorem nullableFrom (h : mem.Shows visits cache) (g : Grammar) (e : Expr) :
    g.nullableFrom mem.emptying e = g.nullable e :=
  Grammar.nullableFrom_congr fun n => iff_of_false (h.emptying n) Std.TreeSet.not_mem_emptyc

theorem enter (h : mem.Shows visits cache) (n : Text) (off : Nat) :
    (mem.enter (n, off)).Shows ((n, off) :: visits) cache :=
  ⟨⟨h.lengths, h.emptying⟩, congrArg ((n, (off : Int)) :: ·) h.active⟩

theorem ask (h : mem.Shows visits cache) (g : Grammar) (e : Expr) :
    (mem.ask g e).Shows visits cache :=
  ⟨⟨h.lengths, fun n hn => h.emptying n (Grammar.mem_ask.mp hn)⟩, h.active⟩

theorem leave {n : Text} (h : mem.Shows ((n, r.offset) :: visits) cache) (hle : s.left ≤ r.left) :
    (mem.leave (n, (r.offset : Int)) ((s.offset : Int) - r.offset)).Shows visits
      (cache.insert (n, r.left) ⟨s, hle⟩) where
  active := by
    show mem.active.erase (n, (r.offset : Int)) = _
    rw [h.active]
    exact List.erase_cons_head ..
  emptying := h.emptying
  lengths m r' := by
    show (mem.lengths.insert (n, (r.offset : Int)) ((s.offset : Int) - r.offset))[_]? = _
    rw [Std.HashMap.getElem?_insert, Std.DHashMap.get?_insert]
    by_cases heq : r'.left = r.left ∧ n = m
    · -- the key tells the place
      obtain ⟨hleft, rfl⟩ := heq
      obtain rfl := Rest.ext_left hleft
      simp
    · rw [if_neg, dif_neg]
      · exact h.lengths m r'
      · intro hkey
        obtain ⟨hn, hleft⟩ := Prod.mk.inj (eq_of_beq hkey)
        exact heq ⟨hleft.symm, hn⟩
      · intro hkey
        obtain ⟨hn, hoffset⟩ := Prod.mk.inj (eq_of_beq hkey)
        rw [coe_offset, coe_offset] at hoffset
        exact heq ⟨by omega, hn⟩

end Memory.Shows

/-! ### The rules -/

variable {d : Nat}

theorem does_text {size : Text → Nat} (hsize : size r.bytes ≤ r.bytes.length)
    (hmem : mem.Shows visits cache) :
    Does d (fun _ => do return some ↑(size (← textFrom t r.offset))) mem visits
      (reach r (some (r.drop (size r.bytes)))) cache := by
  have hin : (0 : Int) ≤ r.offset ∧ (r.offset : Int) ≤ t.length := by
    rw [coe_offset]
    have := r.left_le
    omega
  refine .bind (P := fun u m => u = r.bytes ∧ m = mem)
    (.text (fun _ _ => ⟨?_, rfl⟩) fun hout => hout hin) ?_
  · rw [r.bytes_eq, Int.toNat_natCast]
    rfl
  · rintro _ _ ⟨rfl, rfl⟩
    exact .pure ⟨(reach_drop hsize).symm, hmem⟩

theorem does_either {a b : Rest t} {cache₁ : PlaceCache t} (ha : a.left ≤ r.left)
    (hb : b.left ≤ r.left)
    (h₁ : Does d (fun k => run g t k (.expr e) r.offset) mem visits (reach r (some a)) cache₁)
    (h₂ : ∀ mem', mem'.Shows visits cache₁ →
      Does d (fun k => run g t k (.expr f) r.offset) mem' visits (reach r (some b)) cache) :
    Does d (fun k => either (run g t k) e f r.offset) mem visits
      (reach r (some (if b.left < a.left then b else a))) cache := by
  refine Ends.either h₁ ?_
  rintro _ mem₁ ⟨rfl, hmem₁⟩
  refine (h₂ mem₁ hmem₁).imp ?_
  rintro _ mem₂ ⟨rfl, hmem₂⟩
  refine ⟨congrArg some ?_, hmem₂⟩
  show max (max 0 ((a.offset : Int) - r.offset)) ((b.offset : Int) - r.offset)
    = ((if b.left < a.left then b else a).offset : Int) - r.offset
  rw [coe_offset, coe_offset, coe_offset, coe_offset]
  split <;> omega

theorem does_both {cache₁ : PlaceCache t}
    (h₁ : Does d (fun k => run g t k (.item e) r.offset) mem visits (reach r (some s)) cache₁)
    (h₂ : ∀ mem', mem'.Shows visits cache₁ →
      Does d (fun k => run g t k (.item f) s.offset) mem' visits (reach s o) cache) :
    Does d (fun k => both (run g t k) e f r.offset) mem visits (reach r o) cache := by
  refine Ends.both h₁ (fun _ h => absurd h.1 (by simp [reach])) ?_
  rintro n mem₁ ⟨hn, hmem₁⟩
  obtain rfl : n = (s.offset : Int) - r.offset := Option.some.inj hn
  rw [add_sub_cancel]
  refine (h₂ mem₁ hmem₁).imp ?_
  rintro _ mem₂ ⟨rfl, hmem₂⟩
  exact ⟨reach_via r s o, hmem₂⟩

theorem does_many {cache₁ : PlaceCache t} (hlt : s.left < r.left)
    (h₁ : Does d (fun k => run g t k (.expr e) r.offset) mem visits (reach r (some s)) cache₁)
    (h₂ : ∀ mem', mem'.Shows visits cache₁ →
      Does d (fun k => run g t k (.many e) s.offset) mem' visits (reach s o) cache) :
    Does d (fun k => many (run g t k) e r.offset) mem visits (reach r o) cache := by
  have hpos : 0 < (s.offset : Int) - r.offset := by
    rw [coe_offset, coe_offset]
    omega
  refine Ends.many h₁ ?_ ?_
  · rintro _ _ ⟨rfl, -⟩ hle
    exact absurd hle (Int.not_le.mpr hpos)
  · rintro _ mem₁ ⟨rfl, hmem₁⟩ -
    show Ends _ (fun k => run g t k (.many e) (r.offset + (s.offset - r.offset))) _ _ _
    rw [add_sub_cancel]
    refine (h₂ mem₁ hmem₁).imp ?_
    rintro _ mem₂ ⟨rfl, hmem₂⟩
    exact ⟨reach_via r s o, hmem₂⟩

/-- **The matcher does what the recursion does**, and its calls nest no deeper than their rank. -/
theorem does_of_run {width : Nat} (hwidth : 2 * g.widest ≤ width)
    (hrun : Run g opened r task cache o cache')
    (hrank : g.rank width r.left (g.unopened opened) (weight task) ≤ d)
    (htask : weight task ≤ width) (hv : Tracks visits r.offset opened)
    (hmem : mem.Shows visits cache) :
    Does d (fun k => run g t k task r.offset) mem visits (reach r o) cache' := by
  induction d generalizing opened r task cache o cache' visits mem with
  | zero =>
    exact absurd (Nat.le_trans Grammar.size_le_rank hrank) (Nat.not_le.mpr (weight_pos task))
  | succ d ih =>
    have part {u : Task} {o : Option (Rest t)} {c c' : PlaceCache t} {mem : Memory}
        (hu : weight u < weight task) (h : Run g opened r u c o c') (hm : mem.Shows visits c) :
        Does d (fun k => run g t k u r.offset) mem visits (reach r o) c' :=
      ih h (Nat.le_of_lt_succ (Nat.lt_of_lt_of_le (Grammar.rank_part hu) hrank))
        (Nat.le_trans (Nat.le_of_lt hu) htask) hv hm
    have behind {u : Task} {s : Rest t} {o : Option (Rest t)} {c c' : PlaceCache t} {mem : Memory}
        (hlt : s.left < r.left) (hu : weight u ≤ weight task) (h : Run g ∅ s u c o c')
        (hm : mem.Shows visits c) :
        Does d (fun k => run g t k u s.offset) mem visits (reach s o) c' := by
      refine ih h (Nat.le_of_lt_succ (Nat.lt_of_lt_of_le
        (Grammar.rank_behind hlt (List.length_filter_le _ _) (Nat.le_trans hu htask)) hrank))
        (Nat.le_trans hu htask) (hv.behind ?_) hm
      have := r.left_le
      unfold Rest.offset
      omega
    have items {e f : Expr} {o : Option (Rest t)} {c' : PlaceCache t}
        (hsize : 2 * (e.size + f.size) + 1 < weight task)
        (h : Run g opened r (.item (.seq e f)) cache o c') :
        Does d (fun k => both (run g t k) e f r.offset) mem visits (reach r o) c' := by
      have he : weight (.item e) < weight task := by
        show 2 * e.size + 1 < _
        omega
      have hf : weight (.item f) < weight task := by
        show 2 * f.size + 1 < _
        omega
      cases h with
      | item hne => exact absurd rfl (hne e f)
      | itemFail hne => exact absurd rfl (hne e f)
      | bothFirst h =>
        refine Ends.both (part he h hmem) (fun _ h => h) ?_
        rintro n _ ⟨hn, -⟩
        exact absurd hn (by simp)
      | bothHere h₁ h₂ => exact does_both (part he h₁ hmem) fun _ => part hf h₂
      | bothThere hlt h₁ h₂ =>
        exact does_both (part he h₁ hmem) fun _ => behind hlt (Nat.le_of_lt hf) h₂
    refine .succ ?_
    cases hrun with
    | empty => exact .pure ⟨(reach_here r).symm, hmem⟩
    | @literal _ _ v => exact does_text (literalLength_le v r.bytes) hmem
    | @range _ _ lo hi => exact does_text (rangeLength_le lo hi r.bytes) hmem
    | group h | option h | repetition h =>
      exact part (by simp only [weight, Expr.size]; omega) h hmem
    | alt h₁ h₂ =>
      exact does_either (h₁.left_le _ rfl) (h₂.left_le _ rfl)
        (part (by simp only [weight, Expr.size]; omega) h₁ hmem)
        fun _ => part (by simp only [weight, Expr.size]; omega) h₂
    | @seq _ _ _ _ _ o _ h =>
      refine .seq ((items (by simp only [weight, Expr.size]; omega) h).imp ?_)
      rintro _ mem' ⟨rfl, hmem'⟩
      refine ⟨?_, hmem'⟩
      cases o with
      | none => exact (reach_here r).symm
      | some s => rfl
    | @hit _ _ _ n _ s hs =>
      refine Ends.hit ?_ ⟨rfl, hmem⟩
      rw [hmem.lengths, hs]
      rfl
    | @guard _ _ _ n _ hs ho =>
      exact Ends.idle (hmem.unknown hs) (fun _ _ => (hmem.mem_active hv n).mpr ho)
        ⟨(reach_here r).symm, hmem⟩
    | @undefined _ _ _ n _ hs _ hp =>
      refine Ends.idle (hmem.unknown hs) (fun p hq => ?_) ⟨(reach_here r).symm, hmem⟩
      cases hp.symm.trans hq
    | @enter _ _ _ n _ p s _ hs ho hp hle h =>
      have hsize : weight (.expr p.body) ≤ width :=
        Nat.le_trans (Nat.mul_le_mul_left 2 (Grammar.size_le_widest hp)) hwidth
      have hlt := Grammar.unopened_insert_lt (Grammar.mem_names_of_get? hp) ho
      have hbody := ih h (Nat.le_of_lt_succ (Nat.lt_of_lt_of_le
        (Grammar.rank_body hlt hsize) hrank)) hsize (hv.insert n) (hmem.enter n r.offset)
      refine Ends.enter (hmem.unknown hs) hp (fun ha => ho ((hmem.mem_active hv n).mp ha))
        (hbody.imp ?_)
      rintro _ mem' ⟨rfl, hmem'⟩
      exact ⟨rfl, hmem'.leave hle⟩
    | @item _ _ e _ s _ he hn h =>
      simp only [step_item he]
      refine Ends.item (part (by simp only [weight]; omega) h hmem) ?_ ?_
      · rintro _ mem' ⟨rfl, hmem'⟩ -
        exact ⟨rfl, hmem'⟩
      · rintro _ mem' ⟨rfl, hmem'⟩ h0
        replace h0 : (s.offset : Int) - r.offset = 0 := h0
        have hleft : s.left = r.left := by
          rw [coe_offset, coe_offset] at h0
          omega
        refine ⟨?_, hmem'.ask g e⟩
        rw [hmem'.nullableFrom, hn hleft, if_pos rfl]
        exact congrArg some h0.symm
    | @itemFail _ _ e _ _ he hn h =>
      simp only [step_item he]
      refine Ends.item (part (by simp only [weight]; omega) h hmem) ?_ ?_
      · rintro _ _ ⟨rfl, -⟩ h0
        exact absurd (by rw [reach_here]; rfl) h0
      · rintro _ mem' ⟨rfl, hmem'⟩ -
        refine ⟨?_, hmem'.ask g e⟩
        rw [hmem'.nullableFrom, hn]
        rfl
    | bothFirst h => exact items (by simp only [weight, Expr.size]; omega) (.bothFirst h)
    | bothHere h₁ h₂ => exact items (by simp only [weight, Expr.size]; omega) (.bothHere h₁ h₂)
    | bothThere hlt h₁ h₂ =>
      exact items (by simp only [weight, Expr.size]; omega) (.bothThere hlt h₁ h₂)
    | manyLast h =>
      refine Ends.many (part (by simp only [weight]; omega) h hmem) ?_ ?_
      · rintro _ mem' ⟨rfl, hmem'⟩ -
        exact ⟨(reach_here r).symm, hmem'⟩
      · rintro _ _ ⟨rfl, -⟩ hlt
        rw [reach_here] at hlt
        exact absurd hlt (Int.lt_irrefl 0)
    | manyMore hlt h₁ h₂ =>
      exact does_many hlt (part (by simp only [weight]; omega) h₁ hmem)
        fun _ => behind hlt (Nat.le_refl _) h₂

end Matcher

/-! ## The longest match -/

/-- The best match so far. -/
structure Best where
  /-- Its kind. -/
  kind : Text
  /-- How many bytes it takes. -/
  length : Int

/-- Tries a token production, while nothing is being followed; it wins if it takes more bytes than
the best so far. -/
def improve (g : Grammar) (t : Text) (depth : Nat) (off : Int) (best : Best) (p : Production) :
    Action Best := do
  modify fun mem => { mem with active := [] }
  let n ← length g t depth p.body off
  return if best.length < n then ⟨p.name, n⟩ else best

/-- The kind of the token at an offset and how many bytes it takes. -/
def longest (g : Grammar) (t : Text) (depth : Nat) (off : Int) : Action Best :=
  g.tokenProductions.foldlM (improve g t depth off) ⟨Token.errorKind, 0⟩

/-- How deep calls nest where a token is looked for. -/
def bound (g : Grammar) (t : Text) : Nat :=
  (t.length + 1) * (g.names.length + 1) * (2 * g.widest + 1)

section Longest

variable {g : Grammar} {t : Text} {r : Rest t} {mem : Memory} {best : Best} {cand : Candidate r}

/-- Whether a best match is a candidate. -/
structure Best.Shows (best : Best) (cand : Candidate r) : Prop where
  kind : best.kind = cand.kind
  length : best.length = (cand.stop.val.offset : Int) - r.offset

/-- How long a match is that the matcher finds, at all depths from its rank on. -/
theorem ends_length {visits : List Visit} {cache : PlaceCache t} {opened : Grammar.Opened}
    (hv : Tracks visits r.offset opened) (hmem : mem.Shows visits cache) {width d : Nat} {e : Expr}
    (hwidth : 2 * g.widest ≤ width) (hsize : 2 * e.size ≤ width)
    (hrank : g.rank width r.left (g.unopened opened) (2 * e.size) ≤ d) :
    Ends (fromDepth d) (fun k => length g t k e r.offset) mem (fun _ => False) fun n mem' =>
      n = ((expr g opened r e cache).1.val.offset : Int) - r.offset
        ∧ mem'.Shows visits (expr g opened r e cache).2 := by
  refine .bind (does_of_run hwidth (run_expr g opened r e cache) hrank hsize hv hmem) ?_
  rintro _ mem' ⟨rfl, hmem'⟩
  exact .pure ⟨rfl, hmem'⟩

/-- Both try a production with the same outcome. -/
theorem Best.Shows.improve (h : best.Shows cand) (hmem : mem.Knows cand.cache) {p : Production}
    (hp : p ∈ g.tokenProductions) :
    Ends (fromDepth (bound g t)) (fun k => improve g t k r.offset best p) mem (fun _ => False)
      fun best' mem' => best'.Shows (g.improve r cand p)
        ∧ mem'.Knows (g.improve r cand p).cache := by
  have hsize : 2 * p.body.size ≤ 2 * g.widest :=
    Nat.mul_le_mul_left 2
      (Grammar.size_le_widest (Grammar.get?_eq_some_iff.mpr ⟨(List.mem_filter.mp hp).1, rfl⟩))
  refine .bind (P := fun _ m => m.Shows [] cand.cache)
    (.back (.of_forall fun _ => rfl) ⟨⟨hmem.lengths, hmem.emptying⟩, rfl⟩) fun _ mem₁ hmem₁ => ?_
  refine .bind (ends_length .nil hmem₁ (Nat.le_refl _) hsize
    (Grammar.rank_le r.left_le (List.length_filter_le _ _) hsize)) ?_
  rintro _ mem₂ ⟨rfl, hmem₂⟩
  have hlength : best.length < ((expr g ∅ r p.body cand.cache).1.val.offset : Int) - r.offset
      ↔ (expr g ∅ r p.body cand.cache).1.val.left < cand.stop.val.left := by
    rw [h.length, coe_offset, coe_offset, coe_offset]
    omega
  refine .pure ?_
  unfold Grammar.improve
  by_cases hlt : (expr g ∅ r p.body cand.cache).1.val.left < cand.stop.val.left
  · simp only [if_pos hlt, if_pos (hlength.mpr hlt)]
    exact ⟨⟨rfl, rfl⟩, hmem₂.toKnows⟩
  · simp only [if_neg hlt, if_neg (mt hlength.mp hlt)]
    exact ⟨⟨h.kind, h.length⟩, hmem₂.toKnows⟩

/-- **Both find the same longest match**, if no lengths are known. -/
theorem ends_longest (r : Rest t) (hmem : mem.Knows (∅ : PlaceCache t)) :
    Ends (fromDepth (bound g t)) (fun k => longest g t k r.offset) mem (fun _ => False)
      fun best mem' => best.Shows (g.longest r) ∧ mem'.Knows (g.longest r).cache := by
  refine Grammar.longest_induction (P := fun tried cand => Ends (fromDepth (bound g t))
    (fun k => tried.foldlM (improve g t k r.offset) ⟨Token.errorKind, 0⟩) mem (fun _ => False)
      fun best mem' => best.Shows cand ∧ mem'.Knows cand.cache) ?_ ?_
  · exact .pure ⟨⟨rfl, (Int.sub_self _).symm⟩, hmem⟩
  · intro tried p rest cand htried htries
    have hp : p ∈ g.tokenProductions := by
      rw [htried]
      exact List.mem_append_right _ List.mem_cons_self
    simp only [List.foldlM_append, List.foldlM_cons, List.foldlM_nil, bind_pure]
    refine .bind htries ?_
    rintro best mem₁ ⟨hshows, hmem₁⟩
    exact hshows.improve hmem₁ hp

end Longest

/-! ## The tokens -/

section Tokens

variable {t : Text} {z : Tokenizer t} {mem : Memory}

/-- What stands in a text between two offsets. -/
def textBetween (t : Text) (lo hi : Int) : Action Text :=
  if 0 ≤ lo ∧ lo ≤ hi ∧ hi ≤ t.length then return (t.drop lo.toNat).take (hi - lo).toNat
  else throw ⟨hi⟩

/-- The next token, and where the one after it starts. The known lengths are forgotten. -/
def next (depth : Nat) (z : Tokenizer t) : Action (Token × Tokenizer t) :=
  if z.atEnd then return (⟨Token.endKind, [], .empty z.position⟩, z)
  else do
    modify fun mem => { mem with lengths := ∅ }
    let best ← longest z.grammar t depth z.rest.offset
    let literal ← textBetween t z.rest.offset (z.rest.offset + max best.length 1)
    let stop := z.position.after literal
    return (⟨best.kind, literal, ⟨z.position, stop⟩⟩,
      { z with rest := z.rest.drop literal.length, position := stop })

/-- All tokens from here on, with so many calls for the next one. -/
def tokens (depth : Nat) : (calls : Nat) → Tokenizer t → Action (List Token)
  | 0, _ => fun _ => none
  | calls + 1, z => do
    let out ← next depth z
    if z.atEnd then return [out.1]
    else
      let others ← tokens depth calls out.2
      return out.1 :: others

/-- The tokens of a text. -/
def tokenize (g : Grammar) (depth calls : Nat) (t : Text) : Option (Except Astray (List Token)) :=
  (tokens depth calls (.start g t)).run' .start

theorem knows_empty (h : ∀ n, n ∉ mem.emptying) :
    Memory.Knows { mem with lengths := ∅ } (∅ : PlaceCache t) := by
  refine ⟨fun n r => ?_, h⟩
  show (∅ : Lengths)[_]? = _
  rw [Std.HashMap.getElem?_empty, Std.DHashMap.get?_empty]
  rfl

theorem ends_between {r s : Rest t} {depths : Filter Nat} {F : Int → Prop} (hle : s.left ≤ r.left) :
    Ends depths (fun _ => textBetween t r.offset s.offset) mem F
      fun u mem' => u = r.upTo s ∧ mem' = mem := by
  have hr := r.left_le
  have hin : (0 : Int) ≤ r.offset ∧ (r.offset : Int) ≤ s.offset ∧ (s.offset : Int) ≤ t.length := by
    rw [coe_offset, coe_offset]
    omega
  unfold textBetween
  simp only [if_pos hin]
  refine .pure ⟨?_, rfl⟩
  rw [Rest.upTo, r.bytes_eq, Int.toNat_natCast]
  congr 1
  rw [coe_offset, coe_offset]
  omega

/-- **The next token does not depend on what is known or followed**, and if nothing is being asked
before it, then so it is after it. -/
theorem ends_next (hmem : ∀ n, n ∉ mem.emptying) :
    Ends (fromDepth (bound z.grammar t)) (fun k => next k z) mem (fun _ => False)
      fun out mem' => out = z.next ∧ ∀ n, n ∉ mem'.emptying := by
  unfold next
  cases he : z.atEnd with
  | true =>
    refine .pure ⟨?_, hmem⟩
    rw [Tokenizer.next, if_pos he]
  | false =>
    simp only [Bool.false_eq_true, if_false]
    refine .bind (P := fun _ m => m.Knows (∅ : PlaceCache t))
      (.back (.of_forall fun _ => rfl) (knows_empty hmem)) fun _ mem₁ hmem₁ => ?_
    refine .bind (ends_longest z.rest hmem₁) ?_
    rintro best mem₂ ⟨hbest, hmem₂⟩
    obtain ⟨s, hlt, hstuck, hnext⟩ := Tokenizer.next_eq he
    have hstop : (z.rest.offset : Int) + max best.length 1 = s.offset := by
      rw [hbest.length, coe_offset, coe_offset, coe_offset]
      rcases hstuck with ⟨hstuck, rfl⟩ | ⟨-, rfl⟩
      · have := of_decide_eq_true hstuck
        rw [Rest.left_drop]
        omega
      · omega
    rw [hstop]
    refine .bind (ends_between (Nat.le_of_lt hlt)) ?_
    rintro _ mem₃ ⟨rfl, rfl⟩
    have hrest : z.rest.drop (z.rest.upTo s).length = s := by
      refine Rest.ext_left ?_
      rw [Rest.left_drop, Rest.upTo, List.length_take, z.rest.length_bytes]
      omega
    refine .pure ⟨?_, hmem₂.emptying⟩
    rw [hnext, hrest, hbest.kind]

/-- **Each call for a token but the last takes a byte**, and so there are calls enough. -/
theorem ends_tokens {calls : Nat} (hcalls : z.rest.left < calls) (hmem : ∀ n, n ∉ mem.emptying) :
    Ends (fromDepth (bound z.grammar t)) (fun k => tokens k calls z) mem (fun _ => False)
      fun ts mem' => ts = z.tokens ∧ ∀ n, n ∉ mem'.emptying := by
  induction calls generalizing z mem with
  | zero => exact absurd hcalls (Nat.not_lt_zero _)
  | succ calls ih =>
    refine .bind (ends_next hmem) ?_
    rintro _ mem₁ ⟨rfl, hmem₁⟩
    cases he : z.atEnd with
    | true =>
      have hnext : z.next = (⟨Token.endKind, [], .empty z.position⟩, z) := if_pos he
      refine .pure ⟨?_, hmem₁⟩
      rw [Tokenizer.tokens_of_atEnd he, hnext]
    | false =>
      have hlt := Tokenizer.left_next_lt (z := z) (by simp [he])
      have hgrammar : z.next.2.grammar = z.grammar := by
        obtain ⟨s, -, -, hnext⟩ := Tokenizer.next_eq he
        rw [hnext]
      have hothers := ih (z := z.next.2) (by omega) hmem₁
      rw [hgrammar] at hothers
      refine .bind hothers ?_
      rintro _ mem₂ ⟨rfl, hmem₂⟩
      refine .pure ⟨?_, hmem₂⟩
      rw [Tokenizer.tokens_of_not_atEnd he]

end Tokens

end Recursion

end Munch

section

open Munch.Recursion (Memory Window)

end

/-! ## A sample

Token productions that come back to themselves and match nothing. -/

namespace Sample

open Munch.Recursion (Memory Window Lengths)

/-- The token `Pair = Side Pair "a" | "" .` -/
def pair : Production :=
  ⟨utf8 "Pair", ⟨[], 1, 1⟩, .alt (.seq (.name ⟨[], 1, 8⟩ (utf8 "Side"))
    (.seq (.name ⟨[], 1, 13⟩ (utf8 "Pair")) (.literal (utf8 "a")))) (.literal [])⟩

/-- The token `Side = Pair | Void .` -/
def side : Production :=
  ⟨utf8 "Side", ⟨[], 2, 1⟩, .alt (.name ⟨[], 2, 8⟩ (utf8 "Pair")) (.name ⟨[], 2, 15⟩ (utf8 "Void"))⟩

/-- The token `Void = .` -/
def void : Production := ⟨utf8 "Void", ⟨[], 3, 1⟩, .empty⟩

def cycles : Grammar := .ofProductions [pair, side, void]

theorem leftRecursive_cycles : Scan.LeftRecursive cycles := by
  have hpair : cycles.get? (utf8 "Pair") = some pair := Grammar.get?_ofProductions _ _
  have hside : cycles.get? (utf8 "Side") = some side := Grammar.get?_ofProductions _ _
  exact ⟨utf8 "Pair", .tail (.single ⟨pair, hpair, .altLeft (.seqLeft .name)⟩)
    ⟨side, hside, .altLeft .name⟩⟩

/-- A memory in which a production that matches nothing has a length, while pairs are being
followed. -/
def misled : Memory :=
  ⟨(∅ : Lengths).insert (utf8 "Void", 0) 1, [(utf8 "Pair", 0)], (∅ : Grammar.Opened)⟩

theorem inside_misled : misled.lengths.Inside (.text (utf8 "aa")) :=
  (Lengths.Inside.empty _).insert ⟨by decide, by decide⟩

theorem shows_start : Memory.start.Shows [] (∅ : PlaceCache (utf8 "aa")) :=
  ⟨Munch.Recursion.knows_empty Memory.not_mem_start, rfl⟩

end Sample

end Arbor
