import Arbor.Proofs.Grammar.Nesting
import Arbor.Proofs.Token.Lossless
import Mathlib.Data.Set.Finite.Lattice
import Mathlib.Order.Filter.AtTopBot.Basic

/-!
# The recursion behind the matcher

The matcher of tokens ends because it was defined so: a place that is reached lies in the text and
not before the start, also if it comes out of the cache, and what is opened is forgotten behind
something consumed. `Munch.Recursion.step` is one call of the same recursion without this, with the
calls that it makes left open. It counts bytes from an offset, which may be any integer. All calls
share one **memory**: the lengths known under names and offsets, the productions that are being
followed with their offsets, and the names that are being asked whether they are nullable. A look
at the text from an offset that is not in it goes **astray**, and then there is no answer.
`Munch.Recursion.run` gives up if calls nest deeper than a bound.

Every call ends, whatever the memory holds and wherever the call starts
(`Munch.Recursion.settles`). What is left of the text does not become less with every call: a known
length can be wrong, and can lead out of the text or back. But only finitely many are known, so
there is a **window** that none of them leads out of, and the text is in it. In the window there are
finitely many offsets at which productions can be entered, and an entry that is made is not made
again before it is left. Between two entries the expressions become smaller, except in a repetition,
whose turns go on to the right. There is no largest integer here, but all offsets are in the window,
and all lengths lead from one of them to another.

A call that comes back leaves the productions being followed and the names being asked as they were.
The question whether an expression is nullable only nests by productions
(`Munch.Recursion.nullable_eq`).
-/

namespace Arbor

namespace Munch

namespace Recursion

open Filter (atTop)

/-! ## Whether an expression is nullable -/

/-- Whether an expression can match the empty text, given how its parts are asked, and the
bodies of productions other than those being asked already. -/
def nullableStep (g : Grammar) (call : List Text → Expr → Option Bool) (asked : List Text) :
    Expr → Option Bool
  | .empty => some true
  | .option _ => some true
  | .repetition _ => some true
  | .literal v => some v.isEmpty
  | .range _ _ => some false
  | .group e => call asked e
  | .seq e f => do if ← call asked e then call asked f else return false
  | .alt e f => do if ← call asked e then return true else call asked f
  | .name _ n =>
    match g.get? n with
    | none => some false
    | some p => if n ∈ asked then some false else call (n :: asked) p.body

/-- **Whether an expression can match the empty text**, with calls nested no deeper than
`depth`. -/
def nullable (g : Grammar) : (depth : Nat) → List Text → Expr → Option Bool
  | 0 => fun _ _ => none
  | depth + 1 => nullableStep g (nullable g depth)

/-- **The question nests no deeper than its rank**, where nothing is left, and gets the answer
that it has. -/
theorem nullable_eq {g : Grammar} {width d : Nat} {asked : List Text} {e : Expr}
    {opened : Grammar.Opened} (hwidth : g.widest ≤ width)
    (hrank : g.rank width 0 (g.unvisited fun n => n ∈ asked) e.size ≤ d) (he : e.size ≤ width)
    (hopened : ∀ n, n ∈ asked ↔ n ∈ opened) :
    nullable g d asked e = some (g.nullableFrom opened e) := by
  induction d generalizing asked e opened with
  | zero => exact absurd (Nat.le_trans Grammar.size_le_rank hrank) (Nat.not_le.mpr e.size_pos)
  | succ d ih =>
    have part {f : Expr} (hf : f.size < e.size) :
        nullable g d asked f = some (g.nullableFrom opened f) :=
      ih (Nat.le_of_lt_succ (Nat.lt_of_lt_of_le (Grammar.rank_part hf) hrank))
        (Nat.le_trans (Nat.le_of_lt hf) he) hopened
    show nullableStep g (nullable g d) asked e = _
    cases e with
    | empty | option | repetition | literal | range =>
      simp only [Grammar.nullableFrom_empty, Grammar.nullableFrom_option,
        Grammar.nullableFrom_repetition, Grammar.nullableFrom_literal, Grammar.nullableFrom_range]
      rfl
    | group f =>
      rw [Grammar.nullableFrom_group]
      exact part (Nat.lt_succ_self _)
    | seq f f' =>
      rw [Grammar.nullableFrom_seq]
      show (nullable g d asked f).bind _ = _
      rw [part (by simp only [Expr.size]; omega)]
      cases g.nullableFrom opened f with
      | true => exact part (by simp only [Expr.size]; omega)
      | false => rfl
    | alt f f' =>
      rw [Grammar.nullableFrom_alt]
      show (nullable g d asked f).bind _ = _
      rw [part (by simp only [Expr.size]; omega)]
      cases g.nullableFrom opened f with
      | true => rfl
      | false => exact part (by simp only [Expr.size]; omega)
    | name mark n =>
      have hname : g.nullableFrom opened (.name mark n) = true ↔ n ∉ opened
          ∧ ∃ p, g.get? n = some p ∧ g.nullableFrom (opened.insert n) p.body = true :=
        Grammar.nullableFrom_name_iff
      unfold nullableStep
      dsimp only
      cases hp : g.get? n with
      | none =>
        refine congrArg some (Bool.eq_false_iff.mpr fun h => ?_).symm
        obtain ⟨-, p, hq, -⟩ := hname.mp h
        exact absurd (hp.symm.trans hq) (by simp)
      | some p =>
        dsimp only
        split
        · next hn =>
          refine congrArg some (Bool.eq_false_iff.mpr fun h => ?_).symm
          exact (hname.mp h).1 ((hopened n).mp hn)
        · next hn =>
          have hbody : nullable g d (n :: asked) p.body
              = some (g.nullableFrom (opened.insert n) p.body) := by
            have hlt : g.unvisited (fun m => m ∈ n :: asked) < g.unvisited fun m => m ∈ asked :=
              Grammar.unvisited_lt hp (decide_eq_false hn) (decide_eq_true List.mem_cons_self)
                fun m hm => decide_eq_true (List.mem_cons_of_mem _ (of_decide_eq_true hm))
            have hsize := Nat.le_trans (Grammar.size_le_widest hp) hwidth
            refine ih (Nat.le_of_lt_succ (Nat.lt_of_lt_of_le (Grammar.rank_body hlt hsize) hrank))
              hsize fun m => ?_
            rw [List.mem_cons, hopened, Grammar.mem_insert_opened]
          rw [hbody]
          refine congrArg some (Bool.eq_iff_iff.mpr ?_)
          rw [hname]
          constructor
          · exact fun h => ⟨fun ho => hn ((hopened n).mpr ho), p, hp, h⟩
          · rintro ⟨-, q, hq, h⟩
            obtain rfl := Option.some.inj (hp.symm.trans hq)
            exact h

/-! ## How much is matched -/

/-- The lengths known: under a name and the offset where it was tried, how many bytes it
matches. -/
abbrev Lengths := Std.HashMap (Text × Int) Int

/-- **What is remembered** from call to call. -/
structure Memory where
  /-- The lengths known. -/
  lengths : Lengths
  /-- The productions being followed, with the offsets where they were entered. -/
  active : List (Text × Int)
  /-- The names being asked whether they are nullable. -/
  emptying : Grammar.Opened

namespace Memory

/-- Nothing is known, followed or asked. -/
def start : Memory := ⟨∅, [], ∅⟩

theorem not_mem_start (n : Text) : n ∉ start.emptying := Std.TreeSet.not_mem_emptyc

/-- A production is entered. -/
def enter (mem : Memory) (key : Text × Int) : Memory := { mem with active := key :: mem.active }

/-- A production is left, and its length is known. -/
def leave (mem : Memory) (key : Text × Int) (k : Int) : Memory :=
  { mem with active := mem.active.erase key, lengths := mem.lengths.insert key k }

/-- An expression is asked whether it is nullable. -/
def ask (mem : Memory) (g : Grammar) (e : Expr) : Memory :=
  { mem with emptying := (g.ask mem.emptying e).2.names }

end Memory

/-- A look at the text from an offset that is not in it. -/
structure Astray where
  /-- The offset. -/
  offset : Int

/-- An action on the memory. It may go astray, and it may give up because calls nest too deep. -/
abbrev Action := StateT Memory (ExceptT Astray Option)

/-- How tasks are done from an offset on. A task gives the number of bytes matched, or fails,
which only an item does. -/
abbrev Calls := Task → Int → Action (Option Int)

/-- What is left of a text from an offset on. -/
def textFrom (t : Text) (off : Int) : Action Text :=
  if 0 ≤ off ∧ off ≤ t.length then return t.drop off.toNat else throw ⟨off⟩

/-- Matches both sides of a choice. -/
def either (call : Calls) (e f : Expr) (off : Int) : Action (Option Int) := do
  let a ← call (.expr e) off
  let b ← call (.expr f) off
  return some (max (max 0 (a.getD 0)) (b.getD 0))

/-- Matches one item after another. -/
def both (call : Calls) (e f : Expr) (off : Int) : Action (Option Int) := do
  match ← call (.item e) off with
  | none => return none
  | some n =>
    let o ← call (.item f) (off + n)
    return o.map (n + ·)

/-- Matches an item, which fails if it matches nothing and is not nullable. -/
def item (g : Grammar) (call : Calls) (e : Expr) (off : Int) : Action (Option Int) := do
  let o ← call (.expr e) off
  if o.getD 0 = 0 then
    let mem ← get
    set (mem.ask g e)
    return if g.nullableFrom mem.emptying e then some 0 else none
  else return some (o.getD 0)

/-- Matches as many occurrences of an expression as there are. -/
def many (call : Calls) (e : Expr) (off : Int) : Action (Option Int) := do
  let o ← call (.expr e) off
  if o.getD 0 ≤ 0 then return some 0
  else
    let k ← call (.many e) (off + o.getD 0)
    return k.map (o.getD 0 + ·)

/-- Matches a name. -/
def name (g : Grammar) (call : Calls) (n : Text) (off : Int) : Action (Option Int) := do
  let mem ← get
  match mem.lengths[(n, off)]? with
  | some k => return some k
  | none =>
    match g.get? n with
    | none => return some 0
    | some p =>
      if (n, off) ∈ mem.active then return some 0
      else
        set (mem.enter (n, off))
        let o ← call (.expr p.body) off
        modify (·.leave (n, off) (o.getD 0))
        return some (o.getD 0)

/-- **Does a task**, given how the tasks below it are done. -/
def step (g : Grammar) (t : Text) (call : Calls) : Calls := fun task off =>
  match task with
  | .expr .empty => return some 0
  | .expr (.literal v) => do return some (literalLength v (← textFrom t off))
  | .expr (.range lo hi) => do return some (rangeLength lo hi (← textFrom t off))
  | .expr (.group e) => call (.expr e) off
  | .expr (.option e) => call (.expr e) off
  | .expr (.repetition e) => call (.many e) off
  | .expr (.alt e f) => either call e f off
  | .expr (.seq e f) => do return some ((← both call e f off).getD 0)
  | .expr (.name _ n) => name g call n off
  | .item (.seq e f) => both call e f off
  | .item e => item g call e off
  | .many e => many call e off

/-- **Does a task**, or gives up if the calls nest deeper than `depth`. -/
def run (g : Grammar) (t : Text) : (depth : Nat) → Calls
  | 0 => fun _ _ _ => none
  | depth + 1 => step g t (run g t depth)

/-- How many bytes an expression matches. -/
def length (g : Grammar) (t : Text) (depth : Nat) (e : Expr) (off : Int) : Action Int := do
  return (← run g t depth (.expr e) off).getD 0

/-! ## What actions come to -/

section Action

variable {α β : Type} {mem mem' : Memory} {act : Action α} {cont : α → Action β}

theorem bind_back {a : α} (h : act mem = some (.ok (a, mem'))) :
    (act >>= cont) mem = cont a mem' := by
  show (act mem).bind _ = _
  rw [h]
  rfl

theorem bind_astray {e : Astray} (h : act mem = some (.error e)) :
    (act >>= cont) mem = some (.error e) := by
  show (act mem).bind _ = _
  rw [h]
  rfl

end Action

/-- **What an action comes to** at all depths that count: it comes back with something that is
`P`, or goes astray at an offset that is `F`. -/
inductive Ends {α : Type} (depths : Filter Nat) (act : Nat → Action α) (mem : Memory)
    (F : Int → Prop) (P : α → Memory → Prop) : Prop
  /-- It comes back. -/
  | back {a mem'} (h : ∀ᶠ k in depths, act k mem = some (.ok (a, mem'))) (hp : P a mem')
  /-- It goes astray. -/
  | astray {off} (h : ∀ᶠ k in depths, act k mem = some (.error ⟨off⟩)) (hf : F off)

namespace Ends

variable {α β : Type} {g : Grammar} {t : Text} {depths depths' : Filter Nat} {mem : Memory}
  {act : Nat → Action α} {cont : Nat → α → Action β} {off : Int} {task : Task} {e f : Expr}
  {F : Int → Prop} {P P' : α → Memory → Prop} {Q : β → Memory → Prop}
  {R S : Option Int → Memory → Prop}

theorem mono (h : Ends depths act mem F P) (hle : depths' ≤ depths) :
    Ends depths' act mem F P := by
  cases h with
  | back h hp => exact .back (h.filter_mono hle) hp
  | astray h hf => exact .astray (h.filter_mono hle) hf

theorem imp (h : Ends depths act mem F P) (hp : ∀ a mem', P a mem' → P' a mem') :
    Ends depths act mem F P' := by
  cases h with
  | back h hp' => exact .back h (hp _ _ hp')
  | astray h hf => exact .astray h hf

theorem pure {a : α} (hp : P a mem) : Ends depths (fun _ => Pure.pure a) mem F P :=
  .back (.of_forall fun _ => rfl) hp

theorem bind (h : Ends depths act mem F P)
    (hcont : ∀ a mem', P a mem' → Ends depths (fun k => cont k a) mem' F Q) :
    Ends depths (fun k => act k >>= cont k) mem F Q := by
  cases h with
  | astray h hf => exact .astray (h.mono fun k hk => bind_astray hk) hf
  | back h hp =>
    cases hcont _ _ hp with
    | astray h' hf => exact .astray (h.and h' |>.mono fun k hk => (bind_back hk.1).trans hk.2) hf
    | back h' hq => exact .back (h.and h' |>.mono fun k hk => (bind_back hk.1).trans hk.2) hq

/-- What an action comes to is all that it comes to. -/
theorem of_outcome [depths.NeBot] {out : Except Astray (α × Memory)}
    (h : Ends depths act mem F P) (hout : ∀ᶠ k in depths, act k mem = some out) :
    (∀ a mem', out = .ok (a, mem') → P a mem') ∧ ∀ off, out = .error ⟨off⟩ → F off := by
  cases h with
  | back h hp =>
    obtain ⟨k, hk, hk'⟩ := (h.and hout).exists
    obtain rfl := Option.some.inj (hk.symm.trans hk')
    refine ⟨?_, fun _ heq => absurd heq (by simp)⟩
    rintro _ _ ⟨⟩
    exact hp
  | astray h hf =>
    obtain ⟨k, hk, hk'⟩ := (h.and hout).exists
    obtain rfl := Option.some.inj (hk.symm.trans hk')
    refine ⟨fun _ _ heq => absurd heq (by simp), ?_⟩
    rintro _ ⟨⟩
    exact hf

theorem exists_outcome (h : Ends depths act mem F P) :
    ∃ out, ∀ᶠ k in depths, act k mem = some out := by
  cases h with
  | back h _ => exact ⟨_, h⟩
  | astray h _ => exact ⟨_, h⟩

theorem of_step (h : Ends depths (fun k => step g t (run g t k) task off) mem F R) :
    Ends (depths.map (· + 1)) (fun k => run g t k task off) mem F R := by
  cases h with
  | back h hp => exact .back (Filter.eventually_map.mpr h) hp
  | astray h hf => exact .astray (Filter.eventually_map.mpr h) hf

/-- A choice asks both sides. -/
theorem either (he : Ends depths (fun k => run g t k (.expr e) off) mem F R)
    (hf : ∀ a mem', R a mem' → Ends depths (fun k => run g t k (.expr f) off) mem' F
      fun b => S (some (max (max 0 (a.getD 0)) (b.getD 0)))) :
    Ends depths (fun k => Recursion.either (run g t k) e f off) mem F S :=
  bind he fun a mem' ha => bind (hf a mem' ha) fun _ _ hb => pure hb

theorem both (he : Ends depths (fun k => run g t k (.item e) off) mem F R)
    (hnone : ∀ mem', R none mem' → S none mem')
    (hf : ∀ n mem', R (some n) mem' → Ends depths (fun k => run g t k (.item f) (off + n)) mem' F
      fun o => S (o.map (n + ·))) :
    Ends depths (fun k => Recursion.both (run g t k) e f off) mem F S := by
  refine bind he fun o mem' ho => ?_
  cases o with
  | none => exact pure (hnone mem' ho)
  | some n => exact bind (hf n mem' ho) fun _ _ h => pure h

theorem seq (h : Ends depths (fun k => Recursion.both (run g t k) e f off) mem F
      fun o => S (some (o.getD 0))) :
    Ends depths (fun k => step g t (run g t k) (.expr (.seq e f)) off) mem F S :=
  bind h fun _ _ h => pure h

theorem text {T : Text → Memory → Prop} (hin : 0 ≤ off → off ≤ t.length → T (t.drop off.toNat) mem)
    (hout : ¬ (0 ≤ off ∧ off ≤ t.length) → F off) :
    Ends depths (fun _ => textFrom t off) mem F T := by
  unfold textFrom
  by_cases h : 0 ≤ off ∧ off ≤ t.length
  · simp only [if_pos h]
    exact pure (hin h.1 h.2)
  · simp only [if_neg h]
    exact .astray (.of_forall fun _ => rfl) (hout h)

theorem item (h : Ends depths (fun k => run g t k (.expr e) off) mem F R)
    (hsome : ∀ o mem', R o mem' → o.getD 0 ≠ 0 → S (some (o.getD 0)) mem')
    (hzero : ∀ o mem', R o mem' → o.getD 0 = 0 →
      S (if g.nullableFrom mem'.emptying e then some 0 else none) (mem'.ask g e)) :
    Ends depths (fun k => Recursion.item g (run g t k) e off) mem F S := by
  refine bind h fun o mem' ho => ?_
  by_cases h0 : o.getD 0 = 0
  · simp only [if_pos h0]
    exact .back (.of_forall fun _ => rfl) (hzero o mem' ho h0)
  · simp only [if_neg h0]
    exact pure (hsome o mem' ho h0)

theorem many (h : Ends depths (fun k => run g t k (.expr e) off) mem F R)
    (hlast : ∀ o mem', R o mem' → o.getD 0 ≤ 0 → S (some 0) mem')
    (hmore : ∀ o mem', R o mem' → 0 < o.getD 0 →
      Ends depths (fun k => run g t k (.many e) (off + o.getD 0)) mem' F
        fun k => S (k.map (o.getD 0 + ·))) :
    Ends depths (fun k => Recursion.many (run g t k) e off) mem F S := by
  refine bind h fun o mem' ho => ?_
  by_cases h0 : o.getD 0 ≤ 0
  · simp only [if_pos h0]
    exact pure (hlast o mem' ho h0)
  · simp only [if_neg h0]
    exact bind (hmore o mem' ho (by omega)) fun _ _ h => pure h

/-- An action may look at the memory first. -/
theorem of_get {look : Nat → Memory → Action β} (h : Ends depths (fun k => look k mem) mem F Q) :
    Ends depths (fun k => get >>= look k) mem F Q := by
  refine bind (P := fun a m => a = mem ∧ m = mem) (.back (.of_forall fun _ => rfl) ⟨rfl, rfl⟩) ?_
  rintro _ _ ⟨rfl, rfl⟩
  exact h

section Name

variable {n : Text} {p : Production}

theorem hit {l : Int} (hl : mem.lengths[(n, off)]? = some l) (hs : S (some l) mem) :
    Ends depths (fun k => name g (run g t k) n off) mem F S := by
  refine of_get ?_
  simp only [hl]
  exact pure hs

/-- A name that has no production, or whose production is being followed. -/
theorem idle (hl : mem.lengths[(n, off)]? = none)
    (hp : ∀ p, g.get? n = some p → (n, off) ∈ mem.active) (hs : S (some 0) mem) :
    Ends depths (fun k => name g (run g t k) n off) mem F S := by
  refine of_get ?_
  simp only [hl]
  cases hget : g.get? n with
  | none => exact pure hs
  | some p =>
    simp only [if_pos (hp p hget)]
    exact pure hs

theorem enter (hl : mem.lengths[(n, off)]? = none) (hp : g.get? n = some p)
    (ha : (n, off) ∉ mem.active)
    (h : Ends depths (fun k => run g t k (.expr p.body) off) (mem.enter (n, off)) F
      fun o mem' => S (some (o.getD 0)) (mem'.leave (n, off) (o.getD 0))) :
    Ends depths (fun k => name g (run g t k) n off) mem F S := by
  refine of_get ?_
  simp only [hl, hp, if_neg ha]
  refine bind (P := fun _ m => m = mem.enter (n, off)) (.back (.of_forall fun _ => rfl) rfl) ?_
  rintro _ _ rfl
  exact bind h fun o mem' ho => .back (.of_forall fun _ => rfl) ho

end Name

end Ends

/-! ## Every call ends -/

/-- **A window** on the offsets, which all of a text is in. -/
structure Window (t : Text) where
  /-- The first offset. -/
  lo : Int
  /-- The last one. -/
  hi : Int
  /-- The text does not start before it. -/
  lo_le : lo ≤ 0
  /-- Nor does it end behind it. -/
  le_hi : t.length ≤ hi

namespace Window

variable {t : Text} {w : Window t}

instance : Membership Int (Window t) where
  mem w off := w.lo ≤ off ∧ off ≤ w.hi

theorem mem_iff {off : Int} : off ∈ w ↔ w.lo ≤ off ∧ off ≤ w.hi := .rfl

/-- The window with nothing but the text. -/
def text (t : Text) : Window t := ⟨0, t.length, Int.le_refl _, Int.le_refl _⟩

theorem mem_text_iff {off : Int} : off ∈ text t ↔ 0 ≤ off ∧ off ≤ t.length := .rfl

theorem mem_of_mem_text {off : Int} (h : off ∈ text t) : off ∈ w :=
  ⟨Int.le_trans w.lo_le h.1, Int.le_trans h.2 w.le_hi⟩

/-- All offsets in a window. -/
def offsets (w : Window t) : List Int :=
  (List.range (w.hi - w.lo + 1).toNat).map fun i : Nat => w.lo + i

theorem mem_offsets {off : Int} (h : off ∈ w) : off ∈ w.offsets := by
  obtain ⟨hlo, hhi⟩ := h
  refine List.mem_map.mpr ⟨(off - w.lo).toNat, List.mem_range.mpr ?_, ?_⟩ <;> omega

/-- How many productions are not being followed, at all offsets in a window. -/
def fresh (w : Window t) (g : Grammar) (active : List (Text × Int)) : Nat :=
  ((g.names ×ˢ w.offsets).filter (· ∉ active)).length

/-- To follow one more leaves fewer. -/
theorem fresh_cons_lt {g : Grammar} {active : List (Text × Int)} {n : Text} {off : Int}
    (hn : n ∈ g.names) (hoff : off ∈ w) (ha : (n, off) ∉ active) :
    w.fresh g ((n, off) :: active) < w.fresh g active := by
  have hsub : (g.names ×ˢ w.offsets).filter (· ∉ (n, off) :: active)
      = ((g.names ×ˢ w.offsets).filter (· ∉ active)).filter (· ≠ (n, off)) := by
    rw [List.filter_filter]
    simp only [List.mem_cons, not_or, Bool.decide_and]
  unfold fresh
  rw [hsub]
  refine List.length_filter_lt_length_iff_exists.mpr ⟨(n, off), List.mem_filter.mpr ⟨?_, ?_⟩, ?_⟩
  · exact List.pair_mem_product.mpr ⟨hn, mem_offsets hoff⟩
  · exact decide_eq_true ha
  · simp

end Window

/-- Whether no length that is known leads out of a window. -/
def Lengths.Inside {t : Text} (ls : Lengths) (w : Window t) : Prop :=
  ∀ (n : Text) (off l : Int), ls[(n, off)]? = some l → off ∈ w → off + l ∈ w

namespace Lengths.Inside

variable {t : Text} {w : Window t} {ls : Lengths}

theorem empty (w : Window t) : (∅ : Lengths).Inside w := by
  intro n off l h
  rw [Std.HashMap.getElem?_empty] at h
  cases h

theorem insert (h : ls.Inside w) {n : Text} {off l : Int} (hl : off + l ∈ w) :
    Lengths.Inside (ls.insert (n, off) l) w := by
  intro m off' l' hget hoff
  rw [Std.HashMap.getElem?_insert] at hget
  split at hget
  · next heq =>
    obtain ⟨rfl, rfl⟩ := Prod.mk.inj (eq_of_beq heq)
    exact Option.some.inj hget ▸ hl
  · exact h m off' l' hget hoff

/-- **There is a window** that nothing leads out of: only finitely many lengths are known. -/
theorem exists_window (t : Text) (ls : Lengths) (off : Int) :
    ∃ w : Window t, off ∈ w ∧ ls.Inside w := by
  let stops : List Int := ls.toList.map fun entry => entry.1.2 + entry.2
  have hfinite := (0 :: (t.length : Int) :: off :: stops).finite_toSet
  obtain ⟨lo, hlo⟩ := hfinite.bddBelow
  obtain ⟨hi, hhi⟩ := hfinite.bddAbove
  refine ⟨⟨lo, hi, hlo (by simp), hhi (by simp)⟩, ⟨hlo (by simp), hhi (by simp)⟩, ?_⟩
  intro n k l hget _
  have hmem : k + l ∈ stops :=
    List.mem_map.mpr ⟨((n, k), l), Std.HashMap.mem_toList_iff_getElem?_eq_some.mpr hget, rfl⟩
  exact ⟨hlo (by simp [hmem]), hhi (by simp [hmem])⟩

end Lengths.Inside

/-- **What a call leaves behind**: no length that is known then leads out of the window, and
nothing more or less is being followed or asked than before. -/
structure Leaves {t : Text} (w : Window t) (mem mem' : Memory) : Prop where
  /-- What is known. -/
  inside : mem'.lengths.Inside w
  /-- What is being followed. -/
  active : mem'.active = mem.active
  /-- What is being asked. -/
  emptying : ∀ n, n ∈ mem'.emptying ↔ n ∈ mem.emptying

/-- Whether an action that starts in a window ends there, if not astray out of the text. -/
def EndsIn {t : Text} (w : Window t) (act : Nat → Action (Option Int)) (off : Int) (mem : Memory) :
    Prop :=
  Ends atTop act mem (fun k => k ∈ w ∧ k ∉ Window.text t)
    fun o mem' => off + o.getD 0 ∈ w ∧ Leaves w mem mem'

/-- Whether a task ends, wherever in a window it starts, while the given productions are being
followed. -/
def Settles {t : Text} (w : Window t) (g : Grammar) (active : List (Text × Int)) (task : Task) :
    Prop :=
  ∀ off mem, off ∈ w → mem.lengths.Inside w → mem.active = active →
    EndsIn w (fun k => run g t k task off) off mem

section Settles

variable {t : Text} {w : Window t} {g : Grammar} {active : List (Text × Int)} {task : Task}
  {off : Int} {mem mem₁ mem₂ : Memory} {e f : Expr}

theorem Leaves.same (hmem : mem.lengths.Inside w) : Leaves w mem mem :=
  ⟨hmem, rfl, fun _ => .rfl⟩

theorem Leaves.trans (h₁ : Leaves w mem mem₁) (h₂ : Leaves w mem₁ mem₂) : Leaves w mem mem₂ :=
  ⟨h₂.inside, h₂.active.trans h₁.active, fun n => (h₂.emptying n).trans (h₁.emptying n)⟩

theorem EndsIn.of_step (h : EndsIn w (fun k => step g t (run g t k) task off) off mem) :
    EndsIn w (fun k => run g t k task off) off mem := by
  refine (Ends.of_step h).mono ?_
  rw [Filter.map_add_atTop_eq_nat]

theorem settles_empty : Settles w g active (.expr .empty) := by
  refine fun off mem hoff hmem _ => .of_step (.pure ⟨?_, .same hmem⟩)
  simpa using hoff

/-- What stands in the text does not lead out of it. -/
theorem settles_text {size : Text → Nat} (hsize : ∀ u, size u ≤ u.length)
    (hstep : ∀ call off, step g t call task off = do return some ↑(size (← textFrom t off))) :
    Settles w g active task := by
  refine fun off mem hoff hmem _ => .of_step ?_
  simp only [hstep]
  refine .bind (P := fun u m => u = t.drop off.toNat ∧ off ∈ Window.text t ∧ m = mem)
    (.text (fun h₀ h₁ => ⟨rfl, ⟨h₀, h₁⟩, rfl⟩) fun hout => ⟨hoff, hout⟩) ?_
  rintro _ _ ⟨rfl, hin, rfl⟩
  have hle := hsize (t.drop off.toNat)
  rw [List.length_drop] at hle
  have hstop : off + (size (t.drop off.toNat) : Int) ∈ Window.text t := by
    rw [Window.mem_text_iff] at hin ⊢
    omega
  exact .pure ⟨Window.mem_of_mem_text hstop, .same hmem⟩

theorem Settles.either (he : Settles w g active (.expr e)) (hf : Settles w g active (.expr f)) :
    Settles w g active (.expr (.alt e f)) := by
  refine fun off mem hoff hmem hactive => .of_step ?_
  refine Ends.either (he off mem hoff hmem hactive) ?_
  rintro a mem₁ ⟨ha, h₁⟩
  refine (hf off mem₁ hoff h₁.inside (h₁.active.trans hactive)).imp ?_
  rintro b mem₂ ⟨hb, h₂⟩
  refine ⟨?_, h₁.trans h₂⟩
  -- the furthest is the start or one of the two
  rw [Window.mem_iff] at hoff ha hb ⊢
  rw [Option.getD_some]
  omega

theorem Settles.both (he : Settles w g active (.item e)) (hf : Settles w g active (.item f))
    (hoff : off ∈ w) (hmem : mem.lengths.Inside w) (hactive : mem.active = active) :
    EndsIn w (fun k => Recursion.both (run g t k) e f off) off mem := by
  refine Ends.both (he off mem hoff hmem hactive) (fun _ h => h) ?_
  rintro n mem₁ ⟨hn, h₁⟩
  refine (hf (off + n) mem₁ hn h₁.inside (h₁.active.trans hactive)).imp ?_
  rintro o mem₂ ⟨ho, h₂⟩
  refine ⟨?_, h₁.trans h₂⟩
  cases o with
  | none => simpa using hoff
  | some k => simpa [Int.add_assoc] using ho

theorem step_item {call : Calls} (he : ∀ a b, e ≠ .seq a b) :
    step g t call (.item e) off = Recursion.item g call e off := by
  cases e with
  | seq a b => exact absurd rfl (he a b)
  | _ => rfl

theorem Settles.item (he : ∀ a b, e ≠ .seq a b) (h : Settles w g active (.expr e)) :
    Settles w g active (.item e) := by
  refine fun off mem hoff hmem hactive => .of_step ?_
  simp only [step_item he]
  refine Ends.item (h off mem hoff hmem hactive) (fun o mem₁ h₁ _ => h₁) ?_
  rintro o mem₁ ⟨-, h₁⟩ -
  refine ⟨?_, h₁.inside, h₁.active, fun n => Grammar.mem_ask.trans (h₁.emptying n)⟩
  split <;> simpa using hoff

/-- Each turn but the last leaves less of the window. -/
theorem Settles.many (h : Settles w g active (.expr e)) : Settles w g active (.many e) := by
  intro off mem hoff hmem hactive
  induction hroom : (w.hi - off).toNat using Nat.strongRecOn generalizing off mem with
  | ind room turn =>
    refine .of_step (Ends.many (h off mem hoff hmem hactive) ?_ ?_)
    · rintro o mem₁ ⟨-, h₁⟩ -
      exact ⟨by simpa using hoff, h₁⟩
    · rintro o mem₁ ⟨ho, h₁⟩ hlt
      have hless : (w.hi - (off + o.getD 0)).toNat < room := by
        have := ho.2
        omega
      refine (turn _ hless _ mem₁ ho h₁.inside (h₁.active.trans hactive) rfl).imp ?_
      rintro k mem₂ ⟨hk, h₂⟩
      refine ⟨?_, h₁.trans h₂⟩
      cases k with
      | none => simpa using hoff
      | some k => simpa [Int.add_assoc] using hk

theorem Settles.name {mark : Mark} {n : Text}
    (h : ∀ off p, off ∈ w → g.get? n = some p → (n, off) ∉ active →
      Settles w g ((n, off) :: active) (.expr p.body)) :
    Settles w g active (.expr (.name mark n)) := by
  refine fun off mem hoff hmem hactive => .of_step ?_
  show EndsIn w (fun k => Recursion.name g (run g t k) n off) off mem
  have hhere : off + (some (0 : Int)).getD 0 ∈ w := by simpa using hoff
  cases hl : mem.lengths[(n, off)]? with
  | some l => exact Ends.hit hl ⟨hmem n off l hl hoff, .same hmem⟩
  | none =>
    by_cases hp : ∀ p, g.get? n = some p → (n, off) ∈ mem.active
    · exact Ends.idle hl hp ⟨hhere, .same hmem⟩
    · obtain ⟨p, hp⟩ := not_forall.mp hp
      obtain ⟨hp, ha⟩ := Classical.not_imp.mp hp
      have hbody := h off p hoff hp (hactive ▸ ha) off (mem.enter (n, off)) hoff hmem
        (congrArg ((n, off) :: ·) hactive)
      refine Ends.enter hl hp ha (hbody.imp ?_)
      rintro o mem₁ ⟨ho, h₁⟩
      refine ⟨ho, h₁.inside.insert ho, ?_, h₁.emptying⟩
      show mem₁.active.erase (n, off) = mem.active
      rw [h₁.active]
      exact List.erase_cons_head ..

/-- **Every call ends.** The productions that can still be entered become fewer, and between two
entries the expressions become smaller. -/
theorem settles (w : Window t) (g : Grammar) (active : List (Text × Int)) (task : Task) :
    Settles w g active task := by
  induction hk : w.fresh g active using Nat.strongRecOn generalizing active task with
  | ind fresh entered =>
    have hitem {e : Expr} (he : ∀ a b, e ≠ .seq a b) (h : Settles w g active (.expr e)) :
        Settles w g active (.expr e) ∧ Settles w g active (.item e) :=
      ⟨h, h.item he⟩
    have hexpr : ∀ e, Settles w g active (.expr e) ∧ Settles w g active (.item e) := by
      intro e
      induction e with
      | empty => exact hitem (by simp) settles_empty
      | literal v => exact hitem (by simp) (settles_text (literalLength_le v) fun _ _ => rfl)
      | range lo hi => exact hitem (by simp) (settles_text (rangeLength_le lo hi) fun _ _ => rfl)
      | group e ih =>
        exact hitem (by simp) fun off mem hoff hmem ha => .of_step (ih.1 off mem hoff hmem ha)
      | option e ih =>
        exact hitem (by simp) fun off mem hoff hmem ha => .of_step (ih.1 off mem hoff hmem ha)
      | repetition e ih =>
        exact hitem (by simp) fun off mem hoff hmem ha => .of_step (ih.1.many off mem hoff hmem ha)
      | alt e f ihe ihf => exact hitem (by simp) (ihe.1.either ihf.1)
      | seq e f ihe ihf =>
        exact ⟨fun off mem hoff hmem ha => .of_step (Ends.seq (ihe.2.both ihf.2 hoff hmem ha)),
          fun off mem hoff hmem ha => .of_step (ihe.2.both ihf.2 hoff hmem ha)⟩
      | name mark n =>
        refine hitem (by simp) (.name fun off p hoff hp ha => ?_)
        exact entered _ (hk ▸ Window.fresh_cons_lt (Grammar.mem_names_of_get? hp) hoff ha) _ _ rfl
    cases task with
    | expr e => exact (hexpr e).1
    | item e => exact (hexpr e).2
    | many e => exact (hexpr e).1.many

theorem ends_length_in (e : Expr) (hoff : off ∈ w) (hmem : mem.lengths.Inside w) :
    Ends atTop (fun k => length g t k e off) mem (fun k => k ∈ w ∧ k ∉ Window.text t)
      fun n mem' => off + n ∈ w ∧ Leaves w mem mem' :=
  .bind (settles w g mem.active (.expr e) off mem hoff hmem rfl) fun _ _ h => .pure h

/-- **A match ends**, wherever it starts and whatever the memory holds. It stays in every window
that no known length leads out of, and only goes astray out of the text. -/
theorem exists_length (g : Grammar) (t : Text) (e : Expr) (off : Int) (mem : Memory) :
    ∃ out d, (∀ depth ≥ d, length g t depth e off mem = some out)
      ∧ ∀ w : Window t, off ∈ w → mem.lengths.Inside w →
        (∀ n mem', out = .ok (n, mem') → off + n ∈ w ∧ Leaves w mem mem')
          ∧ ∀ k, out = .error ⟨k⟩ → k ∈ w ∧ k ∉ Window.text t := by
  obtain ⟨w, hoff, hmem⟩ := Lengths.Inside.exists_window t mem.lengths off
  obtain ⟨out, hout⟩ := (ends_length_in (g := g) e hoff hmem).exists_outcome
  obtain ⟨d, hd⟩ := Filter.eventually_atTop.mp hout
  exact ⟨out, d, hd, fun w hoff hmem => (ends_length_in e hoff hmem).of_outcome hout⟩

end Settles

end Recursion

end Munch

end Arbor
