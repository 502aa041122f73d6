import Arbor.Grammar.Opened

/-!
# How deep calls can nest

The parser and the matcher of tokens follow names into productions, and neither has an
argument that gets smaller with every call. A name leads from one expression to another that
may be larger, at the same place; only the productions that are being followed there have
become one more. Behind something that is consumed none of them is being followed, but less
is left.

So a call is ranked by three numbers: how much is **left**, how many productions are not yet
**visited** at the place, and how **large** the expression is. Where the first is smaller the
second may grow, and where one of the two is smaller so may the third. As the second and
the third are bounded for a given grammar, the three are the digits of one number
(`Grammar.rank`), and that number bounds how deep the calls below a call can nest.
-/

namespace Arbor

/-- How many expressions there are in an expression, itself included. -/
def Expr.size : Expr → Nat
  | empty => 1
  | name _ _ => 1
  | literal _ => 1
  | range _ _ => 1
  | group e => e.size + 1
  | option e => e.size + 1
  | repetition e => e.size + 1
  | seq e f => e.size + f.size + 1
  | alt e f => e.size + f.size + 1

theorem Expr.size_pos (e : Expr) : 0 < e.size := by
  cases e <;> exact Nat.succ_pos _

/-- The largest of some numbers is no less than any of them. -/
theorem le_foldr_max {ks : List Nat} {k : Nat} (h : k ∈ ks) (least : Nat) :
    k ≤ ks.foldr max least := by
  induction ks with
  | nil => exact absurd h List.not_mem_nil
  | cons j js ih =>
    rw [List.foldr_cons]
    rcases List.mem_cons.mp h with rfl | h
    · exact Nat.le_max_left _ _
    · exact Nat.le_trans (ih h) (Nat.le_max_right _ _)

namespace Grammar

variable {g : Grammar}

/-! ## The digits -/

/-- The size of the largest body. -/
def widest (g : Grammar) : Nat := (g.productions.map (·.body.size)).foldr max 0

theorem size_le_widest {n : Text} {p : Production} (h : g.get? n = some p) :
    p.body.size ≤ g.widest := by
  have hp : p.body.size ∈ g.productions.map (·.body.size) :=
    List.mem_map_of_mem (get?_eq_some_iff.mp h).1
  exact le_foldr_max hp 0

/-- How many productions are not visited. -/
def unvisited (g : Grammar) (visited : Text → Bool) : Nat := g.names.countP fun n => !visited n

theorem unvisited_le (g : Grammar) (visited : Text → Bool) : g.unvisited visited ≤ g.names.length :=
  List.countP_le_length

/-- To visit a production leaves fewer. -/
theorem unvisited_lt {visited visited' : Text → Bool} {n : Text} {p : Production}
    (hp : g.get? n = some p) (hn : visited n = false) (hn' : visited' n = true)
    (hsub : ∀ m, visited m = true → visited' m = true) :
    g.unvisited visited' < g.unvisited visited := by
  have hmem : n ∈ g.names := has_iff_mem_names.mp (has_of_get? hp)
  obtain ⟨before, after, hnames⟩ := List.append_of_mem hmem
  have hle : ∀ ms : List Text, ms.countP (fun m => !visited' m) ≤ ms.countP fun m => !visited m := by
    refine fun ms => List.countP_mono_left fun m _ hm => ?_
    cases hv : visited m with
    | false => rfl
    | true => simp [hsub m hv] at hm
  unfold unvisited
  rw [hnames, List.countP_append, List.countP_append, List.countP_cons, List.countP_cons, hn, hn']
  have := hle before
  have := hle after
  simp only [Bool.not_true, Bool.not_false, Bool.false_eq_true, ↓reduceIte]
  omega

/-- A production together with the place where it is being followed. -/
abbrev Visit := Text × Nat

/-- How many productions are not being followed at a place. -/
def unfollowed (g : Grammar) (visits : List Visit) (pos : Nat) : Nat :=
  g.unvisited fun n => (n, pos) ∈ visits

theorem unfollowed_cons_lt {visits : List Visit} {n : Text} {p : Production} {pos : Nat}
    (hp : g.get? n = some p) (hn : (n, pos) ∉ visits) :
    g.unfollowed ((n, pos) :: visits) pos < g.unfollowed visits pos :=
  unvisited_lt hp (decide_eq_false hn) (decide_eq_true List.mem_cons_self) fun _ hm =>
    decide_eq_true (List.mem_cons_of_mem _ (of_decide_eq_true hm))

/-- **Whether the productions that are being followed at a place are the ones opened there.**
Those followed elsewhere were entered further left. -/
structure Tracks (visits : List Visit) (pos : Nat) (opened : Opened) : Prop where
  /-- At the place itself. -/
  here : ∀ n, (n, pos) ∈ visits ↔ n ∈ opened
  /-- And elsewhere. -/
  before : ∀ v ∈ visits, v.2 ≤ pos

namespace Tracks

variable {visits : List Visit} {pos next : Nat} {opened : Opened}

theorem nil : Tracks [] pos ∅ where
  here _ := iff_of_false List.not_mem_nil Std.TreeSet.not_mem_emptyc
  before _ hv := absurd hv List.not_mem_nil

/-- Behind something consumed nothing is opened. -/
theorem behind (h : Tracks visits pos opened) (hlt : pos < next) : Tracks visits next ∅ where
  here _ := iff_of_false (fun hn => absurd (h.before _ hn) (Nat.not_le.mpr hlt))
    Std.TreeSet.not_mem_emptyc
  before v hv := Nat.le_trans (h.before v hv) (Nat.le_of_lt hlt)

theorem insert (h : Tracks visits pos opened) (n : Text) :
    Tracks ((n, pos) :: visits) pos (opened.insert n) where
  here m := by
    rw [List.mem_cons, h.here, mem_insert_opened, Prod.mk.injEq, and_iff_left rfl]
  before := List.forall_mem_cons.mpr ⟨Nat.le_refl _, h.before⟩

end Tracks

/-! ## The number -/

/-- **The rank of a call**, given what is left, how many productions are not visited and how
large its expression is, if no expression is larger than `width`. -/
def rank (g : Grammar) (width left unvisited size : Nat) : Nat :=
  (left * (g.names.length + 1) + unvisited) * (width + 1) + size

section Rank

variable {width left left' fresh fresh' size size' : Nat}

theorem size_le_rank : size ≤ g.rank width left fresh size := Nat.le_add_left _ _

/-- A part of an expression ranks lower. -/
theorem rank_part (h : size' < size) :
    g.rank width left fresh size' < g.rank width left fresh size :=
  Nat.add_lt_add_left h _

/-- So does a body, although it may be larger. -/
theorem rank_body (h : fresh' < fresh) (hsize : size' ≤ width) :
    g.rank width left fresh' size' < g.rank width left fresh size := by
  have hdigit : (left * (g.names.length + 1) + fresh' + 1) * (width + 1)
      ≤ (left * (g.names.length + 1) + fresh) * (width + 1) :=
    Nat.mul_le_mul_right _ (by omega)
  rw [Nat.succ_mul] at hdigit
  unfold rank
  omega

/-- So does all that comes behind something consumed. -/
theorem rank_behind (h : left' < left) (hfresh : fresh' ≤ g.names.length) (hsize : size' ≤ width) :
    g.rank width left' fresh' size' < g.rank width left fresh size := by
  have hdigit : (left' + 1) * (g.names.length + 1) ≤ left * (g.names.length + 1) :=
    Nat.mul_le_mul_right _ h
  rw [Nat.succ_mul] at hdigit
  have hdigits : (left' * (g.names.length + 1) + fresh' + 1) * (width + 1)
      ≤ (left * (g.names.length + 1) + fresh) * (width + 1) :=
    Nat.mul_le_mul_right _ (by omega)
  rw [Nat.succ_mul] at hdigits
  unfold rank
  omega

/-- Where nothing more is left than that, no call ranks higher. -/
theorem rank_le (hleft : left' ≤ left) (hfresh : fresh' ≤ g.names.length) (hsize : size' ≤ width) :
    g.rank width left' fresh' size' ≤ (left + 1) * (g.names.length + 1) * (width + 1) := by
  have hdigit : left' * (g.names.length + 1) ≤ left * (g.names.length + 1) :=
    Nat.mul_le_mul_right _ hleft
  have hdigits : (left' * (g.names.length + 1) + fresh' + 1) * (width + 1)
      ≤ (left + 1) * (g.names.length + 1) * (width + 1) := by
    refine Nat.mul_le_mul_right _ ?_
    rw [Nat.succ_mul]
    omega
  rw [Nat.succ_mul] at hdigits
  unfold rank
  omega

end Rank

end Grammar

end Arbor
