import Std.Data.DHashMap
import Arbor.Text.Piece
import Arbor.Token.Nullable

/-!
# Munching

How far an expression matches from a place in a text, greedily: choices take
the alternative that gets furthest, options and repetitions take what they
can, and a sequence threads its items. To get nowhere means no match **or** an
empty one; where the difference matters, in a sequence, it is settled by
`Grammar.nullable`.

The places that names lead to are kept in a **cache** under the name and the
number of bytes left, which together say where the name was tried. A name that
is opened at the same place matches nothing there, so a left-recursive
production is cut off, and what is found under that cut is cached like
anything else. Once something is consumed no name is opened any more, because
everything opened was opened further left.
-/

namespace Arbor

/-- **A place in a text**, given by what is left of the text from there on. -/
structure Rest (t : Text) where
  /-- The bytes left. -/
  bytes : Text
  /-- How many there are. -/
  left : Nat
  /-- No more than in the whole text. -/
  left_le : left ≤ t.length
  /-- They are the last bytes of the text. -/
  bytes_eq : bytes = t.drop (t.length - left)

namespace Rest

variable {t : Text}

/-- There are as many bytes as are counted. -/
theorem length_bytes (r : Rest t) : r.bytes.length = r.left := by
  have := r.left_le
  rw [r.bytes_eq, List.length_drop]
  omega

/-- A place is known by how much is left there. -/
theorem ext_left {r s : Rest t} (h : r.left = s.left) : r = s := by
  cases r with
  | mk rb rl rle rbe =>
    cases s with
    | mk sb sl sle sbe =>
      obtain rfl : rl = sl := h
      subst rbe sbe
      rfl

/-- The start of a text. -/
def start (t : Text) : Rest t := ⟨t, t.length, Nat.le_refl _, by simp⟩

/-- The end of a text. -/
def finish (t : Text) : Rest t := ⟨[], 0, Nat.zero_le _, by simp⟩

/-- The place after `n` more bytes. -/
def drop (r : Rest t) (n : Nat) : Rest t where
  bytes := r.bytes.drop n
  left := r.left - n
  left_le := Nat.le_trans (Nat.sub_le ..) r.left_le
  bytes_eq := by
    have hl := r.left_le
    rw [r.bytes_eq, List.drop_drop]
    by_cases h : n ≤ r.left
    · congr 1
      omega
    · rw [List.drop_eq_nil_of_le (by omega), List.drop_eq_nil_of_le (by omega)]

/-- A place that is reached from another, and so not before it. -/
abbrev Reached (r : Rest t) := { s : Rest t // s.left ≤ r.left }

/-- The place itself. -/
def here (r : Rest t) : Reached r := ⟨r, Nat.le_refl _⟩

/-- What is reached after `n` more bytes. -/
def skip (r : Rest t) (n : Nat) : Reached r := ⟨r.drop n, Nat.sub_le ..⟩

/-- What is reached from a place that is reached. -/
def Reached.via {r : Rest t} (s : Reached r) (u : Reached s.val) : Reached r :=
  ⟨u.val, Nat.le_trans u.property s.property⟩

/-- How many bytes lie between. -/
def Reached.length {r : Rest t} (s : Reached r) : Nat := r.left - s.val.left

/-- Whether nothing lies between. -/
def Reached.isEmpty {r : Rest t} (s : Reached r) : Bool := s.val.left = r.left

/-- Something between leaves less. -/
theorem Reached.left_lt {r : Rest t} {s : Reached r} (h : ¬ s.isEmpty) :
    s.val.left < r.left := by
  have hne : s.val.left ≠ r.left := by simpa [isEmpty] using h
  have := s.property
  omega

end Rest

/-- The places known: under a name and the number of bytes left where it was
tried, the place it leads to. -/
abbrev PlaceCache (t : Text) :=
  Std.DHashMap (Text × Nat) fun key => { s : Rest t // s.left ≤ key.2 }

namespace Munch

/-- How many bytes a character between two bounds takes at the start of a
text. The replacement character is in no range, and so neither is a stray
byte. -/
def rangeLength (lo hi rest : Text) : Nat :=
  match rest.firstPiece? with
  | none => 0
  | some (r, width) =>
    let c := r.toChar
    if c = Piece.replacement ∨ c < lo.firstChar ∨ hi.firstChar < c then 0 else width

theorem rangeLength_le (lo hi rest : Text) : rangeLength lo hi rest ≤ rest.length := by
  unfold rangeLength Text.firstPiece?
  cases rest with
  | nil => simp
  | cons b rest =>
    have := Piece.split_le b rest
    simp only [List.length_cons]
    split <;> omega

/-- How many bytes a literal takes at the start of a text. -/
def literalLength (value rest : Text) : Nat :=
  if value.isPrefixOf rest then value.length else 0

theorem literalLength_le (value rest : Text) : literalLength value rest ≤ rest.length := by
  unfold literalLength
  split
  · next h => exact (List.isPrefixOf_iff_prefix.mp h).length_le
  · exact Nat.zero_le _

section

variable {t : Text} (g : Grammar)

mutual

/-- **How far an expression matches** from a place, given the productions opened
there and the places known. -/
def expr (opened : Grammar.Opened) (r : Rest t) :
    Expr → PlaceCache t → r.Reached × PlaceCache t
  | .empty, cache => (r.here, cache)
  | .literal v, cache => (r.skip (literalLength v r.bytes), cache)
  | .range lo hi, cache => (r.skip (rangeLength lo hi r.bytes), cache)
  | .group e, cache => expr opened r e cache
  | .option e, cache => expr opened r e cache
  | .repetition e, cache => many opened r e cache
  | .alt e f, cache =>
    let (a, cache) := expr opened r e cache
    let (b, cache) := expr opened r f cache
    (if b.val.left < a.val.left then b else a, cache)
  | .seq e f, cache =>
    let (s, cache) := both opened r e f cache
    (s.getD r.here, cache)
  | .name _ n, cache =>
    match cache.get? (n, r.left) with
    | some s => (s, cache)
    | none =>
      if ho : n ∈ opened then (r.here, cache)
      else match hp : g.get? n with
        | none => (r.here, cache)
        | some p =>
          have := Grammar.unopened_insert_lt (Grammar.mem_names_of_get? hp) ho
          let (s, cache) := expr (opened.insert n) r p.body cache
          (s, cache.insert (n, r.left) s)
termination_by e => (r.left, g.unopened opened, sizeOf e, 0)
decreasing_by
  · exact .right _ (.right _ (.left _ _ (by simp +arith)))
  · exact .right _ (.right _ (.left _ _ (by simp +arith)))
  · exact .right _ (.right _ (.left _ _ (by simp +arith)))
  · exact .right _ (.right _ (.left _ _ (by simp +arith)))
  · exact .right _ (.right _ (.left _ _ (by simp +arith)))
  · exact .right _ (.right _ (.left _ _ (by simp +arith)))
  · exact .right _ (.left _ _ this)

/-- How far an item of a sequence matches. It fails if it gets nowhere and is
not nullable. -/
def item (opened : Grammar.Opened) (r : Rest t) :
    Expr → PlaceCache t → Option r.Reached × PlaceCache t
  | .seq e f, cache => both opened r e f cache
  | e, cache =>
    let (s, cache) := expr opened r e cache
    (if s.isEmpty && !g.nullable e then none else some s, cache)
termination_by e => (r.left, g.unopened opened, sizeOf e, 1)
decreasing_by
  · exact .right _ (.right _ (.left _ _ (by simp +arith)))
  · exact .right _ (.right _ (.right _ (by omega)))

/-- How far one item after another matches. -/
def both (opened : Grammar.Opened) (r : Rest t) (e f : Expr) (cache : PlaceCache t) :
    Option r.Reached × PlaceCache t :=
  match item opened r e cache with
  | (none, cache) => (none, cache)
  | (some s, cache) =>
    if h : s.isEmpty then item opened r f cache
    else
      have := Rest.Reached.left_lt h
      let (u, cache) := item ∅ s.val f cache
      (u.map s.via, cache)
termination_by (r.left, g.unopened opened, sizeOf e + sizeOf f, 2)
decreasing_by
  · exact .right _ (.right _ (.left _ _ (by cases f <;> simp +arith)))
  · exact .right _ (.right _ (.left _ _ (by cases e <;> simp +arith)))
  · exact .left _ _ this

/-- How far as many occurrences of an expression as there are match. -/
def many (opened : Grammar.Opened) (r : Rest t) (e : Expr) (cache : PlaceCache t) :
    r.Reached × PlaceCache t :=
  let (s, cache) := expr opened r e cache
  if h : s.isEmpty then (s, cache)
  else
    have := Rest.Reached.left_lt h
    let (u, cache) := many ∅ s.val e cache
    (s.via u, cache)
termination_by (r.left, g.unopened opened, sizeOf e, 1)
decreasing_by
  · exact .right _ (.right _ (.right _ (by omega)))
  · exact .left _ _ this

end

end

end Munch

end Arbor
