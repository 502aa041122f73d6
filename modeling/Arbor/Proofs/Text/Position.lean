import Arbor.Position

/-!
# The position of an offset

A tokenizer keeps its position up to date byte by byte (`Position.advance`). What the
position is at an offset can be said at once, from the text alone: the line is one more
than the newlines before the offset, and the column one more than the bytes since the last
of them (`Text.positionAt`). Advancing over the text from one offset leads to the position
of another (`Text.after_positionAt`), by as many lines as there are newlines in between
(`Position.line_after`). A later offset has a later line, or else the same line and no smaller
column (`Text.line_lt_or_column_le`), so line and column are in the order of the offsets.
-/

namespace Arbor

namespace Position

/-- Every newline that is advanced over begins a line. -/
theorem line_after (p : Position) (u : Text) :
    (p.after u).line = p.line + u.count Text.newline := by
  induction u generalizing p with
  | nil => simp
  | cons b u ih =>
    show ((p.advance b).after u).line = _
    rw [ih, advance]
    by_cases hb : b = Text.newline
    · rw [hb, if_pos rfl, List.count_cons_self]
      dsimp only
      omega
    · rw [if_neg hb, List.count_cons_of_ne hb]

/-- Without one only the column moves. -/
theorem after_of_not_mem (p : Position) {u : Text} (h : Text.newline ∉ u) :
    p.after u = ⟨p.offset + u.length, p.line, p.column + u.length⟩ := by
  induction u generalizing p with
  | nil => simp
  | cons b u ih =>
    obtain ⟨hb, hu⟩ := not_or.mp (mt List.mem_cons.mpr h)
    show (p.advance b).after u = _
    rw [ih _ hu, advance, if_neg (Ne.symm hb), mk.injEq, List.length_cons]
    dsimp only
    omega

end Position

namespace Text

/-- **The position of an offset** in a text. -/
def positionAt (t : Text) (o : Nat) : Position where
  offset := o
  line := 1 + (t.take o).count newline
  column := 1 + ((t.take o).reverse.takeWhile (· ≠ newline)).length

@[simp] theorem offset_positionAt (t : Text) (o : Nat) : (t.positionAt o).offset = o := rfl

/-- A text that is advanced over from its start ends at the position of its length. -/
theorem after_origin (u : Text) : Position.origin.after u = u.positionAt u.length := by
  -- the last byte is the one that is advanced over last
  suffices h : ∀ v : Text, Position.origin.after v.reverse
      = ⟨v.length, 1 + v.count newline, 1 + (v.takeWhile (· ≠ newline)).length⟩ by
    have hu := h u.reverse
    rw [List.reverse_reverse, List.length_reverse, List.count_reverse] at hu
    rw [positionAt, List.take_length]
    exact hu
  intro v
  induction v with
  | nil => rfl
  | cons b v ih =>
    rw [List.reverse_cons, Position.after_append, ih]
    show Position.advance _ b = _
    unfold Position.advance
    by_cases hb : b = newline
    · subst hb
      simp [Int.add_assoc]
    · simp [hb, Int.add_assoc]

/-- **Advancing leads from offset to offset.** -/
theorem after_positionAt (t : Text) {i j : Nat} (hij : i ≤ j) (hj : j ≤ t.length) :
    (t.positionAt i).after ((t.drop i).take (j - i)) = t.positionAt j := by
  have htake : ∀ k ≤ t.length, t.positionAt k = Position.origin.after (t.take k) := by
    intro k hk
    rw [after_origin, positionAt, positionAt, List.length_take, Nat.min_eq_left hk, List.take_take,
      Nat.min_self]
  rw [htake i (Nat.le_trans hij hj), htake j hj, ← Position.after_append]
  congr 1
  rw [show j = i + (j - i) by omega, List.take_add, Nat.add_sub_cancel_left]

/-- **Lines and columns are in the order of the offsets.** -/
theorem line_lt_or_column_le (t : Text) {i j : Nat} (hij : i ≤ j) :
    (t.positionAt i).line < (t.positionAt j).line
      ∨ (t.positionAt i).line = (t.positionAt j).line
        ∧ (t.positionAt i).column ≤ (t.positionAt j).column := by
  have hsplit : t.take j = t.take i ++ (t.drop i).take (j - i) := by
    rw [← List.take_add, Nat.add_sub_cancel' hij]
  generalize (t.drop i).take (j - i) = between at hsplit
  simp only [positionAt, hsplit, List.count_append]
  by_cases hn : newline ∈ between
  · have := List.count_pos_iff.mpr hn
    omega
  · -- without a newline in between the line goes on
    have hline : ∀ b ∈ between.reverse, decide (b ≠ newline) = true := by
      intro b hb
      exact decide_eq_true fun heq => hn (heq ▸ List.mem_reverse.mp hb)
    rw [List.count_eq_zero.mpr hn, List.reverse_append, List.takeWhile_append_of_pos hline,
      List.length_append]
    omega

/-- No column is beyond the offset. -/
theorem column_le (t : Text) (o : Nat) : (t.positionAt o).column ≤ 1 + o := by
  have h := (List.takeWhile_sublist (· ≠ newline) (l := (t.take o).reverse)).length_le
  rw [List.length_reverse, List.length_take] at h
  show (1 : Int) + _ ≤ 1 + o
  omega

/-- No line and no column is beyond the length of the text. -/
theorem exists_line_column (t : Text) (o : Nat) :
    ∃ line column : Nat, line ≤ t.length ∧ column ≤ t.length
      ∧ t.positionAt o = ⟨o, 1 + line, 1 + column⟩ := by
  have htake : (t.take o).length ≤ t.length := (List.take_sublist o t).length_le
  refine ⟨_, _, ?_, ?_, rfl⟩
  · exact Nat.le_trans List.count_le_length htake
  · have hcolumn := (List.takeWhile_sublist (· ≠ newline) (l := (t.take o).reverse)).length_le
    rw [List.length_reverse] at hcolumn
    exact Nat.le_trans hcolumn htake

end Text

end Arbor
