import Mathlib.Data.List.TakeWhile
import Arbor.Cursor
import Arbor.Proofs.Text.Position

/-!
# Cursors find positions again

Positions count lines and columns forward, byte by byte; a cursor is looked up by skipping
as many newlines as it has lines before it, and then as many bytes as its column says, but
not beyond the end of the line. On the line and the column of an offset in the text the two
agree (`Cursor.offset?_toCursor`).

What joins them is a cut of the text before the offset, behind its last newline: all
newlines are before the cut, so skipping them leads there (`Cursor.fromLine?_append`), and
the bytes behind it are the column.
-/

namespace Arbor

open Text (newline)

/-- A text is cut behind its last newline. -/
theorem Text.exists_lastLine (t : Text) :
    ∃ whole line : Text, t = whole ++ line ∧ (∀ b ∈ whole.getLast?, b = newline)
      ∧ (∀ b ∈ line, b ≠ newline)
      ∧ line.length = (t.reverse.takeWhile (· ≠ newline)).length := by
  refine ⟨(t.reverse.dropWhile (· ≠ newline)).reverse,
    (t.reverse.takeWhile (· ≠ newline)).reverse, ?_, ?_, ?_, List.length_reverse⟩
  · rw [← List.reverse_append, List.takeWhile_append_dropWhile, List.reverse_reverse]
  · intro b hb
    have hfirst := List.head?_dropWhile_not (· ≠ newline) t.reverse
    rw [← List.getLast?_reverse, Option.mem_def.mp hb] at hfirst
    simpa using hfirst
  · intro b hb
    simpa using List.mem_takeWhile_imp (List.mem_reverse.mp hb)

/-- The cursor at a position. -/
def Position.toCursor (p : Position) : Cursor := ⟨p.line, p.column⟩

namespace Cursor

variable {t : Text}

/-- Skipping all newlines of a text that ends with one skips the text. -/
theorem fromLine?_append {whole : Text} (h : ∀ b ∈ whole.getLast?, b = newline) (rest : Text) :
    fromLine? (whole.count newline) (whole ++ rest) = some (whole.length, rest) := by
  induction whole with
  | nil =>
    show fromLine? 0 rest = some (0, rest)
    rw [fromLine?]
  | cons b whole ih =>
    have htail : ∀ c ∈ whole.getLast?, c = newline := by
      intro c hc
      refine h c ?_
      rw [List.getLast?_cons, Option.mem_def.mp hc]
      rfl
    have hrest := ih htail
    by_cases hb : b = newline
    · rw [hb, List.count_cons_self, List.cons_append, fromLine?, if_pos rfl, hrest]
      rfl
    · -- the last byte is a newline, and not this one
      have hne : whole ≠ [] := by
        rintro rfl
        exact hb (h b rfl)
      have hmem : newline ∈ whole := by
        rw [← htail _ (List.getLast?_eq_some_getLast hne)]
        exact List.getLast_mem hne
      obtain ⟨n, hn⟩ := Nat.exists_eq_succ_of_ne_zero (Nat.ne_of_gt (List.count_pos_iff.mpr hmem))
      rw [hn] at hrest
      rw [List.count_cons_of_ne hb, hn, List.cons_append, fromLine?, if_neg hb, hrest]
      rfl

/-- A cursor is looked up by its line and its column counted from zero. -/
theorem offset?_succ (t : Text) (line column : Nat) :
    offset? t ⟨1 + line, 1 + column⟩ = (fromLine? line t).map fun found =>
      found.1 + min column (found.2.takeWhile (· ≠ newline)).length := by
  have hin : ¬ ((1 + line : Int) < 1 ∨ (1 + column : Int) < 1) := by omega
  rw [offset?, if_neg hin, show ((1 + line : Int) - 1).toNat = line by omega,
    show ((1 + column : Int) - 1).toNat = column by omega]

/-- **The cursor at an offset finds the offset.** -/
theorem offset?_toCursor {o : Nat} (h : o ≤ t.length) :
    offset? t (t.positionAt o).toCursor = some o := by
  obtain ⟨whole, line, htake, hwhole, hline, hcolumn⟩ := Text.exists_lastLine (t.take o)
  have hcount : (t.take o).count newline = whole.count newline := by
    rw [htake, List.count_append, List.count_eq_zero.mpr fun hn => hline newline hn rfl,
      Nat.add_zero]
  have hlength : whole.length + line.length = o := by
    rw [← List.length_append, ← htake, List.length_take, Nat.min_eq_left h]
  have hfrom : fromLine? (whole.count newline) t = some (whole.length, line ++ t.drop o) := by
    have htext : t = whole ++ (line ++ t.drop o) := by
      rw [← List.append_assoc, ← htake, List.take_append_drop]
    exact (congrArg _ htext).trans (fromLine?_append hwhole _)
  -- the column is not beyond the end of the line
  have hin : line.length ≤ ((line ++ t.drop o).takeWhile (· ≠ newline)).length := by
    rw [List.takeWhile_append_of_pos (by simpa using hline), List.length_append]
    exact Nat.le_add_right _ _
  show offset? t ⟨1 + (t.take o).count newline,
    1 + ((t.take o).reverse.takeWhile (· ≠ newline)).length⟩ = some o
  rw [offset?_succ, ← hcolumn, hcount, hfrom]
  show some (whole.length + min line.length _) = some o
  rw [Nat.min_eq_left hin, hlength]

end Cursor

end Arbor
