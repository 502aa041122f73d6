import Arbor.Proofs.Text.Cursor
import Arbor.Proofs.Token.Resumption

/-!
# Offsets and cursors

A tokenizer counts lines and columns forward as it takes bytes; a cursor is looked up by
skipping newlines, and its column is cut off at the end of its line. The two are inverse to each
other as far as they can be. The cursor of every position that a tokenizer can have finds the
offset again; and a cursor finds an offset just if the text has its line, which is then at the
line of the cursor and at its column, or at the end of the line if that comes first
(`Cursor.offset?_inverse`).

The lines of a text are its parts between newlines (`Text.split`), so that there is one more of
them than there are newlines, and the last one is empty behind a final newline. What a cursor
finds behind the newlines before it begins with just the line it names
(`Cursor.map_fromLine?`); nothing else is needed to say when it finds something, and how far
its column goes.
-/

namespace Arbor

open Text (newline)

namespace Text

/-- There is one more part than there are separators. -/
theorem length_split (sep : UInt8) (t : Text) : (split sep t).length = t.count sep + 1 := by
  induction t with
  | nil => rfl
  | cons b t ih =>
    obtain ⟨u, us, hs⟩ := List.exists_cons_of_ne_nil (split_ne_nil sep t)
    unfold split
    by_cases hb : b = sep
    · rw [if_pos hb, hb, List.count_cons_self, List.length_cons, ih]
    · rw [if_neg hb, List.count_cons_of_ne hb, ← ih, hs]
      rfl

/-- The first part goes up to the first separator. -/
theorem head?_split (sep : UInt8) (t : Text) :
    (split sep t).head? = some (t.takeWhile (· ≠ sep)) := by
  induction t with
  | nil => rfl
  | cons b t ih =>
    obtain ⟨u, us, hs⟩ := List.exists_cons_of_ne_nil (split_ne_nil sep t)
    unfold split
    by_cases hb : b = sep
    · rw [if_pos hb, List.takeWhile_cons_of_neg (by simpa using hb)]
      rfl
    · rw [hs] at ih ⊢
      rw [if_neg hb, List.takeWhile_cons_of_pos (by simpa using hb), ← Option.some.inj ih]
      rfl

end Text

namespace Cursor

variable {t : Text} {n : Nat}

/-- **What is found behind `n` newlines begins with line `n`.** -/
theorem map_fromLine? (n : Nat) (t : Text) :
    (fromLine? n t).map (fun found => found.2.takeWhile (· ≠ newline))
      = (t.split newline)[n]? := by
  induction t generalizing n with
  | nil => cases n <;> rfl
  | cons b t ih =>
    cases n with
    | zero => rw [← List.head?_eq_getElem?, Text.head?_split, fromLine?, Option.map_some]
    | succ n =>
      obtain ⟨u, us, hs⟩ := List.exists_cons_of_ne_nil (Text.split_ne_nil newline t)
      rw [fromLine?, Option.map_map, Text.split]
      by_cases hb : b = newline
      · rw [if_pos hb, if_pos hb, List.getElem?_cons_succ]
        exact ih n
      · rw [if_neg hb, if_neg hb]
        refine (ih (n + 1)).trans ?_
        rw [hs]
        rfl

theorem isSome_fromLine? : (fromLine? n t).isSome = true ↔ n ≤ t.count newline := by
  rw [← Option.isSome_map (f := fun found => found.2.takeWhile (· ≠ newline)), map_fromLine?,
    Option.isSome_iff_ne_none, Ne, List.getElem?_eq_none_iff, Text.length_split]
  omega

/-- What is skipped has the newlines, and ends with one of them. -/
theorem exists_append_of_fromLine? {start : Nat} {rest : Text}
    (h : fromLine? n t = some (start, rest)) :
    ∃ whole : Text, t = whole ++ rest ∧ whole.length = start ∧ whole.count newline = n
      ∧ ∀ b ∈ whole.getLast?, b = newline := by
  induction t generalizing n start with
  | nil =>
    cases n with
    | zero =>
      cases h
      exact ⟨[], rfl, rfl, rfl, fun b hb => by cases hb⟩
    | succ n => cases h
  | cons b t ih =>
    cases n with
    | zero =>
      rw [fromLine?] at h
      cases h
      exact ⟨[], rfl, rfl, rfl, fun b hb => by cases hb⟩
    | succ n =>
      rw [fromLine?] at h
      obtain ⟨⟨start, _⟩, hfound, heq⟩ := Option.map_eq_some_iff.mp h
      obtain ⟨rfl, rfl⟩ := Prod.mk.inj heq
      obtain ⟨whole, rfl, rfl, hcount, hlast⟩ := ih hfound
      refine ⟨b :: whole, rfl, rfl, ?_, ?_⟩
      · by_cases hb : b = newline
        · rw [if_pos hb] at hcount
          rw [hb, List.count_cons_self, hcount]
        · rw [if_neg hb] at hcount
          rw [List.count_cons_of_ne hb, hcount]
      · intro c hc
        cases whole with
        | cons d whole =>
          rw [List.getLast?_cons_cons] at hc
          exact hlast c hc
        | nil =>
          -- with nothing more to skip, the byte itself is the newline
          by_cases hb : b = newline
          · cases hc
            exact hb
          · rw [if_neg hb] at hcount
            cases hcount

/-- Behind a newline the column is the first one. -/
theorem after_origin_of_getLast? {whole : Text} (h : ∀ b ∈ whole.getLast?, b = newline) :
    Position.origin.after whole = ⟨whole.length, 1 + whole.count newline, 1⟩ := by
  have hcolumn : whole.reverse.takeWhile (· ≠ newline) = [] := by
    cases hw : whole.reverse with
    | nil => rfl
    | cons b bs =>
      have hb : b = newline := h b (by rw [← List.head?_reverse, hw]; rfl)
      exact List.takeWhile_cons_of_neg (by simpa using hb)
  rw [Text.after_origin, Text.positionAt, List.take_length, hcolumn]
  rfl

/-- Where a cursor leads that finds an offset. -/
theorem position_of_offset? {line column : Int} {o : Nat}
    (h : offset? t ⟨line, column⟩ = some o) :
    o ≤ t.length ∧ ∃ l, (t.split newline)[(line - 1).toNat]? = some l
      ∧ Position.origin.after (t.take o) = ⟨o, line, min column (l.length + 1)⟩ := by
  unfold offset? at h
  split at h
  · cases h
  next hin =>
  obtain ⟨⟨start, rest⟩, hfound, ho⟩ := Option.map_eq_some_iff.mp h
  have hline := map_fromLine? (line - 1).toNat t
  rw [hfound, Option.map_some] at hline
  obtain ⟨whole, rfl, rfl, hcount, hlast⟩ := exists_append_of_fromLine? hfound
  dsimp only at ho hline
  generalize hl : rest.takeWhile (· ≠ newline) = l at ho hline
  -- the bytes of the line before the offset
  have hprefix : l <+: rest := hl ▸ List.takeWhile_prefix _
  have hle : l.length ≤ rest.length := hprefix.length_le
  have htake : rest.take (min (column - 1).toNat l.length) = l.take (column - 1).toNat := by
    rw [List.prefix_iff_eq_take.mp hprefix, List.take_take, List.length_take]
    congr 1
    omega
  have hno : newline ∉ l.take (column - 1).toNat := by
    intro hmem
    have hmem := List.mem_of_mem_take hmem
    rw [← hl] at hmem
    simpa using List.mem_takeWhile_imp hmem
  refine ⟨by rw [List.length_append]; omega, l, hline.symm, ?_⟩
  rw [← ho, List.take_length_add_append, htake, Position.after_append,
    after_origin_of_getLast? hlast, Position.after_of_not_mem _ hno, Position.mk.injEq,
    List.length_take, hcount]
  dsimp only at hin ⊢
  omega

end Cursor

/-- **Offsets and cursors are inverse to each other.** The cursor at the position after any number
of bytes finds their number, and so does the cursor of a tokenizer, however many tokens it has
taken. A cursor finds an offset just if its column is from one on and the text has its line,
lines being one more than newlines; the offset is then in the text, and the position there is
on the line of the cursor, at its column or behind the last byte of the line if that is less. -/
theorem Cursor.offset?_inverse (t : Text) :
    (∀ o ≤ t.length, offset? t (Position.origin.after (t.take o)).toCursor = some o)
      ∧ (∀ g calls, offset? t ((Tokenizer.start g t).afterCalls calls).position.toCursor
        = some ((Tokenizer.start g t).afterCalls calls).rest.offset)
      ∧ ∀ line column : Int,
        ((offset? t ⟨line, column⟩).isSome = true
          ↔ 1 ≤ column ∧ 1 ≤ line ∧ line ≤ 1 + t.count newline)
        ∧ ∀ o, offset? t ⟨line, column⟩ = some o → o ≤ t.length
          ∧ ∃ l, (t.split newline)[(line - 1).toNat]? = some l
            ∧ Position.origin.after (t.take o) = ⟨o, line, min column (l.length + 1)⟩ := by
  refine ⟨fun o ho => ?_, fun g calls => ?_, fun line column => ⟨?_, fun o =>
    position_of_offset?⟩⟩
  · have hafter := t.after_positionAt (Nat.zero_le o) ho
    rw [Nat.sub_zero, List.drop_zero] at hafter
    exact (congrArg (offset? t ·.toCursor) hafter).trans (offset?_toCursor ho)
  · rw [(Tokenizer.placed_afterCalls g t calls).1]
    exact offset?_toCursor (Nat.sub_le ..)
  · unfold offset?
    by_cases hin : line < 1 ∨ column < 1
    · rw [if_pos hin]
      exact iff_of_false Bool.false_ne_true (by omega)
    · rw [if_neg hin, Option.isSome_map, isSome_fromLine?]
      dsimp only
      omega

/-- Behind the last newline there is an empty line, and a column of any size stands for its
end. -/
theorem Cursor.offset?_inverse_lines :
    offset? (utf8 "ab\ncde\n") ⟨2, 0x7FFFFFFFFFFFFFFF⟩ = some 6
      ∧ Position.origin.after ((utf8 "ab\ncde\n").take 6) = ⟨6, 2, 4⟩
      ∧ offset? (utf8 "ab\ncde\n") (Position.origin.after ((utf8 "ab\ncde\n").take 7)).toCursor
        = some 7
      ∧ offset? (utf8 "ab\ncde\n") ⟨4, 1⟩ = none := by
  obtain ⟨hback, -, hthere⟩ := offset?_inverse (utf8 "ab\ncde\n")
  have hfound : offset? (utf8 "ab\ncde\n") ⟨2, 0x7FFFFFFFFFFFFFFF⟩ = some 6 := by decide
  obtain ⟨-, l, hl, hposition⟩ := (hthere 2 0x7FFFFFFFFFFFFFFF).2 6 hfound
  obtain rfl : utf8 "cde" = l := Option.some.inj hl
  refine ⟨hfound, hposition, hback 7 (by decide), ?_⟩
  rw [← Option.not_isSome_iff_eq_none, (hthere 4 1).1]
  decide

end Arbor
