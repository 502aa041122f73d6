import Arbor.Proofs.Text.Cursor
import Arbor.Proofs.Text.Decimal
import Arbor.Proofs.Text.Piece

/-!
# What names a cursor

A cursor is read from a text in two steps, a cut at the first colon and two numbers, each read
digit by digit behind an optional plus. Here the texts that are read are described without the
reader: two **ordinals** with a colon between them, an ordinal being perhaps a plus and then
decimal digits whose positional value is from one on and fits a signed 64-bit word. No ordinal
has a colon in it, so the text can be taken apart in one way only, and a second colon is never
passed over.

`Cursor.read_iff_ordinals` says that just these texts are read, each as the two values, and that
a position is read back from the way it is shown.
-/

namespace Arbor

namespace Text

/-- **A text of decimal digits** and the number it denotes. There is at least one digit, and
there may be zeros in front. -/
structure Numeral (digits : Text) (n : Nat) : Prop where
  /-- There is a digit. -/
  ne_nil : digits ≠ []
  /-- There is nothing but digits. -/
  digit_of_mem : ∀ b ∈ digits, 48 ≤ b ∧ b ≤ 57
  /-- The number is the positional value. -/
  value : Nat.ofDigits 10 digits.digitValues.reverse = n

/-- **A text that names a number** from one on that fits a signed 64-bit word. -/
structure Ordinal (t : Text) (n : Nat) : Prop where
  /-- It is a numeral, perhaps behind a plus. -/
  numeral : Numeral t n ∨ ∃ digits, t = utf8 "+" ++ digits ∧ Numeral digits n
  /-- The number is positive. -/
  one_le : 1 ≤ n
  /-- The number is a signed 64-bit word. -/
  lt_bound : n < 0x8000000000000000

theorem numeral_iff_toNat? {digits : Text} {n : Nat} :
    Numeral digits n ↔ digits.toNat? = some n := by
  rw [toNat?_eq_some_iff, toNat_eq_ofDigits]
  unfold isDecimal
  simp only [Bool.and_eq_true, decide_eq_true_eq]
  exact ⟨fun h => ⟨h.ne_nil, h.digit_of_mem, h.value⟩, fun h => ⟨h.1, h.2.1, h.2.2⟩⟩

/-- A numeral does not begin with a plus. -/
theorem not_numeral_plus {digits : Text} {n : Nat} : ¬ Numeral (43 :: digits) n := by
  intro h
  exact absurd (h.digit_of_mem 43 List.mem_cons_self).1 (by decide)

/-- The first part of a cut text has no separator in it. -/
theorem cut_eq_some_iff {sep : UInt8} {t before after : Text} :
    t.cut sep = some (before, after) ↔ t = before ++ sep :: after ∧ sep ∉ before := by
  induction t generalizing before with
  | nil => simp [cut]
  | cons b rest ih =>
    unfold cut
    by_cases hb : b = sep
    · rw [if_pos hb, hb]
      cases before with
      | nil => simp [eq_comm]
      | cons d before =>
        simp only [Option.some.injEq, Prod.mk.injEq, List.cons_append, List.cons.injEq,
          List.mem_cons, not_or]
        exact ⟨fun h => absurd h.1 (by simp), fun h => absurd h.1.1 h.2.1⟩
    · rw [if_neg hb]
      cases before with
      | nil => simp [hb]
      | cons d before =>
        simp only [Option.map_eq_some_iff, Prod.exists, Prod.mk.injEq, List.cons.injEq,
          List.cons_append, List.mem_cons, not_or]
        constructor
        · rintro ⟨first, second, hcut, ⟨rfl, rfl⟩, rfl⟩
          obtain ⟨hrest, hmem⟩ := ih.mp hcut
          exact ⟨⟨rfl, hrest⟩, Ne.symm hb, hmem⟩
        · rintro ⟨⟨rfl, hrest⟩, -, hmem⟩
          exact ⟨before, after, ih.mpr ⟨hrest, hmem⟩, ⟨rfl, rfl⟩, rfl⟩

/-- No ordinal has a colon in it. -/
theorem Ordinal.colon_not_mem {t : Text} {n : Nat} (h : Ordinal t n) : 58 ∉ t := by
  have hdigits : ∀ {digits : Text}, Numeral digits n → 58 ∉ digits := fun hd hmem =>
    absurd (hd.digit_of_mem 58 hmem).2 (by decide)
  rcases h.numeral with hn | ⟨digits, rfl, hn⟩
  · exact hdigits hn
  · rintro (_ | ⟨_, hmem⟩)
    exact hdigits hn hmem

end Text

namespace Cursor

open Text (Numeral Ordinal)

/-- Digits are read as a number if they are a numeral and the number is in bounds. -/
theorem toNat?_guard_eq_some_iff {digits : Text} {n : Nat} :
    (do
      let k ← digits.toNat?
      guard (1 ≤ k ∧ k < 0x8000000000000000)
      return k) = some n ↔ Numeral digits n ∧ 1 ≤ n ∧ n < 0x8000000000000000 := by
  rw [Text.numeral_iff_toNat?, Option.bind_eq_bind, Option.bind_eq_some_iff]
  constructor
  · rintro ⟨k, hk, hguard⟩
    obtain ⟨hbounds, hret⟩ := Piece.guard_bind_eq_some_iff.mp hguard
    obtain rfl := Option.some.inj hret
    exact ⟨hk, hbounds⟩
  · rintro ⟨hn, hbounds⟩
    exact ⟨n, hn, Piece.guard_bind_eq_some_iff.mpr ⟨hbounds, rfl⟩⟩

/-- **Ordinals are just what is read as a number.** -/
theorem ordinal?_eq_some_iff {t : Text} {n : Nat} : ordinal? t = some n ↔ Ordinal t n := by
  by_cases hplus : ∃ digits, t = 43 :: digits
  · obtain ⟨digits, rfl⟩ := hplus
    refine toNat?_guard_eq_some_iff.trans ⟨?_, ?_⟩
    · rintro ⟨hn, hbounds⟩
      exact ⟨.inr ⟨digits, rfl, hn⟩, hbounds.1, hbounds.2⟩
    · rintro ⟨hn | ⟨more, hmore, hn⟩, hone, hlt⟩
      · exact absurd hn Text.not_numeral_plus
      · obtain rfl := (List.cons.inj hmore).2
        exact ⟨hn, hone, hlt⟩
  · have hread : ordinal? t = (do
        let k ← t.toNat?
        guard (1 ≤ k ∧ k < 0x8000000000000000)
        return k) := by
      unfold ordinal?
      split
      · exact absurd ⟨_, rfl⟩ hplus
      · rfl
    rw [hread, toNat?_guard_eq_some_iff]
    constructor
    · rintro ⟨hn, hbounds⟩
      exact ⟨.inl hn, hbounds.1, hbounds.2⟩
    · rintro ⟨hn | ⟨digits, rfl, -⟩, hone, hlt⟩
      · exact ⟨hn, hone, hlt⟩
      · exact absurd ⟨digits, rfl⟩ hplus

/-- **The texts that name a cursor.** -/
theorem read_eq_ok_iff {t : Text} {c : Cursor} :
    read t = .ok c ↔ ∃ (before after : Text) (line column : Nat),
      t = before ++ utf8 ":" ++ after ∧ Ordinal before line ∧ Ordinal after column
        ∧ c = ⟨line, column⟩ := by
  constructor
  · intro h
    unfold read at h
    split at h
    · cases h
    · next before after hcut =>
      obtain ⟨rfl, -⟩ := Text.cut_eq_some_iff.mp hcut
      split at h
      · cases h
      · next line hline =>
        split at h
        · cases h
        · next column hcolumn =>
          refine ⟨before, after, line, column, ?_, ordinal?_eq_some_iff.mp hline,
            ordinal?_eq_some_iff.mp hcolumn, (Except.ok.inj h).symm⟩
          rw [List.append_assoc]
          rfl
  · rintro ⟨before, after, line, column, rfl, hline, hcolumn, rfl⟩
    have hcut : (before ++ utf8 ":" ++ after).cut 58 = some (before, after) := by
      rw [Text.cut_eq_some_iff, List.append_assoc]
      exact ⟨rfl, hline.colon_not_mem⟩
    unfold read
    rw [hcut]
    dsimp only
    rw [ordinal?_eq_some_iff.mpr hline]
    dsimp only
    rw [ordinal?_eq_some_iff.mpr hcolumn]

/-- A number in bounds, as it is shown, is an ordinal. -/
theorem ordinal_ofInt {n : Int} (hpos : 1 ≤ n) (hbound : n < 0x8000000000000000) :
    Ordinal (Text.ofInt n) n.toNat := by
  obtain ⟨k, rfl⟩ := Int.eq_ofNat_of_zero_le (Int.le_trans (by decide) hpos)
  refine ⟨.inl ?_, by omega, by omega⟩
  exact Text.numeral_iff_toNat?.mpr (Text.toNat?_ofNat k)

/-- **A cursor is read just from two ordinals with a colon between them**, as their two values;
and so the line and the column of a position are read back from the way it is shown. -/
theorem read_iff_ordinals :
    (∀ (t : Text) (c : Cursor), read t = .ok c ↔
      ∃ (before after : Text) (line column : Nat),
        t = before ++ utf8 ":" ++ after ∧ Ordinal before line ∧ Ordinal after column
          ∧ c = ⟨line, column⟩)
    ∧ ∀ p : Position, 1 ≤ p.line → p.line < 0x8000000000000000 → 1 ≤ p.column →
        p.column < 0x8000000000000000 → read p.render = .ok p.toCursor := by
  refine ⟨fun t c => read_eq_ok_iff, ?_⟩
  intro p hline hline' hcolumn hcolumn'
  refine read_eq_ok_iff.mpr ⟨_, _, _, _, rfl, ordinal_ofInt hline hline',
    ordinal_ofInt hcolumn hcolumn', ?_⟩
  rw [Int.toNat_of_nonneg (by omega), Int.toNat_of_nonneg (by omega)]
  rfl

/-- The last column there can be is read back, and the number after it is no column. -/
theorem read_iff_ordinals_last :
    read (Position.render ⟨0, 1, 0x7FFFFFFFFFFFFFFF⟩) = .ok ⟨1, 0x7FFFFFFFFFFFFFFF⟩
      ∧ read (utf8 "1:9223372036854775808")
        = .error (.badColumn (utf8 "1:9223372036854775808")) :=
  ⟨read_iff_ordinals.2 _ (by decide) (by decide) (by decide) (by decide), rfl⟩

end Cursor

end Arbor
