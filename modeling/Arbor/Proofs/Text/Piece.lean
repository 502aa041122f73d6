import Arbor.Text.Piece

/-!
# Pieces lose nothing

A text is the bytes of its pieces, one after the other
(`Text.flatMap_bytes_pieces`), so two texts with the same pieces are equal. A
sequence of bytes is decoded by the arithmetic that encodes a character, read
backwards; the bounds on the bytes and on the code point are just those under
which that can be done.

A stray byte is no ASCII character (`Text.le_of_stray_mem_pieces`), and the
first piece of a text that begins with a character is that character
(`Piece.split_append`). So a text of one piece is a character or a byte that
could not be one (`Text.pieces_eq_singleton_iff`).
-/

namespace Arbor

namespace Piece

variable {a b c d : UInt8} {x : Char}

/-! ## Decoding is encoding backwards -/

theorem continuation?_eq_some_iff {n : Nat} :
    continuation? b = some n ↔ b.toNat = n + 0x80 ∧ n < 0x40 := by
  unfold continuation?
  simp only [UInt8.le_iff_toNat_le, UInt8.lt_iff_toNat_lt, Option.ite_none_right_eq_some,
    Option.some.injEq]
  show (128 ≤ b.toNat ∧ b.toNat < 192) ∧ b.toNat - 128 = n ↔ _
  omega

theorem toNat_ofNat {n : Nat} (h : n.isValidChar) : (Char.ofNat n).val.toNat = n := by
  rw [Char.ofNat, dif_pos h]
  rfl

theorem scalar?_eq_some_iff {least n : Nat} :
    scalar? least n = some x ↔ least ≤ n ∧ x.val.toNat = n := by
  unfold scalar?
  simp only [Option.ite_none_right_eq_some, Option.some.injEq]
  constructor
  · rintro ⟨⟨hl, hn⟩, rfl⟩
    exact ⟨hl, toNat_ofNat hn⟩
  · rintro ⟨hl, rfl⟩
    exact ⟨⟨hl, x.valid⟩, Char.ofNat_toNat x⟩

theorem ofNat_eq_iff {n : Nat} (h : n < 256) : UInt8.ofNat n = a ↔ a.toNat = n := by
  rw [UInt8.ofNat_eq_iff_mod_eq_toNat, Nat.mod_eq_of_lt h, eq_comm]

theorem utf8EncodeChar_eq_one_iff :
    String.utf8EncodeChar x = [a] ↔ x.val.toNat < 0x80 ∧ a.toNat = x.val.toNat := by
  unfold String.utf8EncodeChar
  dsimp only
  generalize x.val.toNat = v
  repeat' split
  all_goals simp (disch := omega) only [ofNat_eq_iff, List.cons.injEq, reduceCtorEq, and_true,
    and_false, false_iff]
  all_goals omega

theorem utf8EncodeChar_eq_two_iff :
    String.utf8EncodeChar x = [a, b] ↔ (0x80 ≤ x.val.toNat ∧ x.val.toNat < 0x800) ∧
      a.toNat = x.val.toNat / 64 + 0xC0 ∧ b.toNat = x.val.toNat % 64 + 0x80 := by
  unfold String.utf8EncodeChar
  dsimp only
  generalize x.val.toNat = v
  repeat' split
  all_goals simp (disch := omega) only [ofNat_eq_iff, List.cons.injEq, reduceCtorEq, and_true,
    and_false, false_iff]
  all_goals omega

theorem utf8EncodeChar_eq_three_iff :
    String.utf8EncodeChar x = [a, b, c] ↔ (0x800 ≤ x.val.toNat ∧ x.val.toNat < 0x10000) ∧
      a.toNat = x.val.toNat / 4096 + 0xE0 ∧ b.toNat = x.val.toNat / 64 % 64 + 0x80 ∧
      c.toNat = x.val.toNat % 64 + 0x80 := by
  unfold String.utf8EncodeChar
  dsimp only
  generalize x.val.toNat = v
  repeat' split
  all_goals simp (disch := omega) only [ofNat_eq_iff, List.cons.injEq, reduceCtorEq, and_true,
    and_false, false_iff]
  all_goals omega

theorem toNat_lt (x : Char) : x.val.toNat < 0x110000 := by
  have h : x.val.toNat < 0xD800 ∨ 0xDFFF < x.val.toNat ∧ x.val.toNat < 0x110000 := x.valid
  omega

theorem utf8EncodeChar_eq_four_iff :
    String.utf8EncodeChar x = [a, b, c, d] ↔ 0x10000 ≤ x.val.toNat ∧
      a.toNat = x.val.toNat / 262144 + 0xF0 ∧ b.toNat = x.val.toNat / 4096 % 64 + 0x80 ∧
      c.toNat = x.val.toNat / 64 % 64 + 0x80 ∧ d.toNat = x.val.toNat % 64 + 0x80 := by
  have hx := toNat_lt x
  unfold String.utf8EncodeChar
  dsimp only
  revert hx
  generalize x.val.toNat = v
  intro hv
  repeat' split
  all_goals simp (disch := omega) only [ofNat_eq_iff, List.cons.injEq, reduceCtorEq, and_true,
    and_false, false_iff]
  all_goals omega

theorem guard_bind_eq_some_iff {α : Type} {P : Prop} [Decidable P] {f : Unit → Option α} {y : α} :
    (guard P >>= f) = some y ↔ P ∧ f () = some y := by
  show ((if P then some () else none) >>= f) = some y ↔ _
  by_cases h : P
  · rw [if_pos h, and_iff_right h]
    rfl
  · rw [if_neg h, iff_false_intro fun hf : P ∧ f () = some y => h hf.1]
    exact iff_of_false (by simp) id

theorem two?_eq_some_iff : two? a b = some x ↔ String.utf8EncodeChar x = [a, b] := by
  rw [utf8EncodeChar_eq_two_iff, two?, guard_bind_eq_some_iff]
  simp only [Option.bind_eq_bind, Option.bind_eq_some_iff, continuation?_eq_some_iff,
    scalar?_eq_some_iff, UInt8.le_iff_toNat_le, UInt8.lt_iff_toNat_lt, UInt8.reduceToNat]
  generalize x.val.toNat = v
  constructor
  · rintro ⟨ha, n, hb, hv⟩
    omega
  · intro h
    exact ⟨by omega, v % 64, by omega, by omega⟩

theorem three?_eq_some_iff : three? a b c = some x ↔ String.utf8EncodeChar x = [a, b, c] := by
  rw [utf8EncodeChar_eq_three_iff, three?, guard_bind_eq_some_iff]
  simp only [Option.bind_eq_bind, Option.bind_eq_some_iff, continuation?_eq_some_iff,
    scalar?_eq_some_iff, UInt8.le_iff_toNat_le, UInt8.lt_iff_toNat_lt, UInt8.reduceToNat]
  generalize x.val.toNat = v
  constructor
  · rintro ⟨ha, n, hb, k, hc, hv⟩
    omega
  · intro h
    exact ⟨by omega, v / 64 % 64, by omega, v % 64, by omega, by omega⟩

theorem four?_eq_some_iff :
    four? a b c d = some x ↔ String.utf8EncodeChar x = [a, b, c, d] := by
  rw [utf8EncodeChar_eq_four_iff, four?, guard_bind_eq_some_iff]
  simp only [Option.bind_eq_bind, Option.bind_eq_some_iff, continuation?_eq_some_iff,
    scalar?_eq_some_iff, UInt8.le_iff_toNat_le, UInt8.lt_iff_toNat_lt, UInt8.reduceToNat]
  have hx := toNat_lt x
  revert hx
  generalize x.val.toNat = v
  intro hx
  constructor
  · rintro ⟨ha, n, hb, k, hc, l, hd, hv⟩
    omega
  · intro h
    exact ⟨by omega, v / 4096 % 64, by omega, v / 64 % 64, by omega, v % 64, by omega, by omega⟩

/-- A byte of a character that is ASCII is the character. -/
theorem toNat_of_mem_utf8EncodeChar (h : a ∈ String.utf8EncodeChar x) (ha : a.toNat < 0x80) :
    x.val.toNat = a.toNat := by
  have hx := toNat_lt x
  revert h
  unfold String.utf8EncodeChar
  dsimp only
  generalize x.val.toNat = v at hx
  repeat' split
  all_goals simp only [List.mem_cons, List.not_mem_nil, or_false]
  all_goals simp (disch := omega) only [@eq_comm _ a, ofNat_eq_iff]
  all_goals omega

/-! ## The first piece -/

theorem utf8EncodeChar_ofNat (ha : a < 0x80) :
    String.utf8EncodeChar (Char.ofNat a.toNat) = [a] := by
  have hn : a.toNat < 0x80 := UInt8.lt_iff_toNat_lt.mp ha
  have hc : (Char.ofNat a.toNat).val.toNat = a.toNat := toNat_ofNat (.inl (by omega))
  exact utf8EncodeChar_eq_one_iff.mpr ⟨by omega, hc.symm⟩

theorem bytes_split (a : UInt8) (rest : Text) :
    (split a rest).1.bytes = a :: rest.take (split a rest).2 := by
  unfold split
  split
  · next ha => exact utf8EncodeChar_ofNat ha
  · repeat' split
    all_goals first
      | rfl
      | next h => exact two?_eq_some_iff.mp h
      | next h => exact three?_eq_some_iff.mp h
      | next h => exact four?_eq_some_iff.mp h

theorem le_of_split_eq_stray {rest : Text} (h : (split a rest).1 = stray b) : 0x80 ≤ b := by
  unfold split at h
  split at h
  · exact absurd h (by simp)
  · next ha =>
    have : a = b := by
      repeat' split at h
      all_goals simp_all
    exact this ▸ UInt8.not_lt.mp ha

theorem two?_eq_none (ha : 0xE0 ≤ a.toNat) : two? a b = none := by
  rw [Option.eq_none_iff_forall_ne_some]
  intro x hx
  have := utf8EncodeChar_eq_two_iff.mp (two?_eq_some_iff.mp hx)
  omega

theorem three?_eq_none (ha : 0xF0 ≤ a.toNat) : three? a b c = none := by
  rw [Option.eq_none_iff_forall_ne_some]
  intro x hx
  have := utf8EncodeChar_eq_three_iff.mp (three?_eq_some_iff.mp hx)
  omega

/-- The first piece of a text that begins with a character is that character. -/
theorem split_append {rest : Text} (h : String.utf8EncodeChar x = a :: rest) (u : Text) :
    split a (rest ++ u) = (char x, rest.length) := by
  match rest with
  | [] =>
    obtain ⟨hx, ha⟩ := utf8EncodeChar_eq_one_iff.mp h
    rw [split.eq_def, if_pos (UInt8.lt_iff_toNat_lt.mpr (ha ▸ hx)), ha, Char.toNat_val, Char.ofNat_toNat]
    rfl
  | [b] =>
    have ha := (utf8EncodeChar_eq_two_iff.mp h).2.1
    rw [split.eq_def, if_neg (mt UInt8.lt_iff_toNat_lt.mp (show ¬ a.toNat < 128 by omega))]
    simp only [List.cons_append, two?_eq_some_iff.mpr h, List.length_cons, List.length_nil]
  | [b, c] =>
    have ha := (utf8EncodeChar_eq_three_iff.mp h).2.1
    rw [split.eq_def, if_neg (mt UInt8.lt_iff_toNat_lt.mp (show ¬ a.toNat < 128 by omega))]
    simp only [List.cons_append, two?_eq_none (show 0xE0 ≤ a.toNat by omega),
      three?_eq_some_iff.mpr h, List.length_cons, List.length_nil]
  | [b, c, d] =>
    have ha := (utf8EncodeChar_eq_four_iff.mp h).2.1
    rw [split.eq_def, if_neg (mt UInt8.lt_iff_toNat_lt.mp (show ¬ a.toNat < 128 by omega))]
    simp only [List.cons_append, two?_eq_none (show 0xE0 ≤ a.toNat by omega),
      three?_eq_none (show 0xF0 ≤ a.toNat by omega), four?_eq_some_iff.mpr h, List.length_cons,
      List.length_nil]
  | _ :: _ :: _ :: _ :: _ =>
    -- no character takes more than four bytes
    have hl := x.utf8Size_le_four
    rw [← String.length_utf8EncodeChar, h] at hl
    simp only [List.length_cons] at hl
    omega

end Piece

namespace Text

/-- **A text is the bytes of its pieces.** -/
theorem flatMap_bytes_pieces (t : Text) : t.pieces.flatMap Piece.bytes = t := by
  induction t using pieces.induct with
  | case1 => rw [pieces, List.flatMap_nil]
  | case2 b rest ih =>
    rw [pieces, List.flatMap_cons, ih, Piece.bytes_split, List.cons_append, List.take_append_drop]

theorem pieces_inj {t u : Text} (h : t.pieces = u.pieces) : t = u := by
  rw [← flatMap_bytes_pieces t, h, flatMap_bytes_pieces]

theorem le_of_stray_mem_pieces {t : Text} {b : UInt8} (h : .stray b ∈ t.pieces) : 0x80 ≤ b := by
  induction t using pieces.induct with
  | case1 =>
    rw [pieces] at h
    exact absurd h (by simp)
  | case2 a rest ih =>
    rw [pieces, List.mem_cons] at h
    exact h.elim (fun h => Piece.le_of_split_eq_stray h.symm) ih

/-- A character in front of a text is its first piece. -/
theorem pieces_utf8EncodeChar_append (c : Char) (u : Text) :
    pieces (String.utf8EncodeChar c ++ u) = .char c :: pieces u := by
  obtain ⟨b, rest, h⟩ := List.exists_cons_of_ne_nil (String.utf8EncodeChar_ne_nil (c := c))
  rw [h, List.cons_append, pieces, Piece.split_append h u, List.drop_left]

/-- The bytes of a character are that character. -/
theorem pieces_utf8EncodeChar (c : Char) : pieces (String.utf8EncodeChar c) = [.char c] := by
  have hpieces := pieces_utf8EncodeChar_append c []
  rwa [List.append_nil, pieces] at hpieces

/-- The pieces of some characters are those characters. -/
theorem pieces_flatMap_utf8EncodeChar (cs : List Char) :
    pieces (cs.flatMap String.utf8EncodeChar) = cs.map .char := by
  induction cs with
  | nil => rw [List.flatMap_nil, pieces, List.map_nil]
  | cons c cs ih => rw [List.flatMap_cons, pieces_utf8EncodeChar_append, ih, List.map_cons]

/-- The bytes of a string are well formed. -/
theorem isUtf8_utf8 (s : String) : (utf8 s).isUtf8 = true := by
  unfold isUtf8 utf8
  rw [pieces_flatMap_utf8EncodeChar, List.all_map]
  exact List.all_eq_true.mpr fun _ _ => rfl

theorem utf8EncodeChar_inj {c d : Char} (h : String.utf8EncodeChar c = String.utf8EncodeChar d) :
    c = d := by
  have hpieces := congrArg pieces h
  rw [pieces_utf8EncodeChar, pieces_utf8EncodeChar] at hpieces
  exact Piece.char.inj (List.cons.inj hpieces).1

/-- A byte that is no ASCII character is stray on its own. -/
theorem pieces_stray {b : UInt8} (h : 0x80 ≤ b) : pieces [b] = [.stray b] := by
  have hsplit : Piece.split b [] = (.stray b, 0) := if_neg (UInt8.not_lt.mpr h)
  rw [pieces, hsplit, List.drop_nil, pieces]

/-- **The texts of one piece** are the characters and the single bytes beyond ASCII. -/
theorem pieces_eq_singleton_iff {t : Text} {r : Piece} :
    t.pieces = [r] ↔ t = r.bytes ∧ ∀ b, r = .stray b → 0x80 ≤ b := by
  constructor
  · intro h
    constructor
    · rw [← flatMap_bytes_pieces t, h, List.flatMap_singleton]
    · rintro b rfl
      exact le_of_stray_mem_pieces (h ▸ List.mem_singleton_self _)
  · rintro ⟨rfl, h⟩
    cases r with
    | char c => exact pieces_utf8EncodeChar c
    | stray b => exact pieces_stray (h b rfl)

end Text

end Arbor
