import Arbor.Text.Quoted
import Arbor.Proofs.Text.Piece
import Mathlib.Algebra.Group.Nat.Defs

/-!
# Quoting can be undone

A quoted text shows which text it quotes, and where it ends: if a quoted text
followed by anything is the same as another followed by anything, then both the
texts and what follows are the same (`Text.quoted_append_inj`).

The reason is that the escaped form of a piece can be read back. `Piece.first?`
reads one piece of a quoted text, by the letter of an escape and the number of
digits that letter announces, and `Piece.first?_escaped_append` says that it
reads what `Piece.escaped` wrote. Two kinds of piece share the letter `x`, the
control characters and the stray bytes, and they differ in their values.
-/

namespace Arbor

namespace Text

/-! ## Hexadecimal digits -/

/-- The value of some hexadecimal digits; what is no digit counts as zero. -/
def hexValue (digits : Text) : Nat :=
  digits.foldl (fun n b => 16 * n + (digitValue? b).getD 0) 0

theorem digitValue?_digit : ∀ n < 16, digitValue? (digit n) = some n := by
  decide

@[simp] theorem length_hex (n w : Nat) : (hex n w).length = w := by
  induction w generalizing n with
  | zero => rfl
  | succ w ih => rw [hex, List.length_append, ih, List.length_singleton]

theorem hexValue_hex {n w : Nat} (h : n < 16 ^ w) : hexValue (hex n w) = n := by
  induction w generalizing n with
  | zero =>
    rw [Nat.pow_zero] at h
    rw [Nat.lt_one_iff.mp h]
    rfl
  | succ w ih =>
    rw [Nat.pow_succ] at h
    have hv : hexValue (hex (n / 16) w) = n / 16 := ih (by omega)
    unfold hexValue at hv ⊢
    rw [hex, List.foldl_append, hv, List.foldl_cons, List.foldl_nil,
      digitValue?_digit _ (Nat.mod_lt _ (by decide)), Option.getD_some]
    omega

theorem hexValue_take_hex_append {n w : Nat} (h : n < 16 ^ w) (u : Text) :
    hexValue ((hex n w ++ u).take w) = n := by
  rw [List.take_append_of_le_length (Nat.le_of_eq (length_hex n w).symm),
    List.take_of_length_le (Nat.le_of_eq (length_hex n w)), hexValue_hex h]

theorem drop_hex_append (n w : Nat) (u : Text) : (hex n w ++ u).drop w = u :=
  List.drop_left' (length_hex n w)

end Text

namespace Piece

/-! ## Reading a piece back -/

/-- The character that a letter names after a backslash; any other character
names itself. -/
def escapeNamed (k : UInt8) : Char :=
  match k.toNat with
  | 97 => Char.ofNat 7
  | 98 => Char.ofNat 8
  | 116 => Char.ofNat 9
  | 110 => Char.ofNat 10
  | 118 => Char.ofNat 11
  | 102 => Char.ofNat 12
  | 114 => Char.ofNat 13
  | n => Char.ofNat n

/-- The number of hexadecimal digits that a letter announces after a
backslash. -/
def escapeWidth? (k : UInt8) : Option Nat :=
  if k = 120 then some 2 else if k = 117 then some 4 else if k = 85 then some 8 else none

/-- The piece of an escape whose letter is `k`, and what follows it. -/
def unescape (k : UInt8) (rest : Text) : Piece × Text :=
  match escapeWidth? k with
  | none => (char (escapeNamed k), rest)
  | some w =>
    let n := Text.hexValue (rest.take w)
    (if w = 2 ∧ 0x80 ≤ n then stray (UInt8.ofNat n) else char (Char.ofNat n), rest.drop w)

/-- The first piece of the inside of a quoted text, and what follows it; none
if the text ends here. -/
def first? : Text → Option (Piece × Text)
  | 34 :: _ => none
  | 92 :: k :: rest => some (unescape k rest)
  | a :: rest => some ((split a rest).1, rest.drop (split a rest).2)
  | [] => none

theorem unescape_hex_append {k : UInt8} {n w : Nat} (hk : escapeWidth? k = some w)
    (hn : n < 16 ^ w) (u : Text) :
    unescape k (Text.hex n w ++ u) =
      (if w = 2 ∧ 0x80 ≤ n then stray (UInt8.ofNat n) else char (Char.ofNat n), u) := by
  unfold unescape
  rw [hk]
  dsimp only
  rw [Text.hexValue_take_hex_append hn, Text.drop_hex_append]

theorem first?_hex_append {k : UInt8} {c : Char} {w : Nat} (hk : escapeWidth? k = some w)
    (hn : c.toNat < 16 ^ w) (hc : w = 2 → c.toNat < 0x80) (u : Text) :
    first? (92 :: k :: (Text.hex c.toNat w ++ u)) = some (char c, u) := by
  rw [first?, unescape_hex_append hk hn,
    if_neg (fun h => Nat.not_lt.mpr h.2 (hc h.1)), Char.ofNat_toNat]

theorem first?_escapeLetter_append {c l : Char} (h : escapeLetter? c = some l) (u : Text) :
    first? (utf8 "\\" ++ String.utf8EncodeChar l ++ u) = some (char c, u) := by
  have hc : c = Char.ofNat c.toNat := (Char.ofNat_toNat c).symm
  unfold escapeLetter? at h
  rw [hc]
  split at h <;> cases h
  all_goals next hn => rw [hn]; rfl

theorem first?_utf8EncodeChar_append {c : Char} (hq : c ≠ '"') (hb : c ≠ '\\') (u : Text) :
    first? (String.utf8EncodeChar c ++ u) = some (char c, u) := by
  obtain ⟨a, rest, h⟩ := List.exists_cons_of_ne_nil (@String.utf8EncodeChar_ne_nil c)
  have hs : split a (rest ++ u) = (char c, rest.length) := split_append h u
  have haq : a ≠ 34 := by
    rintro rfl
    exact hq (Piece.char.inj (congrArg Prod.fst hs)).symm
  have hab : a ≠ 92 := by
    rintro rfl
    exact hb (Piece.char.inj (congrArg Prod.fst hs)).symm
  rw [h, List.cons_append, first?.eq_3 _ _ haq (fun _ _ hab' _ => hab hab'), hs, List.drop_left]

/-- **An escaped piece is read back.** Only a stray byte that is not ASCII is
told from a character by its value. -/
theorem first?_escaped_append {p : Piece} (hp : ∀ b, p = stray b → 0x80 ≤ b) (u : Text) :
    first? (escaped '"' p ++ u) = some (p, u) := by
  cases p with
  | stray b =>
    have hb : 0x80 ≤ b.toNat := UInt8.le_iff_toNat_le.mp (hp b rfl)
    show some (unescape 120 (Text.hex b.toNat 2 ++ u)) = _
    rw [unescape_hex_append rfl b.toNat_lt, if_pos ⟨rfl, hb⟩, UInt8.ofNat_toNat]
  | char c =>
    have hn : c.toNat < 0x110000 := toNat_lt c
    rw [escaped]
    split
    · next h => rcases h with rfl | rfl <;> rfl
    · next h =>
      obtain ⟨hq, hb⟩ := not_or.mp h
      split
      · exact first?_utf8EncodeChar_append hq hb u
      · split
        · next l hl => exact first?_escapeLetter_append hl u
        · split
          · next hc => exact first?_hex_append rfl (by omega) (fun _ => hc) u
          · split
            · next hc => exact first?_hex_append rfl hc (fun hw => absurd hw (by decide)) u
            · exact first?_hex_append rfl (by omega) (fun hw => absurd hw (by decide)) u

/-- **Pieces that are read back one by one** show which pieces they are, and where they end. -/
theorem flatMap_append_inj {write : Piece → Text} {ps qs : List Piece}
    (hp : ∀ p ∈ ps, ∀ u, first? (write p ++ u) = some (p, u))
    (hq : ∀ q ∈ qs, ∀ u, first? (write q ++ u) = some (q, u)) {u v : Text}
    (h : ps.flatMap write ++ 34 :: u = qs.flatMap write ++ 34 :: v) : ps = qs ∧ u = v := by
  induction ps generalizing qs with
  | nil =>
    cases qs with
    | nil => exact ⟨rfl, (List.cons.inj h).2⟩
    | cons q qs =>
      have hf := congrArg first? h
      rw [List.flatMap_cons, List.append_assoc, hq q List.mem_cons_self] at hf
      exact nomatch hf
  | cons p ps ih =>
    have hf := congrArg first? h
    rw [List.flatMap_cons, List.append_assoc, hp p List.mem_cons_self] at hf
    cases qs with
    | nil => exact nomatch hf
    | cons q qs =>
      rw [List.flatMap_cons, List.append_assoc, hq q List.mem_cons_self] at hf
      obtain ⟨rfl, hr⟩ := Prod.mk.inj (Option.some.inj hf)
      obtain ⟨rfl, rfl⟩ := ih (fun r hr => hp r (List.mem_cons_of_mem _ hr))
        (fun r hr => hq r (List.mem_cons_of_mem _ hr)) hr
      exact ⟨rfl, rfl⟩

end Piece

namespace Text

theorem quoted_append (t u : Text) :
    t.quoted ++ u = 34 :: (t.pieces.flatMap (Piece.escaped '"') ++ 34 :: u) := by
  rw [quoted, List.append_assoc, List.append_assoc]
  rfl

/-- **A quoted text shows which text it quotes and where it ends.** -/
theorem quoted_append_inj {t t' u v : Text} (h : t.quoted ++ u = t'.quoted ++ v) :
    t = t' ∧ u = v := by
  rw [quoted_append, quoted_append] at h
  have hread : ∀ s : Text, ∀ p ∈ s.pieces, ∀ u,
      Piece.first? (Piece.escaped '"' p ++ u) = some (p, u) := fun s p hp u =>
    Piece.first?_escaped_append (fun b hb => le_of_stray_mem_pieces (hb ▸ hp)) u
  obtain ⟨hp, hu⟩ := Piece.flatMap_append_inj (hread t) (hread t') (List.cons.inj h).2
  exact ⟨pieces_inj hp, hu⟩

theorem quoted_inj {t t' : Text} (h : t.quoted = t'.quoted) : t = t' :=
  (quoted_append_inj (congrArg (· ++ []) h)).1

end Text

end Arbor
