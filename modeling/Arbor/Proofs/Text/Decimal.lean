import Mathlib.Data.List.Induction
import Mathlib.Data.Nat.Digits.Defs
import Arbor.Text

/-!
# Decimal numbers

What a number is written as and what a text of digits denotes are defined apart:
`Text.ofNat` divides, highest digit last found, and `Text.toNat` multiplies, highest digit first
read. Here they are tied to each other (`Text.toNat_ofNat`) and the second to the positional
value of a list of digits (`Text.toNat_eq_ofDigits`).

A number in decimal has no mark at its end, so it shows which number it is only if what follows
is no digit: then both the number and what follows can be told (`Text.ofInt_append_inj`). That is
so of any run of bytes of one kind (`Text.append_inj_of_run`).
-/

namespace Arbor

namespace Text

/-- The values of some digits. -/
def digitValues (digits : Text) : List Nat := digits.map fun b => b.toNat - 48

theorem toNat_append (digits more : Text) :
    toNat (digits ++ more) = more.foldl (fun n b => 10 * n + (b.toNat - 48)) digits.toNat :=
  List.foldl_append

/-- **The value of a text of digits** is positional: the last digit counts ones, each other one
ten times as much as the next. -/
theorem toNat_eq_ofDigits (digits : Text) :
    digits.toNat = Nat.ofDigits 10 digits.digitValues.reverse := by
  induction digits using List.reverseRecOn with
  | nil => rfl
  | append_singleton digits b ih =>
    have hvalues : digitValues (digits ++ [b]) = digitValues digits ++ [b.toNat - 48] :=
      List.map_append
    rw [toNat_append, ih, hvalues, List.reverse_append]
    exact Nat.add_comm _ _

/-! ## Writing and reading back -/

theorem ofNat_ne_nil (n : Nat) : ofNat n ≠ [] := by
  unfold ofNat
  exact mt List.map_eq_nil_iff.mp Nat.toDigits_ne_nil

/-- The byte of a decimal digit has the code of the digit. -/
theorem toNat_ofNat_of_isDigit {c : Char} (h : c.isDigit = true) :
    (UInt8.ofNat c.toNat).toNat = c.toNat := by
  have hc : 48 ≤ c.toNat ∧ c.toNat ≤ 57 := Char.isDigit_iff_toNat.mp h
  exact UInt8.toNat_ofNat_of_lt' (Nat.lt_of_le_of_lt hc.2 (by decide))

theorem isDecimal_of_mem_ofNat {n : Nat} {b : UInt8} (h : b ∈ ofNat n) : isDecimal b = true := by
  obtain ⟨c, hc, rfl⟩ := List.mem_map.mp h
  have hdigit := Nat.isDigit_of_mem_toDigits (by decide) (by decide) hc
  unfold isDecimal
  rw [Bool.and_eq_true, decide_eq_true_eq, decide_eq_true_eq, UInt8.le_iff_toNat_le,
    UInt8.le_iff_toNat_le, toNat_ofNat_of_isDigit hdigit]
  exact Char.isDigit_iff_toNat.mp hdigit

/-- Bytes and characters of digits are read by the same sum. -/
theorem foldl_map_eq_ofDigitChars {cs : List Char} (h : ∀ c ∈ cs, c.isDigit = true) (acc : Nat) :
    (cs.map fun c => UInt8.ofNat c.toNat).foldl (fun n b => 10 * n + (b.toNat - 48)) acc
      = Nat.ofDigitChars 10 cs acc := by
  induction cs generalizing acc with
  | nil => rfl
  | cons c cs ih =>
    rw [List.map_cons, List.foldl_cons, Nat.ofDigitChars_cons,
      toNat_ofNat_of_isDigit (h c List.mem_cons_self)]
    exact ih (fun d hd => h d (List.mem_cons_of_mem c hd)) _

/-- **A number is read back from its digits.** -/
theorem toNat_ofNat (n : Nat) : (ofNat n).toNat = n := by
  unfold ofNat toNat
  rw [foldl_map_eq_ofDigitChars fun c hc =>
    Nat.isDigit_of_mem_toDigits (by decide) (by decide) hc]
  exact Nat.ofDigitChars_ten_toDigits

theorem toNat?_eq_some_iff {t : Text} {n : Nat} :
    t.toNat? = some n ↔ t ≠ [] ∧ (∀ b ∈ t, isDecimal b = true) ∧ t.toNat = n := by
  unfold toNat?
  rw [Option.ite_none_left_eq_some]
  simp [and_assoc]

theorem toNat?_ofNat (n : Nat) : (ofNat n).toNat? = some n :=
  toNat?_eq_some_iff.mpr ⟨ofNat_ne_nil n, fun _ => isDecimal_of_mem_ofNat, toNat_ofNat n⟩

/-! ## Numbers in front of a text -/

/-- The run of bytes of one kind in front of a text that begins with another. -/
theorem takeWhile_append_of_run {p : UInt8 → Bool} {t u : Text} (ht : ∀ b ∈ t, p b = true)
    (hu : ∀ b ∈ u.head?, p b = false) : (t ++ u).takeWhile p = t := by
  rw [List.takeWhile_append_of_pos ht]
  cases u with
  | nil => exact List.append_nil t
  | cons b u => rw [List.takeWhile_cons_of_neg (Bool.eq_false_iff.mp (hu b rfl)), List.append_nil]

/-- **A run of bytes of one kind shows where it ends.** -/
theorem append_inj_of_run {p : UInt8 → Bool} {t t' u v : Text} (ht : ∀ b ∈ t, p b = true)
    (ht' : ∀ b ∈ t', p b = true) (hu : ∀ b ∈ u.head?, p b = false)
    (hv : ∀ b ∈ v.head?, p b = false) (h : t ++ u = t' ++ v) : t = t' ∧ u = v := by
  have hrun : t = t' := by
    rw [← takeWhile_append_of_run ht hu, h, takeWhile_append_of_run ht' hv]
  rw [hrun] at h
  exact ⟨hrun, List.append_cancel_left h⟩

/-- Whether a text cannot go on with a number in front of it. -/
def Delimits (u : Text) : Prop := ∀ b ∈ u.head?, isDecimal b = false

theorem ofNat_append_inj {n m : Nat} {u v : Text} (hu : u.Delimits) (hv : v.Delimits)
    (h : ofNat n ++ u = ofNat m ++ v) : n = m ∧ u = v := by
  obtain ⟨hdigits, huv⟩ := append_inj_of_run (fun _ => isDecimal_of_mem_ofNat)
    (fun _ => isDecimal_of_mem_ofNat) hu hv h
  refine ⟨?_, huv⟩
  rw [← toNat_ofNat n, hdigits, toNat_ofNat]

/-- A number from zero on does not begin with a minus. -/
theorem ofNat_append_ne (n : Nat) (u v : Text) : ofNat n ++ u ≠ 45 :: v := by
  intro h
  obtain ⟨b, digits, hb⟩ := List.exists_cons_of_ne_nil (ofNat_ne_nil n)
  have hdecimal := isDecimal_of_mem_ofNat (hb ▸ List.mem_cons_self)
  rw [hb, List.cons_append] at h
  rw [(List.cons.inj h).1] at hdecimal
  exact absurd hdecimal (by decide)

/-- **A number and what follows it**, no digit, can be told apart. -/
theorem ofInt_append_inj {n m : Int} {u v : Text} (hu : u.Delimits) (hv : v.Delimits)
    (h : ofInt n ++ u = ofInt m ++ v) : n = m ∧ u = v := by
  cases n with
  | ofNat n =>
    cases m with
    | ofNat m =>
      obtain ⟨rfl, huv⟩ := ofNat_append_inj hu hv h
      exact ⟨rfl, huv⟩
    | negSucc m => exact absurd h (ofNat_append_ne n u _)
  | negSucc n =>
    cases m with
    | ofNat m => exact absurd h.symm (ofNat_append_ne m v _)
    | negSucc m =>
      obtain ⟨hnm, huv⟩ := ofNat_append_inj hu hv (List.cons.inj h).2
      obtain rfl := Nat.succ.inj hnm
      exact ⟨rfl, huv⟩

end Text

end Arbor
