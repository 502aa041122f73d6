/-!
# Text

Sources, names and messages are **byte strings**: a source file may hold any
bytes, a token may be a single byte that begins no character, and a message
quotes such tokens. `Text` is therefore the list of the bytes, not a `String`,
and characters are read off it where a rule speaks of characters
(`Text.pieces`).

The order of texts is the lexicographic order of their bytes, which on
well-formed UTF-8 is the order of the code points.
-/

namespace Arbor

/-- A text: the list of its bytes. -/
abbrev Text := List UInt8

/-- Texts that are equal are the same text. -/
instance : LawfulBEq Text := List.instLawfulBEq

/-- And so it is with texts at places. -/
instance : LawfulBEq (Text × Nat) := Prod.instLawfulBEq

/-- The bytes of a string. -/
def utf8 (s : String) : Text :=
  s.toList.flatMap String.utf8EncodeChar

@[simp] theorem utf8_empty : utf8 "" = [] := rfl

namespace Text

/-- The line feed. -/
def newline : UInt8 := 10

/-- The order in which names are listed: by bytes, a text before its
extensions. -/
def le (a b : Text) : Bool := decide (¬ b < a)

/-- The texts in order. -/
def sort (ts : List Text) : List Text := ts.mergeSort le

@[simp] theorem le_iff {a b : Text} : le a b = true ↔ a ≤ b := decide_eq_true_iff

theorem pairwise_sort (ts : List Text) : (sort ts).Pairwise (· ≤ ·) := by
  have h := @List.pairwise_mergeSort _ le ?_ ?_ ts
  · exact h.imp le_iff.mp
  · intro a b c hab hbc
    exact le_iff.mpr (List.le_trans (le_iff.mp hab) (le_iff.mp hbc))
  · intro a b
    rw [Bool.or_eq_true, le_iff, le_iff]
    exact List.le_total a b

/-- Texts are sorted into one list, in whatever order they come. -/
theorem sort_eq_of_perm {ts us : List Text} (h : ts.Perm us) : sort ts = sort us := by
  refine List.Perm.eq_of_pairwise (fun _ _ _ _ => List.le_antisymm) (pairwise_sort ts)
    (pairwise_sort us) ?_
  exact (List.mergeSort_perm ts le).trans (h.trans (List.mergeSort_perm us le).symm)

/-- The texts one after the other, `sep` between any two of them. -/
def join (sep : Text) : List Text → Text
  | [] => []
  | [t] => t
  | t :: u :: us => t ++ sep ++ join sep (u :: us)

/-- `t` written `n` times. -/
def times (t : Text) : Nat → Text
  | 0 => []
  | n + 1 => t ++ times t n

/-- Everything before the first `sep` and everything after it. -/
def cut (sep : UInt8) : Text → Option (Text × Text)
  | [] => none
  | b :: rest =>
    if b = sep then some ([], rest)
    else (cut sep rest).map fun (before, after) => (b :: before, after)

/-- The parts between the occurrences of `sep`, empty ones included. -/
def split (sep : UInt8) : Text → List Text
  | [] => [[]]
  | b :: rest =>
    if b = sep then [] :: split sep rest
    else match split sep rest with
      | [] => [[b]]
      | t :: ts => (b :: t) :: ts

/-- There is always a part. -/
theorem split_ne_nil (sep : UInt8) (t : Text) : split sep t ≠ [] := by
  cases t with
  | nil => simp [split]
  | cons b rest =>
    unfold split
    repeat' split
    all_goals simp

/-- The digit of a value below sixteen, lower case. -/
def digit (n : Nat) : UInt8 :=
  if n < 10 then UInt8.ofNat (48 + n) else UInt8.ofNat (87 + n)

/-- The value of a hexadecimal digit of either case. -/
def digitValue? (b : UInt8) : Option Nat :=
  if 48 ≤ b ∧ b ≤ 57 then some (b.toNat - 48)
  else if 97 ≤ b ∧ b ≤ 102 then some (b.toNat - 87)
  else if 65 ≤ b ∧ b ≤ 70 then some (b.toNat - 55)
  else none

/-- Whether a byte is a decimal digit. -/
def isDecimal (b : UInt8) : Bool := 48 ≤ b && b ≤ 57

/-- The `width` lowest hexadecimal digits of `n`, the highest first. -/
def hex (n : Nat) : (width : Nat) → Text
  | 0 => []
  | w + 1 => hex (n / 16) w ++ [digit (n % 16)]

/-- The decimal digits of a number. -/
def ofNat (n : Nat) : Text :=
  (Nat.toDigits 10 n).map fun c => UInt8.ofNat c.toNat

/-- A number in decimal, negative ones with a leading minus. -/
def ofInt : Int → Text
  | .ofNat n => ofNat n
  | .negSucc n => utf8 "-" ++ ofNat (n + 1)

/-- The value of a text of decimal digits. -/
def toNat (digits : Text) : Nat :=
  digits.foldl (fun n b => 10 * n + (b.toNat - 48)) 0

/-- The number of a text of one or more decimal digits. -/
def toNat? (digits : Text) : Option Nat :=
  if digits.isEmpty || !digits.all isDecimal then none else some digits.toNat

/-- Upper-case ASCII letters in lower case, all other bytes as they are. -/
def lowerByte (b : UInt8) : UInt8 := if 65 ≤ b ∧ b ≤ 90 then b + 32 else b

end Text

end Arbor
