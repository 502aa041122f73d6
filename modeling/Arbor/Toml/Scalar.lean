import Arbor.Text

/-!
# Scalars of TOML

Truth values, numbers and dates. Nothing in a settings file holds one, so only
their form matters here: a scalar is well formed or it is not. Whole numbers
must fit a signed 64-bit word and numbers with a fraction a double; dates and
times must exist.
-/

namespace Arbor

namespace Toml

/-- The characters a scalar is made of. A date and a time may have a blank
between them besides. -/
def isScalarChar (c : Char) : Bool :=
  c.isAlphanum || c = '+' || c = '-' || c = '_' || c = '.' || c = ':'

/-- The value of digits in a base. -/
def valueIn (base : Nat) (digits : List Char) : Nat :=
  digits.foldl (fun n c => base * n + (Text.digitValue? c.toUInt8).getD 0) 0

/-- Takes the underscores out of digits: each must have a digit on both
sides. -/
def ungrouped? (isDigit : Char → Bool) : List Char → Option (List Char)
  | [] => none
  | [c] => if isDigit c then some [c] else none
  | c :: d :: rest =>
    if !isDigit c then none
    else if d = '_' then (ungrouped? isDigit rest).map (c :: ·)
    else (ungrouped? isDigit (d :: rest)).map (c :: ·)

/-- Digits without a leading zero, unless it is the only one. -/
def plainDigits? (cs : List Char) : Option (List Char) := do
  let digits ← ungrouped? Char.isDigit cs
  guard (digits.length = 1 ∨ digits.head? ≠ some '0')
  return digits

/-- Whether a character is a hexadecimal digit. -/
def isHexDigit (c : Char) : Bool :=
  c.isDigit || ('a' ≤ c && c ≤ 'f') || ('A' ≤ c && c ≤ 'F')

/-- A sign, if there is one: whether it is a minus, and what follows. -/
def cutSign : List Char → Option Bool × List Char
  | '+' :: rest => (some false, rest)
  | '-' :: rest => (some true, rest)
  | cs => (none, cs)

/-! ## Numbers -/

/-- Whether the value of digits in a base is at most `bound`. The digits behind
the one that takes it beyond are not read. -/
def atMost (base bound : Nat) (digits : List Char) : Bool :=
  Option.isSome <| digits.foldlM (fun n c =>
    let n := base * n + valueIn base [c]
    if n ≤ bound then some n else none) 0

/-- Whether digits in a base are a whole number below `2 ^ 63`. -/
def isWordIn (base : Nat) (isDigit : Char → Bool) (cs : List Char) : Bool :=
  (ungrouped? isDigit cs).any (atMost base 0x7FFFFFFFFFFFFFFF)

/-- Whether a scalar is a whole number: in base sixteen, eight or two without
a sign, in base ten perhaps with one. -/
def isInteger : List Char → Bool
  | '0' :: 'x' :: rest => isWordIn 16 isHexDigit rest
  | '0' :: 'o' :: rest => isWordIn 8 (fun c => '0' ≤ c && c ≤ '7') rest
  | '0' :: 'b' :: rest => isWordIn 2 (fun c => c = '0' || c = '1') rest
  | cs =>
    let (sign, rest) := cutSign cs
    (plainDigits? rest).any
      (atMost 10 (if sign = some true then 0x8000000000000000 else 0x7FFFFFFFFFFFFFFF))

/-- The least number that is rounded to no finite double is
`(2 ^ 54 - 1) * 2 ^ 970`; whether the number `m * 10 ^ e` is below it, where `m`
is written in digits. Numbers that are far off are told by how many those are,
and of the others only the whole part counts. -/
def fitsDouble (digits : List Char) (e : Int) : Bool :=
  let bound := 0x3FFFFFFFFFFFFF <<< 970
  let digits := digits.dropWhile (· = '0')
  let size : Int := digits.length + e
  if digits.isEmpty ∨ size < 300 then true
  else if 320 < size then false
  else valueIn 10 (digits.take size.toNat) * Nat.pow 10 e.toNat < bound

/-- The exponent behind an `e`. Once it is ten thousand, more digits do not
count. -/
def exponent? (cs : List Char) : Option Int := do
  let (sign, rest) := cutSign cs
  let digits ← ungrouped? Char.isDigit rest
  let n := digits.foldl (fun n c => if n < 10000 then 10 * n + valueIn 10 [c] else n) 0
  return if sign = some true then -(n : Int) else n

/-- Whether a scalar is a number with a fraction or an exponent or both. -/
def isFloat (cs : List Char) : Bool :=
  let rest := (cutSign cs).2
  rest = "inf".toList || rest = "nan".toList || Option.isSome do
    let (mantissa, power) := rest.span fun c => c ≠ 'e' && c ≠ 'E'
    let (whole, part) := mantissa.span (· ≠ '.')
    guard (part ≠ [] ∨ power ≠ [])
    let digits ← plainDigits? whole
    let decimals ← match part with
      | [] => some []
      | _ :: decimals => ungrouped? Char.isDigit decimals
    let e ← match power with
      | [] => some 0
      | _ :: e => exponent? e
    guard (fitsDouble (digits ++ decimals) (e - decimals.length))

/-! ## Dates and times -/

/-- The number that two digits at the start make, and what follows. -/
def twoDigits? : List Char → Option (Nat × List Char)
  | a :: b :: rest => if a.isDigit && b.isDigit then some (valueIn 10 [a, b], rest) else none
  | _ => none

/-- What follows the character `c` at the start. -/
def after? (c : Char) : List Char → Option (List Char)
  | [] => none
  | d :: rest => if d = c then some rest else none

/-- How many days a month has. -/
def daysIn (year month : Nat) : Nat :=
  if month = 2 then
    if year % 4 = 0 ∧ (year % 100 ≠ 0 ∨ year % 400 = 0) then 29 else 28
  else if month = 4 ∨ month = 6 ∨ month = 9 ∨ month = 11 then 30
  else 31

/-- What follows a date at the start: year, month and day. -/
def afterDate? (cs : List Char) : Option (List Char) := do
  let (century, rest) ← twoDigits? cs
  let (year, rest) ← twoDigits? rest
  let (month, rest) ← twoDigits? (← after? '-' rest)
  let (day, rest) ← twoDigits? (← after? '-' rest)
  guard (1 ≤ month ∧ month ≤ 12 ∧ 1 ≤ day ∧ day ≤ daysIn (100 * century + year) month)
  return rest

/-- What follows a time at the start: hour, minute and second, and perhaps a
fraction of the second. -/
def afterTime? (cs : List Char) : Option (List Char) := do
  let (hour, rest) ← twoDigits? cs
  let (minute, rest) ← twoDigits? (← after? ':' rest)
  let (second, rest) ← twoDigits? (← after? ':' rest)
  guard (hour < 24 ∧ minute < 60 ∧ second < 60)
  match rest with
  | '.' :: d :: fraction => if d.isDigit then return fraction.dropWhile Char.isDigit else none
  | _ => return rest

/-- Whether the characters are a time zone: a `Z`, or the hours and minutes
ahead or behind. -/
def isZone : List Char → Bool
  | ['Z'] => true
  | ['z'] => true
  | c :: rest => (c = '+' || c = '-') && Option.isSome do
    let (hour, rest) ← twoDigits? rest
    let (minute, rest) ← twoDigits? (← after? ':' rest)
    guard (hour ≤ 24 ∧ minute ≤ 60 ∧ rest = [])
  | [] => false

/-- Whether the characters are a time of day, with a zone if one is
allowed. -/
def isTime (zoned : Bool) (cs : List Char) : Bool :=
  match afterTime? cs with
  | none => false
  | some rest => rest = [] || (zoned && isZone rest)

/-- Whether the characters are a date and nothing else. -/
def isDate (cs : List Char) : Bool := afterDate? cs = some []

/-- Whether the characters are a date and a time of that day. -/
def isDateTime (cs : List Char) : Bool :=
  match afterDate? cs with
  | some (c :: rest) => (c = 'T' || c = 't') && isTime true rest
  | _ => false

/-- **Whether the characters are a scalar.** -/
def isScalar (cs : List Char) : Bool :=
  cs = "true".toList || cs = "false".toList || isInteger cs || isFloat cs
    || isDate cs || isTime false cs || isDateTime cs

end Toml

end Arbor
