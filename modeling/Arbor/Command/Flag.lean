import Arbor.Text.Quoted

/-!
# Flags

The arguments of a command are **flags** and words. A flag is written `--name`
or by its letter, `-n`; letters can be put together behind one dash. Its value
is the next argument, or stands behind `=`, or directly behind the letter. A
flag that is a switch or a counter needs no value. The argument `--` ends the
flags.

Arguments are read from left to right, and the first error is the one
reported.
-/

namespace Arbor

namespace Command

/-- What the value of a flag is. -/
inductive Flag.Kind where
  /-- Any text. -/
  | text
  /-- A truth value; true if it is left out. -/
  | switch
  /-- A number; one more than before if it is left out. -/
  | counter
  deriving DecidableEq, Repr

/-- A flag. -/
structure Flag where
  /-- Its name. -/
  name : Text
  /-- Its letter, if it has one. -/
  letter : Option UInt8
  /-- What its value is. -/
  kind : Flag.Kind
  deriving DecidableEq, Repr

/-- Why a text is no value of a flag. -/
inductive ValueError where
  /-- It is no truth value. -/
  | notBool (v : Text)
  /-- It is no number. -/
  | notNumber (v : Text)
  /-- It is a number that does not fit a signed 64-bit word. -/
  | outOfRange (v : Text)
  deriving DecidableEq, Repr

/-- **What can be wrong with flags.** -/
inductive FlagError where
  /-- The argument is no flag, though it starts like one. -/
  | badSyntax (arg : Text)
  /-- There is no flag of that name. -/
  | unknownName (name : Text)
  /-- There is no flag of the first of some letters. -/
  | unknownLetter (letter : UInt8) (letters : Text)
  /-- The value is missing. -/
  | noValue (name : Text)
  /-- The value is missing behind the first of some letters. -/
  | noValueBehind (letter : UInt8) (letters : Text)
  /-- The value is of the wrong kind. -/
  | badValue (flag : Flag) (value : Text) (e : ValueError)
  deriving DecidableEq, Repr

/-- The wording of the error. -/
def ValueError.message : ValueError → Text
  | notBool v => utf8 "strconv.ParseBool: parsing " ++ v.quoted ++ utf8 ": invalid syntax"
  | notNumber v => utf8 "strconv.ParseInt: parsing " ++ v.quoted ++ utf8 ": invalid syntax"
  | outOfRange v => utf8 "strconv.ParseInt: parsing " ++ v.quoted ++ utf8 ": value out of range"

/-- A letter in quotes, as a character: beyond ASCII the first byte of the
character with the value of the letter. -/
def quotedLetter (b : UInt8) : Text :=
  let first := (String.utf8EncodeChar (Char.ofNat b.toNat)).headD b
  Piece.quotedChar (Char.ofNat first.toNat)

/-- A flag as it is written, with its letter first. -/
def Flag.render (f : Flag) : Text :=
  (f.letter.elim [] fun b => utf8 "-" ++ [b] ++ utf8 ", ") ++ utf8 "--" ++ f.name

/-- The wording of the error. -/
def FlagError.message : FlagError → Text
  | badSyntax arg => utf8 "bad flag syntax: " ++ arg
  | unknownName name => utf8 "unknown flag: --" ++ name
  | unknownLetter b letters =>
    utf8 "unknown shorthand flag: " ++ quotedLetter b ++ utf8 " in -" ++ letters
  | noValue name => utf8 "flag needs an argument: --" ++ name
  | noValueBehind b letters =>
    utf8 "flag needs an argument: " ++ quotedLetter b ++ utf8 " in -" ++ letters
  | badValue f v e =>
    utf8 "invalid argument " ++ v.quoted ++ utf8 " for " ++ Text.quoted f.render ++ utf8 " flag: "
      ++ e.message

/-! ## Values -/

/-- The truth value of a text. -/
def truth? (v : Text) : Option Bool :=
  if v ∈ ["1", "t", "T", "true", "TRUE", "True"].map utf8 then some true
  else if v ∈ ["0", "f", "F", "false", "FALSE", "False"].map utf8 then some false
  else none

/-- Whether every underscore among digits has a digit on both sides. -/
def isGrouped : Text → Bool
  | [] => false
  | [b] => b ≠ 95
  | b :: c :: rest => b ≠ 95 && if c = 95 then isGrouped rest else isGrouped (c :: rest)

/-- The base of a number and its digits: behind `0x`, `0o` or `0b`, or behind
a zero in base eight, or else in base ten. -/
def numeral (t : Text) : Nat × Text :=
  match t with
  | 48 :: b :: c :: rest =>
    if Text.lowerByte b = 120 then (16, c :: rest)
    else if Text.lowerByte b = 111 then (8, c :: rest)
    else if Text.lowerByte b = 98 then (2, c :: rest)
    else (8, t)
  | 48 :: _ => (8, t)
  | _ => (10, t)

/-- Reads the digits of a number in a base, of which `n` has been read before;
underscores are passed over. The first digit that is none, or that takes the
number beyond 64 bits, decides what is wrong with the value `v`. -/
def readDigits (v : Text) (base n : Nat) : Text → Except ValueError Nat
  | [] => .ok n
  | b :: rest =>
    if b = 95 then readDigits v base n rest
    else match (Text.digitValue? b).filter (· < base) with
      | none => .error (.notNumber v)
      | some d =>
        if 0x10000000000000000 ≤ base * n + d then .error (.outOfRange v)
        else readDigits v base (base * n + d) rest

/-- The number that a text with an optional sign stands for, a signed 64-bit
word. -/
def number (v : Text) : Except ValueError Int := do
  let (negative, t) := match v with
    | 43 :: rest => (false, rest)
    | 45 :: rest => (true, rest)
    | _ => (false, v)
  let (base, digits) := numeral t
  let behind := if digits = t then digits else 48 :: digits
  let n ← readDigits v base 0 digits
  if digits = [] ∨ (95 ∈ digits ∧ !isGrouped behind) then throw (.notNumber v)
  let i : Int := if negative then -n else n
  if -0x8000000000000000 ≤ i ∧ i < 0x8000000000000000 then return i else throw (.outOfRange v)

/-- The value a flag has if none is given; a flag that takes any text needs
one. -/
def Flag.Kind.implied? : Flag.Kind → Option Text
  | .text => none
  | .switch => some (utf8 "true")
  | .counter => some (utf8 "+1")

/-- Checks the value of a flag. -/
def Flag.check (f : Flag) (v : Text) : Except FlagError (Text × Text) :=
  match f.kind with
  | .text => .ok (f.name, v)
  | .switch => if (truth? v).isSome then .ok (f.name, v) else .error (.badValue f v (.notBool v))
  | .counter => match number v with
    | .ok _ => .ok (f.name, v)
    | .error e => .error (.badValue f v e)

/-! ## Arguments -/

/-- The minus sign. -/
def dash : UInt8 := 45

/-- The flag of a name. -/
def named? (flags : List Flag) (name : Text) : Option Flag := flags.find? (·.name = name)

/-- The flag of a letter. -/
def lettered? (flags : List Flag) (b : UInt8) : Option Flag := flags.find? (·.letter = some b)

/-- Reads the argument `--body`, given the argument behind it. The answer is
the flag with its value, and whether the value is the argument behind. -/
def readName (flags : List Flag) (body : Text) (next : Option Text) :
    Except FlagError ((Text × Text) × Bool) :=
  if body.head? = some dash ∨ body.head? = some 61 then .error (.badSyntax (dash :: dash :: body))
  else
    let (name, given) := match body.cut 61 with
      | some (name, v) => (name, some v)
      | none => (body, none)
    match named? flags name with
    | none => .error (.unknownName name)
    | some f => match given.or f.kind.implied?, next with
      | some v, _ => return (← f.check v, false)
      | none, some v => return (← f.check v, true)
      | none, none => .error (.noValue name)

/-- What marks letters as meant for a test runner. -/
def testMark : Text := utf8 "test."

/-- The value behind an equals sign, if there is one that is not empty. -/
def valueBehind? : Text → Option Text
  | 61 :: b :: v => some (b :: v)
  | _ => none

/-- Reads letters behind one dash, given the argument behind them. From the
mark of a test runner on they are passed over. -/
def readLetters (flags : List Flag) (next : Option Text) :
    (letters : Text) → Except FlagError (List (Text × Text) × Bool)
  | [] => .ok ([], false)
  | b :: more =>
    if testMark.isPrefixOf (b :: more) then .ok ([], false)
    else match lettered? flags b with
    | none => .error (.unknownLetter b (b :: more))
    | some f => match valueBehind? more, f.kind.implied? with
      | some v, _ => return ([← f.check v], false)
      | none, some v => do
        let first ← f.check v
        let (others, taken) ← readLetters flags next more
        return (first :: others, taken)
      | none, none =>
        if more ≠ [] then return ([← f.check more], false)
        else match next with
          | some v => return ([← f.check v], true)
          | none => .error (.noValueBehind b [b])

/-- Arguments that have been read. -/
structure Arguments where
  /-- The flags given and their values, in order. -/
  given : List (Text × Text)
  /-- The words. -/
  words : List Text
  deriving DecidableEq, Repr

namespace Arguments

/-- Puts flags in front. -/
def withFlags (given : List (Text × Text)) (a : Arguments) : Arguments :=
  { a with given := given ++ a.given }

/-- Puts a word in front. -/
def withWord (word : Text) (a : Arguments) : Arguments := { a with words := word :: a.words }

/-- **Reads arguments.** -/
def read (flags : List Flag) (args : List Text) : Except FlagError Arguments :=
  match args with
  | [] => .ok ⟨[], []⟩
  | arg :: rest =>
    match arg with
    | 45 :: 45 :: body =>
      if body = [] then .ok ⟨[], rest⟩
      else do
        let (flag, taken) ← readName flags body rest.head?
        return (← read flags (rest.drop (if taken then 1 else 0))).withFlags [flag]
    | 45 :: b :: letters => do
      let (given, taken) ← readLetters flags rest.head? (b :: letters)
      return (← read flags (rest.drop (if taken then 1 else 0))).withFlags given
    | _ => return (← read flags rest).withWord arg
termination_by args.length
decreasing_by all_goals simp only [List.length_drop, List.length_cons]; omega

/-- The value last given to a flag. -/
def value? (a : Arguments) (name : String) : Option Text :=
  (a.given.filter (·.1 = utf8 name)).getLast?.map (·.2)

/-- The value of a flag; empty if none is given. -/
def text (a : Arguments) (name : String) : Text := (a.value? name).getD []

/-- Whether a switch is on. -/
def isOn (a : Arguments) (name : String) : Bool := truth? (a.text name) = some true

end Arguments

end Command

end Arbor
