import Arbor.Text

/-!
# Numeric addresses

The address of a host that stands in brackets: eight **groups** of hexadecimal
digits, with colons between them. One row of groups that are zero can be left
out, and two colons then stand for it. The last two groups can be written as
four decimal numbers with points between them.
-/

namespace Arbor

namespace Uri

/-- The colon. -/
def colon : UInt8 := 58

/-- The point. -/
def point : UInt8 := 46

/-- Whether a text is a group: one to four hexadecimal digits. -/
def isGroup (t : Text) : Bool :=
  t ≠ [] && t.length ≤ 4 && t.all fun b => (Text.digitValue? b).isSome

/-- Whether a text is a decimal number below 256, without leading zeros. -/
def isOctet (t : Text) : Bool :=
  match t.toNat? with
  | some n => n < 256 && t = Text.ofNat n
  | none => false

/-- Whether a text is four such numbers. -/
def isQuad (t : Text) : Bool := (t.split point).length = 4 && (t.split point).all isOctet

/-- How many groups the parts of an address stand for, if they are well formed.
Only the last of them can be four numbers. -/
def groups? : List Text → Option Nat
  | [] => some 0
  | [t] => if isGroup t then some 1 else if isQuad t then some 2 else none
  | t :: u :: rest => if isGroup t then (groups? (u :: rest)).map (· + 1) else none

/-- The parts of one side of an address; an empty side has none. -/
def parts (side : Text) : List Text := if side = [] then [] else side.split colon

/-- What is before the first two colons in a row, and what is behind them. -/
def cutGap? : Text → Option (Text × Text)
  | [] => none
  | [_] => none
  | a :: b :: rest =>
    if a = colon ∧ b = colon then some ([], rest)
    else (cutGap? (b :: rest)).map fun (before, after) => (a :: before, after)

/-- **Whether a text is a numeric address.** Two colons stand for at least one
group. -/
def isAddress (t : Text) : Bool :=
  match cutGap? t with
  | none => groups? (t.split colon) = some 8
  | some (before, after) =>
    (parts before).all isGroup
      && (groups? (parts after)).any fun n => (parts before).length + n ≤ 7

end Uri

end Arbor
