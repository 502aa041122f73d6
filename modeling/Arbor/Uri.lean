import Arbor.Path
import Arbor.Uri.Address

/-!
# File URIs

Editors name directories by URIs. Those of the scheme `file` are read here:
two slashes, an authority, a path, then perhaps a query behind `?` and a
fragment behind `#`. Only the path counts; the authority and the fragment have
to be well formed nevertheless.
-/

namespace Arbor

namespace Uri

/-- Decodes the bytes written as a percent sign and two hexadecimal digits.
There is no result if digits are missing. -/
def decode? : Text → Option Text
  | [] => some []
  | 37 :: a :: b :: rest => do
    let high ← Text.digitValue? a
    let low ← Text.digitValue? b
    return UInt8.ofNat (16 * high + low) :: (← decode? rest)
  | b :: rest => if b = 37 then none else (decode? rest).map (b :: ·)

/-- Whether a byte is a letter or a digit. -/
def isAlphanumeric (b : UInt8) : Bool :=
  Text.isDecimal b || (97 ≤ Text.lowerByte b && Text.lowerByte b ≤ 122)

/-- The bytes besides letters and digits that the name of a user may have. -/
def userMarks : Text := utf8 "-._:~!$&'()*+,;=%@"

/-- The ASCII bytes besides letters and digits that the name of a host may
have. -/
def hostMarks : Text := utf8 "!$&'()*+,;=:[]<>\"-_.~"

/-- Whether a byte may stand in the name of a host. -/
def isHostByte (b : UInt8) : Bool := 0x80 ≤ b || isAlphanumeric b || b ∈ hostMarks

/-- Whether a text is empty or a colon and digits. -/
def isColonNumber : Text → Bool
  | [] => true
  | b :: rest => b = colon && rest.all Text.isDecimal

/-- Whether the name of a host is well formed. Bytes are encoded only where
they could not be written: those beyond ASCII, and the percent sign. -/
def isHostName : Text → Bool
  | [] => true
  | 37 :: a :: b :: rest =>
    match Text.digitValue? a, Text.digitValue? b with
    | some high, some low => (8 ≤ high || (high = 2 && low = 5)) && isHostName rest
    | _, _ => false
  | b :: rest => b ≠ 37 && isHostByte b && isHostName rest

/-- Whether the zone behind an address in brackets is well formed. Here a byte
may be encoded if it could be written, or is a blank. -/
def isZone : Text → Bool
  | [] => true
  | 37 :: a :: b :: rest =>
    match Text.digitValue? a, Text.digitValue? b with
    | some high, some low =>
      let v := UInt8.ofNat (16 * high + low)
      (v = 37 || v = 32 || (isHostByte v && v < 0x80)) && isZone rest
    | _, _ => false
  | b :: rest => b ≠ 37 && isHostByte b && isZone rest

/-- The last part that starts with `b`, if there is one, and what is before
it. -/
def fromLast? (b : UInt8) (t : Text) : Option (Text × Text) :=
  match Text.cut b t.reverse with
  | none => none
  | some (after, before) => some (before.reverse, b :: after.reverse)

/-- What is before the first encoded percent sign and what starts with it. -/
def cutZone? : Text → Option (Text × Text)
  | 37 :: 50 :: 53 :: rest => some ([], 37 :: 50 :: 53 :: rest)
  | [] => none
  | b :: rest => (cutZone? rest).map fun (before, zone) => (b :: before, zone)

/-- Whether a text is an address in brackets, perhaps with a zone, and perhaps
with a number behind a colon. -/
def isBracketed (t : Text) : Bool :=
  match fromLast? 93 t with
  | none => false
  | some (opened, closing) =>
    t.head? = some 91 && 91 ∉ t.drop 1 && isColonNumber (closing.drop 1)
      && match cutZone? (opened.drop 1) with
        | none => isAddress (opened.drop 1)
        | some (address, zone) => isAddress address && 3 < zone.length && isZone zone

/-- Whether a host, perhaps with a number behind a colon, is well formed. With
an opening bracket it has to be an address in brackets. -/
def isHost (t : Text) : Bool :=
  if 91 ∈ t then isBracketed t
  else
    (match fromLast? colon t with
      | none => true
      | some (_, number) => isColonNumber number) && isHostName t

/-- Whether an authority is well formed: a host, perhaps behind a user and
`@`. -/
def isAuthority (t : Text) : Bool :=
  match fromLast? 64 t with
  | none => isHost t
  | some (user, host) =>
    isHost (host.drop 1) && user.all (fun b => isAlphanumeric b || b ∈ userMarks)
      && (decode? user).isSome

/-- Everything before the first `b` and everything after it; all of the text
and nothing if there is no `b`. -/
def divide (b : UInt8) (t : Text) : Text × Text := (t.cut b).getD (t, [])

/-- Whether a byte is a control byte. -/
def isControl (b : UInt8) : Bool := b < 32 || b = 127

/-- What a URI that starts with `file://` has there. -/
def scheme : Text := utf8 "file://"

/-- **The file name that a URI stands for.** A text that is no file URI stands
for itself; a malformed file URI stands for nothing. -/
def path? (uri : Text) : Option Text :=
  if !scheme.isPrefixOf uri then some uri
  else
    let (address, fragment) := divide 35 (uri.drop scheme.length)
    let (location, _) := divide 63 address
    let authority := location.takeWhile (· ≠ Path.slash)
    if address.any isControl || !isAuthority authority || (decode? fragment).isNone then none
    else (decode? (location.drop authority.length)).map Path.clean

end Uri

end Arbor
