import MessageCodec.Binary.Format
import MessageCodec.Json.Value

/-! Numbers in JSON text. Digits are taken into a 64-bit significand as long as they fit; the digits
of the whole part after that only raise the exponent, and those of the fraction are dropped. A
number with a point, an exponent or too many digits is the significand, rounded to double precision,
times or over the rounded power of ten. -/

namespace MessageCodec.Json

open Binary

/-- Takes digits into a significand up to the first one that does not fit, and returns the
significand, the number of digits taken, and the rest. -/
def takeDigits (significand taken : Nat) : List Char → Nat × Nat × List Char
  | [] => (significand, taken, [])
  | c :: rest =>
    let next := 10 * significand + Decimal.digitValue c
    if c.isDigit && next < UInt64.size then takeDigits next (taken + 1) rest
    else (significand, taken, c :: rest)

/-- A magnitude over `10 ^ exponent`; exponents beyond the table of powers are taken in steps. -/
def divPowerOfTen (magnitude exponent : Nat) : Nat :=
  if exponent ≤ 308 then Format.double.div magnitude (Format.double.powerOfTen exponent)
  else if magnitude = 0 then 0
  else divPowerOfTen (Format.double.div magnitude (Format.double.powerOfTen 308)) (exponent - 308)
termination_by exponent

/-- The magnitude of a significand times `10 ^ exponent`, unless it is too great. -/
def scale? (significand : Nat) (exponent : Int) : Option Nat :=
  let magnitude := Format.double.roundMagnitude significand 1
  if exponent < 0 then some (divPowerOfTen magnitude exponent.natAbs)
  else if magnitude = 0 then some 0
  else if 308 < exponent then none
  else
    let product := Format.double.mul magnitude (Format.double.powerOfTen exponent.toNat)
    if product < Format.double.infinity then some product else none

def signed (negative : Bool) (magnitude : Nat) : Number :=
  .double (UInt64.ofNat (Format.double.withSign negative magnitude))

def finishNumber (negative : Bool) (significand : Nat) (exponent : Int) (rest : List Char) :
    Option (Number × List Char) :=
  (scale? significand exponent).map fun magnitude => (signed negative magnitude, rest)

/-- Reads the part after an exponent mark. A literal that takes 32 bits or more counts as
infinite. -/
def readExponent (negative : Bool) (significand : Nat) (exponent : Int) (cs : List Char) :
    Option (Number × List Char) :=
  let (down, ds) := match cs with
    | '-' :: ds => (true, ds)
    | '+' :: ds => (false, ds)
    | ds => (false, ds)
  let literal := ds.takeWhile Char.isDigit
  let rest := ds.dropWhile Char.isDigit
  let value := Decimal.ofDigits 0 literal
  if literal.isEmpty then none
  else if 0x80000000 ≤ value then
    if significand = 0 || down then some (signed negative 0, rest) else none
  else finishNumber negative significand (if down then exponent - value else exponent + value) rest

/-- Reads what may follow the digits of a number that is not an integer. -/
def readEnd (negative : Bool) (significand : Nat) (exponent : Int) (cs : List Char) :
    Option (Number × List Char) :=
  match cs with
  | 'e' :: rest | 'E' :: rest => readExponent negative significand exponent rest
  | rest => finishNumber negative significand exponent rest

/-- Reads the part after the point. -/
def readFraction (negative : Bool) (significand : Nat) (exponent : Int) (cs : List Char) :
    Option (Number × List Char) :=
  match cs with
  | c :: _ =>
    if c.isDigit then
      let (significand, taken, rest) := takeDigits significand 0 cs
      readEnd negative significand (exponent - taken) (rest.dropWhile Char.isDigit)
    else none
  | [] => none

/-- An integer with a sign. Zero with a minus sign and integers below 64 bits are in double
precision. -/
def ofSignedNat (negative : Bool) (n : Nat) : Number :=
  if !negative then .integer n
  else if n = 0 || 0x8000000000000000 < n then signed true (Format.double.roundMagnitude n 1)
  else .integer (-n)

/-- Reads a number from the start of a text. The first digit is zero only when it is alone. -/
def readNumber (cs : List Char) : Option (Number × List Char) :=
  let (negative, ds) := match cs with
    | '-' :: ds => (true, ds)
    | ds => (false, ds)
  match ds with
  | [] => none
  | first :: more =>
    if !first.isDigit then none
    else if first = '0' && (more.head?.any Char.isDigit) then none
    else
      let (significand, _, rest) := takeDigits 0 0 ds
      let overflow := rest.takeWhile Char.isDigit
      match rest.dropWhile Char.isDigit with
      | '.' :: rest => readFraction negative significand overflow.length rest
      | rest =>
        if overflow.isEmpty && !(rest.head?.any fun c => c = 'e' || c = 'E') then
          some (ofSignedNat negative significand, rest)
        else readEnd negative significand overflow.length rest

end MessageCodec.Json
