/-! Binary floating-point formats and what their bit patterns stand for. A finite number is read as
an integer times a power of two; numbers are rounded back to the nearest pattern, a tie going to the
pattern whose last bit is zero. -/

namespace MessageCodec.Binary

/-- A format with a sign bit, then `exponentBits` bits of exponent, then `fractionBits` bits. -/
structure Format where
  fractionBits : Nat
  exponentBits : Nat

/-- The number a pattern stands for: a finite one is `mantissa * 2 ^ exponent`, with a sign. -/
inductive Number where
  | nan (negative : Bool) (payload : Nat)
  | infinite (negative : Bool)
  | finite (negative : Bool) (mantissa : Nat) (exponent : Int)

namespace Format

def single : Format := ⟨23, 8⟩

def double : Format := ⟨52, 11⟩

variable (f : Format)

/-- The pattern that has only the sign bit set. -/
def signBit : Nat := Nat.pow 2 (f.fractionBits + f.exponentBits)

/-- The pattern of positive infinity. Above it, up to the sign bit, lie the patterns of NaN. -/
def infinity : Nat := (Nat.pow 2 f.exponentBits - 1) * Nat.pow 2 f.fractionBits

/-- The exponent of the least positive number. -/
def leastExponent : Int := 2 - Nat.pow 2 (f.exponentBits - 1) - f.fractionBits

/-- The pattern without its sign bit. -/
def magnitude (bits : Nat) : Nat := bits % f.signBit

def isNegative (bits : Nat) : Bool := f.signBit ≤ bits

def isNaN (bits : Nat) : Bool := f.infinity < f.magnitude bits

/-- Patterns are equal as numbers when they are the same or both zero; a NaN equals nothing. -/
def sameNumber (a b : Nat) : Bool :=
  !f.isNaN a && !f.isNaN b && (a == b || (f.magnitude a == 0 && f.magnitude b == 0))

def withSign (negative : Bool) (magnitude : Nat) : Nat :=
  if negative then f.signBit + magnitude else magnitude

def decode (bits : Nat) : Number :=
  let magnitude := f.magnitude bits
  let fraction := magnitude % Nat.pow 2 f.fractionBits
  let biased := magnitude / Nat.pow 2 f.fractionBits
  if f.infinity < magnitude then .nan (f.isNegative bits) fraction
  else if magnitude = f.infinity then .infinite (f.isNegative bits)
  else if biased = 0 then .finite (f.isNegative bits) fraction f.leastExponent
  else
    .finite (f.isNegative bits) (Nat.pow 2 f.fractionBits + fraction)
      (f.leastExponent + (biased - 1))

end Format

/-- The quotient rounded to the nearest integer, a half to the even neighbour. -/
def divToEven (numerator denominator : Nat) : Nat :=
  let quotient := numerator / denominator
  let remainder := 2 * (numerator % denominator)
  if remainder < denominator then quotient
  else if denominator < remainder then quotient + 1
  else quotient + quotient % 2

/-- The greatest `k` with `2 ^ k * denominator ≤ numerator`, both being positive. -/
def quotientLog2 (numerator denominator : Nat) : Int :=
  let estimate : Int := (Nat.log2 numerator : Int) - Nat.log2 denominator
  if denominator * Nat.pow 2 estimate.toNat ≤ numerator * Nat.pow 2 (-estimate).toNat then
    estimate
  else estimate - 1

namespace Format

variable (f : Format)

/-- The magnitude nearest to a non-negative fraction; beyond the greatest number lies infinity.
The exponent field is a count of binades, so a carry out of the significand moves into it. -/
def roundMagnitude (numerator denominator : Nat) : Nat :=
  if numerator = 0 then 0
  else
    let exponent := max f.leastExponent (quotientLog2 numerator denominator - f.fractionBits)
    let significand :=
      divToEven (numerator * Nat.pow 2 (-exponent).toNat) (denominator * Nat.pow 2 exponent.toNat)
    min f.infinity ((exponent - f.leastExponent).toNat * Nat.pow 2 f.fractionBits + significand)

/-- The pattern nearest to a signed fraction. -/
def round (negative : Bool) (numerator denominator : Nat) : Nat :=
  f.withSign negative (f.roundMagnitude numerator denominator)

def ofInt (i : Int) : Nat := f.round (i < 0) i.natAbs 1

/-- The pattern of this format nearest to a number. The payload of a NaN keeps its leading bits
in place, and its first bit is set. -/
def ofNumber (source : Format) : Number → Nat
  | .nan negative payload =>
    let quiet := Nat.pow 2 (f.fractionBits - 1)
    let aligned := payload * Nat.pow 2 f.fractionBits / Nat.pow 2 source.fractionBits
    f.withSign negative (f.infinity + quiet + aligned % quiet)
  | .infinite negative => f.withSign negative f.infinity
  | .finite negative mantissa exponent =>
    f.round negative (mantissa * Nat.pow 2 exponent.toNat) (Nat.pow 2 (-exponent).toNat)

/-! Products and quotients of magnitudes: the exact result is rounded once. -/

/-- A finite magnitude as an integer and a power of two. -/
def parts (magnitude : Nat) : Nat × Int :=
  match f.decode magnitude with
  | .finite _ mantissa exponent => (mantissa, exponent)
  | _ => (0, 0)

/-- The magnitude nearest to `mantissa / divisor * 2 ^ exponent`. -/
def roundScaled (mantissa divisor : Nat) (exponent : Int) : Nat :=
  f.roundMagnitude (mantissa * Nat.pow 2 exponent.toNat) (divisor * Nat.pow 2 (-exponent).toNat)

def mul (a b : Nat) : Nat :=
  let (m, e) := f.parts a
  let (m', e') := f.parts b
  f.roundScaled (m * m') 1 (e + e')

/-- The quotient of two finite magnitudes, the second one being positive. -/
def div (a b : Nat) : Nat :=
  let (m, e) := f.parts a
  let (m', e') := f.parts b
  f.roundScaled m m' (e - e')

def powerOfTen (k : Nat) : Nat := f.roundMagnitude (Nat.pow 10 k) 1

end Format

def widen (bits : UInt32) : UInt64 :=
  UInt64.ofNat (Format.double.ofNumber .single (Format.single.decode bits.toNat))

/-- The single-precision pattern nearest to a double-precision one. -/
def narrow (bits : UInt64) : UInt32 :=
  UInt32.ofNat (Format.single.ofNumber .double (Format.double.decode bits.toNat))

/-- The first integer that takes more than 128 bits with its sign. -/
def wideLimit : Int := 0x80000000000000000000000000000000

/-- The integer part of a number, held within 128 bits; a NaN counts as zero. -/
def Number.truncate : Number → Int
  | .nan _ _ => 0
  | .infinite negative => if negative then -wideLimit else wideLimit - 1
  | .finite negative mantissa exponent =>
    let whole : Int := (mantissa * Nat.pow 2 exponent.toNat / Nat.pow 2 (-exponent).toNat : Nat)
    if negative then max (-wideLimit) (-whole) else min (wideLimit - 1) whole

def truncateDouble (bits : UInt64) : Int := (Format.double.decode bits.toNat).truncate

def truncateSingle (bits : UInt32) : Int := (Format.single.decode bits.toNat).truncate

end MessageCodec.Binary
