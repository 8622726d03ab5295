import MessageCodec.Binary.Format

/-! Decimal numbers in texts. A floating-point number is written with the fewest digits that read
back as it, in one of several layouts; a number that is read is rounded once, from its exact
value. -/

namespace MessageCodec.Decimal

open Binary

section Digits

def digitValue (c : Char) : Nat := c.toNat - '0'.toNat

/-- The number that a digit string denotes after the digits read so far. -/
def ofDigits (sofar : Nat) (ds : List Char) : Nat :=
  ds.foldl (fun n c => 10 * n + digitValue c) sofar

def digits (n : Nat) : List Char := Nat.toDigits 10 n

def ofInt (i : Int) : List Char := if i < 0 then '-' :: digits i.natAbs else digits i.natAbs

theorem ofDigits_eq (ds : List Char) (n : Nat) : ofDigits n ds = Nat.ofDigitChars 10 ds n := by
  induction ds generalizing n with
  | nil => rfl
  | cons d ds ih =>
    rw [Nat.ofDigitChars_cons, ← ih]
    rfl

theorem le_ofDigits (n : Nat) (ds : List Char) : n ≤ ofDigits n ds := by
  induction ds generalizing n with
  | nil => exact Nat.le_refl n
  | cons c ds ih =>
    refine Nat.le_trans ?_ (ih (10 * n + digitValue c))
    omega

theorem ofDigits_digits (n : Nat) : ofDigits 0 (digits n) = n := by
  rw [ofDigits_eq, digits, Nat.ofDigitChars_ten_toDigits]

theorem isDigit_of_mem_digits {c : Char} {n : Nat} (mem : c ∈ digits n) : c.isDigit :=
  Nat.isDigit_of_mem_toDigits (by decide) (by decide) mem

theorem head?_digits (n : Nat) (pos : 0 < n) : ∃ c, (digits n).head? = some c ∧ c ≠ '0' := by
  induction n using Nat.strongRecOn with
  | ind n ih =>
    rw [digits, Nat.toDigits_eq_if (by decide)]
    split
    · rename_i small
      have nonzero : ∀ d < 10, 0 < d → Nat.digitChar d ≠ '0' := by decide
      exact ⟨n.digitChar, rfl, nonzero n small pos⟩
    · obtain ⟨c, head, nonzero⟩ := ih (n / 10) (by omega) (by omega)
      rw [digits] at head
      exact ⟨c, by simp [List.head?_append, head], nonzero⟩

end Digits

section Shortest

/-! The fewest decimal digits that read back as a given floating-point number. The numbers that
round to it form an interval; the coarsest decimal grid with a point in that interval decides
how many digits are written, and the point nearest to the number which ones. -/

/-- A positive decimal number: the digits of `significand`, times `10 ^ exponent`. -/
structure Scientific where
  significand : Nat
  exponent : Int

/-- The greatest `k` with `10 ^ k * denominator ≤ numerator`, both being positive and within the
range of double precision. The binary logarithm gives it or its predecessor. -/
def quotientLog10 (numerator denominator : Nat) : Int :=
  let next := (quotientLog2 numerator denominator * 30103).fdiv 100000 + 1
  if denominator * Nat.pow 10 next.toNat ≤ numerator * Nat.pow 10 (-next).toNat then next
  else next - 1

/-- The point of the grid of multiples of `10 ^ exponent` that stands for
`mantissa * 2 ^ binary`: the nearer one of the two neighbours that read back. The ends of the
interval of what reads back are a half or a quarter of a unit away and belong to it when the
mantissa is even. A tie goes to the greater neighbour if `tieUp` holds, else to the even one. -/
def gridPoint? (tieUp narrowBelow : Bool) (mantissa : Nat) (binary exponent : Int) : Option Nat :=
  let unit := Nat.pow 2 (binary - 2).toNat * Nat.pow 10 (-exponent).toNat
  let grid := Nat.pow 2 (2 - binary).toNat * Nat.pow 10 exponent.toNat
  let value := 4 * mantissa * unit
  let lower := value - (if narrowBelow then unit else 2 * unit)
  let upper := value + 2 * unit
  let readsBack (point : Nat) : Bool :=
    if mantissa % 2 = 0 then lower ≤ point * grid && point * grid ≤ upper
    else lower < point * grid && point * grid < upper
  let below := value / grid
  let rest := 2 * (value % grid)
  match readsBack below, readsBack (below + 1) with
  | false, false => none
  | true, false => some below
  | false, true => some (below + 1)
  | true, true =>
    if rest < grid then some below
    else if grid < rest then some (below + 1)
    else if tieUp || below % 2 = 1 then some (below + 1)
    else some below

/-- The shortest decimal of `mantissa * 2 ^ binary` in a format. Seventeen digits suffice for
double precision. -/
def shortest (tieUp : Bool) (f : Format) (mantissa : Nat) (binary : Int) : Scientific :=
  let narrowBelow := mantissa = Nat.pow 2 f.fractionBits && f.leastExponent < binary
  let leading := quotientLog10 (mantissa * Nat.pow 2 binary.toNat) (Nat.pow 2 (-binary).toNat)
  let attempt (digits : Nat) : Option Scientific :=
    (gridPoint? tieUp narrowBelow mantissa binary (leading - digits)).map (⟨·, leading - digits⟩)
  ((List.range 17).findSome? attempt).getD ⟨mantissa * Nat.pow 2 binary.toNat, 0⟩

end Shortest

section Layouts

/-! Which exponents are written out, and whether a whole number keeps its point. -/

structure Layout where
  /-- Does a number with this exponent of its leading digit get an exponent part? -/
  usesExponent : Int → Bool
  /-- Does a whole number end in `.0`? -/
  keepsPoint : Bool

/-- A digit string without the zeros at its end, and their number. -/
def stripZeros (ds : List Char) : List Char × Nat :=
  let kept := (ds.reverse.dropWhile (· == '0')).reverse
  (kept, ds.length - kept.length)

namespace Layout

/-- The digits with a point after the first `whole` of them; zeros fill the gap on either side. -/
def positional (layout : Layout) (ds : List Char) (whole : Int) : List Char :=
  let ending := if layout.keepsPoint then ['.', '0'] else []
  if whole ≤ 0 then '0' :: '.' :: (List.replicate (-whole).toNat '0' ++ ds)
  else if ds.length ≤ whole.toNat then
    ds ++ List.replicate (whole.toNat - ds.length) '0' ++ ending
  else ds.take whole.toNat ++ '.' :: ds.drop whole.toNat

/-- One digit, the others after a point, and an exponent with its sign. -/
def scientific (ds : List Char) (exponent : Int) : List Char :=
  let sign := if exponent < 0 then '-' else '+'
  let fraction := if ds.length ≤ 1 then [] else '.' :: ds.drop 1
  ds.take 1 ++ fraction ++ 'e' :: sign :: digits exponent.natAbs

def render (layout : Layout) (number : Scientific) : List Char :=
  let (ds, zeros) := stripZeros (digits number.significand)
  let whole : Int := number.exponent + zeros + ds.length
  if layout.usesExponent (whole - 1) then scientific ds (whole - 1)
  else layout.positional ds whole

end Layout

end Layouts

section Reading

/-! An integer has an optional sign and digits; a number may also have a point, an exponent, or be
the name of an infinity or of a NaN, in letters of either case. -/

/-- Takes the sign off a text; a plus sign is dropped. -/
def splitSign : List Char → Bool × List Char
  | '-' :: rest => (true, rest)
  | '+' :: rest => (false, rest)
  | cs => (false, cs)

/-- Reads a whole text as an integer. -/
def readInt? (cs : List Char) : Option Int :=
  let (negative, ds) := splitSign cs
  if ds.isEmpty || !ds.all Char.isDigit then none
  else
    let n : Int := ofDigits 0 ds
    some (if negative then -n else n)

/-- The magnitude nearest to `significand * 10 ^ exponent`. Exponents far outside the format's
range need no exact arithmetic. -/
def roundMagnitude (f : Format) (significand : Nat) (exponent : Int) : Nat :=
  let size : Int := exponent + (Nat.log2 significand : Int) / 3
  let least : Int := exponent + (Nat.log2 significand : Int) / 4
  if significand = 0 || size < -400 then 0
  else if 400 < least then f.infinity
  else f.roundMagnitude (significand * Nat.pow 10 exponent.toNat) (Nat.pow 10 (-exponent).toNat)

/-- An exponent part that takes up the whole text. -/
def readExponent? : List Char → Option Int
  | [] => some 0
  | c :: rest => if c = 'e' || c = 'E' then readInt? rest else none

/-- The double-precision pattern of a number without a sign that takes up the whole text. -/
def readMagnitude? (cs : List Char) : Option Nat :=
  let lower := cs.map Char.toLower
  if lower = "inf".toList || lower = "infinity".toList then some Format.double.infinity
  else if lower = "nan".toList then some (Format.double.infinity + 0x8000000000000)
  else
    let whole := cs.takeWhile Char.isDigit
    let afterWhole := cs.dropWhile Char.isDigit
    let (fraction, rest) := match afterWhole with
      | '.' :: rest => (rest.takeWhile Char.isDigit, rest.dropWhile Char.isDigit)
      | rest => ([], rest)
    if whole.isEmpty && fraction.isEmpty then none
    else (readExponent? rest).map fun exponent =>
      roundMagnitude .double (ofDigits (ofDigits 0 whole) fraction) (exponent - fraction.length)

/-- The double-precision pattern of the number that takes up the whole text. -/
def readDouble? (cs : List Char) : Option UInt64 :=
  let (negative, magnitude) := splitSign cs
  (readMagnitude? magnitude).map fun m => UInt64.ofNat (Format.double.withSign negative m)

end Reading

end MessageCodec.Decimal
