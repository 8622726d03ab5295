import Mathlib.Algebra.Order.Field.Power
import Mathlib.Data.Rat.Floor
import Mathlib.Tactic.NormNum
import Mathlib.Tactic.Positivity
import Mathlib.Tactic.Ring
import MessageCodec.Binary.Format

/-! The integer part of a number. A finite number is an exact fraction, and cutting it off rounds
the fraction toward zero; the result is held within 128 bits, which is more than any integer type
has. An infinity becomes an integer beyond all types, and a NaN becomes zero. -/

namespace MessageCodec.Binary

inductive Amount where
  | finite (q : ℚ)
  | infinite
  | nan

/-- A finite number is an exact fraction. -/
def Number.amount : Number → Amount
  | .nan _ _ => .nan
  | .infinite _ => .infinite
  | .finite negative mantissa exponent =>
    .finite (if negative then -(mantissa * 2 ^ exponent) else mantissa * 2 ^ exponent)

/-- The integer nearest to a fraction on the side of zero. -/
def towardZero (q : ℚ) : Int := if 0 ≤ q then ⌊q⌋ else ⌈q⌉

theorem towardZero_intCast (i : Int) : towardZero i = i := by
  rw [towardZero, Int.floor_intCast, Int.ceil_intCast, ite_self]

theorem towardZero_neg_of_nonneg {q : ℚ} (nonneg : 0 ≤ q) : towardZero (-q) = -⌊q⌋ := by
  rw [towardZero]
  split
  · rename_i other
    have zero : q = 0 := le_antisymm (neg_nonneg.1 other) nonneg
    simp [zero]
  · exact Int.ceil_neg

/-- A power of two with a sign in its exponent, taken apart as the integer part is computed. -/
theorem floor_mul_zpow (m : Nat) (e : Int) :
    ⌊(m * 2 ^ e : ℚ)⌋ = ((m * 2 ^ e.toNat / 2 ^ (-e).toNat : Nat) : Int) := by
  have parts : e = (e.toNat : Int) - ((-e).toNat : Int) := by omega
  have power : (2 : ℚ) ^ e = 2 ^ e.toNat / 2 ^ (-e).toNat := by
    conv_lhs => rw [parts]
    rw [zpow_sub₀ two_ne_zero, zpow_natCast, zpow_natCast]
  have quotient : (m * 2 ^ e : ℚ) =
      (((m * 2 ^ e.toNat : Nat) : Int) : ℚ) / ((2 ^ (-e).toNat : Nat) : ℚ) := by
    rw [power]
    push_cast
    ring
  rw [quotient, Rat.floor_intCast_div_natCast, Int.natCast_div]

/-- Beyond the integers of 64 bits, with a sign or without one. -/
def Beyond (i : Int) : Prop := i < -2 ^ 63 ∨ 2 ^ 64 ≤ i

/-- An integer that stands for an amount: the amount toward zero, unless both are out of reach. -/
def Represents : Option Amount → Option Int → Prop
  | some (.finite q), i? => ∃ i, i? = some i ∧ (i = towardZero q ∨ Beyond i ∧ Beyond (towardZero q))
  | some .infinite, i? => ∃ i, i? = some i ∧ Beyond i
  | some .nan, i? => i? = some 0
  | none, i? => i? = none

theorem represents_intCast (i : Int) : Represents (some (.finite i)) (some i) :=
  ⟨i, rfl, .inl (towardZero_intCast i).symm⟩

theorem represents_truncate (n : Number) : Represents (some n.amount) (some n.truncate) := by
  cases n with
  | nan => rfl
  | infinite negative =>
    refine ⟨_, rfl, ?_⟩
    cases negative <;> simp [Beyond, Number.truncate, wideLimit]
  | finite negative m e =>
    refine ⟨_, rfl, ?_⟩
    have nonneg : (0 : ℚ) ≤ m * 2 ^ e := by positivity
    have whole := floor_mul_zpow m e
    cases negative with
    | false =>
      have exact : towardZero (m * 2 ^ e) = _ := (if_pos nonneg).trans whole
      simp only [Bool.false_eq_true, if_false, exact, Number.truncate, Nat.pow_eq, Beyond, wideLimit]
      omega
    | true =>
      have exact := (towardZero_neg_of_nonneg nonneg).trans (congrArg Neg.neg whole)
      simp only [if_true, exact, Number.truncate, Nat.pow_eq, Beyond, wideLimit]
      omega

end MessageCodec.Binary
