import Mathlib.Data.Nat.Log
import Mathlib.Tactic.Ring
import MessageCodec.Binary.Format

/-! Patterns of floating-point formats and the numbers they stand for. A finite pattern has one
mantissa and one exponent, and a number that a format can hold is rounded to the pattern of that
mantissa and exponent. Single precision therefore survives the way through double precision. -/

namespace MessageCodec.Binary

theorem log2_mul_pow {m : Nat} (pos : m ≠ 0) (i : Nat) : (m * 2 ^ i).log2 = m.log2 + i := by
  have power : 0 < 2 ^ i := Nat.two_pow_pos i
  rw [Nat.log2_eq_iff (Nat.mul_ne_zero pos power.ne'), Nat.add_right_comm, Nat.pow_add, Nat.pow_add]
  exact ⟨Nat.mul_le_mul_right _ (Nat.log2_self_le pos),
    Nat.mul_lt_mul_of_pos_right Nat.lt_log2_self power⟩

theorem quotientLog2_mul_pow {m : Nat} (pos : m ≠ 0) (i j : Nat) :
    quotientLog2 (m * 2 ^ i) (2 ^ j) = m.log2 + i - j := by
  have size : m.log2 + i + (-((m.log2 : Int) + i - j)).toNat =
      j + ((m.log2 : Int) + i - j).toNat := by omega
  have below : 2 ^ j * 2 ^ ((m.log2 : Int) + i - j).toNat ≤
      m * 2 ^ i * 2 ^ (-((m.log2 : Int) + i - j)).toNat := by
    rw [← Nat.pow_add, ← size, Nat.pow_add, Nat.pow_add]
    exact Nat.mul_le_mul_right _ (Nat.mul_le_mul_right _ (Nat.log2_self_le pos))
  simp only [quotientLog2, log2_mul_pow pos, Nat.log2_two_pow, Nat.pow_eq, Nat.cast_add,
    if_pos below]

theorem divToEven_mul {d : Nat} (pos : 0 < d) (s : Nat) : divToEven (s * d) d = s := by
  simp only [divToEven, Nat.mul_mod_left, Nat.mul_div_cancel s pos, Nat.mul_zero, if_pos pos]

/-- Two ways to write one number as a mantissa times a power of two. -/
def SameValue (m : Nat) (e : Int) (s : Nat) (x : Int) : Prop :=
  m * 2 ^ (e - x).toNat = s * 2 ^ (x - e).toNat

theorem SameValue.symm {m s : Nat} {e x : Int} (same : SameValue m e s x) : SameValue s x m e :=
  Eq.symm same

theorem sameValue_shift (m : Nat) (e : Int) (k : Nat) : SameValue m e (m * 2 ^ k) (e - k) := by
  have up : (e - (e - k)).toNat = k := by omega
  have down : (e - k - e).toNat = 0 := by omega
  rw [SameValue, up, down, Nat.pow_zero, Nat.mul_one]

/-- The leading bit of a number does not depend on how the number is written. -/
theorem SameValue.log2 {m s : Nat} {e x : Int} (same : SameValue m e s x) (pos : m ≠ 0) :
    s ≠ 0 ∧ (m.log2 : Int) + e = s.log2 + x := by
  have other : s ≠ 0 := by
    rintro rfl
    rw [SameValue, Nat.zero_mul] at same
    exact Nat.mul_ne_zero pos (Nat.two_pow_pos _).ne' same
  have bits := congrArg Nat.log2 same
  rw [log2_mul_pow pos, log2_mul_pow other] at bits
  exact ⟨other, by omega⟩

namespace Format

variable {f : Format} {m s : Nat} {e x : Int}

/-- A number that is a multiple of the unit at its exponent is not changed by rounding. -/
theorem roundMagnitude_of_exact (pos : m ≠ 0)
    (exponent : max f.leastExponent (m.log2 + e - f.fractionBits) = x)
    (exact : SameValue m e s x) :
    f.roundMagnitude (m * 2 ^ e.toNat) (2 ^ (-e).toNat) =
      min f.infinity ((x - f.leastExponent).toNat * 2 ^ f.fractionBits + s) := by
  have numerator : m * 2 ^ e.toNat ≠ 0 := Nat.mul_ne_zero pos (Nat.two_pow_pos _).ne'
  have binade : max f.leastExponent
      (quotientLog2 (m * 2 ^ e.toNat) (2 ^ (-e).toNat) - f.fractionBits) = x := by
    rw [quotientLog2_mul_pow pos, ← exponent]
    omega
  have balance : e.toNat + (-x).toNat + (x - e).toNat = (-e).toNat + x.toNat + (e - x).toNat := by
    omega
  have whole : m * 2 ^ e.toNat * 2 ^ (-x).toNat = s * (2 ^ (-e).toNat * 2 ^ x.toNat) := by
    refine Nat.eq_of_mul_eq_mul_right (Nat.two_pow_pos (x - e).toNat) ?_
    calc m * 2 ^ e.toNat * 2 ^ (-x).toNat * 2 ^ (x - e).toNat
        = m * 2 ^ (e.toNat + (-x).toNat + (x - e).toNat) := by ring
      _ = m * 2 ^ (e - x).toNat * 2 ^ ((-e).toNat + x.toNat) := by rw [balance]; ring
      _ = s * (2 ^ (-e).toNat * 2 ^ x.toNat) * 2 ^ (x - e).toNat := by rw [exact]; ring
  have unit : 0 < 2 ^ (-e).toNat * 2 ^ x.toNat :=
    Nat.mul_pos (Nat.two_pow_pos _) (Nat.two_pow_pos _)
  simp only [roundMagnitude, Nat.pow_eq, if_neg numerator, binade, whole, divToEven_mul unit]

/-- The mantissas and exponents that patterns have: the mantissa fills its bits, except at the
least exponent. -/
structure Canonical (f : Format) (m : Nat) (e : Int) : Prop where
  least : f.leastExponent ≤ e
  short : m < 2 ^ (f.fractionBits + 1)
  full : e = f.leastExponent ∨ 2 ^ f.fractionBits ≤ m

/-- The pattern of a mantissa and an exponent, without a sign. -/
def pattern (f : Format) (m : Nat) (e : Int) : Nat :=
  (e - f.leastExponent).toNat * 2 ^ f.fractionBits + m

theorem Canonical.exponent (canonical : f.Canonical m e) (pos : m ≠ 0) :
    max f.leastExponent (m.log2 + e - f.fractionBits) = e := by
  have least := canonical.least
  have high : m.log2 < f.fractionBits + 1 := (Nat.log2_lt pos).2 canonical.short
  rcases canonical.full with bottom | full
  · omega
  · have low : f.fractionBits ≤ m.log2 := (Nat.le_log2 pos).2 full
    omega

theorem infinity_lt_signBit (f : Format) : f.infinity < f.signBit := by
  have power : Nat.pow 2 (f.fractionBits + f.exponentBits) =
      Nat.pow 2 f.exponentBits * Nat.pow 2 f.fractionBits := by
    rw [Nat.add_comm]
    exact Nat.pow_add 2 _ _
  rw [infinity, signBit, power]
  exact Nat.mul_lt_mul_of_pos_right (Nat.sub_lt (Nat.two_pow_pos _) Nat.one_pos)
    (Nat.two_pow_pos _)

variable {bits p : Nat} {negative : Bool}

theorem magnitude_withSign (negative : Bool) (small : p < f.signBit) :
    f.magnitude (f.withSign negative p) = p := by
  cases negative with
  | false => exact Nat.mod_eq_of_lt small
  | true =>
    rw [withSign, if_pos rfl, magnitude, Nat.add_mod_left]
    exact Nat.mod_eq_of_lt small

theorem isNegative_withSign (negative : Bool) (small : p < f.signBit) :
    f.isNegative (f.withSign negative p) = negative := by
  cases negative with
  | false => exact decide_eq_false (Nat.not_le.2 small)
  | true => exact decide_eq_true (Nat.le_add_right _ _)

theorem withSign_lt (negative : Bool) (small : p < f.signBit) :
    f.withSign negative p < 2 * f.signBit := by
  cases negative with
  | false => exact Nat.lt_of_lt_of_le small (Nat.le_mul_of_pos_left _ Nat.two_pos)
  | true =>
    rw [withSign, if_pos rfl]
    omega

theorem withSign_magnitude (small : bits < 2 * f.signBit) :
    f.withSign (f.isNegative bits) (f.magnitude bits) = bits := by
  rw [withSign, isNegative, magnitude]
  split
  · rename_i negative
    have sign := of_decide_eq_true negative
    rw [Nat.mod_eq_sub_mod sign, Nat.mod_eq_of_lt (by omega)]
    omega
  · rename_i positive
    exact Nat.mod_eq_of_lt (by simpa using positive)

theorem isNaN_of_decode {payload : Nat} (h : f.decode bits = .nan negative payload) :
    f.isNaN bits = true := by
  simp only [decode] at h
  split at h
  · rename_i above
    exact decide_eq_true above
  · split at h
    · cases h
    · split at h <;> cases h

theorem infinite_of_decode (h : f.decode bits = .infinite negative) :
    f.magnitude bits = f.infinity ∧ f.isNegative bits = negative := by
  simp only [decode] at h
  split at h
  · cases h
  · split at h
    · rename_i infinite
      cases h
      exact ⟨infinite, rfl⟩
    · split at h <;> cases h

theorem canonical_of_decode (h : f.decode bits = .finite negative m e) :
    f.Canonical m e ∧ f.magnitude bits = f.pattern m e ∧ f.pattern m e < f.infinity ∧
      f.isNegative bits = negative := by
  have power : 0 < 2 ^ f.fractionBits := Nat.two_pow_pos _
  have fraction := Nat.mod_lt (f.magnitude bits) power
  have parts := Nat.div_add_mod' (f.magnitude bits) (2 ^ f.fractionBits)
  simp only [decode, Nat.pow_eq] at h
  split at h
  · cases h
  · rename_i notNaN
    split at h
    · cases h
    · rename_i notInfinite
      have finite : f.magnitude bits < f.infinity := by omega
      split at h
      · rename_i bottom
        cases h
        have whole : f.magnitude bits = f.pattern (f.magnitude bits % 2 ^ f.fractionBits)
            f.leastExponent := by
          rw [pattern, Int.sub_self, Int.toNat_zero]
          rw [bottom] at parts
          exact parts.symm
        refine ⟨⟨Int.le_refl _, ?_, .inl rfl⟩, whole, whole ▸ finite, rfl⟩
        rw [Nat.pow_succ]
        omega
      · rename_i normal
        obtain ⟨b, biased⟩ := Nat.exists_eq_succ_of_ne_zero normal
        rw [biased] at h parts
        cases h
        have exponent : (f.leastExponent + ((b.succ : Nat) - 1 : Int) - f.leastExponent).toNat = b := by
          omega
        have whole : f.magnitude bits =
            f.pattern (2 ^ f.fractionBits + f.magnitude bits % 2 ^ f.fractionBits)
              (f.leastExponent + ((b.succ : Nat) - 1 : Int)) := by
          rw [pattern, exponent, ← Nat.add_assoc, ← Nat.succ_mul]
          exact parts.symm
        refine ⟨⟨by omega, ?_, .inr (Nat.le_add_right _ _)⟩, whole, whole ▸ finite, rfl⟩
        rw [Nat.pow_succ]
        omega

theorem Canonical.decode_pattern (canonical : f.Canonical m e) (finite : f.pattern m e < f.infinity)
    (negative : Bool) :
    f.decode (f.withSign negative (f.pattern m e)) = .finite negative m e := by
  have power : 0 < 2 ^ f.fractionBits := Nat.two_pow_pos _
  have small := Nat.lt_trans finite f.infinity_lt_signBit
  have least := canonical.least
  simp only [decode, magnitude_withSign negative small, isNegative_withSign negative small,
    Nat.pow_eq, if_neg (Nat.not_lt.2 finite.le), if_neg finite.ne]
  by_cases normal : 2 ^ f.fractionBits ≤ m
  · have short := canonical.short
    rw [Nat.pow_succ] at short
    obtain ⟨fraction, rfl⟩ := Nat.exists_eq_add_of_le normal
    have split : f.pattern (2 ^ f.fractionBits + fraction) e =
        ((e - f.leastExponent).toNat + 1) * 2 ^ f.fractionBits + fraction := by
      rw [pattern]
      ring
    have below : fraction < 2 ^ f.fractionBits := by omega
    have biased : f.pattern (2 ^ f.fractionBits + fraction) e / 2 ^ f.fractionBits =
        (e - f.leastExponent).toNat + 1 := by
      rw [split, Nat.mul_comm, Nat.mul_add_div power, Nat.div_eq_of_lt below, Nat.add_zero]
    have rest : f.pattern (2 ^ f.fractionBits + fraction) e % 2 ^ f.fractionBits = fraction := by
      rw [split, Nat.mul_add_mod', Nat.mod_eq_of_lt below]
    rw [biased, rest, if_neg (Nat.succ_ne_zero _)]
    congr 1
    omega
  · have bottom := canonical.full.resolve_right normal
    have whole : f.pattern m e = m := by
      rw [pattern, bottom, Int.sub_self, Int.toNat_zero, Nat.zero_mul, Nat.zero_add]
    have below : m < 2 ^ f.fractionBits := Nat.not_le.1 normal
    rw [whole, Nat.div_eq_of_lt below, Nat.mod_eq_of_lt below, if_pos rfl, bottom]

theorem ofNumber_of_sameValue {source : Format} (canonical : f.Canonical s x)
    (finite : f.pattern s x < f.infinity) (same : SameValue m e s x) :
    f.ofNumber source (.finite negative m e) = f.withSign negative (f.pattern s x) := by
  have rounded : f.roundMagnitude (m * 2 ^ e.toNat) (2 ^ (-e).toNat) = f.pattern s x := by
    by_cases pos : m = 0
    · subst pos
      have zero : s = 0 := by
        by_contra other
        exact (same.symm.log2 other).1 rfl
      have bottom : x = f.leastExponent := by
        refine canonical.full.resolve_right fun full => ?_
        have power := Nat.two_pow_pos f.fractionBits
        omega
      rw [pattern, zero, bottom, Int.sub_self, Int.toNat_zero, Nat.zero_mul, Nat.zero_mul]
      rfl
    · obtain ⟨other, bits⟩ := same.log2 pos
      have exponent : max f.leastExponent (m.log2 + e - f.fractionBits) = x := by
        rw [bits]
        exact canonical.exponent other
      rw [roundMagnitude_of_exact pos exponent same]
      exact Nat.min_eq_right finite.le
  exact congrArg (f.withSign negative) rounded

end Format

open Format

/-- Every finite number of single precision has a canonical form in double precision, in which the
mantissa is shifted up until it fills the bits. -/
theorem exists_canonical_double {m : Nat} {e : Int} (canonical : single.Canonical m e)
    (finite : single.pattern m e < single.infinity) :
    ∃ s x, double.Canonical s x ∧ double.pattern s x < double.infinity ∧ SameValue m e s x := by
  by_cases pos : m = 0
  · subst pos
    refine ⟨0, -1074, ⟨Int.le_refl _, Nat.two_pow_pos _, .inl rfl⟩, by decide, ?_⟩
    rw [SameValue, Nat.zero_mul, Nat.zero_mul]
  · have least : -149 ≤ e := canonical.least
    have high : (e - -149).toNat < 255 :=
      Nat.lt_of_mul_lt_mul_right (Nat.lt_of_le_of_lt (Nat.le_add_right _ m) finite)
    obtain ⟨k, room⟩ : ∃ k, k + m.log2 = 52 := by
      have bits : m.log2 < 24 := (Nat.log2_lt pos).2 canonical.short
      exact ⟨52 - m.log2, by omega⟩
    have filled : (m * 2 ^ k).log2 = 52 := by
      rw [log2_mul_pow pos]
      omega
    have large : m * 2 ^ k ≠ 0 := Nat.mul_ne_zero pos (Nat.two_pow_pos k).ne'
    have short : m * 2 ^ k < 2 ^ 53 := (Nat.log2_lt large).1 (by rw [filled]; decide)
    have leastShifted : -1074 ≤ e - k := by omega
    have exponent : (e - k - -1074).toNat ≤ 1180 := by omega
    refine ⟨m * 2 ^ k, e - k, ⟨leastShifted, short, .inr ?_⟩, ?_, sameValue_shift m e k⟩
    · exact (Nat.le_log2 large).1 filled.ge
    · calc (e - k - -1074).toNat * 2 ^ 52 + m * 2 ^ k
          < 1180 * 2 ^ 52 + 2 ^ 53 := Nat.add_lt_add_of_le_of_lt (Nat.mul_le_mul_right _ exponent) short
        _ < 2047 * 2 ^ 52 := by decide

/-- A finite number is widened to a pattern that stands for the same number. -/
theorem decode_widen {bits : UInt32} {negative : Bool} {m : Nat} {e : Int}
    (finite : single.decode bits.toNat = .finite negative m e) :
    ∃ s x, double.decode (widen bits).toNat = .finite negative s x ∧ SameValue m e s x := by
  obtain ⟨canonical, -, below, -⟩ := canonical_of_decode finite
  obtain ⟨s, x, wide, small, same⟩ := exists_canonical_double canonical below
  have pattern : (widen bits).toNat = double.withSign negative (double.pattern s x) := by
    rw [widen, finite, ofNumber_of_sameValue wide small same, UInt64.toNat_ofNat']
    exact Nat.mod_eq_of_lt (withSign_lt negative (Nat.lt_trans small double.infinity_lt_signBit))
  rw [pattern]
  exact ⟨s, x, wide.decode_pattern small negative, same⟩

/-- A number of single precision is the same after it was widened and narrowed. -/
theorem narrow_widen {bits : UInt32} (number : single.isNaN bits.toNat = false) :
    narrow (widen bits) = bits := by
  have whole : single.withSign (single.isNegative bits.toNat) (single.magnitude bits.toNat) =
      bits.toNat := withSign_magnitude bits.toNat_lt
  cases decoded : single.decode bits.toNat with
  | nan negative payload =>
    rw [isNaN_of_decode decoded] at number
    cases number
  | infinite negative =>
    obtain ⟨magnitude, sign⟩ := infinite_of_decode decoded
    rw [magnitude, sign] at whole
    rw [← UInt32.ofNat_toNat (x := bits), ← whole]
    cases negative <;> decide +kernel
  | finite negative m e =>
    obtain ⟨canonical, magnitude, below, sign⟩ := canonical_of_decode decoded
    obtain ⟨s, x, wide, same⟩ := decode_widen decoded
    rw [narrow, wide, ofNumber_of_sameValue canonical below same.symm, ← magnitude, ← sign, whole,
      UInt32.ofNat_toNat]

end MessageCodec.Binary
