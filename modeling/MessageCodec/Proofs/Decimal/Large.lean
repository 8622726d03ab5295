import Mathlib.Data.List.TakeWhile
import Mathlib.Tactic.NormNum
import MessageCodec.Decimal
import MessageCodec.Proofs.Binary.Truncation
import MessageCodec.Proofs.Binary.Widening

/-! Integers in texts that take more than 128 bits. Read in double precision they become numbers
that are still beyond every integer type. -/

namespace MessageCodec

namespace Binary

theorem div_le_divToEven (numerator denominator : Nat) :
    numerator / denominator ≤ divToEven numerator denominator := by
  simp only [divToEven]
  split
  · exact Nat.le_refl _
  · split <;> omega

namespace Format

/-- The patterns from 2 ^ 127 up to infinity. -/
def IsLarge (magnitude : Nat) : Prop := 1150 * 2 ^ 52 ≤ magnitude ∧ magnitude ≤ double.infinity

theorem isLarge_roundMagnitude {n : Nat} (large : 2 ^ 127 ≤ n) :
    IsLarge (double.roundMagnitude n 1) := by
  have pos : n ≠ 0 := by omega
  have binade : quotientLog2 n 1 = n.log2 := by simpa using quotientLog2_mul_pow pos 0 0
  have leading : 127 ≤ n.log2 := (Nat.le_log2 pos).2 large
  have exponent : max double.leastExponent (quotientLog2 n 1 - double.fractionBits) =
      ((n.log2 - 52 : Nat) : Int) := by
    rw [binade]
    have least : double.leastExponent = -1074 := by decide
    have fraction : double.fractionBits = 52 := rfl
    rw [least, fraction]
    omega
  have significand : 2 ^ 52 ≤ divToEven n (2 ^ (n.log2 - 52)) := by
    refine Nat.le_trans ?_ (div_le_divToEven _ _)
    rw [Nat.le_div_iff_mul_le (Nat.two_pow_pos _), ← Nat.pow_add, Nat.add_sub_cancel' (by omega)]
    exact Nat.log2_self_le pos
  have down : (-((n.log2 - 52 : Nat) : Int)).toNat = 0 := by omega
  have field : (((n.log2 - 52 : Nat) : Int) - double.leastExponent).toNat = n.log2 - 52 + 1074 := by
    have least : double.leastExponent = -1074 := by decide
    omega
  rw [IsLarge, roundMagnitude, if_neg pos]
  simp only [exponent, down, field, Int.toNat_natCast, Nat.pow_eq, Nat.pow_zero, Nat.mul_one,
    Nat.one_mul]
  refine ⟨Nat.le_min.2 ⟨by decide, ?_⟩, Nat.min_le_left ..⟩
  calc 1150 * 2 ^ 52 = 1149 * 2 ^ 52 + 2 ^ 52 := by norm_num
    _ ≤ (n.log2 - 52 + 1074) * 2 ^ 52 + divToEven n (2 ^ (n.log2 - 52)) :=
      Nat.add_le_add (Nat.mul_le_mul_right _ (by omega)) significand

/-- Numbers from 2 ^ 127 up have no integer part within 64 bits. -/
theorem beyond_truncate {magnitude : Nat} (large : IsLarge magnitude) (negative : Bool) :
    Beyond (double.decode (double.withSign negative magnitude)).truncate := by
  have small : magnitude < double.signBit :=
    Nat.lt_of_le_of_lt large.2 (infinity_lt_signBit double)
  have infinity : double.infinity = 2047 * 2 ^ 52 := by decide
  have fraction : Nat.pow 2 double.fractionBits = 2 ^ 52 := by decide
  have least : double.leastExponent = -1074 := by decide
  have notNaN : ¬ double.infinity < magnitude := Nat.not_lt.2 large.2
  obtain ⟨low, high⟩ := large
  simp only [decode, magnitude_withSign negative small, isNegative_withSign negative small,
    if_neg notNaN, fraction, least]
  split
  · cases negative <;> simp [Beyond, Number.truncate, wideLimit]
  · have normal : ¬ magnitude / 2 ^ 52 = 0 := by omega
    have exponent : (-1074 + ((magnitude / 2 ^ 52 : Nat) - 1 : Int)).toNat =
        magnitude / 2 ^ 52 - 1075 := by omega
    have down : (-(-1074 + ((magnitude / 2 ^ 52 : Nat) - 1 : Int))).toNat = 0 := by omega
    have whole : 2 ^ 127 ≤ (2 ^ 52 + magnitude % 2 ^ 52) * 2 ^ (magnitude / 2 ^ 52 - 1075) := by
      calc 2 ^ 127 = 2 ^ 52 * 2 ^ 75 := by norm_num
        _ ≤ (2 ^ 52 + magnitude % 2 ^ 52) * 2 ^ (magnitude / 2 ^ 52 - 1075) :=
          Nat.mul_le_mul (Nat.le_add_right _ _) (Nat.pow_le_pow_right Nat.two_pos (by omega))
    simp only [if_neg normal, Number.truncate, exponent, down, Nat.pow_eq, Nat.pow_zero, Nat.div_one]
    generalize (2 ^ 52 + magnitude % 2 ^ 52) * 2 ^ (magnitude / 2 ^ 52 - 1075) = integer at whole
    cases negative <;> simp only [Beyond, wideLimit, if_true, Bool.false_eq_true, if_false] <;> omega

end Format

end Binary

namespace Decimal

open Binary

theorem isLarge_roundMagnitude {n : Nat} (large : 2 ^ 127 ≤ n) :
    Format.IsLarge (roundMagnitude .double n 0) := by
  have pos : n ≠ 0 := by omega
  have notSmall : ¬ ((0 : Int) + (n.log2 : Int) / 3 < -400) := by omega
  have infinite : Format.IsLarge Format.double.infinity := ⟨by decide, Nat.le_refl _⟩
  have rounded := Format.isLarge_roundMagnitude large
  simp only [roundMagnitude, pos, notSmall, decide_false, Bool.or_self, Bool.false_eq_true, if_false]
  split
  · exact infinite
  · simpa using rounded

theorem toLower_of_isDigit {c : Char} (digit : c.isDigit) : c.toLower = c := by
  simp only [Char.isDigit, Bool.and_eq_true, decide_eq_true_eq, ge_iff_le] at digit
  have small : ¬ 65 ≤ c.val := fun upper =>
    absurd (UInt32.le_trans upper digit.2) (by decide)
  exact dif_neg fun upper => small upper.1

theorem readMagnitude?_digits {ds : List Char} (nonempty : ds ≠ [])
    (digits : ∀ c ∈ ds, c.isDigit) :
    readMagnitude? ds = some (roundMagnitude .double (ofDigits 0 ds) 0) := by
  have lower : ds.map Char.toLower = ds :=
    (List.map_congr_left fun c mem => toLower_of_isDigit (digits c mem)).trans (List.map_id ds)
  obtain ⟨first, rest, shape⟩ := List.exists_cons_of_ne_nil nonempty
  have number : first.isDigit := digits first (shape ▸ List.mem_cons_self ..)
  -- the names of an infinity and a NaN start with a letter
  have unnamed (word : List Char) (letter : word.head?.all fun c => !c.isDigit) : ds ≠ word := by
    rintro rfl
    simp [shape, number] at letter
  have whole : ds.takeWhile Char.isDigit = ds := List.takeWhile_eq_self_iff.2 digits
  have ended : ds.dropWhile Char.isDigit = [] := List.dropWhile_eq_nil_iff.2 digits
  rw [readMagnitude?]
  simp only [lower, whole, ended, unnamed "inf".toList (by decide),
    unnamed "infinity".toList (by decide), unnamed "nan".toList (by decide)]
  simp [nonempty, readExponent?, ofDigits]

theorem readDouble?_of_readInt? {cs : List Char} {i : Int} (read : readInt? cs = some i) :
    ∃ negative, readDouble? cs =
      some (.ofNat (Format.double.withSign negative (roundMagnitude .double i.natAbs 0))) := by
  simp only [readInt?, Option.ite_none_left_eq_some, Bool.or_eq_true, List.isEmpty_iff,
    Bool.not_eq_true', List.all_eq_false, not_or] at read
  obtain ⟨⟨nonempty, digits⟩, value⟩ := read
  have all : ∀ c ∈ (splitSign cs).2, c.isDigit := by simpa using digits
  have magnitude : i.natAbs = ofDigits 0 (splitSign cs).2 := by
    rw [← Option.some.inj value]
    split <;> simp
  refine ⟨(splitSign cs).1, ?_⟩
  rw [readDouble?, magnitude]
  simp only [readMagnitude?_digits nonempty all, Option.map_some]

/-- An integer of more than 128 bits is read as a number beyond all integer types. -/
theorem beyond_of_readInt? {cs : List Char} {i : Int} (read : readInt? cs = some i)
    (large : 2 ^ 127 ≤ i.natAbs) :
    ∃ bits, readDouble? cs = some bits ∧ Beyond (truncateDouble bits) := by
  obtain ⟨negative, number⟩ := readDouble?_of_readInt? read
  have isLarge := isLarge_roundMagnitude large
  refine ⟨_, number, ?_⟩
  have small : Format.double.withSign negative (roundMagnitude .double i.natAbs 0) < 2 ^ 64 :=
    Format.withSign_lt negative (Nat.lt_of_le_of_lt isLarge.2 (Format.infinity_lt_signBit _))
  rw [truncateDouble, UInt64.toNat_ofNat_of_lt' small]
  exact Format.beyond_truncate isLarge negative

end Decimal

end MessageCodec
