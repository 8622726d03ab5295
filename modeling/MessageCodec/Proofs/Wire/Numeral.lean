import Mathlib.Algebra.Group.Nat.Defs
import MessageCodec.Wire.Varint

/-! Numerals are read back as the numbers they were written for, whatever follows
them, and at every width undoing the zigzag of a number restores it, and the other way
round. -/

namespace MessageCodec.Wire

namespace Varint

theorem last_digit {n : Nat} (small : n < 128) :
    UInt8.ofNat n < 128 ∧ (UInt8.ofNat n).toNat = n := by
  have byte : (UInt8.ofNat n).toNat = n := by
    rw [UInt8.toNat_ofNat']
    omega
  rw [UInt8.lt_iff_toNat_lt, byte]
  exact ⟨small, rfl⟩

theorem more_digit {d : Nat} (digit : d < 128) :
    ¬ UInt8.ofNat (128 + d) < 128 ∧ (UInt8.ofNat (128 + d)).toNat = 128 + d := by
  have byte : (UInt8.ofNat (128 + d)).toNat = 128 + d := by
    rw [UInt8.toNat_ofNat']
    omega
  rw [UInt8.lt_iff_toNat_lt, byte]
  exact ⟨by simp, rfl⟩

theorem readNumeral_last {n : Nat} (small : n < 128) (limit : Nat) (rest : Bytes) :
    readNumeral (limit + 1) (UInt8.ofNat n :: rest) = .ok (n, rest) := by
  obtain ⟨last, byte⟩ := last_digit small
  rw [readNumeral, if_pos last, byte]

theorem readNumeral_more {d : Nat} (digit : d < 128) (limit : Nat) (bs : Bytes) :
    readNumeral (limit + 1) (UInt8.ofNat (128 + d) :: bs) =
      (readNumeral limit bs).map fun (n, rest) => (d + 128 * n, rest) := by
  obtain ⟨more, byte⟩ := more_digit digit
  rw [readNumeral, if_neg more, byte, Nat.add_mod_left, Nat.mod_eq_of_lt digit]

theorem readNumeral_numeral (limit n : Nat) (rest : Bytes) (h : n < 128 ^ (limit + 1)) :
    readNumeral (limit + 1) (numeral n ++ rest) = .ok (n, rest) := by
  induction limit generalizing n with
  | zero =>
    have small : n < 128 := by simpa using h
    rw [numeral, if_pos small, List.singleton_append, readNumeral_last small]
  | succ limit ih =>
    rw [numeral]
    split
    · rename_i small
      rw [List.singleton_append, readNumeral_last small]
    · have tail : n / 128 < 128 ^ (limit + 1) := by
        rw [Nat.div_lt_iff_lt_mul (by decide), ← Nat.pow_succ]
        exact h
      rw [List.cons_append, readNumeral_more (Nat.mod_lt n (by decide)), ih _ tail]
      simp only [Except.map, Nat.mod_add_div]

theorem numeral_ne_nil (n : Nat) : numeral n ≠ [] := by
  rw [numeral]
  split <;> simp

/-- Ten digits hold every number of 64 bits. -/
theorem read_numeral {n : Nat} (h : n < UInt64.size) (rest : Bytes) :
    read (numeral n ++ rest) = .ok (UInt64.ofNat n, rest) := by
  have fits : n < 128 ^ (9 + 1) := Nat.lt_trans h (by decide)
  rw [read, show maxLength = 9 + 1 from rfl, readNumeral_numeral 9 n rest fits]
  rfl

theorem read_write (value : UInt64) (rest : Bytes) :
    read (write value ++ rest) = .ok (value, rest) := by
  rw [write, read_numeral value.toNat_lt, UInt64.ofNat_toNat]

end Varint

namespace ZigZag

variable {w : Nat}

/-- The lowest bit of a zigzag number is the sign of what it stands for. -/
theorem getLsbD_encode_zero (v : BitVec w) : (encode v).getLsbD 0 = v.msb := by
  rcases Nat.eq_zero_or_pos w with rfl | pos
  · simp [BitVec.of_length_zero]
  · have sign : (v.sshiftRight (w - 1)).getLsbD 0 = v.msb := by
      rw [BitVec.getLsbD_sshiftRight, BitVec.msb_eq_getLsbD_last]
      simp [Nat.ne_of_gt pos]
    simp [encode, sign]

/-- All bits of the mask that undoes a negative number are set. -/
theorem getLsbD_neg_and_one (u : BitVec w) (i : Nat) (h : i < w) :
    (-(u &&& 1#w)).getLsbD i = u.getLsbD 0 := by
  have mask : u &&& 1#w = if u.getLsbD 0 then 1#w else 0#w := by
    apply BitVec.eq_of_getLsbD_eq
    intro j hj
    rw [BitVec.getLsbD_and, BitVec.getLsbD_one]
    rcases j with _ | j <;> cases u.getLsbD 0 <;> simp [hj]
  rw [mask]
  cases u.getLsbD 0 <;> simp [BitVec.neg_one_eq_allOnes, h]

theorem decode_encode (v : BitVec w) : decode (encode v) = v := by
  apply BitVec.eq_of_getLsbD_eq
  intro i h
  have mask := getLsbD_neg_and_one (encode v) i h
  rw [getLsbD_encode_zero] at mask
  have shifted : (encode v >>> 1).getLsbD i = (v.getLsbD i ^^ v.msb) := by
    rw [BitVec.getLsbD_ushiftRight, encode, BitVec.getLsbD_xor, BitVec.getLsbD_sshiftRight]
    by_cases last : 1 + i < w
    · have signs : ¬ w - 1 + (1 + i) < w := by omega
      have inside : ¬ w ≤ 1 + i := by omega
      rw [if_neg signs]
      simp [last, inside, BitVec.getLsbD_eq_getElem h]
    · have top : v.getLsbD i = v.msb := by
        rw [BitVec.msb_eq_getLsbD_last, show w - 1 = i by omega]
      simp [top, Nat.le_of_not_lt last]
  rw [decode, BitVec.getLsbD_xor, shifted]
  change ((v.getLsbD i ^^ v.msb) ^^ (-(encode v &&& 1#w)).getLsbD i) = _
  rw [mask, Bool.xor_assoc, Bool.xor_self, Bool.xor_false]

theorem getLsbD_decode (u : BitVec w) (i : Nat) (h : i < w) :
    (decode u).getLsbD i = (u.getLsbD (i + 1) ^^ u.getLsbD 0) := by
  have mask : (-(u &&& 1)).getLsbD i = u.getLsbD 0 := getLsbD_neg_and_one u i h
  rw [decode, BitVec.getLsbD_xor, BitVec.getLsbD_ushiftRight, mask, Nat.add_comm]

/-- The sign of a number is the lowest bit of its zigzag number. -/
theorem msb_decode (u : BitVec w) : (decode u).msb = u.getLsbD 0 := by
  rcases Nat.eq_zero_or_pos w with rfl | pos
  · simp [BitVec.of_length_zero]
  · have beyond : u.getLsbD (w - 1 + 1) = false := BitVec.getLsbD_of_ge u _ (by omega)
    rw [BitVec.msb_eq_getLsbD_last, getLsbD_decode u (w - 1) (by omega), beyond, Bool.false_xor]

theorem encode_decode (u : BitVec w) : encode (decode u) = u := by
  apply BitVec.eq_of_getLsbD_eq
  intro i h
  cases i with
  | zero => rw [getLsbD_encode_zero, msb_decode]
  | succ i =>
    have sign : ((decode u).sshiftRight (w - 1)).getLsbD (i + 1) = u.getLsbD 0 := by
      rw [BitVec.getLsbD_sshiftRight, if_neg (by omega), msb_decode]
      simp [h]
    have shifted : (decode u <<< 1).getLsbD (i + 1) = (u.getLsbD (i + 1) ^^ u.getLsbD 0) := by
      rw [BitVec.getLsbD_shiftLeft, ← getLsbD_decode u i (by omega)]
      simp [h]
    rw [encode, BitVec.getLsbD_xor, shifted, sign, Bool.xor_assoc, Bool.xor_self, Bool.xor_false]

end ZigZag

end MessageCodec.Wire
