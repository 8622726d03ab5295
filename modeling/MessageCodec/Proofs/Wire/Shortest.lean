import MessageCodec.Proofs.Wire.Head
import MessageCodec.Proofs.Wire.Narrowing

/-! How many bytes a number takes. A numeral has one byte for each seven bits begun, the loop that
writes it behind a buffer counts just these, and nothing shorter is read as the number. The zigzag
of a signed number takes one bit more than its magnitude, at every width, so a signed field is
short just if what it holds is close to zero, on both sides. -/

namespace MessageCodec.Wire

namespace Varint

/-- Numerals with so many digits are those of the numbers below a power. -/
theorem length_numeral_le_iff (n k : Nat) : (numeral n).length ≤ k + 1 ↔ n < 128 ^ (k + 1) := by
  induction k generalizing n with
  | zero =>
    have filled := List.length_pos_of_ne_nil (numeral_ne_nil (n / 128))
    rw [length_numeral]
    split <;> omega
  | succ k ih =>
    rw [length_numeral]
    split
    · rename_i small
      have room : n < 128 ^ (k + 1 + 1) := Nat.lt_of_lt_of_le small (Nat.le_self_pow (by omega) 128)
      exact iff_of_true (by omega) room
    · rw [Nat.succ_le_succ_iff, ih, Nat.div_lt_iff_lt_mul (by decide), ← Nat.pow_succ]

/-- The number of digits that the highest bit asks for is enough for just these numbers, too. -/
theorem size_le_iff (value : UInt64) (k : Nat) :
    size value ≤ k + 1 ↔ value.toNat < 128 ^ (k + 1) := by
  have power : 128 ^ (k + 1) = 2 ^ (7 * (k + 1)) := by rw [Nat.pow_mul]
  -- the lowest bit is set so that zero has a highest bit, and it lies below every digit
  have odd : value.toNat ||| 1 ≠ 0 := Nat.ne_of_gt (Nat.lt_of_lt_of_le Nat.one_pos Nat.right_le_or)
  have bits : (value.toNat ||| 1).log2 < 7 * (k + 1) ↔ value.toNat < 2 ^ (7 * (k + 1)) := by
    rw [Nat.log2_lt odd]
    refine ⟨Nat.lt_of_le_of_lt Nat.left_le_or, fun fits => Nat.or_lt_two_pow fits ?_⟩
    exact Nat.one_lt_two_pow (by omega)
  rw [power, ← bits, size]
  omega

theorem length_write (value : UInt64) : (write value).length = size value := by
  have same (k : Nat) : (write value).length ≤ k + 1 ↔ size value ≤ k + 1 := by
    rw [write, length_numeral_le_iff, size_le_iff]
  have filled : 0 < (write value).length := List.length_pos_of_ne_nil (numeral_ne_nil _)
  have first : 0 < size value := Nat.div_pos (by omega) (by decide)
  have le := (same (size value - 1)).2 (by omega)
  have ge := (same ((write value).length - 1)).1 (by omega)
  omega

theorem toUInt8_more (value : UInt64) :
    (value.toUInt8 &&& 0x7F) ||| 0x80 = UInt8.ofNat (128 + value.toNat % 128) := by
  have digit : (value.toUInt8 &&& 0x7F).toNat = value.toNat % 128 := by
    rw [UInt8.toNat_and, UInt64.toNat_toUInt8, show (0x7F : UInt8).toNat = 2 ^ 7 - 1 from rfl,
      Nat.and_two_pow_sub_one_eq_mod]
    omega
  have small : value.toNat % 128 < 2 ^ 7 := Nat.mod_lt _ (by decide)
  rw [← UInt8.toNat_inj, (more_digit small).2, UInt8.toNat_or, digit,
    show (0x80 : UInt8).toNat = 2 ^ 7 * 1 from rfl, Nat.or_comm,
    ← Nat.two_pow_add_eq_or_of_lt small]

/-- Writing digit by digit writes the numeral and keeps what was there. -/
theorem push_eq (buffer : Bytes) (value : UInt64) : push buffer value = buffer ++ write value := by
  fun_induction push buffer value with
  | case1 buffer value large _ ih =>
    have more : ¬ value.toNat < 128 := Nat.not_lt.2 (UInt64.le_iff_toNat_le.1 large)
    rw [ih, toUInt8_more, write, write, toNat_dropDigit, List.append_assoc, List.singleton_append,
      numeral.eq_def value.toNat, if_neg more]
  | case2 buffer value small =>
    have last : value.toNat < 128 := UInt64.lt_iff_toNat_lt.1 (UInt64.not_le.1 small)
    rw [write, numeral, if_pos last]
    rfl

theorem append_eq (buffer : Bytes) (value : UInt64) :
    append buffer value = (buffer ++ write value, size value) := by
  rw [append, push_eq, List.length_append, Nat.add_sub_cancel_left, length_write]

end Varint

theorem Head.varint_takes {bs : Bytes} {k : Nat} {after : Head} {value : UInt64}
    (within : k ≤ bs.length)
    (taken : Call.varint.turn ⟨bs, k⟩ = (.ok (.word64 value), after)) :
    k + (Varint.write value).length ≤ after.offset := by
  obtain ⟨numeral, front, yields, rfl⟩ := (Call.turn_eq_ok_iff within).1 taken
  cases yields with
  | varint digits short =>
    have least := Cursor.length_varint_le (Cursor.varint_of_front front digits short)
    have inside := Cursor.le_of_front within front
    simp only [Cursor.seek, List.length_drop] at least
    dsimp only
    omega

open Varint Head in
/-- A number is written behind a buffer with one to ten bytes, as many as its highest bit asks for,
and they are counted. The buffer stays in front of them, a head behind it reads the number and
moves over just these bytes, whatever follows, and wherever the number is read, no fewer bytes are
taken for it. -/
theorem append_reads (buffer rest : Bytes) (value : UInt64) :
    let written := (append buffer value).1
    let count := (append buffer value).2
    (∃ bs, written = buffer ++ bs ∧ bs.length = count) ∧
      1 ≤ count ∧ count ≤ 10 ∧ count = size value ∧
      Call.varint.turn ⟨written ++ rest, buffer.length⟩ =
        (.ok (.word64 value), ⟨written ++ rest, buffer.length + count⟩) ∧
      ∀ (bs : Bytes) (k : Nat) (after : Head), k ≤ bs.length →
        Call.varint.turn ⟨bs, k⟩ = (.ok (.word64 value), after) → k + count ≤ after.offset := by
  intro written count
  have whole : written = buffer ++ write value := congrArg Prod.fst (append_eq buffer value)
  have length : (write value).length = count :=
    (length_write value).trans (congrArg Prod.snd (append_eq buffer value)).symm
  refine ⟨⟨_, whole, length⟩, ?_, ?_, ?_, ?_, fun bs k after within read => ?_⟩
  · rw [← length]
    exact List.length_pos_of_ne_nil (numeral_ne_nil _)
  · rw [← length]
    exact length_write_le value
  · rw [← length, length_write]
  · have room : buffer.length ≤ (written ++ rest).length := by
      rw [whole, List.append_assoc, List.length_append]
      exact Nat.le_add_right ..
    obtain ⟨numeral, number⟩ := isNumeral_numeral value.toNat
    have front : write value <+: (written ++ rest).drop buffer.length := by
      rw [whole, List.append_assoc, List.drop_left]
      exact List.prefix_append ..
    have taken := Call.turn_of_yields room front (.varint numeral (length_write_le value))
    rwa [length, show denoted (write value) = value.toNat from number, UInt64.ofNat_toNat] at taken
  · rw [← length]
    exact varint_takes within read

namespace ZigZag

variable {w : Nat}

/-- The zigzag number as an integer: twice the number, or one less than twice its magnitude. -/
theorem toNat_encode_eq (v : BitVec w) :
    ((encode v).toNat : Int) = if 0 ≤ v.toInt then 2 * v.toInt else -2 * v.toInt - 1 := by
  have stands := Proto2.ofZigZag_encode v
  rw [Proto2.ofZigZag] at stands
  split at stands <;> split <;> omega

/-- A zigzag number has one bit more than the magnitude it stands for. -/
theorem length_encode_le_iff (v : BitVec w) {n : Nat} (positive : 1 ≤ n) :
    (Varint.numeral (encode v).toNat).length ≤ n ↔
      -2 ^ (7 * n - 1) ≤ v.toInt ∧ v.toInt < 2 ^ (7 * n - 1) := by
  obtain ⟨k, rfl⟩ := Nat.exists_eq_add_of_le' positive
  have power : 2 ^ (7 * (k + 1) - 1 + 1) = 128 ^ (k + 1) := by
    rw [show 7 * (k + 1) - 1 + 1 = 7 * (k + 1) by omega, Nat.pow_mul]
  rw [Varint.length_numeral_le_iff, ← power, ← Proto2.ofZigZag_range, Proto2.ofZigZag_encode]

/-- At every width the zigzag is a bijection that orders the numbers by their magnitude and never
wraps around. A signed field has the numeral of the zigzag as its payload, unless it holds zero and
is left out. The payload takes at most so many bytes just if the number has fewer bits than these
bytes have room for. -/
theorem encode_short (w : Width) :
    Function.LeftInverse decode (encode (w := w.bits)) ∧
      Function.RightInverse decode (encode (w := w.bits)) ∧
      (∀ v : BitVec w.bits,
        ((encode v).toNat : Int) = if 0 ≤ v.toInt then 2 * v.toInt else -2 * v.toInt - 1) ∧
      ∀ v : BitVec w.bits, ∃ payload, payload? (.int w) v = some payload ∧
        (∀ (e : Encoding) (id : UInt32), e.scalar id (.int w) v =
          if v = 0 then e else e.add (record id .varint payload)) ∧
        ∀ n, 1 ≤ n →
          (payload.length ≤ n ↔ -2 ^ (7 * n - 1) ≤ v.toInt ∧ v.toInt < 2 ^ (7 * n - 1)) := by
  refine ⟨decode_encode, encode_decode, toNat_encode_eq, fun v => ⟨_, rfl, fun e id => ?_, ?_⟩⟩
  · rw [Encoding.scalar]
    simp only [ScalarType.isDefault, beq_iff_eq, payload?]
    rfl
  · exact fun n positive => length_encode_le_iff v positive

end ZigZag

end MessageCodec.Wire
