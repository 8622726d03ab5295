import Mathlib.Algebra.Group.Nat.Defs
import MessageCodec.Bytes

/-! Round trips of the elementary byte forms: fixed-width numbers, a byte string
behind its length, and text in UTF-8. -/

namespace MessageCodec

namespace Bytes

@[simp] theorem length_ofLittleEndian (n value : Nat) : (ofLittleEndian n value).length = n := by
  induction n generalizing value with
  | zero => rfl
  | succ n ih => simp [ofLittleEndian, ih]

theorem littleEndian_ofLittleEndian (n value : Nat) (h : value < 256 ^ n) :
    littleEndian (ofLittleEndian n value) = value := by
  induction n generalizing value with
  | zero =>
    rw [Nat.pow_zero] at h
    simp [ofLittleEndian, littleEndian, show value = 0 by omega]
  | succ n ih =>
    have hq : value / 256 < 256 ^ n := by
      rw [Nat.div_lt_iff_lt_mul (by decide), ← Nat.pow_succ]
      exact h
    simp only [ofLittleEndian, littleEndian, ih _ hq, UInt8.toNat_ofNat']
    omega

theorem littleEndian_lt (bs : Bytes) : littleEndian bs < 256 ^ bs.length := by
  induction bs with
  | nil => exact Nat.one_pos
  | cons b bs ih =>
    have byte := b.toNat_lt
    rw [littleEndian, List.length_cons, Nat.pow_succ]
    omega

theorem bigEndian_ofBigEndian {n value : Nat} (h : value < 256 ^ n) :
    bigEndian (ofBigEndian n value) = value := by
  rw [bigEndian, ofBigEndian, List.reverse_reverse, littleEndian_ofLittleEndian n value h]

theorem bigEndian_lt (bs : Bytes) : bigEndian bs < 256 ^ bs.length := by
  have bound := littleEndian_lt bs.reverse
  rwa [List.length_reverse] at bound

theorem split?_eq (n : Nat) (bs : Bytes) :
    split? n bs = if n ≤ bs.length then some (bs.take n, bs.drop n) else none := by
  rw [split?, List.length_take]
  by_cases room : n ≤ bs.length
  · rw [if_pos (Nat.min_eq_left room), if_pos room]
  · rw [if_neg (by omega), if_neg room]

theorem split?_append (bs rest : Bytes) : split? bs.length (bs ++ rest) = some (bs, rest) := by
  simp [split?]

end Bytes

namespace Utf8

theorem decode?_encode (s : String) : decode? (encode s) = some s := by
  have octets : ByteArray.mk (encode s).toArray = s.toByteArray := by simp [encode]
  simp only [decode?, octets]
  rw [dif_pos s.isValidUTF8]

theorem encode_of_decode? {bs : Bytes} {s : String} (h : decode? bs = some s) : encode s = bs := by
  unfold decode? at h
  dsimp only at h
  split at h
  · cases h
    simp [encode]
  · cases h

end Utf8

end MessageCodec
