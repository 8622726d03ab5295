/-! Byte strings are lists of octets. This module reads and writes fixed-width numbers in either
byte order, and passes between text and its UTF-8 form. -/

namespace MessageCodec

abbrev Bytes := List UInt8

namespace Bytes

/-- The number whose base-256 digits, least significant first, are the given bytes. -/
def littleEndian : Bytes → Nat
  | [] => 0
  | b :: bs => b.toNat + 256 * littleEndian bs

/-- The lowest `n` base-256 digits of a number, least significant first. -/
def ofLittleEndian : Nat → Nat → Bytes
  | 0, _ => []
  | n + 1, value => UInt8.ofNat value :: ofLittleEndian n (value / 256)

/-- The number whose base-256 digits, most significant first, are the given bytes. -/
def bigEndian (bs : Bytes) : Nat := littleEndian bs.reverse

/-- The lowest `n` base-256 digits of a number, most significant first. -/
def ofBigEndian (n value : Nat) : Bytes := (ofLittleEndian n value).reverse

/-- The first `n` bytes and what follows them, when there are that many. -/
def split? (n : Nat) (bs : Bytes) : Option (Bytes × Bytes) :=
  if (bs.take n).length = n then some (bs.take n, bs.drop n) else none

theorem append_of_split? {n : Nat} {bs taken rest : Bytes} (h : split? n bs = some (taken, rest)) :
    taken ++ rest = bs ∧ taken.length = n := by
  unfold split? at h
  split at h
  · cases h
    exact ⟨List.take_append_drop n bs, by assumption⟩
  · cases h

theorem length_split? {n : Nat} {bs taken rest : Bytes} (h : split? n bs = some (taken, rest)) :
    rest.length ≤ bs.length := by
  rw [← (append_of_split? h).1, List.length_append]
  omega

end Bytes

namespace Utf8

def encode (s : String) : Bytes := s.toByteArray.data.toList

/-- The text that a byte string spells in UTF-8; surrogates and overlong forms are refused. -/
def decode? (bs : Bytes) : Option String :=
  let octets := ByteArray.mk bs.toArray
  if h : octets.IsValidUTF8 then some (String.ofByteArray octets h) else none

end Utf8

end MessageCodec
