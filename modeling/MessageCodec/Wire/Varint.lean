import MessageCodec.Bytes

/-! Base-128 numerals, least significant digit first: all bytes but the last have the top bit set. A
numeral of a 64-bit number has at most ten bytes; longer ones are refused, and what ten bytes
hold above 64 bits is dropped. Signed numbers are put in the order 0, -1, 1, -2, 2, and so on, so
that those of small magnitude have short numerals. -/

namespace MessageCodec.Wire.Varint

/-- Most bytes a numeral may have. -/
def maxLength : Nat := 10

/-- The shortest numeral of a number. -/
def numeral (n : Nat) : Bytes :=
  if n < 128 then [UInt8.ofNat n] else UInt8.ofNat (128 + n % 128) :: numeral (n / 128)

def write (value : UInt64) : Bytes := numeral value.toNat

theorem toNat_dropDigit (value : UInt64) : (value >>> 7).toNat = value.toNat / 128 := by
  rw [UInt64.toNat_shiftRight, Nat.shiftRight_eq_div_pow]
  rfl

theorem dropDigit_lt {value : UInt64} (h : 0x80 ≤ value) : (value >>> 7).toNat < value.toNat := by
  have large : 128 ≤ value.toNat := UInt64.le_iff_toNat_le.1 h
  rw [toNat_dropDigit]
  omega

/-- The buffer with a number behind it. The lowest seven bits go first, and the top bit says whether
there are more. -/
def push (buffer : Bytes) (value : UInt64) : Bytes :=
  if h : 0x80 ≤ value then
    have := dropDigit_lt h
    push (buffer ++ [(value.toUInt8 &&& 0x7F) ||| 0x80]) (value >>> 7)
  else buffer ++ [value.toUInt8]
termination_by value.toNat

/-- Writes a number behind a buffer, and counts the bytes that it takes. -/
def append (buffer : Bytes) (value : UInt64) : Bytes × Nat :=
  let written := push buffer value
  (written, written.length - buffer.length)

/-- Number of bytes of a number's shortest numeral: one for each seven bits begun. -/
def size (value : UInt64) : Nat := (Nat.log2 (value.toNat ||| 1) + 7) / 7

inductive Fault where
  | truncated
  | tooLong
  deriving DecidableEq

/-- The number denoted by the numeral of at most `limit` bytes at the start, and the bytes after
it. -/
def readNumeral : Nat → Bytes → Except Fault (Nat × Bytes)
  | 0, _ => .error .tooLong
  | _ + 1, [] => .error .truncated
  | limit + 1, b :: bs =>
    if b < 128 then .ok (b.toNat, bs)
    else (readNumeral limit bs).map fun (n, rest) => (b.toNat % 128 + 128 * n, rest)

/-- Reads a 64-bit number from the start of some bytes. -/
def read (bs : Bytes) : Except Fault (UInt64 × Bytes) :=
  (readNumeral maxLength bs).map fun (n, rest) => (UInt64.ofNat n, rest)

theorem length_readNumeral {limit n : Nat} {bs rest : Bytes}
    (h : readNumeral limit bs = .ok (n, rest)) : rest.length < bs.length := by
  fun_induction readNumeral limit bs generalizing n rest with
  | case1 => cases h
  | case2 => cases h
  | case3 => cases h; simp
  | case4 limit b bs _ ih =>
    cases hr : readNumeral limit bs with
    | error e => simp [hr, Except.map] at h
    | ok pair =>
      simp only [hr, Except.map, Except.ok.injEq, Prod.mk.injEq] at h
      have := @ih pair.1 rest (by rw [hr, ← h.2])
      simp only [List.length_cons]
      omega

theorem length_read {bs rest : Bytes} {value : UInt64} (h : read bs = .ok (value, rest)) :
    rest.length < bs.length := by
  unfold read at h
  cases hr : readNumeral maxLength bs with
  | error e => simp [hr, Except.map] at h
  | ok pair =>
    simp only [hr, Except.map, Except.ok.injEq, Prod.mk.injEq] at h
    exact h.2 ▸ length_readNumeral hr

end MessageCodec.Wire.Varint

namespace MessageCodec.Wire.ZigZag

variable {w : Nat}

/-- The sign moves to the lowest bit, and the other bits of a negative number are flipped. -/
def encode (v : BitVec w) : BitVec w := (v <<< 1) ^^^ v.sshiftRight (w - 1)

def decode (u : BitVec w) : BitVec w := (u >>> 1) ^^^ -(u &&& 1)

end MessageCodec.Wire.ZigZag
