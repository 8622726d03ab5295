import Mathlib.Algebra.Group.Int.Defs
import MessageCodec.Proofs.Wire.Fitting
import MessageCodec.Proofs.Wire.Proto2

/-! Numbers that are too large for their fields. A varint has 64 bits and stands for a number, and a
field of a narrower type takes its lowest bits. If the number is in the range of the type, the field
holds it afterwards; if not, the field holds another one, and nothing is noted. -/

namespace MessageCodec

namespace Proto2

theorem ofZigZag_toNat {w : Nat} (u : BitVec w) :
    ofZigZag u.toNat = (Wire.ZigZag.decode u).toInt := by
  rw [← ofZigZag_encode, Wire.ZigZag.encode_decode]

theorem ofZigZag_inj {m n : Nat} : ofZigZag m = ofZigZag n ↔ m = n := by
  rw [ofZigZag, ofZigZag]
  split <;> split <;> omega

/-- The zigzag numbers of some bits stand for the signed numbers of as many. -/
theorem ofZigZag_range (k n : Nat) :
    (-2 ^ k ≤ ofZigZag n ∧ ofZigZag n < 2 ^ k) ↔ n < 2 ^ (k + 1) := by
  have power : (2 : Int) ^ k = ((2 ^ k : Nat) : Int) := (Int.natCast_pow 2 k).symm
  rw [power, ofZigZag, Nat.pow_succ]
  split <;> omega

end Proto2

namespace ScalarType

/-- Number of bits that a field for characters or integers takes of a varint. -/
def bits? : ScalarType → Option Nat
  | char => some 8
  | int w => some w.bits
  | uint w => some w.bits
  | _ => none

def number? : (t : ScalarType) → t.Value → Option Int
  | char, c => some c.toNat
  | int _, v => some v.toInt
  | uint _, v => some v.toNat
  | _, _ => none

/-- Is the number in the range of such a type? Characters go up to U+00FF. -/
def Holds : ScalarType → Int → Prop
  | char, n => 0 ≤ n ∧ n < 256
  | int w, n => -2 ^ (w.bits - 1) ≤ n ∧ n < 2 ^ (w.bits - 1)
  | uint w, n => 0 ≤ n ∧ n < 2 ^ w.bits
  | _, _ => False

/-- The number that a varint stands for. The zigzag of a signed one is undone in 64 bits. -/
def meant (t : ScalarType) (raw : UInt64) : Int :=
  if t.isSigned then (Wire.ZigZag.decode raw.toBitVec).toInt else raw.toNat

end ScalarType

namespace Wire

/-- What is left of a varint when it is cut down to its lowest bits. -/
def lowest (bits : Nat) (raw : UInt64) : UInt64 := .ofNat (raw.toNat % 2 ^ bits)

variable {t : ScalarType} {bits : Nat}

theorem toNat_lowest (bits : Nat) (raw : UInt64) :
    (lowest bits raw).toNat = raw.toNat % 2 ^ bits :=
  Payload.toNat_ofNat (Nat.lt_of_le_of_lt (Nat.mod_le ..) raw.toNat_lt)

theorem lowest_eq_iff (bits : Nat) (raw : UInt64) :
    lowest bits raw = raw ↔ raw.toNat < 2 ^ bits := by
  rw [← UInt64.toNat_inj, toNat_lowest, Nat.mod_eq_iff_lt (Nat.ne_of_gt (Nat.two_pow_pos bits))]

theorem meant_eq (t : ScalarType) (raw : UInt64) :
    t.meant raw = if t.isSigned then Proto2.ofZigZag raw.toNat else ↑raw.toNat := by
  rw [ScalarType.meant, ← Proto2.ofZigZag_toNat]
  rfl

theorem meant_inj (t : ScalarType) {a b : UInt64} : t.meant a = t.meant b ↔ a = b := by
  rw [meant_eq, meant_eq, ← UInt64.toNat_inj]
  cases t.isSigned with
  | true => exact Proto2.ofZigZag_inj
  | false => exact Int.ofNat_inj

/-- A varint stands for a number in the range of a type just if it has no more bits. -/
theorem holds_meant (integral : t.bits? = some bits) (raw : UInt64) :
    t.Holds (t.meant raw) ↔ raw.toNat < 2 ^ bits := by
  have unsigned (n : Nat) : (0 ≤ (raw.toNat : Int) ∧ (raw.toNat : Int) < 2 ^ n) ↔
      raw.toNat < 2 ^ n := by
    have power : (2 : Int) ^ n = ((2 ^ n : Nat) : Int) := (Int.natCast_pow 2 n).symm
    rw [power]
    omega
  rw [meant_eq]
  cases t with
  | char =>
    cases integral
    exact unsigned 8
  | uint w =>
    cases integral
    exact unsigned w.bits
  | int w =>
    cases integral
    have positive : w.bits - 1 + 1 = w.bits := by cases w <;> rfl
    rw [← positive]
    exact Proto2.ofZigZag_range (w.bits - 1) raw.toNat
  | _ => cases integral

theorem fit?_varint (integral : t.bits? = some bits) (raw : UInt64) :
    ∃ v, fit? t (.varint raw) = some v ∧ t.number? v = some (t.meant (lowest bits raw)) := by
  rw [meant_eq, toNat_lowest]
  cases t with
  | char =>
    cases integral
    have latin := Payload.toNat_charOfNat (Nat.mod_lt raw.toNat (by decide : 0 < 256))
    exact ⟨_, rfl, congrArg (fun n : Nat => some (n : Int)) latin⟩
  | uint w =>
    cases integral
    have cut : (BitVec.ofNat w.bits raw.toNat).toNat = _ := BitVec.toNat_ofNat ..
    exact ⟨_, rfl, congrArg (fun n : Nat => some (n : Int)) cut⟩
  | int w =>
    cases integral
    have cut : (BitVec.ofNat w.bits raw.toNat).toNat = _ := BitVec.toNat_ofNat ..
    refine ⟨_, rfl, congrArg some ?_⟩
    rw [← Proto2.ofZigZag_toNat, cut]
    rfl
  | _ => cases integral

variable {m : Message} {s : Scalar} {bs : Bytes} {path : List UInt32} {raw : UInt64}

/-- A varint that is found for a field of a character or an integer, at any depth and whatever the
field holds, is cut down to the bits of its type. The field holds the number that the varint stands
for just if that is in the range of the type, and in no case is the varint counted among the
payloads that do not fit. More than 64 levels down the field keeps its value. -/
theorem decodeInto_varint (held : m.scalarAt? path = some s)
    (integral : s.type.bits? = some bits) (found : found? bs path = some (.varint raw)) :
    let decoded := decoder.decodeInto bs m
    (path.length ≤ maxLevels → ∃ v : s.type.Value,
      decoded.1.scalarAt? path = some ⟨s.type, v⟩ ∧
        s.type.number? v = some (s.type.meant (lowest bits raw)) ∧
        (s.type.number? v = some (s.type.meant raw) ↔ s.type.Holds (s.type.meant raw))) ∧
      (maxLevels < path.length → decoded.1.scalarAt? path = some s) ∧
      decoded.2.diagnostics.mismatched = m.fields.layout.countP (isMisfit 0 bs) ∧
      isMisfit 0 bs (path, .scalar s.type) = false := by
  intro decoded
  obtain ⟨v, fit, number⟩ := fit?_varint integral raw
  have after : decoded.1.scalarAt? path = some (filled (reached? 0 bs path) s) := by
    rw [scalarAt?_decodeInto, held, Option.map_some]
  have near (within : path.length ≤ maxLevels) : reached? 0 bs path = some (.varint raw) := by
    rw [reached?, if_pos (by omega), found]
  have deep (beyond : maxLevels < path.length) : reached? 0 bs path = none :=
    if_neg (by omega)
  refine ⟨fun within => ⟨v, ?_, number, ?_⟩, fun beyond => ?_, mismatched_decodeInto bs m, ?_⟩
  · rw [after, near within, filled, Option.bind_some, fit, Option.getD_some]
  · rw [number, Option.some.injEq, meant_inj, lowest_eq_iff, holds_meant integral]
  · rw [after, deep beyond, filled_none]
    rfl
  · rw [isMisfit]
    rcases Nat.lt_or_ge maxLevels path.length with beyond | within
    · rw [deep beyond]
      rfl
    · rw [near within, Option.any_some, accepts, fit]
      rfl

/-- In a nested message, 9 stands for -5. -/
theorem decodeInto_varint_nested :
    (sample 7 'b' 3 "kept").scalarAt? [3, 1] = some ⟨.int .w32, 3⟩ ∧
      ScalarType.bits? (.int .w32) = some 32 ∧
      found? [0x1A, 2, 0x08, 9] [3, 1] = some (.varint 9) ∧
      ∃ v : BitVec 32,
        (decoder.decodeInto [0x1A, 2, 0x08, 9] (sample 7 'b' 3 "kept")).1.scalarAt? [3, 1] =
          some ⟨.int .w32, v⟩ ∧
        v.toInt = -5 := by
  have held : (sample 7 'b' 3 "kept").scalarAt? [3, 1] = some ⟨.int .w32, 3⟩ := rfl
  have found : found? [0x1A, 2, 0x08, 9] [3, 1] = some (.varint 9) := by decide +kernel
  have integral : ScalarType.bits? (.int .w32) = some 32 := rfl
  obtain ⟨near, -⟩ := decodeInto_varint held integral found
  obtain ⟨v, after, number, -⟩ := near (by decide)
  exact ⟨held, integral, found, v, after, Option.some.inj number⟩

/-- For a character, 321 is cut down to 65, and nothing is noted. -/
theorem decodeInto_wideCharacter :
    (sample 7 'b' 3 "kept").scalarAt? [2] = some ⟨.char, 'b'⟩ ∧
      found? [0x10, 0xC1, 0x02] [2] = some (.varint 321) ∧
      ¬ ScalarType.Holds .char (ScalarType.meant .char 321) ∧
      (decoder.decodeInto [0x10, 0xC1, 0x02] (sample 7 'b' 3 "kept")).1.scalarAt? [2] =
        some ⟨.char, 'A'⟩ ∧
      (decoder.decodeInto [0x10, 0xC1, 0x02] (sample 7 'b' 3 "kept")).2.diagnostics.isClean := by
  have found : found? [0x10, 0xC1, 0x02] [2] = some (.varint 321) := by decide +kernel
  have outside : ¬ ScalarType.Holds .char (ScalarType.meant .char 321) :=
    fun inside => absurd inside.2 (by decide)
  refine ⟨rfl, found, outside, ?_, by decide +kernel⟩
  rw [scalarAt?_decodeInto, reached?, if_pos (by decide), found]
  rfl

end Wire

end MessageCodec
