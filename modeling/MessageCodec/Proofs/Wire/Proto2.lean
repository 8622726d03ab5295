import MessageCodec.Proofs.Wire.Item
import MessageCodec.Schema.Proto

/-! Records as readers of the proto2 language take them. The types a `.proto` file declares decide
how a payload is read, and for each scalar type but one that gives the value that was written. The
exception is the character: it is declared as a zigzag number and written as a plain one. -/

namespace MessageCodec.Proto2

inductive Value where
  | bool (b : Bool)
  | integer (i : Int)
  | float (bits : UInt32)
  | double (bits : UInt64)
  | text (s : String)
  | bytes (bs : Bytes)
  deriving DecidableEq

inductive Form where
  | bool
  | plain (bits : Nat)
  | zigzag (bits : Nat)
  | float | double | text | bytes
  deriving DecidableEq

/-- The number of the base-128 numeral at the start, and what follows it. -/
def numeral? : Bytes → Option (Nat × Bytes)
  | [] => none
  | b :: bs =>
    if b < 128 then some (b.toNat, bs)
    else (numeral? bs).map fun (n, rest) => (b.toNat % 128 + 128 * n, rest)

/-- What a zigzag number stands for: 0, -1, 1, -2, 2, and so on. -/
def ofZigZag (n : Nat) : Int := if n % 2 = 0 then ↑(n / 2) else -↑(n / 2) - 1

def fixed? (n : Nat) (bs : Bytes) : Option (Nat × Bytes) :=
  (Bytes.split? n bs).map fun (digits, rest) => (Bytes.littleEndian digits, rest)

def delimited? (bs : Bytes) : Option (Bytes × Bytes) := do
  let (length, rest) ← numeral? bs
  Bytes.split? length rest

namespace Form

/-- The form of the payloads of a scalar type of the language. -/
def ofType? : String → Option Form
  | "bool" => some bool
  | "uint32" => some (plain 32)
  | "uint64" => some (plain 64)
  | "sint32" => some (zigzag 32)
  | "sint64" => some (zigzag 64)
  | "float" => some float
  | "double" => some double
  | "string" => some text
  | "bytes" => some bytes
  | _ => none

def wireType : Form → Nat
  | bool | plain _ | zigzag _ => 0
  | double => 1
  | text | bytes => 2
  | float => 5

/-- Reads a payload; numbers are cut down to the bits of their type. -/
def read? : Form → Bytes → Option (Value × Bytes)
  | bool, bs => (numeral? bs).map fun (n, rest) => (.bool (n != 0), rest)
  | plain bits, bs => (numeral? bs).map fun (n, rest) => (.integer ↑(n % 2 ^ bits), rest)
  | zigzag bits, bs => (numeral? bs).map fun (n, rest) => (.integer (ofZigZag (n % 2 ^ bits)), rest)
  | float, bs => (fixed? 4 bs).map fun (n, rest) => (.float (UInt32.ofNat n), rest)
  | double, bs => (fixed? 8 bs).map fun (n, rest) => (.double (UInt64.ofNat n), rest)
  | text, bs => do
    let (content, rest) ← delimited? bs
    return (.text (← Utf8.decode? content), rest)
  | bytes, bs => (delimited? bs).map fun (content, rest) => (.bytes content, rest)

end Form

/-- Reads the record of a field that is declared with a type: the number of the field, its value,
and what follows. A record with another wire type is not one of that field. -/
def read? (type : String) (bs : Bytes) : Option (Nat × Value × Bytes) := do
  let form ← Form.ofType? type
  let (key, rest) ← numeral? bs
  if key % 8 = form.wireType then
    (form.read? rest).map fun (v, rest) => (key / 8, v, rest)
  else none

/-- The value of a scalar, a character being its code point. -/
def Value.ofScalar : (t : ScalarType) → t.Value → Value
  | .bool, v => bool v
  | .char, v => integer v.toNat
  | .int _, v => integer v.toInt
  | .uint _, v => integer v.toNat
  | .float, v => float v
  | .double, v => double v
  | .string, v => text v
  | .bytes, v => bytes v

/-- The type whose form the records of a scalar type have. -/
def typeAsWritten (t : ScalarType) : String :=
  if t = .char then "uint32" else Schema.Proto.scalarType t

end Proto2

namespace Wire.ZigZag

/-- The zigzag number of a negative number has all other bits flipped. -/
theorem toNat_encode {w : Nat} (v : BitVec w) :
    (encode v).toNat =
      if v.msb then 2 ^ w - 1 - 2 * v.toNat % 2 ^ w else 2 * v.toNat % 2 ^ w := by
  have sign : v.sshiftRight (w - 1) = if v.msb then BitVec.allOnes w else 0#w := by
    apply BitVec.eq_of_getLsbD_eq
    intro i h
    rw [BitVec.getLsbD_sshiftRight, BitVec.msb_eq_getLsbD_last]
    rcases i with _ | i
    · have filled := Nat.ne_of_gt h
      cases v.getLsbD (w - 1) <;> simp [h, filled]
    · rw [if_neg (by omega)]
      cases v.getLsbD (w - 1) <;> simp [h]
  have shifted : (v <<< 1).toNat = 2 * v.toNat % 2 ^ w := by
    rw [BitVec.toNat_shiftLeft, Nat.shiftLeft_eq, Nat.pow_one, Nat.mul_comm]
  rw [encode, sign]
  split
  · rw [BitVec.xor_allOnes, BitVec.toNat_not, shifted]
  · rw [BitVec.xor_zero, shifted]

end Wire.ZigZag

namespace Proto2

open Schema.Proto (scalarType)
open Wire (Encoding WireType payload?)

theorem numeral?_numeral (n : Nat) (rest : Bytes) :
    numeral? (Wire.Varint.numeral n ++ rest) = some (n, rest) := by
  induction n using Nat.strongRecOn with
  | ind n ih =>
    rw [Wire.Varint.numeral]
    split
    · rename_i small
      obtain ⟨last, byte⟩ := Wire.Varint.last_digit small
      rw [List.singleton_append, numeral?, if_pos last, byte]
    · have digit := Nat.mod_lt n (Nat.zero_lt_succ 127)
      obtain ⟨more, byte⟩ := Wire.Varint.more_digit digit
      rw [List.cons_append, numeral?, if_neg more, byte, ih (n / 128) (by omega)]
      simp only [Option.map_some, Nat.add_mod_left, Nat.mod_mod, Nat.mod_add_div]

theorem ofZigZag_encode {w : Nat} (v : BitVec w) :
    ofZigZag (Wire.ZigZag.encode v).toNat = v.toInt := by
  have bound := v.isLt
  rw [Wire.ZigZag.toNat_encode, BitVec.toInt_eq_msb_cond, ofZigZag]
  cases sign : v.msb with
  | false =>
    rw [BitVec.msb_eq_false_iff_two_mul_lt] at sign
    rw [if_neg Bool.false_ne_true, if_neg Bool.false_ne_true, Nat.mod_eq_of_lt sign]
    omega
  | true =>
    rw [BitVec.msb_eq_true_iff_two_mul_ge] at sign
    cases w with
    | zero => omega
    | succ w =>
      have cut : 2 * v.toNat % 2 ^ (w + 1) = 2 * v.toNat - 2 ^ (w + 1) := by
        rw [Nat.mod_eq_sub_mod sign, Nat.mod_eq_of_lt (by omega)]
      rw [if_pos rfl, if_pos rfl, cut]
      rw [Nat.pow_succ'] at *
      omega

/-- A zigzag number is what it stands for only if that is zero. -/
theorem ofZigZag_ne {n : Nat} (positive : 0 < n) : ofZigZag n ≠ n := by
  rw [ofZigZag]
  split <;> omega

theorem delimited?_delimit (content rest : Bytes) :
    delimited? (Wire.delimit content ++ rest) = some (content, rest) := by
  rw [delimited?, Wire.delimit, List.append_assoc, numeral?_numeral]
  exact Bytes.split?_append content rest

theorem fixed?_ofLittleEndian (n value : Nat) (h : value < 256 ^ n) (rest : Bytes) :
    fixed? n (Bytes.ofLittleEndian n value ++ rest) = some (value, rest) := by
  have split := Bytes.split?_append (Bytes.ofLittleEndian n value) rest
  rw [Bytes.length_ofLittleEndian] at split
  rw [fixed?, split, Option.map_some]
  exact congrArg (fun number => some (number, rest)) (Bytes.littleEndian_ofLittleEndian n value h)

/-- A record of the wire type of a form is read as its payload is in that form. -/
theorem read?_record {type : String} {form : Form} (known : Form.ofType? type = some form)
    {wireType : WireType} (same : wireType.number = form.wireType) (id : UInt32)
    (payload rest : Bytes) :
    read? type (Wire.record id wireType payload ++ rest) =
      (form.read? (payload ++ rest)).map fun (v, rest) => (id.toNat, v, rest) := by
  have small := wireType.number_lt
  have key := Wire.Key.toNat_encode id wireType
  have number : (Wire.Key.encode id wireType).toNat / 8 = id.toNat := by omega
  have typed : (Wire.Key.encode id wireType).toNat % 8 = form.wireType := by omega
  rw [read?, known, Wire.record, Wire.Varint.write, List.append_assoc]
  simp only [Option.bind_eq_bind, Option.bind_some, numeral?_numeral, if_pos typed, number]

theorem read?_plain {bits n : Nat} (fits : n < 2 ^ bits) (rest : Bytes) :
    (Form.plain bits).read? (Wire.Varint.numeral n ++ rest) = some (.integer n, rest) := by
  simp only [Form.read?, numeral?_numeral, Option.map_some, Nat.mod_eq_of_lt fits]

theorem read?_zigzag {bits n : Nat} (fits : n < 2 ^ bits) (rest : Bytes) :
    (Form.zigzag bits).read? (Wire.Varint.numeral n ++ rest) =
      some (.integer (ofZigZag n), rest) := by
  simp only [Form.read?, numeral?_numeral, Option.map_some, Nat.mod_eq_of_lt fits]

/-- A number of fewer bits is read as it is. -/
theorem read?_zigzag_encode {bits w : Nat} (v : BitVec w) (fits : w ≤ bits) (rest : Bytes) :
    (Form.zigzag bits).read? (Wire.Varint.numeral (Wire.ZigZag.encode v).toNat ++ rest) =
      some (.integer v.toInt, rest) := by
  rw [read?_zigzag ((Wire.ZigZag.encode v).toNat_lt_twoPow_of_le fits), ofZigZag_encode]

/-- A payload has the form of a type of the language, and stands for the value in that form. -/
theorem read?_payload {t : ScalarType} {v : t.Value} {payload : Bytes}
    (written : payload? t v = some payload) :
    ∃ form, Form.ofType? (typeAsWritten t) = some form ∧
      (WireType.ofScalar t).number = form.wireType ∧
      ∀ rest, form.read? (payload ++ rest) = some (.ofScalar t v, rest) := by
  cases t with
  | bool =>
    cases written
    refine ⟨.bool, by decide, rfl, fun rest => ?_⟩
    rw [Form.read?, numeral?_numeral]
    cases v <;> rfl
  | char =>
    simp only [payload?, Option.ite_none_right_eq_some, Option.some.injEq] at written
    obtain ⟨latin, rfl⟩ := written
    exact ⟨.plain 32, by decide, rfl, read?_plain (Nat.lt_trans latin (by decide))⟩
  | int w =>
    cases written
    cases w with
    | w64 => exact ⟨.zigzag 64, by decide, rfl, read?_zigzag_encode v (by decide)⟩
    | _ => exact ⟨.zigzag 32, by decide, rfl, read?_zigzag_encode v (by decide)⟩
  | uint w =>
    cases written
    cases w with
    | w64 => exact ⟨.plain 64, by decide, rfl, read?_plain (v.toNat_lt_twoPow_of_le (by decide))⟩
    | _ => exact ⟨.plain 32, by decide, rfl, read?_plain (v.toNat_lt_twoPow_of_le (by decide))⟩
  | float =>
    cases written
    refine ⟨.float, by decide, rfl, fun rest => ?_⟩
    simp only [Form.read?, fixed?_ofLittleEndian 4 _ v.toNat_lt, Option.map_some,
      UInt32.ofNat_toNat]
    rfl
  | double =>
    cases written
    refine ⟨.double, by decide, rfl, fun rest => ?_⟩
    simp only [Form.read?, fixed?_ofLittleEndian 8 _ v.toNat_lt, Option.map_some,
      UInt64.ofNat_toNat]
    rfl
  | string =>
    cases written
    refine ⟨.text, by decide, rfl, fun rest => ?_⟩
    simp only [Form.read?, delimited?_delimit, Option.bind_eq_bind, Option.bind_some,
      Utf8.decode?_encode]
    rfl
  | bytes =>
    cases written
    refine ⟨.bytes, by decide, rfl, fun rest => ?_⟩
    rw [Form.read?, delimited?_delimit]
    rfl

/-- The declared type takes the code point of a character for a zigzag number. -/
theorem read?_scalarType_char {c : Char} {payload : Bytes}
    (written : payload? .char c = some payload) (id : UInt32) (rest : Bytes) :
    read? (scalarType .char) (Wire.record id (.ofScalar .char) payload ++ rest) =
      some (id.toNat, .integer (ofZigZag c.toNat), rest) := by
  have declared : Form.ofType? (scalarType .char) = some (.zigzag 32) := by decide
  simp only [payload?, Option.ite_none_right_eq_some, Option.some.injEq] at written
  obtain ⟨latin, rfl⟩ := written
  rw [read?_record declared rfl, read?_zigzag (Nat.lt_trans latin (by decide))]
  rfl

/-- What an encoding gains where a scalar is written. -/
theorem bytes_scalar {e : Encoding} {id : UInt32} {t : ScalarType} {v : t.Value}
    (written : (e.scalar id t v).bytes ≠ e.bytes) :
    t.isDefault v = false ∧ ∃ payload, payload? t v = some payload ∧
      (e.scalar id t v).bytes = e.bytes ++ Wire.record id (.ofScalar t) payload := by
  rw [Encoding.scalar] at written ⊢
  split at written
  · exact absurd rfl written
  · rename_i filled
    rw [if_neg filled]
    refine ⟨Bool.eq_false_iff.2 filled, ?_⟩
    cases held : payload? t v with
    | none =>
      rw [held] at written
      exact absurd rfl written
    | some payload =>
      refine ⟨payload, rfl, ?_⟩
      simp [Encoding.bytes, Encoding.add]

/-- The record that is written for a scalar is read as that scalar by a reader that is told the
type it is written in. For all scalars but characters that is the declared type; under the type
that is declared for it, every character is misread. -/
theorem read?_written {e : Encoding} {id : UInt32} {t : ScalarType} {v : t.Value}
    (written : (e.scalar id t v).bytes ≠ e.bytes) :
    ∃ record, (e.scalar id t v).bytes = e.bytes ++ record ∧ ∀ rest,
      read? (typeAsWritten t) (record ++ rest) = some (id.toNat, .ofScalar t v, rest) ∧
        (read? (scalarType t) (record ++ rest) = some (id.toNat, .ofScalar t v, rest) ↔
          t ≠ .char) := by
  obtain ⟨filled, payload, held, bytes⟩ := bytes_scalar written
  obtain ⟨form, known, same, value⟩ := read?_payload held
  refine ⟨_, bytes, fun rest => ?_⟩
  have read := read?_record known same id payload rest
  rw [value, Option.map_some] at read
  refine ⟨read, fun declared char => ?_, fun other => ?_⟩
  · subst char
    rw [read?_scalarType_char held] at declared
    simp only [Value.ofScalar, Option.some.injEq, Prod.mk.injEq, Value.integer.injEq, true_and,
      and_true] at declared
    refine ofZigZag_ne (Nat.pos_of_ne_zero fun zero => ?_) declared
    obtain rfl : v = '\x00' := Char.toNat_inj.1 zero
    cases filled
  · rwa [typeAsWritten, if_neg other] at read

/-- The least number of 8 bits, behind the record of another field. -/
theorem read?_written_least :
    ((Encoding.empty.scalar 1 .bool true).scalar 2 (.int .w8) (.intMin 8)).bytes ≠
        (Encoding.empty.scalar 1 .bool true).bytes ∧
      ∃ record,
        ((Encoding.empty.scalar 1 .bool true).scalar 2 (.int .w8) (.intMin 8)).bytes =
          (Encoding.empty.scalar 1 .bool true).bytes ++ record ∧
        read? "sint32" (record ++ [0x18]) = some (2, .integer (-128), [0x18]) := by
  have written : ((Encoding.empty.scalar 1 .bool true).scalar 2 (.int .w8) (.intMin 8)).bytes ≠
      (Encoding.empty.scalar 1 .bool true).bytes := by decide +kernel
  obtain ⟨record, bytes, read⟩ := read?_written written
  exact ⟨written, record, bytes, (read [0x18]).1⟩

/-- The letter is written as 65, which as a zigzag number is -33. -/
theorem read?_letter :
    (Encoding.empty.scalar 1 .char 'A').bytes = [0x08, 0x41] ∧
      read? (scalarType .char) (Encoding.empty.scalar 1 .char 'A').bytes =
        some (1, .integer (-33), []) ∧
      read? (scalarType .char) (Encoding.empty.scalar 1 .char 'A').bytes ≠
        some (1, .ofScalar .char 'A', []) := by
  decide +kernel

end Proto2

end MessageCodec
