import MessageCodec.Proofs.Fields
import MessageCodec.Proofs.Wire.Item

/-! What a message leaves in its binary form: one payload for each field that is
neither default nor without a form, under the identifier of the field. The binary
form is the run of these records in the order of the fields, and scanning it gives
the payloads back. -/

namespace MessageCodec

namespace Wire

def Payload.ofScalar? : (t : ScalarType) → t.Value → Option Payload
  | .bool, v => some (varint (UInt64.ofNat v.toNat))
  | .char, v => if v.toNat < 256 then some (varint (UInt64.ofNat v.toNat)) else none
  | .int _, v => some (varint (UInt64.ofNat (ZigZag.encode v).toNat))
  | .uint _, v => some (varint (UInt64.ofNat v.toNat))
  | .float, v => some (fixed32 v)
  | .double, v => some (fixed64 v)
  | .string, v => some (delimited (Utf8.encode v))
  | .bytes, v => some (delimited v)

/-- The payload that a scalar field leaves in the binary form. -/
def Payload.ofField? (s : Scalar) : Option Payload :=
  if s.isDefault then none else ofScalar? s.type s.value

namespace Table

def records (table : Table) : List Bytes := table.map fun (id, p) => record id p.type p.bytes

def bytes (table : Table) : Bytes := table.records.flatten

def items (table : Table) : List Item := table.map fun (id, p) => ⟨Key.encode id p.type, p⟩

/-- The payload that a nested message with this table leaves in the binary form. -/
def payload? (table : Table) : Option Payload :=
  if table.isEmpty then none else some (.delimited table.bytes)

/-- A payload, if there is one, in front of a table. -/
def front (id : UInt32) : Option Payload → Table → Table
  | some p, table => (id, p) :: table
  | none, table => table

end Table

end Wire

open Wire

/-- The payloads that fields leave in the binary form, in order. -/
def Fields.table : Fields → Table
  | nil => []
  | scalar tag s rest => .front tag.id (Payload.ofField? s) rest.table
  | nested tag _ inner rest => .front tag.id inner.table.payload? rest.table

namespace Wire

namespace Payload

theorem toNat_lt_of_width (w : Width) (v : BitVec w.bits) : v.toNat < UInt64.size := by
  have bits : w.bits ≤ 64 := by cases w <;> decide
  exact Nat.lt_of_lt_of_le v.isLt (Nat.pow_le_pow_right (by decide) bits)

theorem toNat_ofNat {n : Nat} (h : n < UInt64.size) : (UInt64.ofNat n).toNat = n := by
  rw [UInt64.toNat_ofNat']
  exact Nat.mod_eq_of_lt h

theorem toNat_charOfNat {n : Nat} (latin : n < 256) : (Char.ofNat n).toNat = n := by
  rw [Char.ofNat, dif_pos (Or.inl (Nat.lt_trans latin (by decide)))]
  rfl

theorem bytes_varint {n : Nat} (h : n < UInt64.size) :
    (varint (UInt64.ofNat n)).bytes = Varint.numeral n := by
  rw [bytes, Varint.write, toNat_ofNat h]

theorem payload?_eq (t : ScalarType) (v : t.Value) :
    payload? t v = (ofScalar? t v).map bytes := by
  cases t with
  | bool => cases v <;> rfl
  | char =>
    simp only [payload?, ofScalar?]
    split
    · rename_i latin
      rw [Option.map_some, bytes_varint (Nat.lt_trans latin (by decide))]
    · rfl
  | int w => simp only [payload?, ofScalar?, Option.map_some, bytes_varint (toNat_lt_of_width w _)]
  | uint w => simp only [payload?, ofScalar?, Option.map_some, bytes_varint (toNat_lt_of_width w _)]
  | float => rfl
  | double => rfl
  | string => rfl
  | bytes => rfl

theorem type_ofScalar? {t : ScalarType} {v : t.Value} {p : Payload} (h : ofScalar? t v = some p) :
    p.type = .ofScalar t := by
  cases t with
  | char =>
    simp only [ofScalar?, Option.ite_none_right_eq_some, Option.some.injEq] at h
    rw [← h.2]
    rfl
  | _ => cases h; rfl

theorem fit?_ofScalar? {t : ScalarType} {v : t.Value} {p : Payload} (h : ofScalar? t v = some p) :
    fit? t p = some v := by
  cases t with
  | bool => cases h; cases v <;> rfl
  | char =>
    simp only [ofScalar?, Option.ite_none_right_eq_some, Option.some.injEq] at h
    obtain ⟨latin, rfl⟩ := h
    rw [fit?, toNat_ofNat (Nat.lt_trans latin (by decide)), Nat.mod_eq_of_lt latin, Char.ofNat_toNat]
  | int w =>
    cases h
    rw [fit?, toNat_ofNat (toNat_lt_of_width w _), BitVec.ofNat_toNat, BitVec.setWidth_eq,
      ZigZag.decode_encode]
  | uint w =>
    cases h
    rw [fit?, toNat_ofNat (toNat_lt_of_width w _), BitVec.ofNat_toNat, BitVec.setWidth_eq]
  | float => cases h; rfl
  | double => cases h; rfl
  | string => cases h; exact Utf8.decode?_encode v
  | bytes => cases h; rfl

end Payload

namespace Table

theorem bytes_cons (id : UInt32) (p : Payload) (table : Table) :
    bytes ((id, p) :: table) = record id p.type p.bytes ++ table.bytes := rfl

theorem bytes_eq_flatMap (table : Table) : table.bytes = table.items.flatMap Item.bytes := by
  rw [bytes, records, items, List.flatMap_map]
  rfl

theorem isEmpty_bytes (table : Table) : table.bytes.isEmpty = table.isEmpty := by
  cases table with
  | nil => rfl
  | cons entry table => simp [bytes_eq_flatMap, items, Item.bytes_ne_nil]

end Table

namespace Encoding

theorem records_scalar (e : Encoding) (id : UInt32) (s : Scalar) (behind : Table) :
    (e.scalar id s.type s.value).records ++ behind.records =
      e.records ++ (Table.front id (Payload.ofField? s) behind).records := by
  rw [scalar, Payload.ofField?, Scalar.isDefault, Payload.payload?_eq]
  split
  · rfl
  · cases h : Payload.ofScalar? s.type s.value with
    | none => rfl
    | some p => simp [Table.records, Table.front, add, Payload.type_ofScalar? h]

theorem records_message (e inner : Encoding) (id : UInt32) {table : Table}
    (h : inner.records = table.records) (behind : Table) :
    (e.message id inner).records ++ behind.records =
      e.records ++ (Table.front id table.payload? behind).records := by
  have bytes : inner.bytes = table.bytes := congrArg List.flatten h
  rw [message, bytes, Table.isEmpty_bytes, Table.payload?]
  split
  · rfl
  · simp [Table.records, Table.front, add, Payload.type, Payload.bytes]

/-- The encoder writes the records of the fields and leaves the message as it is. -/
theorem walk_pass (fs : Fields) (e : Encoding) :
    (fs.walk pass e).1 = fs ∧ (fs.walk pass e).2.records = e.records ++ fs.table.records := by
  induction fs generalizing e with
  | nil => exact ⟨rfl, (List.append_nil _).symm⟩
  | scalar tag s rest ih =>
    obtain ⟨same, written⟩ := ih (e.scalar tag.id s.type s.value)
    rw [records_scalar] at written
    exact ⟨congrArg (Fields.scalar tag s) same, written⟩
  | nested tag header inner rest ihInner ih =>
    obtain ⟨sameInner, writtenInner⟩ := ihInner empty
    obtain ⟨same, written⟩ := ih (e.message tag.id (inner.walk pass empty).2)
    rw [records_message e _ tag.id writtenInner] at written
    exact ⟨congr (congrArg (Fields.nested tag header) sameInner) same, written⟩

end Encoding

theorem encode_eq (m : Message) : encode m = m.fields.table.bytes :=
  congrArg List.flatten (Encoding.walk_pass m.fields .empty).2

end Wire

end MessageCodec
