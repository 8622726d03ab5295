import MessageCodec.Proofs.Bytes
import MessageCodec.Proofs.Wire.Numeral
import MessageCodec.Wire.Decoder
import MessageCodec.Wire.Encoder

/-! The bytes of one record and of a run of records, and how a buffer is scanned.
A record is read back whatever follows it, so scanning a run of records gives
exactly these records and goes on with what stands behind them. -/

namespace MessageCodec.Wire

namespace WireType

theorem ofNumber?_number (t : WireType) : ofNumber? t.number = some t := by
  cases t <;> rfl

theorem number_lt (t : WireType) : t.number < 8 := by
  cases t <;> decide

end WireType

namespace Key

theorem toNat_encode (id : UInt32) (type : WireType) :
    (encode id type).toNat = 8 * id.toNat + type.number := by
  have hi := id.toNat_lt
  have ht := type.number_lt
  rw [encode, UInt64.toNat_ofNat']
  omega

theorem typeNumber_encode (id : UInt32) (type : WireType) :
    typeNumber (encode id type) = type.number := by
  have ht := type.number_lt
  rw [typeNumber, toNat_encode]
  omega

theorem id?_encode (id : UInt32) (type : WireType) : id? (encode id type) = some id := by
  have ht := type.number_lt
  have number : fieldNumber (encode id type) = id.toNat := by
    rw [fieldNumber, toNat_encode]
    omega
  rw [id?, number, if_pos id.toNat_lt, UInt32.ofNat_toNat]

end Key

/-- Can the length in front of a payload be written in 64 bits? -/
def Payload.Fits : Payload → Prop
  | delimited bs => bs.length < UInt64.size
  | _ => True

def Payload.bytes : Payload → Bytes
  | varint value => Varint.write value
  | fixed64 value => Bytes.ofLittleEndian 8 value.toNat
  | delimited bs => delimit bs
  | fixed32 value => Bytes.ofLittleEndian 4 value.toNat

namespace Cursor

variable (buffer rest : Bytes)

theorem bytes_append (bs : Bytes) :
    bytes bs.length ⟨buffer, bs ++ rest⟩ = .ok (bs, ⟨buffer, rest⟩) := by
  simp only [bytes, Bytes.split?_append]

theorem u32_append (value : UInt32) :
    u32 ⟨buffer, Bytes.ofLittleEndian 4 value.toNat ++ rest⟩ = .ok (value, ⟨buffer, rest⟩) := by
  have read := bytes_append buffer rest (Bytes.ofLittleEndian 4 value.toNat)
  rw [Bytes.length_ofLittleEndian] at read
  simp only [u32, read, Except.map, Bytes.littleEndian_ofLittleEndian 4 _ value.toNat_lt,
    UInt32.ofNat_toNat]

theorem u64_append (value : UInt64) :
    u64 ⟨buffer, Bytes.ofLittleEndian 8 value.toNat ++ rest⟩ = .ok (value, ⟨buffer, rest⟩) := by
  have read := bytes_append buffer rest (Bytes.ofLittleEndian 8 value.toNat)
  rw [Bytes.length_ofLittleEndian] at read
  simp only [u64, read, Except.map, Bytes.littleEndian_ofLittleEndian 8 _ value.toNat_lt,
    UInt64.ofNat_toNat]

theorem varint_append (value : UInt64) :
    varint ⟨buffer, Varint.write value ++ rest⟩ = .ok (value, ⟨buffer, rest⟩) := by
  simp only [varint, Varint.read_write]

theorem delimited_append {bs : Bytes} (h : bs.length < UInt64.size) :
    delimited ⟨buffer, delimit bs ++ rest⟩ = .ok (bs, ⟨buffer, rest⟩) := by
  have length : (UInt64.ofNat bs.length).toNat = bs.length := by
    rw [UInt64.toNat_ofNat']
    exact Nat.mod_eq_of_lt h
  simp only [delimited, varint, delimit, List.append_assoc, Varint.read_numeral h, length,
    Bytes.split?_append]

end Cursor

theorem Payload.read_append (buffer rest : Bytes) {p : Payload} (fits : p.Fits) :
    Payload.read ⟨buffer, p.bytes ++ rest⟩ p.type = .ok (p, ⟨buffer, rest⟩) := by
  cases p with
  | varint value => simp only [read, type, bytes, Cursor.varint_append, Except.map]
  | fixed64 value => simp only [read, type, bytes, Cursor.u64_append, Except.map]
  | delimited bs =>
    simp only [read, type, bytes, Cursor.delimited_append buffer rest fits, Except.map]
  | fixed32 value => simp only [read, type, bytes, Cursor.u32_append, Except.map]

namespace Item

/-- A key of a known wire type in front of a payload of that type. -/
structure WellFormed (item : Item) : Prop where
  type : Key.typeNumber item.key = item.payload.type.number
  fits : item.payload.Fits

def bytes (item : Item) : Bytes := Varint.write item.key ++ item.payload.bytes

theorem bytes_ne_nil (item : Item) : item.bytes ≠ [] := by
  simp [bytes, Varint.write, Varint.numeral_ne_nil]

theorem read_append (buffer rest : Bytes) {item : Item} (well : item.WellFormed) :
    read ⟨buffer, item.bytes ++ rest⟩ = .ok (item, ⟨buffer, rest⟩) := by
  simp only [read, bytes, List.append_assoc, Cursor.varint_append, well.type,
    WireType.ofNumber?_number, Payload.read_append buffer rest well.fits, Except.map]

theorem readAll_nil (buffer : Bytes) : readAll ⟨buffer, []⟩ = ([], none) := by
  rw [readAll]
  rfl

theorem readAll_of_read {c after : Cursor} {item : Item} (h : read c = .ok (item, after)) :
    readAll c = (item :: (readAll after).1, (readAll after).2) := by
  have full : c.isEmpty = false := by
    have shorter := length_read h
    rw [Cursor.isEmpty, List.isEmpty_eq_false_iff_exists_mem]
    exact List.exists_mem_of_length_pos (Nat.zero_lt_of_lt shorter)
  rw [readAll, if_neg (by simp [full])]
  split
  · rename_i failed
    rw [h] at failed
    cases failed
  · rename_i taken
    rw [h] at taken
    cases taken
    rfl

theorem readAll_append (buffer rest : Bytes) (items : List Item)
    (well : ∀ item ∈ items, item.WellFormed) :
    readAll ⟨buffer, items.flatMap bytes ++ rest⟩ =
      (items ++ (readAll ⟨buffer, rest⟩).1, (readAll ⟨buffer, rest⟩).2) := by
  induction items with
  | nil => rfl
  | cons item items ih =>
    rw [List.forall_mem_cons] at well
    rw [List.flatMap_cons, List.append_assoc, readAll_of_read (read_append buffer _ well.1),
      ih well.2]
    rfl

end Item

end MessageCodec.Wire
