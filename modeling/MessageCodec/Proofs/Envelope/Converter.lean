import MessageCodec.Envelope.Converter
import MessageCodec.Proofs.Envelope.Stream
import MessageCodec.Proofs.Record.Decode

/-! Envelopes given as bytes. A converter takes bytes for a frame where they open like one, and
reads them once more as a bare envelope where that gives no data type. A bare envelope
never opens like a frame, and to the second reading the header of a frame is one record
that does not fit the data type, so both ways lead to the envelope that was written. -/

namespace MessageCodec

namespace Fields

theorem alike_refl (fs : Fields) : fs.Alike fs := by
  induction fs with
  | nil => trivial
  | scalar tag s rest ih => exact ⟨rfl, rfl, ih⟩
  | nested tag header inner rest ihInner ih => exact ⟨rfl, ihInner, ih⟩

theorem overlay_self (fs : Fields) : fs.overlay fs = fs := by
  induction fs with
  | nil => rfl
  | scalar tag s rest ih => rw [overlay, ite_self, ih]
  | nested tag header inner rest ihInner ih => rw [overlay, ihInner, ih]

def wireTypes : Fields → List Wire.WireType
  | nil => []
  | scalar _ s rest => .ofScalar s.type :: rest.wireTypes
  | nested _ _ _ rest => .delimited :: rest.wireTypes

end Fields

namespace Wire

theorem Table.mem_front {id : UInt32} {p? : Option Payload} {table : Table}
    {entry : UInt32 × Payload} (mem : entry ∈ front id p? table) :
    p? = some entry.2 ∨ entry ∈ table := by
  cases p? with
  | none => exact .inr mem
  | some p =>
    obtain rfl | behind := List.mem_cons.1 mem
    · exact .inl rfl
    · exact .inr behind

theorem mem_wireTypes_of_mem_table {fs : Fields} {entry : UInt32 × Payload}
    (mem : entry ∈ fs.table) : entry.2.type ∈ fs.wireTypes := by
  induction fs with
  | nil => cases mem
  | scalar tag s rest ih =>
    obtain own | behind := Table.mem_front mem
    · rw [Payload.ofField?, Option.ite_none_left_eq_some] at own
      rw [Payload.type_ofScalar? own.2]
      exact List.mem_cons_self ..
    · exact List.mem_cons_of_mem _ (ih behind)
  | nested tag header inner rest ihInner ih =>
    obtain own | behind := Table.mem_front mem
    · rw [Table.payload?, Option.ite_none_left_eq_some, Option.some.injEq] at own
      rw [← own.2]
      exact List.mem_cons_self ..
    · exact List.mem_cons_of_mem _ (ih behind)

/-- The lowest bits of a number stand in the first byte of its numeral. -/
theorem Varint.head?_numeral {n : Nat} {b : UInt8} (head : (numeral n).head? = some b) :
    b.toNat % 8 = n % 8 := by
  rw [numeral] at head
  split at head <;> cases head <;> rw [UInt8.toNat_ofNat'] <;> omega

/-- The first byte of a run of records tells the wire type of the first one. -/
theorem Table.head?_bytes {table : Table} {b : UInt8} (head : table.bytes.head? = some b) :
    ∃ entry ∈ table, b.toNat % 8 = entry.2.type.number := by
  cases table with
  | nil => cases head
  | cons entry table =>
    obtain ⟨id, p⟩ := entry
    refine ⟨(id, p), List.mem_cons_self .., ?_⟩
    have filled := Varint.numeral_ne_nil (Key.encode id p.type).toNat
    rw [bytes_cons, record, List.append_assoc, Varint.write, List.head?_append_of_ne_nil _ filled]
      at head
    rw [Varint.head?_numeral head, Key.toNat_encode, Nat.mul_add_mod,
      Nat.mod_eq_of_lt p.type.number_lt]

end Wire

namespace Envelope

open Wire (WireType Payload Table Decoding)

theorem encode_eq_bytes (e : Envelope) : e.encode = e.toMessage.fields.table.bytes := by
  rw [encode_eq, Wire.encode_eq]

/-- No field of an envelope is written with four bytes, so its binary form does not open with the
mark of a frame, the key of such a field. -/
theorem head?_encode (e : Envelope) : e.encode.head? ≠ some 0x0D := by
  intro head
  rw [encode_eq_bytes] at head
  obtain ⟨entry, mem, type⟩ := Table.head?_bytes head
  have known : entry.2.type ∈ [WireType.varint, .delimited, .delimited, .delimited, .delimited,
    .varint] := Wire.mem_wireTypes_of_mem_table mem
  generalize entry.2.type = t at known type
  cases t with
  | fourBytes => exact absurd known (by decide)
  | _ => exact absurd type (by decide)

/-- Bytes that are taken for a frame open with its mark. -/
theorem head?_of_extract {bs : Bytes} {found : Envelope × Nat} (taken : extract bs = .ok found) :
    bs.head? = some 0x0D := by
  unfold extract at taken
  split at taken
  · split at taken
    · rename_i mark
      exact congrArg List.head? mark
    · cases taken
  · cases taken

theorem ofBytes_encode {e : Envelope} (fits : e.encode.length < UInt64.size) :
    ofBytes e.encode = e := by
  cases taken : extract e.encode with
  | ok found => exact absurd (head?_of_extract taken) e.head?_encode
  | error fault =>
    simp only [ofBytes, taken]
    exact (if_pos rfl).trans (decodeInto_encode_empty fits)

/-- The fields of an envelope behind its data type. -/
def behindType (e : Envelope) : Fields :=
  .scalar payloadTag ⟨.bytes, e.payload⟩ <|
    .nested sentTag TimeStamp.header e.sent.toMessage.fields <|
    .nested receivedTag TimeStamp.header e.received.toMessage.fields <|
    .nested sampledTag TimeStamp.header e.sampled.toMessage.fields <|
    .scalar senderTag ⟨.uint .w32, e.sender.toBitVec⟩ .nil

theorem fields_toMessage (e : Envelope) :
    e.toMessage.fields =
      .scalar dataTypeTag ⟨.int .w32, e.dataType.toBitVec⟩ e.behindType := rfl

/-- The header of a frame as the payload of a record of the data type. -/
def headerPayload (length : Nat) : Payload := .fixed32 (.ofNat (0xA4 + 256 * length))

/-- The five bytes of a header are one record, whose type does not fit the data type. -/
theorem frameHeader_eq_record {length : Nat} (fits : length ≤ maxFrameLength) :
    frameHeader length =
      Wire.record dataTypeTag.id (headerPayload length).type (headerPayload length).bytes := by
  have key : Wire.Varint.write (Wire.Key.encode dataTypeTag.id .fourBytes) = [0x0D] := by
    decide +kernel
  have small : (UInt32.ofNat (0xA4 + 256 * length)).toNat = 0xA4 + 256 * length := by
    rw [UInt32.toNat_ofNat']
    simp only [maxFrameLength] at fits
    omega
  have lowest : UInt8.ofNat (0xA4 + 256 * length) = 0xA4 := by
    rw [← UInt8.toNat_inj, UInt8.toNat_ofNat', Nat.add_mul_mod_self_left]
    rfl
  have others : (0xA4 + 256 * length) / 256 = length := by omega
  rw [headerPayload, Payload.type, Payload.bytes, Wire.record, key, small, Bytes.ofLittleEndian,
    lowest, others]
  rfl

/-- Without a data type, a frame is the run of the records of its fields behind that of the
header. -/
theorem frame_eq_bytes {e : Envelope} {frame : Bytes} (framed : e.frame = .ok frame)
    (untyped : e.dataType = 0) :
    frame =
      Table.bytes ((dataTypeTag.id, headerPayload e.encode.length) :: e.behindType.table) := by
  obtain ⟨fits, rfl⟩ := frame_eq_ok.1 framed
  have absent : Payload.ofField? ⟨.int .w32, e.dataType.toBitVec⟩ = none := by
    rw [untyped]
    rfl
  rw [Table.bytes_cons, ← frameHeader_eq_record fits, encode_eq_bytes, fields_toMessage,
    Fields.table, absent]
  rfl

/-- The data type is read first, and the other fields behind it. -/
theorem fst_walk_toMessage (e : Envelope) (d : Decoding) :
    (e.toMessage.walk Wire.decoder.toPass d).1 =
      let type := d.scalar dataTypeTag.id (.int .w32) e.dataType.toBitVec
      ⟨header, .scalar dataTypeTag ⟨.int .w32, type.1⟩
        (e.behindType.walk Wire.decoder.toPass type.2).1⟩ := by
  have whole : e.toMessage =
      ⟨header, .scalar dataTypeTag ⟨.int .w32, e.dataType.toBitVec⟩ e.behindType⟩ := rfl
  -- the walk over the fields behind is the same on both sides and need not be unfolded
  generalize e.behindType = behind at whole ⊢
  rw [whole]
  rfl

/-- The header of a frame does not fit the data type, which stays as it is. -/
theorem scalar_headerPayload (length : Nat) (behind : Table) (v : BitVec 32) :
    (⟨(dataTypeTag.id, headerPayload length) :: behind, [], .none, 0⟩ : Decoding).scalar
        dataTypeTag.id (.int .w32) v =
      (v, ⟨(dataTypeTag.id, headerPayload length) :: behind, [dataTypeTag.id], ⟨0, 1, 0⟩, 0⟩) := rfl

/-- Reading a frame as a bare envelope changes nothing in the envelope it holds, if that has no
data type. -/
theorem decodeInto_frame {e : Envelope} {frame : Bytes} (framed : e.frame = .ok frame)
    (untyped : e.dataType = 0) : decodeInto frame e = e := by
  obtain ⟨fresh, distinct⟩ := e.distinct_toMessage
  let table : Table := (dataTypeTag.id, headerPayload e.encode.length) :: e.behindType.table
  have whole : frame = table.bytes := frame_eq_bytes framed untyped
  have nodup : (table.map Prod.fst).Nodup :=
    List.nodup_cons.2 ⟨fun mem => fresh (Fields.mem_ids_of_mem_table mem), distinct.nodup_table⟩
  have length : table.bytes.length < UInt64.size := by
    obtain ⟨fits, rfl⟩ := frame_eq_ok.1 framed
    rw [← whole, List.length_append, length_frameHeader]
    exact Nat.lt_of_le_of_lt (Nat.add_le_add_left fits _) (by decide)
  have primed : Wire.decoder.prime frame = ⟨table, [], .none, 0⟩ := by
    rw [whole]
    exact Decoding.ofBytes_bytes 0 nodup length
  have behind : e.behindType.table.bytes.length < UInt64.size := by
    rw [Table.bytes_cons, List.length_append] at length
    exact Nat.lt_of_le_of_lt (Nat.le_add_left ..) length
  have others : ∀ id ∈ e.behindType.ids, table.find? id = e.behindType.table.find? id := by
    intro id mem
    have other : id ≠ dataTypeTag.id := by
      rintro rfl
      exact fresh mem
    exact Table.find?_front_of_ne other (some _) _
  have shallow : 0 + 1 < maxLevels := by decide
  obtain ⟨fields, -⟩ := Decoding.walk_decoder e.behindType.alike_refl distinct behind
    (d := ⟨table, [dataTypeTag.id], ⟨0, 1, 0⟩, 0⟩) shallow others
  rw [Fields.overlay_self] at fields
  apply toMessage_injective
  rw [toMessage_decodeInto, Decoder.decodeInto, primed, fst_walk_toMessage, scalar_headerPayload]
  dsimp only
  rw [fields]
  rfl

theorem ofBytes_frame {e : Envelope} {frame : Bytes} (framed : e.frame = .ok frame) :
    ofBytes frame = e := by
  have taken := extract_frame framed []
  rw [List.append_nil] at taken
  simp only [ofBytes, taken, ↓reduceIte]
  split
  · rename_i untyped
    exact decodeInto_frame framed untyped
  · rfl

end Envelope

def TimeStamp.json (t : TimeStamp) : Json :=
  .object [("seconds", .number (.integer t.seconds.toBitVec.toInt)),
    ("microseconds", .number (.integer t.microseconds.toBitVec.toInt))]

namespace Converter

theorem jsonOfEnvelope_of_isEmpty {c : Converter} (h : c.messages.isEmpty) (e : Envelope) :
    c.jsonOfEnvelope e = .object [] := by
  have unknown : c.schema? e.dataType = none := by
    rw [schema?, List.isEmpty_iff.1 h]
    rfl
  rw [jsonOfEnvelope, unknown]

theorem jsonOfBytes_of_ofBytes (c : Converter) {bs : Bytes} {e : Envelope}
    (read : Envelope.ofBytes bs = e) : c.jsonOfBytes bs = c.jsonOfEnvelope e := by
  rw [jsonOfBytes]
  split
  · rename_i h
    rw [jsonOfEnvelope_of_isEmpty h]
  · rw [read]

/-- The payload of a message with one small number is an object with that number. -/
theorem payloadJson_of_byte (c : Converter) {m : Schema.Message} {label name : String} {id : UInt32}
    (bs : Bytes) (v : BitVec 8) (fields : m.fields = [⟨.scalar (.uint .w8), label, name, id, none⟩])
    (number : ((Wire.Decoding.ofBytes 0 bs).scalar id (.uint .w8) 0).1 = v) :
    c.payloadJson m bs = .object [(name, .number (.integer v.toNat))] := by
  have read : (Record.decode Wire.decoder m c.messages bs).1 =
      ⟨m, c.messages, .scalar id ⟨.uint .w8, v⟩ .nil⟩ := by
    rw [← number]
    exact Record.ofDecoder_of_scalar fields rfl
  have walked := congrArg (fun r => (r.walk Json.Encoding.pass (.empty [])).2.value) read
  refine walked.trans ?_
  simp only [Record.walk_eq, fields, Record.walkFields_cons, Record.walkFields_nil,
    Record.walkField, Entries.get?, ↓reduceIte]
  rfl

/-- Framed, bare and in memory, an envelope converts to the same JSON. -/
theorem jsonOfBytes_frame (c : Converter) {e : Envelope} {frame : Bytes}
    (framed : e.frame = .ok frame) :
    c.jsonOfBytes frame = c.jsonOfEnvelope e ∧ c.jsonOfBytes e.encode = c.jsonOfEnvelope e := by
  have fits := (Envelope.frame_eq_ok.1 framed).1
  have small : e.encode.length < UInt64.size := Nat.lt_of_le_of_lt fits (by decide)
  exact ⟨c.jsonOfBytes_of_ofBytes (Envelope.ofBytes_frame framed),
    c.jsonOfBytes_of_ofBytes (Envelope.ofBytes_encode small)⟩

/-- A converter for one message, which has no number. -/
def unnumbered : Converter :=
  ⟨[⟨"", "Level", 0, [⟨.scalar (.uint .w8), "uint8", "value", 1, none⟩]⟩]⟩


/-- An envelope without a data type is taken for one with a message that has no number. -/
theorem jsonOfBytes_frame_unnumbered :
    { Envelope.empty with payload := [0x08, 0x05] }.frame =
        .ok [0x0D, 0xA4, 4, 0, 0, 0x12, 2, 0x08, 0x05] ∧
      unnumbered.jsonOfBytes [0x0D, 0xA4, 4, 0, 0, 0x12, 2, 0x08, 0x05] =
        .object [("dataType", .number (.integer 0)), ("sent", TimeStamp.zero.json),
          ("received", TimeStamp.zero.json), ("sampleTimeStamp", TimeStamp.zero.json),
          ("senderStamp", .number (.integer 0)),
          ("Level", .object [("value", .number (.integer 5))])] := by
  have framed : { Envelope.empty with payload := [0x08, 0x05] }.frame =
      .ok [0x0D, 0xA4, 4, 0, 0, 0x12, 2, 0x08, 0x05] := Envelope.frame_eq_ok.2 (by decide +kernel)
  refine ⟨framed, ?_⟩
  rw [(unnumbered.jsonOfBytes_frame framed).1]
  exact congrArg (fun payload => Json.object ((envelopeMembers .empty).insert "Level" payload))
    (unnumbered.payloadJson_of_byte [0x08, 0x05] 5 rfl (by decide +kernel))

end Converter

end MessageCodec
