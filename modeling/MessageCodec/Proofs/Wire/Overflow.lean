import MessageCodec.Proofs.Wire.Head

/-! Numbers that need more than 64 bits. A head reads every numeral of at most ten bytes and
nothing else, and it reads the number that is denoted just if 64 bits hold it: ten bytes have room
for 70 bits, and the six that are too many get lost. A record with a field number beyond every
identifier is passed over, unless its key is one of those that lose bits. -/

namespace MessageCodec.Wire

namespace Varint

theorem toNat_ofNat_eq_iff (n : Nat) : (UInt64.ofNat n).toNat = n ↔ n < UInt64.size := by
  rw [UInt64.toNat_ofNat']
  exact Nat.mod_eq_iff_lt (by decide)

end Varint

namespace Cursor

/-- Two reads that give the same and leave the same to be read, or that both fail. -/
inductive SameRead {α : Type} :
    Except ReadError (α × Cursor) → Except ReadError (α × Cursor) → Prop
  | ok (a : α) (buffer buffer' rest : Bytes) :
      SameRead (.ok (a, ⟨buffer, rest⟩)) (.ok (a, ⟨buffer', rest⟩))
  | error (fault fault' : ReadError) : SameRead (.error fault) (.error fault')

theorem SameRead.map {α β : Type} {r r' : Except ReadError (α × Cursor)} (same : SameRead r r')
    (f : α → β) : SameRead (r.map fun (a, c) => (f a, c)) (r'.map fun (a, c) => (f a, c)) := by
  cases same with
  | ok a buffer buffer' rest => exact .ok (f a) buffer buffer' rest
  | error fault fault' => exact .error fault fault'

/-! A read depends on what is still to be read, and not on what has been read. -/

section Same

variable (buffer buffer' rest : Bytes)

theorem sameRead_bytes (n : Nat) : SameRead (bytes n ⟨buffer, rest⟩) (bytes n ⟨buffer', rest⟩) := by
  rw [bytes, bytes]
  cases Bytes.split? n rest with
  | none => exact .error _ _
  | some pair => exact .ok _ _ _ _

theorem sameRead_varint : SameRead (varint ⟨buffer, rest⟩) (varint ⟨buffer', rest⟩) := by
  rw [varint, varint]
  rcases Varint.read rest with (_ | _) | pair
  · exact .error _ _
  · exact .error _ _
  · exact .ok _ _ _ _

theorem sameRead_delimited : SameRead (delimited ⟨buffer, rest⟩) (delimited ⟨buffer', rest⟩) := by
  have front := sameRead_varint buffer buffer' rest
  rw [delimited, delimited]
  generalize varint ⟨buffer, rest⟩ = r, varint ⟨buffer', rest⟩ = r' at front
  cases front with
  | error fault fault' => exact .error _ _
  | ok length _ _ rest =>
    dsimp only
    cases Bytes.split? length.toNat rest with
    | none => exact .error _ _
    | some pair => exact .ok _ _ _ _

end Same

end Cursor

open Cursor (SameRead)

theorem Payload.sameRead_read (buffer buffer' rest : Bytes) (type : WireType) :
    SameRead (Payload.read ⟨buffer, rest⟩ type) (Payload.read ⟨buffer', rest⟩ type) := by
  cases type with
  | varint => exact (Cursor.sameRead_varint buffer buffer' rest).map _
  | eightBytes =>
    have number : SameRead (Cursor.u64 ⟨buffer, rest⟩) (Cursor.u64 ⟨buffer', rest⟩) :=
      (Cursor.sameRead_bytes buffer buffer' rest 8).map fun bs =>
        UInt64.ofNat (Bytes.littleEndian bs)
    exact number.map _
  | delimited => exact (Cursor.sameRead_delimited buffer buffer' rest).map _
  | fourBytes =>
    have number : SameRead (Cursor.u32 ⟨buffer, rest⟩) (Cursor.u32 ⟨buffer', rest⟩) :=
      (Cursor.sameRead_bytes buffer buffer' rest 4).map fun bs =>
        UInt32.ofNat (Bytes.littleEndian bs)
    exact number.map _

namespace Item

theorem sameRead_read (buffer buffer' rest : Bytes) :
    SameRead (read ⟨buffer, rest⟩) (read ⟨buffer', rest⟩) := by
  have front := Cursor.sameRead_varint buffer buffer' rest
  rw [read, read]
  generalize Cursor.varint ⟨buffer, rest⟩ = r, Cursor.varint ⟨buffer', rest⟩ = r' at front
  cases front with
  | error fault fault' => exact .error _ _
  | ok key buffer buffer' rest =>
    dsimp only
    cases WireType.ofNumber? (Key.typeNumber key) with
    | none => exact .error _ _
    | some type => exact (Payload.sameRead_read buffer buffer' rest type).map _

/-- A scan finds the same whatever has been read before it. -/
theorem readAll_buffer (buffer buffer' rest : Bytes) :
    (readAll ⟨buffer, rest⟩).1 = (readAll ⟨buffer', rest⟩).1 ∧
      (readAll ⟨buffer, rest⟩).2.isSome = (readAll ⟨buffer', rest⟩).2.isSome := by
  -- on what is still to be read; the buffers decide only where a fault is said to be
  induction length : rest.length using Nat.strongRecOn generalizing buffer buffer' rest with
  | ind n ih =>
    subst length
    by_cases empty : rest = []
    · subst empty
      rw [readAll_nil, readAll_nil]
      exact ⟨rfl, rfl⟩
    · have first := sameRead_read buffer buffer' rest
      generalize taken : read ⟨buffer, rest⟩ = r, taken' : read ⟨buffer', rest⟩ = r' at first
      cases first with
      | error fault fault' =>
        rw [readAll_of_error empty taken, readAll_of_error empty taken']
        exact ⟨rfl, rfl⟩
      | ok item buffer buffer' after =>
        obtain ⟨items, fault⟩ := ih _ (length_read taken) buffer buffer' after rfl
        rw [readAll_of_read taken, readAll_of_read taken', items]
        exact ⟨rfl, fault⟩

/-- Bytes that are a record whose key, a number of 64 bits, has a field number beyond every
identifier. -/
inductive IsBeyond : Bytes → Prop
  | mk {key body : Bytes} {payload : Payload} :
      Varint.IsNumeral key → key.length ≤ Varint.maxLength → Varint.denoted key < UInt64.size →
      UInt32.size ≤ Varint.denoted key / 8 →
      Varint.denoted key % 8 = payload.type.number → payload.Spelled body → IsBeyond (key ++ body)

theorem IsBeyond.isRecord {bs : Bytes} (beyond : IsBeyond bs) :
    ∃ item : Item, item.IsRecord bs ∧ Key.id? item.key = none := by
  obtain ⟨numeral, short, fits, outside, type, spelled⟩ := beyond
  refine ⟨_, .mk numeral short type spelled, ?_⟩
  rw [Key.id?, Key.fieldNumber, (Varint.toNat_ofNat_eq_iff _).2 fits,
    if_neg (Nat.not_lt.2 outside)]

end Item

variable {items : List Item} {chunks : List Bytes} {chunk : Bytes}

/-- A record beyond every identifier is noted and leaves no trace in the table. -/
theorem ofBytes_beyond (records : List.Forall₂ Item.IsRecord items chunks)
    (beyond : Item.IsBeyond chunk) (tail : Bytes) (depth : Nat) :
    Decoding.ofBytes depth (chunks.flatten ++ (chunk ++ tail)) =
      (Decoding.ofBytes depth (chunks.flatten ++ tail)).note ⟨1, 0, 0⟩ := by
  obtain ⟨item, record, nobody⟩ := beyond.isRecord
  have long := Item.readAll_run records (chunks.flatten ++ (chunk ++ tail)) (chunk ++ tail)
  rw [Item.readAll_of_read (record.read_append _ tail)] at long
  have short := Item.readAll_run records (chunks.flatten ++ tail) tail
  obtain ⟨same, fault⟩ :=
    Item.readAll_buffer (chunks.flatten ++ (chunk ++ tail)) (chunks.flatten ++ tail) tail
  have skipped (table : Table) : table.add item = table := by rw [Table.add, nobody]
  simp only [Decoding.ofBytes, Cursor.ofBytes, Decoding.note, Diagnostics.merge, long, short, same,
    fault, Table.ofItems, List.foldl_append, List.foldl_cons, skipped, List.countP_append,
    List.countP_cons, nobody, Option.isNone_none]
  rfl

open Varint Head in
/-- At every offset a numeral of at most ten bytes is read, as the number it denotes just if 64 bits
hold that number, and the head moves behind it; where none is, the read fails, says where, and the
head is put back. In messages at every depth, a record whose key denotes a field number beyond
every identifier in 64 bits changes no field and counts as unknown. -/
theorem varint_seek {buffer : Bytes} {k : Nat} (within : k ≤ buffer.length) :
    (∀ bs, bs <+: buffer.drop k → IsNumeral bs → bs.length ≤ maxLength →
      Call.varint.turn ⟨buffer, k⟩ =
          (.ok (.word64 (.ofNat (denoted bs))), ⟨buffer, k + bs.length⟩) ∧
        ((UInt64.ofNat (denoted bs)).toNat = denoted bs ↔ denoted bs < UInt64.size)) ∧
      ((∀ bs, bs <+: buffer.drop k → IsNumeral bs → maxLength < bs.length) →
        ∃ fault ∈ [ReadError.truncatedVarint k, .longVarint k],
          Call.varint.turn ⟨buffer, k⟩ = (.error fault, ⟨buffer, k⟩)) ∧
      ∀ (items : List Item) (chunks : List Bytes) (chunk tail : Bytes) (depth : Nat) (fs : Fields),
        List.Forall₂ Item.IsRecord items chunks → Item.IsBeyond chunk →
        let alone := fs.walk decoder.toPass (.ofBytes depth (chunks.flatten ++ tail))
        let decoded := fs.walk decoder.toPass (.ofBytes depth (chunks.flatten ++ (chunk ++ tail)))
        decoded.1 = alone.1 ∧
          decoded.2.diagnostics =
            { alone.2.diagnostics with unknown := alone.2.diagnostics.unknown + 1 } := by
  refine ⟨fun bs front numeral short => ?_, fun nowhere => ?_, ?_⟩
  · exact ⟨Call.turn_of_yields within front (.varint numeral short), toNat_ofNat_eq_iff _⟩
  · obtain ⟨_, bs, front, yields, -⟩ | ⟨fault, asked, failed⟩ := Call.varint.turn_cases within
    · cases yields with
      | varint numeral short => exact absurd (nowhere bs front numeral) (Nat.not_lt.2 short)
    · have known := Cursor.fault_of_varint (error_of_map asked)
      rw [Cursor.offset_seek within] at known
      exact ⟨fault, by simpa using known, failed⟩
  · intro items chunks chunk tail depth fs records beyond alone decoded
    have walked : decoded = _ :=
      (congrArg (fs.walk decoder.toPass) (ofBytes_beyond records beyond tail depth)).trans
        (Decoding.walk_note _ _ fs)
    rw [walked, Decoding.diagnostics_note]
    exact ⟨rfl, rfl⟩

/-- The longest numeral of the number one, behind another byte. -/
theorem varint_seek_padded :
    1 ≤ ([0, 0x81, 0x80, 0x80, 0x80, 0x80, 0x80, 0x80, 0x80, 0x80, 0x00] : Bytes).length ∧
      Head.Call.varint.turn
          ⟨[0, 0x81, 0x80, 0x80, 0x80, 0x80, 0x80, 0x80, 0x80, 0x80, 0x00], 1⟩ =
        (.ok (.word64 1), ⟨[0, 0x81, 0x80, 0x80, 0x80, 0x80, 0x80, 0x80, 0x80, 0x80, 0x00], 11⟩) := by
  have within :
      1 ≤ ([0, 0x81, 0x80, 0x80, 0x80, 0x80, 0x80, 0x80, 0x80, 0x80, 0x00] : Bytes).length := by
    decide
  have numeral : Varint.IsNumeral [0x81, 0x80, 0x80, 0x80, 0x80, 0x80, 0x80, 0x80, 0x80, 0x00] :=
    ⟨[0x81, 0x80, 0x80, 0x80, 0x80, 0x80, 0x80, 0x80, 0x80], 0x00, rfl,
      by decide +kernel, by decide⟩
  exact ⟨within, ((varint_seek within).1 _ (List.prefix_refl _) numeral (by decide)).1⟩

/-- A key that denotes the number 2^64 + 16, and so the field number 2^61 + 2. -/
def wideKey : Bytes := [0x90, 0x80, 0x80, 0x80, 0x80, 0x80, 0x80, 0x80, 0x80, 0x02]

/-- The key is read as 16, and its payload is given to the field 2 without a word. -/
theorem varint_wideKey :
    Varint.IsNumeral wideKey ∧ wideKey.length ≤ Varint.maxLength ∧
      Varint.denoted wideKey = UInt64.size + 16 ∧
      UInt32.size ≤ Varint.denoted wideKey / 8 ∧
      Head.Call.varint.turn ⟨wideKey, 0⟩ = (.ok (.word64 16), ⟨wideKey, 10⟩) ∧
      (decoder.decodeInto (wideKey ++ [65]) (sample 7 'b' 3 "kept")).1 = sample 7 'A' 3 "kept" ∧
      (decoder.decodeInto (wideKey ++ [65]) (sample 7 'b' 3 "kept")).2.diagnostics.isClean := by
  have numeral : Varint.IsNumeral wideKey :=
    ⟨wideKey.take 9, 0x02, rfl, by decide +kernel, by decide⟩
  have start : decoder.prime (wideKey ++ [65]) = ⟨[(2, .varint 65)], [], .none, 0⟩ := by
    have scanned : Item.readAll (.ofBytes (wideKey ++ [65])) = ([⟨16, .varint 65⟩], none) := by
      decide +kernel
    change Decoding.ofBytes 0 _ = _
    rw [Decoding.ofBytes, scanned]
    rfl
  refine ⟨numeral, by decide, by decide, by decide, rfl, ?_, ?_⟩
  · rw [Decoder.decodeInto, start]
    rfl
  · rw [Decoder.decodeInto, start]
    rfl

end MessageCodec.Wire
