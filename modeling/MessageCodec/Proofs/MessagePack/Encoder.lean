import MessageCodec.MessagePack.Decoder
import MessageCodec.MessagePack.Encoder
import MessageCodec.Proofs.Binary.Widening
import MessageCodec.Proofs.Json.Encoder
import MessageCodec.Proofs.MessagePack.RoundTrip
import MessageCodec.Proofs.Wire.RoundTrip

/-! Messages as MessagePack maps, and back. A message becomes a map with one entry for each field.
What is written for a scalar stands for that scalar, so a message with the same names and types
takes over every value. -/

namespace MessageCodec

open MessagePack (Table)

/-- A value that MessagePack keeps: content with a length of 32 bits, and no NaN in single
precision. -/
def Scalar.IsPackable : Scalar → Prop
  | ⟨.float, v⟩ => Binary.Format.single.isNaN v.toNat = false
  | ⟨.string, v⟩ => (Utf8.encode v).length < 0x100000000
  | ⟨.bytes, v⟩ => v.length < 0x100000000
  | _ => True

def MessagePack.Table.pairs (table : Table) : List (MessagePack × MessagePack) :=
  table.map fun (name, v) => (ofText name, v)

namespace Fields

/-- The entries that fields become, under their names. -/
def packed : Fields → Table
  | nil => []
  | scalar tag s rest => (tag.name, .ofScalar s.type s.value) :: rest.packed
  | nested tag _ inner rest => (tag.name, .map inner.packed.pairs) :: rest.packed

/-- Fields with values that MessagePack keeps; the lengths of names and maps have 32 bits, too. -/
def Packable : Fields → Prop
  | nil => True
  | scalar tag s rest =>
    (Utf8.encode tag.name).length < 0x100000000 ∧ s.IsPackable ∧ rest.Packable
  | nested tag _ inner rest =>
    (Utf8.encode tag.name).length < 0x100000000 ∧
      (inner.names.length < 0x100000000 ∧ inner.Packable) ∧ rest.Packable

theorem map_fst_packed (fs : Fields) : fs.packed.map Prod.fst = fs.names := by
  induction fs with
  | nil => rfl
  | scalar tag s rest ih => rw [packed, names, List.map_cons, ih]
  | nested tag header inner rest _ ih => rw [packed, names, List.map_cons, ih]

theorem length_packed (fs : Fields) : fs.packed.length = fs.names.length := by
  rw [← map_fst_packed, List.length_map]

end Fields

namespace MessagePack

theorem Encoding.walk_pass (fs : Fields) (e : Encoding) :
    (fs.walk pass e).2 = e ++ fs.packed.pairs := by
  induction fs generalizing e with
  | nil => exact (List.append_nil e).symm
  | scalar tag s rest ih =>
    change (rest.walk pass (e.add tag.name (ofScalar s.type s.value))).2 = _
    rw [ih, add, List.append_assoc]
    rfl
  | nested tag header inner rest ihInner ih =>
    change (rest.walk pass (e.add tag.name (.map (inner.walk pass empty).2))).2 = _
    rw [ihInner, ih, add, List.append_assoc]
    rfl

theorem encode_eq (m : Message) : encode m = write (.map m.fields.packed.pairs) :=
  congrArg (fun pairs => write (.map pairs)) (Encoding.walk_pass m.fields [])

section Scalars

theorem text?_ofText (s : String) : (ofText s).text? = some s := Utf8.decode?_encode s

theorem settled_ofText (s : String) : settled (ofText s) = ofText s := by
  rw [ofText, settled, Utf8.decode?_encode]
  rfl

variable {t : ScalarType} {v : t.Value}

theorem fit?_ofScalar (packable : Scalar.IsPackable ⟨t, v⟩) : fit? t (ofScalar t v) = some v := by
  cases t with
  | bool => cases v <;> rfl
  | char =>
    have text : (Char.toString v).toList = [v] := String.toList_singleton v
    rw [ofScalar, fit?, text?_ofText, Option.bind_some, text]
    rfl
  | int w => exact Json.signedInRange?_toInt w v
  | uint w => exact Json.unsignedInRange?_toNat w v
  | float => exact congrArg some (Binary.narrow_widen packable)
  | double => rfl
  | string => exact text?_ofText v
  | bytes => rfl

theorem settled_ofScalar (t : ScalarType) (v : t.Value) : settled (ofScalar t v) = ofScalar t v := by
  cases t with
  | char => exact settled_ofText _
  | string => exact settled_ofText v
  | _ => rw [ofScalar, settled]

theorem readable_ofScalar (packable : Scalar.IsPackable ⟨t, v⟩) (levels : Nat) :
    Readable (levels + 2) (ofScalar t v) := by
  cases t with
  | bool => exact .bool v
  | char =>
    have size : (Utf8.encode (Char.toString v)).length = v.utf8Size := by
      rw [← String.utf8ByteSize_singleton]
      rfl
    have most := v.utf8Size_le_four
    exact .string (by omega)
  | int w =>
    have low := v.le_toInt
    have high := v.toInt_lt
    refine .integer ?_ ?_ <;> cases w <;> simp only [Width.bits] at low high <;> omega
  | uint w =>
    have high := v.isLt
    refine .integer ?_ ?_ <;> cases w <;> simp only [Width.bits] at high <;> omega
  | float => exact .single v
  | double => exact .double v
  | string => exact .string packable
  | bytes => exact .binary packable

end Scalars

namespace Table

/-- The last of several values under one name is the first in the table. -/
theorem ofPairs_pairs (table : Table) : ofPairs table.pairs = table.reverse := by
  rw [ofPairs, pairs, ← List.map_reverse, List.filterMap_map]
  refine (List.filterMap_congr fun entry _ => ?_).trans List.filterMap_some
  simp only [Function.comp_apply, text?_ofText]
  rfl

theorem ofBytes_write {pairs : List (MessagePack × MessagePack)}
    (readable : Readable maxNesting (.map pairs)) :
    ofBytes (write (.map pairs)) = ofPairs (settledPairs pairs) := by
  rw [ofBytes, readable.parse?_write, settled]
  rfl

end Table

/-- What is written for a message is read as it is. -/
theorem settledPairs_packed (fs : Fields) : settledPairs fs.packed.pairs = fs.packed.pairs := by
  induction fs with
  | nil => rfl
  | scalar tag s rest ih =>
    change (settled (ofText tag.name), settled (ofScalar s.type s.value)) ::
      settledPairs rest.packed.pairs = _
    rw [settled_ofText, settled_ofScalar, ih]
    rfl
  | nested tag header inner rest ihInner ih =>
    change (settled (ofText tag.name), .map (settledPairs inner.packed.pairs)) ::
      settledPairs rest.packed.pairs = _
    rw [settled_ofText, ihInner, ih]
    rfl

theorem readable_pairs {table : Table} {levels : Nat} (short : table.length < 0x100000000)
    (readable : ∀ entry ∈ table, (Utf8.encode entry.1).length < 0x100000000 ∧
      Readable (levels + 2) entry.2) : Readable (levels + 3) (.map table.pairs) := by
  refine .map ?_ ?_ ?_
  · rwa [Table.pairs, List.length_map]
  · intro pair mem
    obtain ⟨entry, inside, rfl⟩ := List.mem_map.1 mem
    exact .string (readable entry inside).1
  · intro pair mem
    obtain ⟨entry, inside, rfl⟩ := List.mem_map.1 mem
    exact (readable entry inside).2

theorem readable_packed {fs : Fields} (packable : fs.Packable) {levels : Nat}
    (deep : fs.levels ≤ levels) :
    ∀ entry ∈ fs.packed, (Utf8.encode entry.1).length < 0x100000000 ∧
      Readable (levels + 2) entry.2 := by
  induction fs generalizing levels with
  | nil => exact fun entry mem => absurd mem List.not_mem_nil
  | scalar tag s rest ih =>
    obtain ⟨name, value, behind⟩ := packable
    exact List.forall_mem_cons.2 ⟨⟨name, readable_ofScalar value levels⟩, ih behind deep⟩
  | nested tag header inner rest ihInner ih =>
    obtain ⟨name, ⟨short, inside⟩, behind⟩ := packable
    obtain ⟨deepInner, deepRest⟩ := Nat.max_le.1 deep
    obtain ⟨levels, rfl⟩ := Nat.exists_eq_add_of_le' (Nat.le_of_add_left_le deepInner)
    have readable := ihInner inside (Nat.le_of_add_le_add_right deepInner)
    rw [← Fields.length_packed] at short
    exact List.forall_mem_cons.2 ⟨⟨name, readable_pairs short readable⟩, ih behind deepRest⟩

theorem find?_packed {fs : Fields} (distinct : fs.DistinctNames) :
    ∀ entry ∈ fs.packed, (Table.ofPairs fs.packed.pairs).find? entry.1 = some entry.2 := by
  intro entry mem
  rw [Table.ofPairs_pairs]
  refine lookup_of_mem ?_ (List.mem_reverse.2 mem)
  rw [List.map_reverse, Fields.map_fst_packed]
  exact List.nodup_reverse.2 distinct.nodup_names

theorem decoder_isSteady : decoder.IsSteady := ⟨fun _ _ => rfl, fun _ _ _ => rfl, fun _ => rfl⟩

/-- The values that are found under the names of fields are given to their namesakes. -/
theorem givenBy_packed {fs : Fields} (packable : fs.Packable) (distinct : fs.DistinctNames)
    {table : Table} (found : ∀ entry ∈ fs.packed, table.find? entry.1 = some entry.2) :
    fs.GivenBy decoder.toPass table := by
  induction fs generalizing table with
  | nil => trivial
  | scalar tag s rest ih =>
    rw [Fields.packed, List.forall_mem_cons] at found
    refine ⟨fun tag' name v => ?_, ih packable.2.2 distinct.2 found.2⟩
    change (table.fillScalar tag'.name s.type v, table) = _
    rw [Table.fillScalar, ← name, found.1, Option.bind_some, fit?_ofScalar packable.2.1]
    rfl
  | nested tag header inner rest ihInner ih =>
    rw [Fields.packed, List.forall_mem_cons] at found
    have inside := ihInner packable.2.1.2 distinct.2.1 (find?_packed distinct.2.1)
    refine ⟨⟨_, fun tag' name => ?_, inside⟩, ih packable.2.2 distinct.2.2 found.2⟩
    change (table, table.nested? tag'.name) = _
    rw [Table.nested?, ← name, found.1]

/-- Every field takes over the value that is found under its name. -/
theorem walk_decoder {a b : Fields} (namesakes : a.Namesakes b) (packable : a.Packable)
    (distinct : a.DistinctNames) {table : Table}
    (found : ∀ entry ∈ a.packed, table.find? entry.1 = some entry.2) :
    b.walk decoder.toPass table = (b.withValues a, table) :=
  Fields.walk_of_givenBy decoder_isSteady namesakes (givenBy_packed packable distinct found)

theorem prime_encode {m : Message} (levels : m.levels ≤ maxLevels)
    (short : m.fields.names.length < 0x100000000) (packable : m.fields.Packable) :
    decoder.prime (encode m) = Table.ofPairs m.fields.packed.pairs := by
  have readable : Readable (m.fields.levels + 3) (.map m.fields.packed.pairs) := by
    rw [← Fields.length_packed] at short
    exact readable_pairs short (readable_packed packable (Nat.le_refl _))
  have deep : m.fields.levels + 3 ≤ maxNesting := by
    have most : m.fields.levels + 1 ≤ 64 := levels
    have reader : maxNesting = 512 := rfl
    omega
  rw [encode_eq]
  exact (Table.ofBytes_write (readable.mono deep)).trans
    (congrArg Table.ofPairs (settledPairs_packed m.fields))

/-- Decoding the MessagePack form of `a` into a message `b` with the same names and types puts
every value of `a` in place, at every depth; if `b` differs from `a` in nothing but values, it
becomes `a`. -/
theorem decodeInto_packed {a b : Message} (namesakes : a.fields.Namesakes b.fields)
    (distinct : a.fields.DistinctNames) (levels : a.levels ≤ maxLevels)
    (short : a.fields.names.length < 0x100000000) (packable : a.fields.Packable) :
    (decoder.decodeInto (encode a) b).1 = ⟨b.header, b.fields.withValues a.fields⟩ ∧
      (b.zeroed = a.zeroed → (decoder.decodeInto (encode a) b).1 = a) := by
  have walk := walk_decoder namesakes packable distinct (find?_packed distinct)
  have filled : (decoder.decodeInto (encode a) b).1 = ⟨b.header, b.fields.withValues a.fields⟩ := by
    rw [Decoder.decodeInto, prime_encode levels short packable]
    exact congrArg (Message.mk b.header) (congrArg Prod.fst walk)
  refine ⟨filled, fun same => ?_⟩
  obtain ⟨header, fields⟩ := Message.mk.inj same
  rw [filled, header, Fields.withValues_of_zeroed fields]

/-- A NaN in double precision, a null character and an empty text replace what was there. -/
theorem decodeInto_packed_sample :
    (Wire.sample 0x7FF8000000000001 '\x00' 5 "").fields.Namesakes
        (Wire.sample 7 'Ā' 3 "kept").fields ∧
      (Wire.sample 0x7FF8000000000001 '\x00' 5 "").fields.DistinctNames ∧
      (Wire.sample 0x7FF8000000000001 '\x00' 5 "").levels ≤ maxLevels ∧
      (Wire.sample 0x7FF8000000000001 '\x00' 5 "").fields.names.length < 0x100000000 ∧
      (Wire.sample 0x7FF8000000000001 '\x00' 5 "").fields.Packable ∧
      (Wire.sample 7 'Ā' 3 "kept").zeroed = (Wire.sample 0x7FF8000000000001 '\x00' 5 "").zeroed ∧
      (decoder.decodeInto (encode (Wire.sample 0x7FF8000000000001 '\x00' 5 ""))
        (Wire.sample 7 'Ā' 3 "kept")).1 = Wire.sample 0x7FF8000000000001 '\x00' 5 "" := by
  have namesakes : (Wire.sample 0x7FF8000000000001 '\x00' 5 "").fields.Namesakes
      (Wire.sample 7 'Ā' 3 "kept").fields := by
    simp [Fields.Namesakes, Wire.sample]
  have distinct : (Wire.sample 0x7FF8000000000001 '\x00' 5 "").fields.DistinctNames := by
    simp [Fields.DistinctNames, Fields.names, Wire.sample]
  have levels : (Wire.sample 0x7FF8000000000001 '\x00' 5 "").levels ≤ maxLevels := by decide
  have short : (Wire.sample 0x7FF8000000000001 '\x00' 5 "").fields.names.length < 0x100000000 := by
    simp [Fields.names, Wire.sample]
  have packable : (Wire.sample 0x7FF8000000000001 '\x00' 5 "").fields.Packable := by
    simp only [Wire.sample, Fields.Packable, Fields.names, Scalar.IsPackable]
    decide
  have same : (Wire.sample 7 'Ā' 3 "kept").zeroed =
      (Wire.sample 0x7FF8000000000001 '\x00' 5 "").zeroed := rfl
  exact ⟨namesakes, distinct, levels, short, packable, same,
    (decodeInto_packed namesakes distinct levels short packable).2 same⟩

end MessagePack

end MessageCodec
