import MessageCodec.Proofs.Wire.FirstRecord
import MessageCodec.Proofs.Wire.Length

/-! The framing of a buffer. Records stand one behind the other, and their numerals may be spelled
in any way. A scan reads them up to the first place where no record is. What stands there costs one
malformed frame and nothing else: all that was read before it is kept. -/

namespace MessageCodec

/-- The front of two parts is the front of the first one, or goes on into the second one. -/
theorem prefix_of_append {α : Type} {cut front back : List α} (h : cut <+: front ++ back) :
    (cut <+: front ∧ cut ≠ front) ∨ ∃ part, cut = front ++ part ∧ part <+: back := by
  by_cases whole : front <+: cut
  · obtain ⟨part, rfl⟩ := whole
    exact .inr ⟨part, rfl, (List.prefix_append_right_inj front).1 h⟩
  · left
    rcases List.prefix_or_prefix_of_prefix h (List.prefix_append front back) with inside | beyond
    · refine ⟨inside, ?_⟩
      rintro rfl
      exact whole (List.prefix_refl _)
    · exact absurd beyond whole

theorem length_lt_of_front {α : Type} {cut whole : List α} (front : cut <+: whole)
    (proper : cut ≠ whole) : cut.length < whole.length :=
  Nat.lt_of_le_of_ne front.length_le (mt front.eq_of_length proper)

namespace Bytes

theorem split?_of_short {n : Nat} {bs : Bytes} (short : bs.length < n) : split? n bs = none := by
  rw [split?, if_neg]
  rw [List.length_take]
  omega

end Bytes

namespace Wire

namespace Varint

theorem isNumeral_numeral (n : Nat) : IsNumeral (numeral n) ∧ denoted (numeral n) = n := by
  induction n using Nat.strongRecOn with
  | ind n ih =>
    rw [numeral]
    split
    · rename_i small
      obtain ⟨last, byte⟩ := last_digit small
      refine ⟨⟨[], _, rfl, by simp, last⟩, ?_⟩
      rw [denoted, denoted, byte]
      omega
    · have digit : n % 128 < 128 := Nat.mod_lt n (by decide)
      obtain ⟨more, byte⟩ := more_digit digit
      obtain ⟨⟨front, last, parts, all, stop⟩, number⟩ := ih (n / 128) (by omega)
      refine ⟨⟨_ :: front, last, congrArg _ parts, ?_, stop⟩, ?_⟩
      · exact List.forall_mem_cons.2 ⟨UInt8.not_lt.1 more, all⟩
      · rw [denoted, number, byte]
        omega

theorem length_write_le (value : UInt64) : (write value).length ≤ maxLength := by
  have greatest : (numeral 18446744073709551615).length = maxLength := by decide +kernel
  rw [← greatest, write]
  exact length_numeral_le (Nat.le_of_lt_succ value.toNat_lt)

/-- Bytes that all go on are no numeral. -/
theorem readNumeral_of_more {bs : Bytes} (more : ∀ b ∈ bs, 128 ≤ b) {limit : Nat}
    (short : bs.length < limit) : readNumeral limit bs = .error .truncated := by
  induction bs generalizing limit with
  | nil =>
    cases limit with
    | zero => cases short
    | succ limit => rfl
  | cons b bs ih =>
    rw [List.forall_mem_cons] at more
    cases limit with
    | zero => cases short
    | succ limit =>
      rw [readNumeral, if_neg (UInt8.not_lt.2 more.1), ih more.2 (Nat.lt_of_succ_lt_succ short)]
      rfl

/-- All bytes of a numeral that breaks off go on. -/
theorem IsNumeral.more_of_cut {bs cut : Bytes} (numeral : IsNumeral bs) (front : cut <+: bs)
    (proper : cut ≠ bs) : ∀ b ∈ cut, 128 ≤ b := by
  obtain ⟨digits, last, rfl, more, -⟩ := numeral
  rcases List.prefix_concat_iff.1 front with whole | inside
  · exact absurd whole proper
  · exact fun b mem => more b (inside.subset mem)

theorem read_cut {bs cut : Bytes} (numeral : IsNumeral bs) (short : bs.length ≤ maxLength)
    (front : cut <+: bs) (proper : cut ≠ bs) : read cut = .error .truncated := by
  have within : cut.length < maxLength := Nat.lt_of_lt_of_le (length_lt_of_front front proper) short
  rw [read, readNumeral_of_more (numeral.more_of_cut front proper) within]
  rfl

end Varint

namespace Cursor

variable {bs cut : Bytes}

theorem varint_of_numeral (numeral : Varint.IsNumeral bs) (short : bs.length ≤ Varint.maxLength)
    (buffer rest : Bytes) :
    varint ⟨buffer, bs ++ rest⟩ = .ok (UInt64.ofNat (Varint.denoted bs), ⟨buffer, rest⟩) := by
  simp only [varint, Varint.read_append numeral short]

theorem varint_cut (numeral : Varint.IsNumeral bs) (short : bs.length ≤ Varint.maxLength)
    (front : cut <+: bs) (proper : cut ≠ bs) (buffer : Bytes) :
    ∃ fault, varint ⟨buffer, cut⟩ = .error fault := by
  simp only [varint, Varint.read_cut numeral short front proper]
  exact ⟨_, rfl⟩

theorem bytes_of_short {n : Nat} (short : cut.length < n) (buffer : Bytes) :
    ∃ fault, bytes n ⟨buffer, cut⟩ = .error fault := by
  simp only [bytes, Bytes.split?_of_short short]
  exact ⟨_, rfl⟩

/-- A length that breaks off, or one that is more than what follows. -/
theorem delimited_cut {content : Bytes} (numeral : Varint.IsNumeral bs)
    (short : bs.length ≤ Varint.maxLength) (stated : Varint.denoted bs = content.length)
    (fits : content.length < UInt64.size) (front : cut <+: bs ++ content)
    (proper : cut ≠ bs ++ content) (buffer : Bytes) :
    ∃ fault, delimited ⟨buffer, cut⟩ = .error fault := by
  rcases prefix_of_append front with ⟨inside, proper⟩ | ⟨part, rfl, inside⟩
  · obtain ⟨fault, failed⟩ := varint_cut numeral short inside proper buffer
    exact ⟨fault, by simp only [delimited, failed]⟩
  · have length : (UInt64.ofNat (Varint.denoted bs)).toNat = content.length := by
      rw [stated, Payload.toNat_ofNat fits]
    have less : part.length < content.length := length_lt_of_front inside (proper <| · ▸ rfl)
    simp only [delimited, varint_of_numeral numeral short, length, Bytes.split?_of_short less]
    exact ⟨_, rfl⟩

end Cursor

/-- A payload that breaks off is not read. -/
theorem Payload.Spelled.read_cut {p : Payload} {bs cut : Bytes} (spelled : p.Spelled bs)
    (front : cut <+: bs) (proper : cut ≠ bs) (buffer : Bytes) :
    ∃ fault, Payload.read ⟨buffer, cut⟩ p.type = .error fault := by
  have length := length_lt_of_front front proper
  cases spelled with
  | varint numeral short =>
    obtain ⟨fault, failed⟩ := Cursor.varint_cut numeral short front proper buffer
    exact ⟨fault, by simp only [read, type, failed, Except.map]⟩
  | fixed64 eight =>
    obtain ⟨fault, failed⟩ := Cursor.bytes_of_short (eight ▸ length) buffer
    exact ⟨fault, by simp only [read, type, Cursor.u64, failed, Except.map]⟩
  | delimited numeral short stated fits =>
    obtain ⟨fault, failed⟩ := Cursor.delimited_cut numeral short stated fits front proper buffer
    exact ⟨fault, by simp only [read, type, failed, Except.map]⟩
  | fixed32 four =>
    obtain ⟨fault, failed⟩ := Cursor.bytes_of_short (four ▸ length) buffer
    exact ⟨fault, by simp only [read, type, Cursor.u32, failed, Except.map]⟩

theorem Key.typeNumber_ofNat (n : Nat) : typeNumber (UInt64.ofNat n) = n % 8 := by
  rw [typeNumber, UInt64.toNat_ofNat']
  exact Nat.mod_mod_of_dvd n (by decide)

namespace Item

/-- Bytes that are a record: a numeral of a key, however long, and a payload of its wire type. -/
inductive IsRecord : Item → Bytes → Prop
  | mk {key body : Bytes} {payload : Payload} :
      Varint.IsNumeral key → key.length ≤ Varint.maxLength →
      Varint.denoted key % 8 = payload.type.number → payload.Spelled body →
      IsRecord ⟨.ofNat (Varint.denoted key), payload⟩ (key ++ body)

/-- Bytes that start with no record: the front of one that breaks off, or a key without a wire
type. -/
inductive IsBroken : Bytes → Prop
  | cut {item : Item} {bs cut : Bytes} :
      item.IsRecord bs → cut <+: bs → cut ≠ [] → cut ≠ bs → IsBroken cut
  | untyped {key rest : Bytes} :
      Varint.IsNumeral key → key.length ≤ Varint.maxLength →
      Varint.denoted key % 8 ∈ [3, 4, 6, 7] → IsBroken (key ++ rest)

theorem Spelled.isRecord {item : Item} {bs : Bytes} (spelled : item.Spelled bs) :
    item.IsRecord bs := by
  cases spelled with
  | @mk key payload body type spelled =>
    obtain ⟨numeral, number⟩ : Varint.IsNumeral (Varint.write key) ∧
        Varint.denoted (Varint.write key) = key.toNat := Varint.isNumeral_numeral key.toNat
    have typed : Varint.denoted (Varint.write key) % 8 = payload.type.number := number ▸ type
    have record := IsRecord.mk numeral (Varint.length_write_le key) typed spelled
    rwa [number, UInt64.ofNat_toNat] at record

variable {item : Item} {bs cut tail : Bytes} {items : List Item} {chunks : List Bytes}

theorem IsRecord.read_append (record : item.IsRecord bs) (buffer rest : Bytes) :
    read ⟨buffer, bs ++ rest⟩ = .ok (item, ⟨buffer, rest⟩) := by
  obtain ⟨numeral, short, type, spelled⟩ := record
  simp only [read, List.append_assoc, Cursor.varint_of_numeral numeral short, Key.typeNumber_ofNat,
    type, WireType.ofNumber?_number, spelled.read_append buffer rest, Except.map]

/-- A record that breaks off is not read, wherever it does. -/
theorem IsRecord.read_cut (record : item.IsRecord bs) (front : cut <+: bs) (proper : cut ≠ bs)
    (buffer : Bytes) : ∃ fault, read ⟨buffer, cut⟩ = .error fault := by
  obtain ⟨numeral, short, type, spelled⟩ := record
  rcases prefix_of_append front with ⟨inside, proper⟩ | ⟨part, rfl, inside⟩
  · obtain ⟨fault, failed⟩ := Cursor.varint_cut numeral short inside proper buffer
    exact ⟨fault, by simp only [read, failed]⟩
  · obtain ⟨fault, failed⟩ := spelled.read_cut inside (proper <| · ▸ rfl) buffer
    refine ⟨fault, ?_⟩
    simp only [read, Cursor.varint_of_numeral numeral short, Key.typeNumber_ofNat, type,
      WireType.ofNumber?_number, failed, Except.map]

theorem IsBroken.read (broken : IsBroken tail) (buffer : Bytes) :
    tail ≠ [] ∧ ∃ fault, Item.read ⟨buffer, tail⟩ = .error fault := by
  cases broken with
  | cut record front filled proper => exact ⟨filled, record.read_cut front proper buffer⟩
  | @untyped key rest numeral short untyped =>
    have unknown : WireType.ofNumber? (Varint.denoted key % 8) = none := by
      simp only [List.mem_cons, List.not_mem_nil, or_false] at untyped
      rcases untyped with h | h | h | h <;> rw [h] <;> rfl
    constructor
    · obtain ⟨front, last, rfl, -⟩ := numeral
      simp
    · simp only [Item.read, Cursor.varint_of_numeral numeral short, Key.typeNumber_ofNat,
        unknown]
      exact ⟨_, rfl⟩

theorem readAll_of_error {buffer rest : Bytes} (filled : rest ≠ []) {fault : ReadError}
    (failed : read ⟨buffer, rest⟩ = .error fault) :
    readAll ⟨buffer, rest⟩ = ([], some fault) := by
  have left : Cursor.isEmpty ⟨buffer, rest⟩ = false := by simpa [Cursor.isEmpty] using filled
  rw [readAll, if_neg (by simp [left])]
  split
  · rename_i fault' failed'
    rw [failed] at failed'
    cases failed'
    rfl
  · rename_i taken
    rw [failed] at taken
    cases taken

theorem readAll_of_broken (broken : IsBroken tail) (buffer : Bytes) :
    ∃ fault, readAll ⟨buffer, tail⟩ = ([], some fault) := by
  obtain ⟨filled, fault, failed⟩ := broken.read buffer
  exact ⟨fault, readAll_of_error filled failed⟩

/-- Scanning a run of records gives these records, then what follows them. -/
theorem readAll_run (records : List.Forall₂ IsRecord items chunks) (buffer tail : Bytes) :
    readAll ⟨buffer, chunks.flatten ++ tail⟩ =
      (items ++ (readAll ⟨buffer, tail⟩).1, (readAll ⟨buffer, tail⟩).2) := by
  induction records with
  | nil => rfl
  | cons first _ ih =>
    rw [List.flatten_cons, List.append_assoc, readAll_of_read (first.read_append buffer _), ih]
    rfl

end Item

namespace Decoding

/-- The state with more noted in it. -/
def note (d : Decoding) (more : Diagnostics) : Decoding := { d with noted := d.noted.merge more }

variable (d : Decoding) (more : Diagnostics) (id : UInt32)

theorem ask_note : (d.note more).ask id = (d.ask id).note more := by
  rw [ask, ask]
  split
  · rename_i asked
    exact (if_pos asked).symm ▸ rfl
  · rename_i fresh
    exact (if_neg fresh).symm ▸ rfl

theorem note_note (more' : Diagnostics) : (d.note more).note more' = (d.note more').note more := by
  simp only [note, Diagnostics.merge, Nat.add_right_comm]

theorem diagnostics_note : (d.note more).diagnostics = d.diagnostics.merge more := by
  simp only [diagnostics, note, Diagnostics.merge, Nat.add_right_comm]

theorem scalar_note (t : ScalarType) (v : t.Value) :
    (d.note more).scalar id t v = ((d.scalar id t v).1, (d.scalar id t v).2.note more) := by
  have table : (d.note more).table = d.table := rfl
  rw [scalar, scalar, table, ask_note]
  cases d.table.find? id with
  | none => rfl
  | some p =>
    dsimp only
    cases fit? t p with
    | none => exact congrArg (Prod.mk v) ((d.ask id).note_note more ⟨0, 1, 0⟩)
    | some v => rfl

theorem enter_note : (d.note more).enter id = ((d.enter id).1.note more, (d.enter id).2) := by
  have table : (d.note more).table = d.table := rfl
  have depth : (d.note more).depth = d.depth := rfl
  rw [enter, enter, table, depth, ask_note]
  cases d.table.find? id with
  | none => rfl
  | some p =>
    cases p with
    | delimited bs =>
      dsimp only
      split
      · exact congrArg (·, none) ((d.ask id).note_note more ⟨0, 0, 1⟩)
      · rfl
    | _ => exact congrArg (·, none) ((d.ask id).note_note more ⟨0, 1, 0⟩)

/-- What was noted before a walk has no influence on it. -/
theorem walk_note (fs : Fields) : fs.walk decoder.toPass (d.note more) =
    ((fs.walk decoder.toPass d).1, (fs.walk decoder.toPass d).2.note more) := by
  induction fs generalizing d with
  | nil => rfl
  | scalar tag s rest ih => simp only [walk_scalar, scalar_note, ih]
  | nested tag header inner rest _ ih =>
    have entered : decoder.enter tag (d.note more) = _ := d.enter_note more tag.id
    rcases opened : d.enter tag.id with ⟨around, _ | state⟩
    · rw [opened] at entered
      rw [walk_nested, walk_nested, Pass.descend_of_closed entered, Pass.descend_of_closed opened]
      simp only [ih]
    · rw [opened] at entered
      rw [walk_nested, walk_nested, Pass.descend_of_opened entered, Pass.descend_of_opened opened]
      -- the state of the nested message is the same one, so only what is around it differs
      have left : decoder.leave tag (inner.walk decoder.toPass state).2 (around.note more) =
          (around.absorb (inner.walk decoder.toPass state).2).note more := around.note_note more _
      simp only [left, ih]
      rfl

end Decoding

open Decoding

/-- A buffer that only has more noted is decoded in the same way. -/
theorem decodeInto_of_note {bs bs' : Bytes} {more : Diagnostics}
    (start : decoder.prime bs' = (decoder.prime bs).note more) (m : Message) :
    (decoder.decodeInto bs' m).1 = (decoder.decodeInto bs m).1 ∧
      (decoder.decodeInto bs' m).2.diagnostics =
        (decoder.decodeInto bs m).2.diagnostics.merge more := by
  have walked := walk_note (decoder.prime bs) more m.fields
  rw [← start] at walked
  have fields := congrArg Prod.fst walked
  have state := congrArg Prod.snd walked
  exact ⟨congrArg (Message.mk m.header) fields,
    (congrArg Decoding.diagnostics state).trans (diagnostics_note _ more)⟩

variable {items : List Item} {chunks : List Bytes} {tail : Bytes}

theorem prime_broken (records : List.Forall₂ Item.IsRecord items chunks)
    (broken : Item.IsBroken tail) :
    decoder.prime (chunks.flatten ++ tail) = (decoder.prime chunks.flatten).note ⟨0, 0, 1⟩ := by
  obtain ⟨fault, ended⟩ := Item.readAll_of_broken broken (chunks.flatten ++ tail)
  have cut := Item.readAll_run records (chunks.flatten ++ tail) tail
  have whole := Item.readAll_run records chunks.flatten []
  rw [ended, List.append_nil] at cut
  rw [Item.readAll_nil, List.append_nil, List.append_nil] at whole
  change Decoding.ofBytes 0 _ = (Decoding.ofBytes 0 _).note _
  simp only [Decoding.ofBytes, Cursor.ofBytes, cut, whole]
  rfl

/-- Records in front of bytes that start with no record are decoded as if they stood alone, and one
malformed frame more is reported. A record that breaks off is never taken over in part. -/
theorem decodeInto_append_broken (records : List.Forall₂ Item.IsRecord items chunks)
    (broken : Item.IsBroken tail) (m : Message) :
    let alone := decoder.decodeInto chunks.flatten m
    let decoded := decoder.decodeInto (chunks.flatten ++ tail) m
    decoded.1 = alone.1 ∧
      decoded.2.diagnostics =
        { alone.2.diagnostics with malformed := alone.2.diagnostics.malformed + 1 } :=
  decodeInto_of_note (prime_broken records broken) m

/-- A nested message of two bytes of which one is missing, behind records with numerals that are
longer than they have to be. -/
theorem decodeInto_append_broken_nested :
    List.Forall₂ Item.IsRecord mixedItems mixedChunks ∧
      Item.IsBroken [0x1A, 2, 0x08] ∧
      (decoder.decodeInto (mixedChunks.flatten ++ [0x1A, 2, 0x08]) (sample 7 'b' 3 "kept")).1 =
        (decoder.decodeInto mixedChunks.flatten (sample 7 'b' 3 "kept")).1 ∧
      (decoder.decodeInto (mixedChunks.flatten ++ [0x1A, 2, 0x08])
        (sample 7 'b' 3 "kept")).2.diagnostics = ⟨2, 0, 1⟩ := by
  have records := spelled_mixedChunks.imp fun _ _ => Item.Spelled.isRecord
  have nested : Item.IsRecord ⟨0x1A, .delimited [0x08, 4]⟩ [0x1A, 2, 0x08, 4] :=
    @Item.IsRecord.mk [0x1A] _ _ ⟨[], 0x1A, rfl, by simp, by decide⟩ (by decide) (by decide)
      (.delimited ⟨[], 2, rfl, by simp, by decide⟩ (by decide) rfl (by decide))
  have broken : Item.IsBroken [0x1A, 2, 0x08] := .cut nested ⟨[4], rfl⟩ (by simp) (by simp)
  obtain ⟨fields, told⟩ := decodeInto_append_broken records broken (sample 7 'b' 3 "kept")
  have alone : (decoder.decodeInto mixedChunks.flatten (sample 7 'b' 3 "kept")).2.diagnostics =
      ⟨2, 0, 0⟩ := by decide +kernel
  rw [alone] at told
  exact ⟨records, broken, fields, told⟩

end Wire

end MessageCodec
