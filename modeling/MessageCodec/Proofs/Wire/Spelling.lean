import Mathlib.Data.List.Forall2
import MessageCodec.Proofs.Wire.Item

/-! The spellings of records. A numeral may be longer than it has to be, up to ten
bytes, and so may those in payloads and in front of them. Whatever its spelling, a
record is read and what follows it is left, so a run of records is scanned whole. -/

namespace MessageCodec.Wire

namespace Varint

/-- All bytes but the last one have the top bit set. -/
def IsNumeral (bs : Bytes) : Prop :=
  ∃ front last, bs = front ++ [last] ∧ (∀ b ∈ front, 128 ≤ b) ∧ last < 128

/-- The number that base-128 digits stand for, the least significant one first. -/
def denoted : Bytes → Nat
  | [] => 0
  | b :: bs => b.toNat % 128 + 128 * denoted bs

theorem readNumeral_append {bs : Bytes} (numeral : IsNumeral bs) {limit : Nat}
    (short : bs.length ≤ limit) (rest : Bytes) :
    readNumeral limit (bs ++ rest) = .ok (denoted bs, rest) := by
  obtain ⟨front, last, rfl, more, stop⟩ := numeral
  induction front generalizing limit with
  | nil =>
    obtain ⟨limit, rfl⟩ := Nat.exists_eq_add_of_le' short
    have small : last.toNat < 128 := UInt8.lt_iff_toNat_lt.1 stop
    simp [readNumeral, stop, denoted, Nat.mod_eq_of_lt small]
  | cons b front ih =>
    rw [List.forall_mem_cons] at more
    cases limit with
    | zero => cases short
    | succ limit =>
      have top : ¬ b < 128 := UInt8.not_lt.2 more.1
      have tail := ih (Nat.le_of_succ_le_succ short) more.2
      simp only [List.cons_append, readNumeral, if_neg top, tail, Except.map, denoted]

theorem read_append {bs : Bytes} (numeral : IsNumeral bs) (short : bs.length ≤ maxLength)
    (rest : Bytes) : read (bs ++ rest) = .ok (UInt64.ofNat (denoted bs), rest) := by
  rw [read, readNumeral_append numeral short]
  rfl

end Varint

/-- Bytes that stand for a payload. -/
inductive Payload.Spelled : Payload → Bytes → Prop
  | varint {bs : Bytes} : Varint.IsNumeral bs → bs.length ≤ Varint.maxLength →
      Spelled (varint (.ofNat (Varint.denoted bs))) bs
  | fixed64 {bs : Bytes} : bs.length = 8 → Spelled (fixed64 (.ofNat (Bytes.littleEndian bs))) bs
  | delimited {bs content : Bytes} : Varint.IsNumeral bs → bs.length ≤ Varint.maxLength →
      Varint.denoted bs = content.length → content.length < UInt64.size →
      Spelled (delimited content) (bs ++ content)
  | fixed32 {bs : Bytes} : bs.length = 4 → Spelled (fixed32 (.ofNat (Bytes.littleEndian bs))) bs

/-- Bytes that are a record: the shortest numeral of a key, then a payload of its wire type. -/
inductive Item.Spelled : Item → Bytes → Prop
  | mk {key : UInt64} {payload : Payload} {bs : Bytes} :
      Key.typeNumber key = payload.type.number → payload.Spelled bs →
      Spelled ⟨key, payload⟩ (Varint.write key ++ bs)

theorem Payload.Spelled.read_append {p : Payload} {bs : Bytes} (spelled : p.Spelled bs)
    (buffer rest : Bytes) :
    Payload.read ⟨buffer, bs ++ rest⟩ p.type = .ok (p, ⟨buffer, rest⟩) := by
  cases spelled with
  | varint numeral short =>
    simp only [read, type, Cursor.varint, Varint.read_append numeral short, Except.map]
  | fixed64 length =>
    have taken := Cursor.bytes_append buffer rest bs
    rw [length] at taken
    simp only [read, type, Cursor.u64, taken, Except.map]
  | @delimited bs content numeral short stated fits =>
    have length : (UInt64.ofNat (Varint.denoted bs)).toNat = content.length := by
      rw [stated, UInt64.toNat_ofNat']
      exact Nat.mod_eq_of_lt fits
    simp only [read, type, Cursor.delimited, Cursor.varint, List.append_assoc,
      Varint.read_append numeral short, length, Bytes.split?_append, Except.map]
  | fixed32 length =>
    have taken := Cursor.bytes_append buffer rest bs
    rw [length] at taken
    simp only [read, type, Cursor.u32, taken, Except.map]

namespace Item

theorem Spelled.read_append {item : Item} {bs : Bytes} (spelled : item.Spelled bs)
    (buffer rest : Bytes) :
    read ⟨buffer, bs ++ rest⟩ = .ok (item, ⟨buffer, rest⟩) := by
  obtain ⟨type, payload⟩ := spelled
  simp only [read, List.append_assoc, Cursor.varint_append, type, WireType.ofNumber?_number,
    payload.read_append buffer rest, Except.map]

/-- A run of records is scanned from the first to the last. -/
theorem readAll_flatten (buffer : Bytes) {items : List Item} {chunks : List Bytes}
    (spelled : List.Forall₂ Spelled items chunks) :
    readAll ⟨buffer, chunks.flatten⟩ = (items, none) := by
  induction spelled with
  | nil => exact readAll_nil buffer
  | cons first _ ih => rw [List.flatten_cons, readAll_of_read (first.read_append buffer _), ih]

end Item

end MessageCodec.Wire
