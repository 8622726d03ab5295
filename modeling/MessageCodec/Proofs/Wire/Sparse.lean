import MessageCodec.Proofs.Wire.Framing
import MessageCodec.Proofs.Wire.Gather

/-! What the encoder leaves out and what it writes. Each field of a message gives at most one record,
in the order of the fields: none if it holds a default, a character above U+00FF, or a message of
which nothing is left, and else the shortest numeral of its key with its payload. What is left out
at the bottom of the tree is counted at its root. -/

namespace MessageCodec

def Content.type : Content → Schema.FieldType
  | scalar s => .scalar s.type
  | message _ => .message

namespace Fields

/-- The fields in order, each with what it holds. -/
def shown : Fields → List (UInt32 × Content)
  | nil => []
  | scalar tag s rest => (tag.id, .scalar s) :: rest.shown
  | nested tag header inner rest => (tag.id, .message ⟨header, inner⟩) :: rest.shown

def scalars : Fields → List Scalar
  | nil => []
  | scalar _ s rest => s :: rest.scalars
  | nested _ _ inner rest => inner.scalars ++ rest.scalars

end Fields

namespace Wire

/-- The shortest of all numerals of a number. -/
structure Varint.IsShortest (n : Nat) (bs : Bytes) : Prop where
  numeral : IsNumeral bs
  number : denoted bs = n
  least : ∀ other, IsNumeral other → denoted other = n → bs.length ≤ other.length

theorem Varint.isShortest_numeral (n : Nat) : IsShortest n (numeral n) := by
  obtain ⟨own, number⟩ := isNumeral_numeral n
  refine ⟨own, number, fun other numeral same => ?_⟩
  have read := readNumeral_append numeral (Nat.le_refl _) []
  rw [List.append_nil, same] at read
  exact length_readNumeral_le read

theorem Key.isShortest_write (id : UInt32) (type : WireType) :
    Varint.IsShortest (id.toNat <<< 3 ||| type.number) (Varint.write (encode id type)) := by
  have number : (encode id type).toNat = id.toNat <<< 3 ||| type.number := by
    rw [toNat_encode, ← Nat.shiftLeft_add_eq_or_of_lt (type.number_lt : _ < 2 ^ 3),
      Nat.shiftLeft_eq, Nat.mul_comm]
  rw [Varint.write, number]
  exact Varint.isShortest_numeral _

/-- Is a record written for a field that holds this? -/
def isWritten : Content → Bool
  | .scalar s => !s.isDefault && !s.isWide
  | .message m => !(encode m).isEmpty

/-- A payload for what a field holds: one that is read as the scalar, or the binary form of the
nested message. -/
def Payload.StandsFor (p : Payload) : Content → Prop
  | .scalar s => ofScalar? s.type s.value = some p ∧ fit? s.type p = some s.value
  | .message m => p = .delimited (encode m)

/-- The record of a field: the shortest key of its identifier and the wire type of its type, and a
payload for what it holds. -/
inductive IsRecordOf : UInt32 × Content → Bytes → Prop
  | mk {id : UInt32} {x : Content} {key : Bytes} {payload : Payload} :
      WireType.ofField? x.type = some payload.type →
      Varint.IsShortest (id.toNat <<< 3 ||| payload.type.number) key → payload.StandsFor x →
      IsRecordOf (id, x) (key ++ payload.bytes)

theorem encode_isEmpty (m : Message) : (encode m).isEmpty = m.fields.table.isEmpty := by
  rw [encode_eq, Table.isEmpty_bytes]

/-- A field leaves a payload just if a record is written for it. -/
theorem Payload.ofContent?_of_isWritten {x : Content} (written : isWritten x) :
    ∃ p, ofContent? x = some p ∧ p.StandsFor x ∧ WireType.ofField? x.type = some p.type := by
  cases x with
  | scalar s =>
    have carried : (ofField? s).isSome := (isSome_ofField? s).trans written
    obtain ⟨p, left⟩ := Option.isSome_iff_exists.1 carried
    have made := left
    rw [ofField?, Option.ite_none_left_eq_some] at made
    refine ⟨p, left, ⟨made.2, fit?_ofScalar? made.2⟩, ?_⟩
    rw [type_ofScalar? made.2]
    rfl
  | message m =>
    rw [isWritten, encode_isEmpty, Bool.not_eq_true'] at written
    refine ⟨.delimited (encode m), ?_, rfl, rfl⟩
    rw [ofContent?, Table.payload?, written, encode_eq]
    rfl

theorem Payload.ofContent?_of_not_isWritten {x : Content} (omitted : isWritten x = false) :
    ofContent? x = none := by
  cases x with
  | scalar s =>
    have absent : (ofField? s).isSome = false := (isSome_ofField? s).trans omitted
    exact Option.isNone_iff_eq_none.1 (Option.isSome_eq_false_iff.1 absent)
  | message m =>
    rw [isWritten, encode_isEmpty, Bool.not_eq_false'] at omitted
    exact Table.payload?_eq_none.2 omitted

theorem forall₂_front {id : UInt32} {x : Content} {shown : List (UInt32 × Content)} {table : Table}
    (behind : List.Forall₂ IsRecordOf (shown.filter fun field => isWritten field.2) table.records) :
    List.Forall₂ IsRecordOf (((id, x) :: shown).filter fun field => isWritten field.2)
      (Table.front id (Payload.ofContent? x) table).records := by
  cases written : isWritten x with
  | false =>
    simp only [List.filter_cons, written, Bool.false_eq_true, ↓reduceIte,
      Payload.ofContent?_of_not_isWritten written]
    exact behind
  | true =>
    obtain ⟨p, left, stands, type⟩ := Payload.ofContent?_of_isWritten written
    simp only [List.filter_cons, written, ↓reduceIte, left]
    exact .cons (.mk type (Key.isShortest_write id p.type) stands) behind

/-- The records of a binary form are those of the fields that are written. -/
theorem forall₂_shown (fs : Fields) :
    List.Forall₂ IsRecordOf (fs.shown.filter fun field => isWritten field.2) fs.table.records := by
  induction fs with
  | nil => exact .nil
  | scalar tag s rest ih => exact forall₂_front ih
  | nested tag header inner rest _ ih => exact forall₂_front ih

theorem isEmpty_front_iff {id : UInt32} {p? : Option Payload} {table : Table} :
    (Table.front id p? table).isEmpty ↔ p? = none ∧ table.isEmpty := by
  cases p? with
  | none => simp [Table.front]
  | some p => simp [Table.front]

/-- Nothing is left of fields just if no scalar in them is carried. -/
theorem isEmpty_table (fs : Fields) :
    fs.table.isEmpty ↔ ∀ s ∈ fs.scalars, s.isDefault ∨ s.isWide := by
  induction fs with
  | nil => simp [Fields.table, Fields.scalars]
  | scalar tag s rest ih =>
    have own : Payload.ofField? s = none ↔ s.isDefault ∨ s.isWide := by
      rw [← Option.not_isSome_iff_eq_none, Payload.isSome_ofField?, Scalar.isCarried]
      cases s.isDefault <;> cases s.isWide <;> simp
    rw [Fields.table, isEmpty_front_iff, own, ih, Fields.scalars, List.forall_mem_cons]
  | nested tag header inner rest ihInner ih =>
    rw [Fields.table, isEmpty_front_iff, Table.payload?_eq_none, ihInner, ih, Fields.scalars,
      List.forall_mem_append]

namespace Encoding

theorem unencodable_scalar (e : Encoding) (id : UInt32) (s : Scalar) :
    (e.scalar id s.type s.value).unencodable = e.unencodable + if s.isWide then 1 else 0 := by
  obtain ⟨t, v⟩ := s
  rw [scalar]
  cases t with
  | char =>
    by_cases wide : 0xFF < v.toNat
    · have filled : ¬ ScalarType.isDefault .char v := by
        rw [ScalarType.isDefault, beq_iff_eq]
        rintro rfl
        cases wide
      rw [if_neg filled, payload?, if_neg (Nat.not_lt.2 wide)]
      simp [Scalar.isWide, wide]
    · have latin : v.toNat < 256 := Nat.lt_succ_of_le (Nat.not_lt.1 wide)
      rw [payload?, if_pos latin]
      simp only [Scalar.isWide, wide, decide_false, Bool.false_eq_true, ↓reduceIte, Nat.add_zero]
      split <;> rfl
  | _ =>
    simp only [payload?, Scalar.isWide, Bool.false_eq_true, ↓reduceIte, Nat.add_zero]
    split <;> rfl

theorem unencodable_message (e inner : Encoding) (id : UInt32) :
    (e.message id inner).unencodable = e.unencodable + inner.unencodable := by
  rw [message]
  split <;> rfl

/-- The count goes up by the characters above U+00FF, at every depth. -/
theorem unencodable_walk (fs : Fields) (e : Encoding) :
    (fs.walk pass e).2.unencodable = e.unencodable + fs.scalars.countP (·.isWide) := by
  induction fs generalizing e with
  | nil => rfl
  | scalar tag s rest ih =>
    have behind := ih (e.scalar tag.id s.type s.value)
    rw [unencodable_scalar] at behind
    rw [Fields.scalars, List.countP_cons, Nat.add_comm (List.countP ..), ← Nat.add_assoc]
    exact behind
  | nested tag header inner rest ihInner ih =>
    have behind := ih (e.message tag.id (inner.walk pass empty).2)
    rw [unencodable_message, ihInner, show empty.unencodable = 0 from rfl, Nat.zero_add] at behind
    rw [Fields.scalars, List.countP_append, ← Nat.add_assoc]
    exact behind

end Encoding

/-- The binary form of a message consists of one record for each field that holds a scalar which is
neither default nor a character above U+00FF, or a message with a binary form that is not empty, in
the order of the fields. It is empty just if no scalar at any depth is carried, and every character
above U+00FF, at any depth, is counted. -/
theorem encode_sparse (m : Message) :
    (∃ records, encode m = records.flatten ∧
      List.Forall₂ IsRecordOf (m.fields.shown.filter fun field => isWritten field.2) records) ∧
      (encode m = [] ↔ ∀ s ∈ m.fields.scalars, s.isDefault ∨ s.isWide) ∧
      (m.walk Encoding.pass .empty).2.unencodable = m.fields.scalars.countP (·.isWide) := by
  refine ⟨⟨m.fields.table.records, encode_eq m, forall₂_shown m.fields⟩, ?_, ?_⟩
  · rw [← List.isEmpty_iff, encode_isEmpty, isEmpty_table]
  · exact (Encoding.unencodable_walk m.fields .empty).trans (Nat.zero_add _)

end Wire

end MessageCodec
