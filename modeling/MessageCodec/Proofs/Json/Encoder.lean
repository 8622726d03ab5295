import MessageCodec.Json.Decoder
import MessageCodec.Json.Encoder
import MessageCodec.Proofs.Bytes
import MessageCodec.Proofs.Json.RoundTrip
import MessageCodec.Proofs.Namesakes
import MessageCodec.Proofs.Text.Base64

/-! Messages as JSON objects. A message whose fields have distinct names becomes an object with
one member for each of them. The value of a scalar that is not in floating point stands
for that scalar, and its text is read back. -/

namespace MessageCodec

namespace Fields

def members : Fields → Json.Members
  | nil => []
  | scalar tag s rest => (tag.name, .ofScalar s.type s.value) :: rest.members
  | nested tag _ inner rest => (tag.name, .object inner.members) :: rest.members

theorem map_fst_members (fs : Fields) : fs.members.map Prod.fst = fs.names := by
  induction fs with
  | nil => rfl
  | scalar tag s rest ih => rw [members, names, List.map_cons, ih]
  | nested tag header inner rest _ ih => rw [members, names, List.map_cons, ih]

end Fields

namespace Json

theorem Plain.insert {levels : Nat} {members : Members} {item : Json}
    (plain : Plain (levels + 1) (.object members)) (name : String) (plainItem : Plain levels item) :
    Plain (levels + 1) (.object (members.insert name item)) := by
  cases plain with
  | object names plain =>
    refine .object (Members.nodup_insert names name item) fun member mem => ?_
    obtain rfl | mem := Members.mem_insert mem
    · exact plainItem
    · exact plain member mem

theorem prime_of_plain {members : Members} (plain : Plain maxNesting (.object members)) :
    decoder.prime (Utf8.encode (Json.object members).text) = members := by
  change membersOfBytes _ = _
  rw [membersOfBytes, Utf8.decode?_encode, Option.map_some, membersOfText, plain.parse?_text]
  rfl

namespace Encoding

theorem walk_pass {fs : Fields} (named : fs.DistinctNames) {e : Encoding} (unmasked : e.mask = [])
    (apart : (e.members.map Prod.fst ++ fs.names).Nodup) :
    (fs.walk pass e).2.members = e.members ++ fs.members := by
  induction fs generalizing e with
  | nil => exact (List.append_nil _).symm
  | scalar tag s rest ih =>
    obtain ⟨sofar, mask⟩ := e
    obtain rfl : mask = [] := unmasked
    obtain ⟨added, apart⟩ := Members.insert_of_nodup apart (ofScalar s.type s.value)
    change (rest.walk pass ⟨Members.insert tag.name _ sofar, []⟩).2.members = _
    rw [added, ih named.2 rfl apart, List.append_assoc]
    rfl
  | nested tag header inner rest ihInner ih =>
    obtain ⟨sofar, mask⟩ := e
    obtain rfl : mask = [] := unmasked
    have inside : (inner.walk pass (empty [])).2.members = inner.members :=
      ihInner named.2.1 rfl named.2.1.nodup_names
    obtain ⟨added, apart⟩ := Members.insert_of_nodup apart (.object inner.members)
    change (rest.walk pass ⟨Members.insert tag.name
      (.object (inner.walk pass (empty [])).2.members) sofar, []⟩).2.members = _
    rw [inside, added, ih named.2.2 rfl apart, List.append_assoc]
    rfl

end Encoding

section Scalars

theorem signedInRange?_toInt (w : Width) (v : BitVec w.bits) :
    signedInRange? w v.toInt = some v := by
  have low := v.le_toInt
  have high := v.toInt_lt
  have range : -((w.size : Int) / 2) ≤ v.toInt ∧ v.toInt < (w.size : Int) / 2 := by
    cases w <;> exact ⟨low, high⟩
  rw [signedInRange?, if_pos range, BitVec.ofInt_toInt]

theorem unsignedInRange?_toNat (w : Width) (v : BitVec w.bits) :
    unsignedInRange? w v.toNat = some v := by
  have range : 0 ≤ (v.toNat : Int) ∧ (v.toNat : Int) < w.size :=
    ⟨Int.natCast_nonneg _, Int.ofNat_lt.2 v.isLt⟩
  rw [unsignedInRange?, if_pos range, BitVec.ofInt_natCast, BitVec.ofNat_toNat, BitVec.setWidth_eq]

variable {t : ScalarType} (single : t ≠ .float) (double : t ≠ .double)
include single double

/-- A value that is not in floating point is read as it was written. -/
theorem fit?_ofScalar (v : t.Value) : fit? t (ofScalar t v) = some v := by
  cases t with
  | bool => rfl
  | char =>
    have text : (Char.toString v).toList = [v] := String.toList_singleton v
    rw [ofScalar, fit?, text]
    rfl
  | int w => exact signedInRange?_toInt w v
  | uint w => exact unsignedInRange?_toNat w v
  | float => exact absurd rfl single
  | double => exact absurd rfl double
  | string => rfl
  | bytes =>
    rw [ofScalar, fit?, String.toList_ofList]
    exact Text.Base64.decode?_encode v

theorem plain_ofScalar (v : t.Value) (levels : Nat) : Plain levels (ofScalar t v) := by
  cases t with
  | bool => exact .bool v
  | char => exact .string _
  | int w =>
    have low := v.le_toInt
    have high := v.toInt_lt
    have size : UInt64.size = 0x10000000000000000 := rfl
    refine .integer ?_ ?_ <;> cases w <;> simp only [Width.bits] at low high <;> omega
  | uint w =>
    have high := v.isLt
    have size : UInt64.size = 0x10000000000000000 := rfl
    refine .integer ?_ ?_ <;> cases w <;> simp only [Width.bits] at high <;> omega
  | float => exact absurd rfl single
  | double => exact absurd rfl double
  | string => exact .string v
  | bytes => exact .string _

end Scalars

end Json

end MessageCodec
