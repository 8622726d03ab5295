import MessageCodec.Proofs.Wire.Encoder

/-! Which values the binary form carries. Defaults are left out, among them both
zeros of the floating-point types, and so are characters above U+00FF; whatever is
left out comes back as zero. -/

namespace MessageCodec

namespace ScalarType

theorem isDefault_float (v : UInt32) : isDefault .float v ↔ v = 0 ∨ v = 0x80000000 := by
  have bound := v.toNat_lt
  rw [isDefault, beq_iff_eq, ← UInt32.toNat_inj, ← UInt32.toNat_inj]
  change v.toNat % 0x80000000 = 0 ↔ v.toNat = 0 ∨ v.toNat = 0x80000000
  omega

theorem isDefault_double (v : UInt64) : isDefault .double v ↔ v = 0 ∨ v = 0x8000000000000000 := by
  have bound := v.toNat_lt
  rw [isDefault, beq_iff_eq, ← UInt64.toNat_inj, ← UInt64.toNat_inj]
  change v.toNat % 0x8000000000000000 = 0 ↔ v.toNat = 0 ∨ v.toNat = 0x8000000000000000
  omega

end ScalarType

namespace Scalar

/-- Is the value a character above U+00FF? -/
def isWide : Scalar → Bool
  | ⟨.char, c⟩ => 0xFF < c.toNat
  | _ => false

def isCarried (s : Scalar) : Bool := !s.isDefault && !s.isWide

/-- The value with a negative zero made positive and a character above U+00FF made null. -/
def narrowed : Scalar → Scalar
  | ⟨.float, v⟩ => ⟨.float, if v = 0x80000000 then 0 else v⟩
  | ⟨.double, v⟩ => ⟨.double, if v = 0x8000000000000000 then 0 else v⟩
  | ⟨.char, c⟩ => ⟨.char, if 0xFF < c.toNat then '\x00' else c⟩
  | s => s

theorem narrowed_of_isDefault {s : Scalar} (h : s.isDefault) :
    s.narrowed = ⟨s.type, s.type.zero⟩ := by
  obtain ⟨t, v⟩ := s
  rw [isDefault] at h
  cases t with
  | float => rcases (ScalarType.isDefault_float v).1 h with rfl | rfl <;> rfl
  | double => rcases (ScalarType.isDefault_double v).1 h with rfl | rfl <;> rfl
  | char =>
    obtain rfl : v = '\x00' := by simpa [ScalarType.isDefault] using h
    rfl
  | _ =>
    simp only [ScalarType.isDefault, Bool.not_eq_true', beq_iff_eq, String.isEmpty_iff,
      List.isEmpty_iff] at h
    simp [h, ScalarType.zero, narrowed]

theorem narrowed_of_not_isDefault {s : Scalar} (h : s.isDefault = false) :
    s.narrowed = if s.isWide then ⟨s.type, s.type.zero⟩ else s := by
  obtain ⟨t, v⟩ := s
  rw [isDefault] at h
  cases t with
  | float =>
    have h := mt (ScalarType.isDefault_float v).2 (by simp [h])
    simp only [not_or] at h
    simp [narrowed, isWide, h.2]
  | double =>
    have h := mt (ScalarType.isDefault_double v).2 (by simp [h])
    simp only [not_or] at h
    simp [narrowed, isWide, h.2]
  | char => by_cases wide : 0xFF < v.toNat <;> simp [narrowed, isWide, ScalarType.zero, wide]
  | _ => rfl

theorem narrowed_eq (s : Scalar) :
    s.narrowed = if s.isCarried then s else ⟨s.type, s.type.zero⟩ := by
  rw [isCarried]
  cases h : s.isDefault with
  | true => exact narrowed_of_isDefault h
  | false =>
    rw [narrowed_of_not_isDefault h]
    cases s.isWide <;> rfl

end Scalar

/-- The values that are carried are those with a payload. -/
theorem Wire.Payload.isSome_ofField? (s : Scalar) : (ofField? s).isSome = s.isCarried := by
  obtain ⟨t, v⟩ := s
  rw [ofField?, Scalar.isCarried]
  cases Scalar.isDefault ⟨t, v⟩ with
  | true => rfl
  | false =>
    cases t with
    | char =>
      by_cases latin : v.toNat < 256
      · simp [ofScalar?, Scalar.isWide, latin, Nat.le_of_lt_succ latin]
      · simp [ofScalar?, Scalar.isWide, latin, Nat.lt_of_not_le (mt Nat.lt_succ_of_le latin)]
    | _ => rfl

end MessageCodec
