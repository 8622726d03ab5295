import MessageCodec.Decimal
import MessageCodec.Proofs.Json.Number

/-! String and integer literals of JSON text, read back. A string ends at the first quote that is
not escaped, an integer with its last digit. -/

namespace MessageCodec.Json

section Strings

theorem hexDigit?_digitChar : ∀ d < 16, hexDigit? (Nat.digitChar d) = some d := by decide

theorem unit?_control {n : Nat} (control : n < 32) :
    unit? '0' '0' (Nat.digitChar (n / 16)) (Nat.digitChar (n % 16)) = some n := by
  have zero : hexDigit? '0' = some 0 := rfl
  have number : 4096 * 0 + 256 * 0 + 16 * (n / 16) + n % 16 = n := by omega
  simp only [unit?, zero, hexDigit?_digitChar (n / 16) (by omega),
    hexDigit?_digitChar (n % 16) (by omega), Option.bind_eq_bind, Option.bind_some, number,
    Option.pure_def]

theorem readString_escape (sofar : List Char) (c : Char) (cs : List Char) :
    readString sofar (escape c ++ cs) = readString (c :: sofar) cs := by
  unfold escape
  split
  all_goals try rfl
  -- what is left has no letter of its own
  rename_i quote backslash _ _ _ _ _
  split
  · rename_i control
    have unit := unit?_control control
    have leading : isLeadingSurrogate c.toNat = false := by
      rw [isLeadingSurrogate, decide_eq_false (by omega), Bool.false_and]
    have trailing : isTrailingSurrogate c.toNat = false := by
      rw [isTrailingSurrogate, decide_eq_false (by omega), Bool.false_and]
    simp only [List.cons_append, List.nil_append]
    rw [readString]
    simp only [unit, leading, trailing, Bool.false_eq_true, if_false, Char.ofNat_toNat]
  · rename_i plain
    have literal : (c = '\\' || c.toNat < 32) = false := by
      rw [decide_eq_false backslash, decide_eq_false plain, Bool.or_self]
    rw [List.singleton_append, readString]
    · rw [literal]
      rfl
    · exact quote
    · rintro a b d e behind rfl -
      exact backslash rfl
    · rintro d behind rfl -
      exact backslash rfl

/-- A literal is read up to its closing quote. -/
theorem readString_flatMap_escape (sofar s rest : List Char) :
    readString sofar (s.flatMap escape ++ '"' :: rest) =
      some (String.ofList (sofar.reverse ++ s), rest) := by
  induction s generalizing sofar with
  | nil => simp [readString]
  | cons c s ih =>
    rw [List.flatMap_cons, List.append_assoc, readString_escape, ih, List.reverse_cons,
      List.append_assoc, List.singleton_append]

theorem readString_of_string (s : String) (rest : List Char) :
    readString [] (s.toList.flatMap escape ++ '"' :: rest) = some (s, rest) := by
  rw [readString_flatMap_escape, List.reverse_nil, List.nil_append, String.ofList_toList]

end Strings

section Integers

/-- Digits are taken up to the last one, if the number fits in 64 bits. -/
theorem takeDigits_eq {ds : List Char} {sofar : Nat} (taken : Nat) (digits : ∀ c ∈ ds, c.isDigit)
    (fits : Decimal.ofDigits sofar ds < UInt64.size) :
    takeDigits sofar taken ds = (Decimal.ofDigits sofar ds, taken + ds.length, []) := by
  induction ds generalizing sofar taken with
  | nil => rfl
  | cons d ds ih =>
    have first : d.isDigit := digits d (List.mem_cons_self ..)
    have next : 10 * sofar + Decimal.digitValue d < UInt64.size :=
      Nat.lt_of_le_of_lt (Decimal.le_ofDigits _ ds) fits
    have others : ∀ c ∈ ds, c.isDigit := fun c mem => digits c (List.mem_cons_of_mem _ mem)
    rw [takeDigits]
    simp only [first, next, decide_true, Bool.and_self, if_true]
    rw [ih (taken + 1) others fits, List.length_cons, Nat.add_assoc, Nat.add_comm 1]
    rfl

/-- A number starts with a zero only when that is all of it. -/
theorem eq_nil_of_leading_zero {n : Nat} {ds : List Char} (shape : Decimal.digits n = '0' :: ds) :
    ds = [] := by
  obtain rfl | pos := Nat.eq_zero_or_pos n
  · have single : Decimal.digits 0 = ['0'] := rfl
    rw [single, List.cons.injEq] at shape
    exact shape.2.symm
  · obtain ⟨c, head, nonzero⟩ := Decimal.head?_digits n pos
    rw [shape, List.head?_cons, Option.some.injEq] at head
    exact absurd head.symm nonzero

theorem sign_digits (n : Nat) : sign (Decimal.digits n) = (false, Decimal.digits n) := by
  cases shape : Decimal.digits n with
  | nil => rfl
  | cons d ds =>
    refine sign_of_ne ?_ ds
    rintro rfl
    have digit : '-'.isDigit := Decimal.isDigit_of_mem_digits (shape ▸ List.mem_cons_self ..)
    cases digit

theorem readMagnitude_digits (negative : Bool) {n : Nat} (fits : n < UInt64.size) :
    readMagnitude negative (Decimal.digits n) = some (ofSignedNat negative n, []) := by
  have value := Decimal.ofDigits_digits n
  have taken := takeDigits_eq 0 (fun c => Decimal.isDigit_of_mem_digits) (value.symm ▸ fits)
  rw [value] at taken
  cases shape : Decimal.digits n with
  | nil => exact absurd shape Nat.toDigits_ne_nil
  | cons d ds =>
    have digit : d.isDigit := Decimal.isDigit_of_mem_digits (shape ▸ List.mem_cons_self ..)
    have leading : ¬ (d = '0' && ds.head?.any Char.isDigit) = true := by
      rw [Bool.and_eq_true, decide_eq_true_eq]
      rintro ⟨rfl, more⟩
      rw [eq_nil_of_leading_zero shape] at more
      cases more
    rw [shape] at taken
    simp only [readMagnitude, digit, taken, if_neg leading]
    rfl

theorem readNumber_ofInt {i : Int} (low : -0x8000000000000000 ≤ i) (high : i < UInt64.size) :
    readNumber (Decimal.ofInt i) = some (.integer i, []) := by
  have size : UInt64.size = 0x10000000000000000 := rfl
  have fits : i.natAbs < UInt64.size := by omega
  rw [readNumber_eq, Decimal.ofInt]
  split
  · rename_i negative
    have nonzero : i.natAbs ≠ 0 := by omega
    have small : ¬ 0x8000000000000000 < i.natAbs := by omega
    have value : -(i.natAbs : Int) = i := by omega
    have read := readMagnitude_digits true fits
    simp only [ofSignedNat, Bool.not_true, Bool.false_eq_true, if_false, nonzero, small,
      decide_false, Bool.or_self, value] at read
    exact read
  · rename_i nonnegative
    have value : (i.natAbs : Int) = i := by omega
    have read := readMagnitude_digits false fits
    simp only [ofSignedNat, Bool.not_false, if_true, value] at read
    rw [sign_digits]
    exact read

end Integers

end MessageCodec.Json
