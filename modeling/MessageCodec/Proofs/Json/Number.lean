import MessageCodec.Json.Reader

/-! Numbers of JSON text. A number is read the same whatever follows it, as long as that does not
go on with the number, and an integer that is read has 64 bits. -/

namespace MessageCodec.Json

section Numbers

/-- No more of a number follows. -/
def EndsNumber (rest : List Char) : Prop :=
  ∀ c, rest.head? = some c → ¬ c.isDigit ∧ c ≠ '.' ∧ c ≠ 'e' ∧ c ≠ 'E'

variable {cs rest r : List Char} {n : Number} {negative : Bool} {significand : Nat} {exponent : Int}

theorem EndsNumber.takeWhile (ends : EndsNumber rest) : rest.takeWhile Char.isDigit = [] := by
  cases rest with
  | nil => rfl
  | cons c rest => exact List.takeWhile_cons_of_neg (ends c rfl).1

theorem EndsNumber.dropWhile (ends : EndsNumber rest) : rest.dropWhile Char.isDigit = rest := by
  cases rest with
  | nil => rfl
  | cons c rest => exact List.dropWhile_cons_of_neg (ends c rfl).1

theorem EndsNumber.takeWhile_append (ends : EndsNumber rest) (cs : List Char) :
    (cs ++ rest).takeWhile Char.isDigit = cs.takeWhile Char.isDigit := by
  rw [List.takeWhile_append, ends.takeWhile, List.append_nil]
  split
  · rename_i all
    exact (List.IsPrefix.eq_of_length (List.takeWhile_prefix _) all).symm
  · rfl

theorem EndsNumber.dropWhile_append (ends : EndsNumber rest) (cs : List Char) :
    (cs ++ rest).dropWhile Char.isDigit = cs.dropWhile Char.isDigit ++ rest := by
  rw [List.dropWhile_append, ends.dropWhile]
  split
  · rename_i empty
    rw [List.isEmpty_iff.1 empty, List.nil_append]
  · rfl

/-- What does not go on with a number is left alone when digits are taken. -/
theorem takeDigits_append (ends : EndsNumber rest) (sofar taken : Nat) (cs : List Char) :
    takeDigits sofar taken (cs ++ rest) =
      ((takeDigits sofar taken cs).1, (takeDigits sofar taken cs).2.1,
        (takeDigits sofar taken cs).2.2 ++ rest) := by
  induction cs generalizing sofar taken with
  | nil =>
    cases rest with
    | nil => rfl
    | cons c rest =>
      have other := (ends c rfl).1
      rw [List.nil_append, takeDigits]
      simp [other, takeDigits]
  | cons c cs ih =>
    rw [List.cons_append, takeDigits, takeDigits]
    split
    · exact ih _ _
    · rfl

theorem finishNumber_append (h : finishNumber negative significand exponent cs = some (n, r)) :
    finishNumber negative significand exponent (cs ++ rest) = some (n, r ++ rest) := by
  obtain ⟨magnitude, scaled, same⟩ := Option.map_eq_some_iff.1 h
  cases same
  rw [finishNumber, scaled]
  rfl

def sign : List Char → Bool × List Char
  | '-' :: ds => (true, ds)
  | ds => (false, ds)

def exponentSign : List Char → Bool × List Char
  | '-' :: ds => (true, ds)
  | '+' :: ds => (false, ds)
  | ds => (false, ds)

theorem sign_of_ne {c : Char} (unsigned : c ≠ '-') (cs : List Char) :
    sign (c :: cs) = (false, c :: cs) := by
  unfold sign
  split
  · rename_i shape
    cases shape
    exact absurd rfl unsigned
  · rfl

theorem sign_append (filled : cs ≠ []) (rest : List Char) :
    sign (cs ++ rest) = ((sign cs).1, (sign cs).2 ++ rest) := by
  cases cs with
  | nil => exact absurd rfl filled
  | cons c cs =>
    rw [List.cons_append]
    by_cases minus : c = '-'
    · subst minus
      rfl
    · rw [sign_of_ne minus, sign_of_ne minus]
      rfl

theorem exponentSign_append (filled : cs ≠ []) (rest : List Char) :
    exponentSign (cs ++ rest) = ((exponentSign cs).1, (exponentSign cs).2 ++ rest) := by
  cases cs with
  | nil => exact absurd rfl filled
  | cons c cs =>
    by_cases minus : c = '-'
    · subst minus
      rfl
    · by_cases plus : c = '+'
      · subst plus
        rfl
      · have plain (ds : List Char) : exponentSign (c :: ds) = (false, c :: ds) := by
          unfold exponentSign
          split <;> simp_all
        rw [List.cons_append, plain, plain]
        rfl

theorem readExponent_eq (negative : Bool) (significand : Nat) (exponent : Int) (cs : List Char) :
    readExponent negative significand exponent cs =
      let literal := (exponentSign cs).2.takeWhile Char.isDigit
      let rest := (exponentSign cs).2.dropWhile Char.isDigit
      let value := Decimal.ofDigits 0 literal
      if literal.isEmpty then none
      else if 0x80000000 ≤ value then
        if significand = 0 || (exponentSign cs).1 then some (signed negative 0, rest) else none
      else finishNumber negative significand
        (if (exponentSign cs).1 then exponent - value else exponent + value) rest := by
  rfl

theorem readExponent_append (h : readExponent negative significand exponent cs = some (n, r))
    (ends : EndsNumber rest) :
    readExponent negative significand exponent (cs ++ rest) = some (n, r ++ rest) := by
  have filled : cs ≠ [] := by
    rintro rfl
    cases h
  rw [readExponent_eq] at h ⊢
  rw [exponentSign_append filled]
  dsimp only at h ⊢
  rw [ends.takeWhile_append, ends.dropWhile_append]
  split at h
  · cases h
  · rename_i digits
    rw [if_neg digits]
    split at h
    · rename_i large
      rw [if_pos large]
      split at h
      · rename_i small
        cases h
        rw [if_pos small]
      · cases h
    · rename_i small
      rw [if_neg small]
      exact finishNumber_append h

theorem readEnd_append (h : readEnd negative significand exponent cs = some (n, r))
    (ends : EndsNumber rest) :
    readEnd negative significand exponent (cs ++ rest) = some (n, r ++ rest) := by
  have plain {ds : List Char} (unmarked : ∀ c, ds.head? = some c → c ≠ 'e' ∧ c ≠ 'E') :
      readEnd negative significand exponent ds = finishNumber negative significand exponent ds := by
    unfold readEnd
    split
    · exact absurd rfl (unmarked _ rfl).1
    · exact absurd rfl (unmarked _ rfl).2
    · rfl
  cases cs with
  | nil =>
    rw [List.nil_append, plain fun c head => (ends c head).2.2]
    exact finishNumber_append h
  | cons c cs =>
    by_cases mark : c = 'e' ∨ c = 'E'
    · rcases mark with rfl | rfl <;> exact readExponent_append h ends
    · rw [not_or] at mark
      have unmarked (ds : List Char) : readEnd negative significand exponent (c :: ds) =
          finishNumber negative significand exponent (c :: ds) := by
        refine plain fun d head => ?_
        cases head
        exact mark
      rw [unmarked] at h
      rw [List.cons_append, unmarked]
      exact finishNumber_append h

theorem readFraction_append (h : readFraction negative significand exponent cs = some (n, r))
    (ends : EndsNumber rest) :
    readFraction negative significand exponent (cs ++ rest) = some (n, r ++ rest) := by
  cases cs with
  | nil => cases h
  | cons c cs =>
    rw [List.cons_append, readFraction]
    rw [readFraction] at h
    split at h
    · rename_i digit
      rw [if_pos digit, ← List.cons_append, takeDigits_append ends]
      dsimp only
      rw [ends.dropWhile_append]
      exact readEnd_append h ends
    · cases h

/-- Reads what follows the digits of the whole part. -/
def readTail (negative : Bool) (significand overflow : Nat) (cs : List Char) :
    Option (Number × List Char) :=
  match cs with
  | '.' :: rest => readFraction negative significand overflow rest
  | rest =>
    if overflow = 0 && !(rest.head?.any fun c => c = 'e' || c = 'E') then
      some (ofSignedNat negative significand, rest)
    else readEnd negative significand overflow rest

/-- Reads a number behind its sign. -/
def readMagnitude (negative : Bool) (ds : List Char) : Option (Number × List Char) :=
  match ds with
  | [] => none
  | first :: more =>
    if !first.isDigit then none
    else if first = '0' && (more.head?.any Char.isDigit) then none
    else
      let (significand, _, rest) := takeDigits 0 0 ds
      readTail negative significand (rest.takeWhile Char.isDigit).length
        (rest.dropWhile Char.isDigit)

theorem readNumber_eq (cs : List Char) : readNumber cs = readMagnitude (sign cs).1 (sign cs).2 := by
  have empty (ds : List Char) : decide (ds.length = 0) = ds.isEmpty := by cases ds <;> rfl
  simp only [readMagnitude, readTail, empty]
  rfl

theorem head?_append_any (ends : EndsNumber rest) {p : Char → Bool}
    (other : ∀ c, ¬ c.isDigit ∧ c ≠ '.' ∧ c ≠ 'e' ∧ c ≠ 'E' → p c = false) (cs : List Char) :
    (cs ++ rest).head?.any p = cs.head?.any p := by
  cases cs with
  | nil =>
    cases rest with
    | nil => rfl
    | cons c rest => exact other c (ends c rfl)
  | cons c cs => rfl

theorem readTail_append {significand overflow : Nat}
    (h : readTail negative significand overflow cs = some (n, r)) (ends : EndsNumber rest) :
    readTail negative significand overflow (cs ++ rest) = some (n, r ++ rest) := by
  have mark : (cs ++ rest).head?.any (fun c => c = 'e' || c = 'E') =
      cs.head?.any fun c => c = 'e' || c = 'E' := by
    refine head?_append_any ends (fun c other => ?_) cs
    rw [decide_eq_false other.2.2.1, decide_eq_false other.2.2.2, Bool.or_self]
  unfold readTail at h
  split at h
  · exact readFraction_append h ends
  · rename_i point
    have pointless : ∀ behind, cs ++ rest = '.' :: behind → False := by
      intro behind shape
      cases cs with
      | nil => exact (ends '.' (by rw [← List.nil_append rest, shape]; rfl)).2.1 rfl
      | cons c cs =>
        rw [List.cons_append, List.cons.injEq] at shape
        exact point cs (congrArg (· :: cs) shape.1)
    rw [readTail, mark]
    · split at h
      · rename_i whole
        cases h
        rw [if_pos whole]
      · rename_i marked
        rw [if_neg marked]
        exact readEnd_append h ends
    · exact pointless

theorem readMagnitude_append (h : readMagnitude negative cs = some (n, r))
    (ends : EndsNumber rest) : readMagnitude negative (cs ++ rest) = some (n, r ++ rest) := by
  cases cs with
  | nil => cases h
  | cons first more =>
    have zero : (more ++ rest).head?.any Char.isDigit = more.head?.any Char.isDigit :=
      head?_append_any ends (fun c other => Bool.eq_false_iff.2 other.1) more
    rw [List.cons_append]
    simp only [readMagnitude] at h ⊢
    rw [zero, ← List.cons_append, takeDigits_append ends]
    dsimp only
    rw [ends.takeWhile_append, ends.dropWhile_append]
    split at h
    · cases h
    · rename_i digit
      rw [if_neg digit]
      split at h
      · cases h
      · rename_i alone
        rw [if_neg alone]
        exact readTail_append h ends

/-- A number is read the same in front of anything that does not go on with it. -/
theorem readNumber_append (h : readNumber cs = some (n, r)) (ends : EndsNumber rest) :
    readNumber (cs ++ rest) = some (n, r ++ rest) := by
  have filled : cs ≠ [] := by
    rintro rfl
    cases h
  rw [readNumber_eq] at h ⊢
  rw [sign_append filled]
  exact readMagnitude_append h ends

theorem head_of_readNumber (h : readNumber cs = some (n, r)) :
    ∃ c ds, cs = c :: ds ∧ (c.isDigit ∨ c = '-') := by
  cases cs with
  | nil => cases h
  | cons c cs =>
    refine ⟨c, cs, rfl, Decidable.byContradiction fun other => ?_⟩
    rw [not_or] at other
    simp [readNumber_eq, sign_of_ne other.2, readMagnitude, other.1] at h

theorem takeDigits_lt {sofar : Nat} (small : sofar < UInt64.size) (taken : Nat) (cs : List Char) :
    (takeDigits sofar taken cs).1 < UInt64.size := by
  induction cs generalizing sofar taken with
  | nil => exact small
  | cons c cs ih =>
    rw [takeDigits]
    split
    · rename_i next
      rw [Bool.and_eq_true, decide_eq_true_eq] at next
      exact ih next.2 _
    · exact small

theorem finishNumber_isDouble (h : finishNumber negative significand exponent cs = some (n, r)) :
    ∃ bits, n = .double bits := by
  obtain ⟨magnitude, -, same⟩ := Option.map_eq_some_iff.1 h
  cases same
  exact ⟨_, rfl⟩

theorem readExponent_isDouble (h : readExponent negative significand exponent cs = some (n, r)) :
    ∃ bits, n = .double bits := by
  rw [readExponent_eq] at h
  dsimp only at h
  split at h
  · cases h
  · split at h
    · split at h
      · cases h
        exact ⟨_, rfl⟩
      · cases h
    · exact finishNumber_isDouble h

theorem readEnd_isDouble (h : readEnd negative significand exponent cs = some (n, r)) :
    ∃ bits, n = .double bits := by
  unfold readEnd at h
  split at h
  · exact readExponent_isDouble h
  · exact readExponent_isDouble h
  · exact finishNumber_isDouble h

theorem readFraction_isDouble (h : readFraction negative significand exponent cs = some (n, r)) :
    ∃ bits, n = .double bits := by
  unfold readFraction at h
  split at h
  · split at h
    · exact readEnd_isDouble h
    · cases h
  · cases h

/-- An integer that is read has 64 bits, signed or not. -/
theorem readNumber_sound {i : Int} (h : readNumber cs = some (.integer i, r)) :
    -0x8000000000000000 ≤ i ∧ i < UInt64.size := by
  have size : UInt64.size = 0x10000000000000000 := rfl
  have small := takeDigits_lt (show 0 < UInt64.size by decide) 0 (sign cs).2
  rw [readNumber_eq] at h
  unfold readMagnitude at h
  split at h
  · cases h
  · dsimp only at h
    split at h
    · cases h
    · split at h
      · cases h
      · unfold readTail at h
        split at h
        · obtain ⟨bits, same⟩ := readFraction_isDouble h
          cases same
        · split at h
          · unfold ofSignedNat at h
            split at h
            · cases h
              omega
            · split at h
              · cases h
              · rename_i large
                cases h
                simp only [Bool.or_eq_true, decide_eq_true_eq, not_or, Nat.not_lt] at large
                omega
          · obtain ⟨bits, same⟩ := readEnd_isDouble h
            cases same

end Numbers

end MessageCodec.Json
