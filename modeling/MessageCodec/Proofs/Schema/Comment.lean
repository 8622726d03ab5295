import MessageCodec.Schema.Comment

/-! Removing comments. What is left holds no comment, because removal never brings the two
characters of an opener or of a closer together; and a text without comments is left as
it is. -/

namespace MessageCodec.Schema.Comment

/-- A block closer stands somewhere in the text. -/
def Closes (cs : List Char) : Prop := (afterCloser? cs).isSome

/-- No comment starts anywhere in the text. -/
def Clean : List Char → Prop
  | [] => True
  | c :: cs => skip? (c :: cs) = none ∧ Clean cs

instance : DecidablePred Closes := fun cs => inferInstanceAs (Decidable ((afterCloser? cs).isSome))

instance decidableClean : DecidablePred Clean
  | [] => .isTrue trivial
  | c :: cs =>
    have := decidableClean cs
    inferInstanceAs (Decidable (skip? (c :: cs) = none ∧ Clean cs))

variable {c : Char} {cs rest : List Char}

theorem closes_cons : Closes (c :: cs) ↔ (c = '*' ∧ cs.head? = some '/') ∨ Closes cs := by
  rw [Closes, Closes]
  cases cs with
  | nil => simp [afterCloser?]
  | cons d ds =>
    by_cases closer : c = '*' ∧ d = '/'
    · obtain ⟨rfl, rfl⟩ := closer
      simp [afterCloser?]
    · rw [afterCloser?]
      · simp [closer]
      · simpa using closer

/-- Where a comment starts, and where it does not. -/
theorem skip?_cons_eq_none :
    skip? (c :: cs) = none ↔
      ¬ (c = '/' ∧ (cs.head? = some '/' ∨ (cs.head? = some '*' ∧ Closes cs.tail))) := by
  by_cases slash : c = '/'
  · subst slash
    cases cs with
    | nil => simp [skip?]
    | cons d ds =>
      by_cases line : d = '/'
      · subst line
        simp [skip?]
      · by_cases block : d = '*'
        · subst block
          simp [skip?, Closes]
        · simp [skip?, line, block]
  · simp [skip?, slash]

theorem skip?_eq_none_of_head (other : c ≠ '/') : skip? (c :: cs) = none :=
  skip?_cons_eq_none.2 fun opener => other opener.1

theorem head?_of_skip? (h : skip? cs = some rest) : cs.head? = some '/' := by
  unfold skip? at h
  split at h
  · rfl
  · rfl
  · cases h

theorem suffix_of_afterCloser? (h : afterCloser? cs = some rest) : rest <:+ cs := by
  fun_induction afterCloser? cs with
  | case1 => cases h
  | case2 rest' =>
    cases h
    exact ⟨['*', '/'], rfl⟩
  | case3 c cs _ ih => exact (ih h).trans (List.suffix_cons c cs)

theorem suffix_of_skip? (h : skip? cs = some rest) : rest <:+ cs := by
  unfold skip? at h
  split at h
  · rename_i behind
    cases h
    exact (List.dropWhile_suffix _).trans ⟨['/', '/'], rfl⟩
  · rename_i behind
    exact (suffix_of_afterCloser? h).trans ⟨['/', '*'], rfl⟩
  · cases h

theorem Closes.of_suffix (closes : Closes rest) (suffix : rest <:+ cs) : Closes cs := by
  obtain ⟨front, rfl⟩ := suffix
  induction front with
  | nil => exact closes
  | cons c front ih => exact closes_cons.2 (.inr ih)

theorem strip_nil : strip [] = [] := by
  rw [strip]
  rfl

theorem strip_cons (h : skip? (c :: cs) = none) : strip (c :: cs) = c :: strip cs := by
  rw [strip]
  split
  · simp_all
  · rfl

theorem strip_of_clean (clean : Clean cs) : strip cs = cs := by
  induction cs with
  | nil => exact strip_nil
  | cons c cs ih => rw [strip_cons clean.1, ih clean.2]

/-- What is left starts as the text does, or the text starts with a comment. -/
theorem head?_strip (h : (strip cs).head? = some c) :
    cs.head? = some c ∨ cs.head? = some '/' := by
  cases found : skip? cs with
  | some rest => exact .inr (head?_of_skip? found)
  | none =>
    cases cs with
    | nil => rw [strip_nil] at h; cases h
    | cons d ds =>
      rw [strip_cons found] at h
      exact .inl h

/-- Removing comments makes no closer. -/
theorem closes_of_closes_strip (h : Closes (strip cs)) : Closes cs := by
  fun_induction strip cs with
  | case1 cs rest found _ ih => exact (ih h).of_suffix (suffix_of_skip? found)
  | case2 => exact h
  | case3 c cs _ ih =>
    rw [closes_cons] at h ⊢
    rcases h with ⟨star, slash⟩ | h
    · rcases head?_strip slash with head | head <;> exact .inl ⟨star, head⟩
    · exact .inr (ih h)

theorem clean_strip (cs : List Char) : Clean (strip cs) := by
  fun_induction strip cs with
  | case1 cs rest found _ ih => exact ih
  | case2 => trivial
  | case3 c cs none ih =>
    refine ⟨?_, ih⟩
    rw [skip?_cons_eq_none] at none ⊢
    rintro ⟨slash, opener⟩
    -- after a slash no comment can start at once, so what follows it is kept
    have kept : cs.head? ≠ some '/' := fun head => none ⟨slash, .inl head⟩
    cases found : skip? cs with
    | some rest => exact kept (head?_of_skip? found)
    | none =>
      cases cs with
      | nil => simp [strip_nil] at opener
      | cons d ds =>
        rw [strip_cons found] at opener
        rcases opener with line | ⟨block, closes⟩
        · exact none ⟨slash, .inl line⟩
        · exact none ⟨slash, .inr ⟨block, closes_of_closes_strip closes⟩⟩

end MessageCodec.Schema.Comment
