import MessageCodec.Schema.Token

/-! What the tokens of a specification look like, and how the scanner reads one. The token
that it takes is a lexeme at the front of the text, no lexeme there is longer, and a
lexeme that the text behind it does not extend is read back. -/

namespace MessageCodec.Schema

/-- Digits, with at most one point among or after them. -/
def IsUnsigned (cs : List Char) : Prop :=
  ∃ whole fraction, cs = whole ++ fraction ∧ whole ≠ [] ∧ (∀ c ∈ whole, c.isDigit) ∧
    (fraction = [] ∨ ∃ ds, fraction = '.' :: ds ∧ ∀ c ∈ ds, c.isDigit)

/-- A number, with a sign or without one. -/
def IsNumeral (cs : List Char) : Prop :=
  IsUnsigned cs ∨ ∃ sign ds, cs = sign :: ds ∧ (sign = '-' ∨ sign = '+') ∧ IsUnsigned ds

/-- A letter, then letters, digits and underscores. -/
def IsWord (cs : List Char) : Prop :=
  ∃ c ds, cs = c :: ds ∧ c.isAlpha ∧ ∀ d ∈ ds, Token.isIdentifierChar d

theorem isWord_cons_iff {c : Char} {ds : List Char} :
    IsWord (c :: ds) ↔ c.isAlpha ∧ ∀ d ∈ ds, Token.isIdentifierChar d := by
  constructor
  · rintro ⟨_, _, ⟨⟩, letter, inside⟩
    exact ⟨letter, inside⟩
  · rintro ⟨letter, inside⟩
    exact ⟨c, ds, rfl, letter, inside⟩

instance : (cs : List Char) → Decidable (IsWord cs)
  | [] => .isFalse nofun
  | c :: ds =>
    decidable_of_iff (c.isAlpha ∧ ds.all Token.isIdentifierChar)
      (by rw [isWord_cons_iff, List.all_eq_true])

theorem IsWord.isIdentifierChar {cs : List Char} (word : IsWord cs) :
    ∀ c ∈ cs, Token.isIdentifierChar c := by
  obtain ⟨c, ds, rfl, letter, inside⟩ := word
  refine List.forall_mem_cons.2 ⟨?_, inside⟩
  simp [Token.isIdentifierChar, Char.isAlphanum, letter]

theorem IsNumeral.exists_cons {cs : List Char} (numeral : IsNumeral cs) :
    ∃ c ds, cs = c :: ds ∧ (c.isDigit ∨ c = '-' ∨ c = '+') := by
  obtain ⟨whole, fraction, rfl, nonempty, digits, -⟩ | ⟨sign, ds, rfl, either, -⟩ := numeral
  · cases whole with
    | nil => exact absurd rfl nonempty
    | cons c cs => exact ⟨c, cs ++ fraction, rfl, .inl (digits c (List.mem_cons_self ..))⟩
  · exact ⟨sign, ds, rfl, .inr either⟩

namespace Token

/-- Can the spelling of a token be read as that token? -/
def IsLexeme : Token → Prop
  | identifier name => IsWord name.toList
  | number text => IsNumeral text.toList
  | string content => '"' ∉ content.toList
  | character c => c ≠ '\''
  | _ => True

section Runs

variable {p : Char → Bool} {run : List Char}

/-- A run of characters ends where the next one does not belong to it. -/
theorem takeWhile_run (inside : ∀ c ∈ run, p c) {rest : List Char}
    (stop : ∀ c, rest.head? = some c → p c = false) :
    (run ++ rest).takeWhile p = run ∧ (run ++ rest).dropWhile p = rest := by
  rw [List.takeWhile_append_of_pos inside, List.dropWhile_append_of_pos inside]
  cases rest with
  | nil => simp
  | cons c cs => simp [stop c rfl]

theorem length_le_takeWhile (inside : ∀ c ∈ run, p c) (rest : List Char) :
    run.length ≤ ((run ++ rest).takeWhile p).length := by
  rw [List.takeWhile_append_of_pos inside, List.length_append]
  omega

end Runs

theorem stop_of_dot (rest : List Char) (c : Char) (head : ('.' :: rest).head? = some c) :
    c.isDigit = false := by
  cases head
  decide

/-- The digits and the point that are taken are a number, and a part of the text. -/
theorem digitsAndPoint_sound {cs : List Char} (digit : startsWithDigit cs) :
    IsUnsigned (digitsAndPoint cs).1 ∧ (digitsAndPoint cs).1 ++ (digitsAndPoint cs).2 = cs := by
  have parts := List.takeWhile_append_dropWhile (p := Char.isDigit) (l := cs)
  have digits (l : List Char) : ∀ d ∈ l.takeWhile Char.isDigit, d.isDigit :=
    List.all_eq_true.1 List.all_takeWhile
  have nonempty : cs.takeWhile Char.isDigit ≠ [] := by
    cases cs with
    | nil => cases digit
    | cons c cs =>
      rw [startsWithDigit] at digit
      simp [digit]
  unfold digitsAndPoint
  split
  · rename_i rest point
    have fraction := List.takeWhile_append_dropWhile (p := Char.isDigit) (l := rest)
    refine ⟨⟨_, _, rfl, nonempty, digits cs, .inr ⟨_, rfl, digits rest⟩⟩, ?_⟩
    simp only [List.append_assoc, List.cons_append, fraction]
    rw [← point, parts]
  · exact ⟨⟨_, [], (List.append_nil _).symm, nonempty, digits cs, .inl rfl⟩, parts⟩

/-- No number at the start of a text is longer than the digits and the point that are taken. -/
theorem length_le_digitsAndPoint {ds : List Char} (unsigned : IsUnsigned ds) (rest : List Char) :
    ds.length ≤ (digitsAndPoint (ds ++ rest)).1.length := by
  obtain ⟨whole, fraction, rfl, -, digits, rfl | ⟨es, rfl, digits'⟩⟩ := unsigned
  · have run := length_le_takeWhile digits rest
    rw [List.append_nil]
    unfold digitsAndPoint
    split
    · rw [List.length_append]
      omega
    · exact run
  · have run := takeWhile_run digits (stop_of_dot (es ++ rest))
    have run' := length_le_takeWhile digits' rest
    rw [List.append_assoc, List.cons_append]
    simp only [digitsAndPoint, run.1, run.2, List.length_append, List.length_cons]
    omega

theorem digitsAndPoint_append {ds rest : List Char} (unsigned : IsUnsigned ds)
    (stop : ∀ c, rest.head? = some c → c.isDigit = false ∧ c ≠ '.') :
    digitsAndPoint (ds ++ rest) = (ds, rest) := by
  have stopDigit : ∀ c, rest.head? = some c → c.isDigit = false := fun c head => (stop c head).1
  obtain ⟨whole, fraction, rfl, -, digits, rfl | ⟨es, rfl, digits'⟩⟩ := unsigned
  · have run := takeWhile_run digits stopDigit
    rw [List.append_nil]
    unfold digitsAndPoint
    rw [run.1, run.2]
    split
    · exact absurd rfl (stop '.' rfl).2
    · rfl
  · have run := takeWhile_run digits (stop_of_dot (es ++ rest))
    have run' := takeWhile_run digits' stopDigit
    rw [List.append_assoc, List.cons_append]
    simp only [digitsAndPoint, run.1, run.2, run'.1, run'.2]

theorem startsWithDigit_append {ds : List Char} (unsigned : IsUnsigned ds) (rest : List Char) :
    startsWithDigit (ds ++ rest) := by
  obtain ⟨whole, fraction, rfl, nonempty, digits, -⟩ := unsigned
  cases whole with
  | nil => exact absurd rfl nonempty
  | cons c cs => exact digits c (List.mem_cons_self ..)

theorem mark?_of_isAlphanum {c : Char} (h : c.isAlphanum) : mark? c = none := by
  unfold mark?
  split <;> first | rfl | exact absurd h (by decide)

theorem isAlpha_iff_toNat {c : Char} :
    c.isAlpha ↔ (65 ≤ c.toNat ∧ c.toNat ≤ 90) ∨ (97 ≤ c.toNat ∧ c.toNat ≤ 122) := by
  change (decide (65 ≤ c.val ∧ c.val ≤ 90) ||
    (decide (97 ≤ c.val) && decide (c.val ≤ 122))) = true ↔ _
  simp only [Bool.or_eq_true, Bool.and_eq_true, decide_eq_true_eq, UInt32.le_iff_toNat_le]
  rfl

theorem isDigit_of_isAlpha {c : Char} (letter : c.isAlpha) : c.isDigit = false := by
  rw [isAlpha_iff_toNat] at letter
  rw [Bool.eq_false_iff]
  intro digit
  have between : 48 ≤ c.toNat ∧ c.toNat ≤ 57 := Char.isDigit_iff_toNat.1 digit
  omega

theorem first_word {c : Char} (letter : c.isAlpha) (cs : List Char) :
    first c cs = .ok (identifier (String.ofList (c :: cs.takeWhile isIdentifierChar)),
      cs.dropWhile isIdentifierChar) := by
  have alphanum : c.isAlphanum := by simp [Char.isAlphanum, letter]
  have other (d : Char) (h : d.isAlpha = false) : c ≠ d := by
    rintro rfl
    simp [h] at letter
  simp [first, mark?_of_isAlphanum alphanum, other '"' (by decide), other '\'' (by decide),
    other '-' (by decide), other '+' (by decide), isDigit_of_isAlpha letter, letter]

theorem first_digits {c : Char} (digit : c.isDigit) (cs : List Char) :
    first c cs = .ok (number (String.ofList (digitsAndPoint (c :: cs)).1),
      (digitsAndPoint (c :: cs)).2) := by
  have alphanum : c.isAlphanum := by simp [Char.isAlphanum, digit]
  have other (d : Char) (h : d.isDigit = false) : c ≠ d := by
    rintro rfl
    simp [h] at digit
  simp [first, mark?_of_isAlphanum alphanum, other '"' (by decide), other '\'' (by decide), digit]

theorem first_signed {c : Char} (sign : c = '-' ∨ c = '+') {cs : List Char}
    (digit : startsWithDigit cs) :
    first c cs = .ok (number (String.ofList (c :: (digitsAndPoint cs).1)),
      (digitsAndPoint cs).2) := by
  rcases sign with rfl | rfl <;> simp [first, mark?, digit]

theorem first_string {content rest : List Char} (plain : '"' ∉ content) :
    first '"' (content ++ '"' :: rest) = .ok (string (String.ofList content), rest) := by
  have inside : ∀ c ∈ content, (c != '"') = true := fun c mem =>
    bne_iff_ne.2 fun same => plain (same ▸ mem)
  have stop : ∀ c, ('"' :: rest).head? = some c → (c != '"') = false := by simp
  have run := takeWhile_run inside stop
  simp [first, mark?, run.1, run.2]

theorem first_character {c : Char} (plain : c ≠ '\'') (rest : List Char) :
    first '\'' (c :: '\'' :: rest) = .ok (character c, rest) := by
  simp [first, mark?, plain]

theorem isWord_takeWhile {c : Char} (letter : c.isAlpha) (cs : List Char) :
    IsWord (c :: cs.takeWhile isIdentifierChar) :=
  ⟨c, _, rfl, letter, List.all_eq_true.1 List.all_takeWhile⟩

/-- The token that is taken is a lexeme, and it is taken off the text. -/
theorem first_sound {c : Char} {cs rest : List Char} {t : Token} (h : first c cs = .ok (t, rest)) :
    t.IsLexeme ∧ c :: cs = t.spelling ++ rest := by
  unfold first at h
  split at h
  · rename_i mark found
    cases h
    unfold mark? at found
    split at found <;> cases found <;> exact ⟨trivial, rfl⟩
  split at h
  · rename_i quote
    subst quote
    have parts := List.takeWhile_append_dropWhile (p := (· != '"')) (l := cs)
    split at h
    · cases h
    · rename_i d rest' closing
      cases h
      have closer : d = '"' := by
        have := List.head?_dropWhile_not (· != '"') cs
        simpa [closing] using this
      subst closer
      rw [closing] at parts
      refine ⟨?_, ?_⟩
      · rw [IsLexeme, String.toList_ofList]
        intro mem
        have := List.all_eq_true.1 List.all_takeWhile _ mem
        simp at this
      · simp [spelling, parts]
  split at h
  · rename_i quote
    subst quote
    split at h
    · split at h
      · cases h
      · rename_i plain
        cases h
        exact ⟨plain, rfl⟩
    · cases h
  split at h
  · rename_i digit
    cases h
    have starts : startsWithDigit (c :: cs) := digit
    have taken := digitsAndPoint_sound starts
    simp only [IsLexeme, spelling, String.toList_ofList]
    exact ⟨.inl taken.1, taken.2.symm⟩
  split at h
  · rename_i signed
    cases h
    simp only [Bool.and_eq_true, Bool.or_eq_true, decide_eq_true_eq] at signed
    have taken := digitsAndPoint_sound signed.2
    simp only [IsLexeme, spelling, String.toList_ofList, List.cons_append]
    exact ⟨.inr ⟨c, _, rfl, signed.1, taken.1⟩, congrArg (c :: ·) taken.2.symm⟩
  split at h
  · rename_i letter
    cases h
    simp only [IsLexeme, spelling, String.toList_ofList, List.cons_append,
      List.takeWhile_append_dropWhile]
    exact ⟨isWord_takeWhile letter cs, trivial⟩
  · cases h

/-- Where a lexeme stands at the front of a text, a token is taken, and one that is as long. -/
theorem first_of_lexeme {u : Token} (lexeme : u.IsLexeme) {c : Char} {cs rest : List Char}
    (h : c :: cs = u.spelling ++ rest) :
    ∃ t rest', first c cs = .ok (t, rest') ∧ u.spelling.length ≤ t.spelling.length := by
  cases u with
  | identifier name =>
    obtain ⟨d, ds, word, letter, inside⟩ := lexeme
    simp only [spelling, word, List.cons_append, List.cons.injEq] at h
    obtain ⟨rfl, rfl⟩ := h
    refine ⟨_, _, first_word letter _, ?_⟩
    have run := length_le_takeWhile inside rest
    simp only [spelling, word, String.toList_ofList, List.length_cons]
    omega
  | number text =>
    obtain unsigned | ⟨sign, ds, signed, either, unsigned⟩ := lexeme
    · have digit : startsWithDigit (c :: cs) := h ▸ startsWithDigit_append unsigned rest
      refine ⟨_, _, first_digits digit cs, ?_⟩
      have run := length_le_digitsAndPoint unsigned rest
      simp only [spelling] at h
      rw [← h] at run
      simpa [spelling] using run
    · simp only [spelling, signed, List.cons_append, List.cons.injEq] at h
      obtain ⟨rfl, rfl⟩ := h
      refine ⟨_, _, first_signed either (startsWithDigit_append unsigned rest), ?_⟩
      have run := length_le_digitsAndPoint unsigned rest
      simp only [spelling, signed, String.toList_ofList, List.length_cons]
      omega
  | string content =>
    simp only [spelling, List.cons_append, List.cons.injEq, List.append_assoc,
      List.nil_append] at h
    obtain ⟨rfl, rfl⟩ := h
    exact ⟨_, _, first_string lexeme, by simp [spelling]⟩
  | character d =>
    simp only [spelling, List.cons_append, List.cons.injEq, List.nil_append] at h
    obtain ⟨rfl, rfl⟩ := h
    exact ⟨_, _, first_character lexeme rest, Nat.le_refl _⟩
  | _ =>
    cases h
    exact ⟨_, _, rfl, Nat.le_refl _⟩

/-- Does the spelling of a token end where a text goes on like this? -/
def StopsAt (t : Token) (rest : List Char) : Prop :=
  match t with
  | identifier _ => ∀ c, rest.head? = some c → isIdentifierChar c = false
  | number _ => ∀ c, rest.head? = some c → c.isDigit = false ∧ c ≠ '.'
  | _ => True

theorem first_of_stop {u : Token} (lexeme : u.IsLexeme) {rest : List Char} (stops : u.StopsAt rest)
    {c : Char} {cs : List Char} (h : c :: cs = u.spelling ++ rest) :
    first c cs = .ok (u, rest) := by
  cases u with
  | identifier name =>
    obtain ⟨d, ds, word, letter, inside⟩ := lexeme
    have run := takeWhile_run inside stops
    simp only [spelling, word, List.cons_append, List.cons.injEq] at h
    obtain ⟨rfl, rfl⟩ := h
    rw [first_word letter, run.1, run.2, ← word, String.ofList_toList]
  | number text =>
    obtain unsigned | ⟨sign, ds, signed, either, unsigned⟩ := lexeme
    · have digit : startsWithDigit (c :: cs) := h ▸ startsWithDigit_append unsigned rest
      simp only [spelling] at h
      rw [first_digits digit, h, digitsAndPoint_append unsigned stops, String.ofList_toList]
    · simp only [spelling, signed, List.cons_append, List.cons.injEq] at h
      obtain ⟨rfl, rfl⟩ := h
      rw [first_signed either (startsWithDigit_append unsigned rest),
        digitsAndPoint_append unsigned stops, ← signed, String.ofList_toList]
  | string content =>
    simp only [spelling, List.cons_append, List.cons.injEq, List.append_assoc,
      List.nil_append] at h
    obtain ⟨rfl, rfl⟩ := h
    rw [first_string lexeme, String.ofList_toList]
  | character d =>
    simp only [spelling, List.cons_append, List.cons.injEq, List.nil_append] at h
    obtain ⟨rfl, rfl⟩ := h
    exact first_character lexeme rest
  | _ =>
    cases h
    rfl

end Token

end MessageCodec.Schema
