import MessageCodec.Proofs.Schema.Comment
import MessageCodec.Proofs.Schema.Splits

/-! Comments and tokens. Slashes and stars stand inside quotes only, and quotes keep what is
between them apart from the rest of a text. Whether a text that splits into tokens is free
of comments depends therefore on its quoted tokens alone. -/

namespace MessageCodec.Schema

namespace Comment

variable {c : Char} {p a b : List Char}

/-- Text in front that does not end in a star adds closers of its own only. -/
theorem closes_append_congr (edge : ∀ c, p.getLast? = some c → c ≠ '*')
    (closes : Closes a ↔ Closes b) : Closes (p ++ a) ↔ Closes (p ++ b) := by
  induction p with
  | nil => exact closes
  | cons c p ih =>
    cases p with
    | nil =>
      have star : c ≠ '*' := edge c rfl
      simp [closes_cons, star, closes]
    | cons d p =>
      have behind := ih fun e last => edge e (by rwa [List.getLast?_cons_cons])
      have step (x : List Char) : Closes (c :: d :: p ++ x) ↔
          (c = '*' ∧ some d = some '/') ∨ Closes (d :: p ++ x) := closes_cons
      rw [step a, step b, behind]

/-- Text in front that does not end in a slash or a star adds comments of its own only, and those
that it opens are closed in the same places. -/
theorem clean_append_congr (edge : ∀ c, p.getLast? = some c → c ≠ '/' ∧ c ≠ '*')
    (closes : Closes a ↔ Closes b) (clean : Clean a ↔ Clean b) :
    Clean (p ++ a) ↔ Clean (p ++ b) := by
  induction p with
  | nil => exact clean
  | cons c p ih =>
    cases p with
    | nil =>
      have slash : c ≠ '/' := (edge c rfl).1
      simp [Clean, skip?_eq_none_of_head slash, clean]
    | cons d p =>
      have edge' : ∀ e, (d :: p).getLast? = some e → e ≠ '/' ∧ e ≠ '*' := fun e last =>
        edge e (by rwa [List.getLast?_cons_cons])
      have star : ∀ e, p.getLast? = some e → e ≠ '*' := by
        intro e last
        refine (edge' e ?_).2
        rw [List.getLast?_cons, last]
        rfl
      have closed : Closes (d :: p ++ a).tail ↔ Closes (d :: p ++ b).tail :=
        closes_append_congr star closes
      change skip? (c :: (d :: p ++ a)) = none ∧ Clean (d :: p ++ a) ↔
        skip? (c :: (d :: p ++ b)) = none ∧ Clean (d :: p ++ b)
      rw [ih edge', skip?_cons_eq_none, skip?_cons_eq_none, closed]
      rfl

/-- A character that is neither a slash nor a star. -/
def IsPlain (c : Char) : Prop := c ≠ '/' ∧ c ≠ '*'

theorem closes_cons_of_plain (plain : IsPlain c) : Closes (c :: a) ↔ Closes a := by
  simp [closes_cons, plain.2]

theorem clean_cons_of_plain (plain : IsPlain c) : Clean (c :: a) ↔ Clean a := by
  simp [Clean, skip?_eq_none_of_head plain.1]

theorem closes_append_of_plain (plain : ∀ c ∈ p, IsPlain c) : Closes (p ++ a) ↔ Closes a := by
  induction p with
  | nil => exact Iff.rfl
  | cons c p ih =>
    rw [List.forall_mem_cons] at plain
    rw [List.cons_append, closes_cons_of_plain plain.1, ih plain.2]

theorem clean_append_of_plain (plain : ∀ c ∈ p, IsPlain c) : Clean (p ++ a) ↔ Clean a := by
  induction p with
  | nil => exact Iff.rfl
  | cons c p ih =>
    rw [List.forall_mem_cons] at plain
    rw [List.cons_append, clean_cons_of_plain plain.1, ih plain.2]

end Comment

open Comment (Clean Closes IsPlain)

namespace Token

def isQuoted : Token → Bool
  | string _ | character _ => true
  | _ => false

theorem isPlain_of_isIdentifierChar {c : Char} (h : isIdentifierChar c) : IsPlain c := by
  constructor <;> (rintro rfl; exact absurd h (by decide))

theorem isPlain_of_isDigit {c : Char} (h : c.isDigit) : IsPlain c := by
  constructor <;> (rintro rfl; exact absurd h (by decide))

theorem isPlain_of_isUnsigned {cs : List Char} (unsigned : IsUnsigned cs) :
    ∀ c ∈ cs, IsPlain c := by
  obtain ⟨whole, fraction, rfl, -, digits, rfl | ⟨ds, rfl, digits'⟩⟩ := unsigned
  · rw [List.append_nil]
    exact fun c mem => isPlain_of_isDigit (digits c mem)
  · intro c mem
    rw [List.mem_append, List.mem_cons] at mem
    rcases mem with mem | rfl | mem
    · exact isPlain_of_isDigit (digits c mem)
    · exact ⟨by decide, by decide⟩
    · exact isPlain_of_isDigit (digits' c mem)

/-- Slashes and stars stand inside quotes only. -/
theorem isPlain_of_not_isQuoted {t : Token} (lexeme : t.IsLexeme) (bare : t.isQuoted = false) :
    ∀ c ∈ t.spelling, IsPlain c := by
  cases t with
  | identifier name =>
    exact fun c mem => isPlain_of_isIdentifierChar (IsWord.isIdentifierChar lexeme c mem)
  | number text =>
    obtain unsigned | ⟨sign, ds, signed, either, unsigned⟩ := lexeme
    · exact isPlain_of_isUnsigned unsigned
    · rw [spelling, signed, List.forall_mem_cons]
      refine ⟨?_, isPlain_of_isUnsigned unsigned⟩
      rcases either with rfl | rfl <;> exact ⟨by decide, by decide⟩
  | string content => cases bare
  | character c => cases bare
  | _ =>
    intro c mem
    obtain rfl := List.mem_singleton.1 mem
    exact ⟨by decide, by decide⟩

theorem isPlain_of_getLast? {t : Token} (quoted : t.isQuoted) {c : Char}
    (last : t.spelling.getLast? = some c) : IsPlain c := by
  cases t with
  | string content =>
    simp only [spelling, List.getLast?_append, List.getLast?_singleton, Option.some_or,
      Option.some.injEq] at last
    subst last
    exact ⟨by decide, by decide⟩
  | character d =>
    obtain rfl : '\'' = c := by simpa [spelling] using last
    exact ⟨by decide, by decide⟩
  | _ => cases quoted

end Token

theorem isPlain_of_isBlank {c : Char} (blank : Text.isBlank c) : IsPlain c := by
  constructor <;> (rintro rfl; exact absurd blank (by decide))

/-- What a text of these tokens has in quotes, all together. -/
def quotes (ts : List Token) : List Char := (ts.filter Token.isQuoted).flatMap Token.spelling

@[simp]
theorem quotes_nil : quotes [] = [] := rfl

@[simp]
theorem quotes_append (ts us : List Token) : quotes (ts ++ us) = quotes ts ++ quotes us := by
  simp [quotes]

theorem quotes_cons (t : Token) (ts : List Token) :
    quotes (t :: ts) = (if t.isQuoted then t.spelling else []) ++ quotes ts := by
  cases quoted : t.isQuoted <;> simp [quotes, quoted]

/-- What a text has in quotes decides whether it is closed and clean. -/
theorem clean_iff_of_splits {cs : List Char} {ts : List Token} (splits : Splits cs ts) :
    (Closes cs ↔ Closes (quotes ts)) ∧ (Clean cs ↔ Clean (quotes ts)) := by
  induction splits with
  | nil => exact ⟨Iff.rfl, Iff.rfl⟩
  | blank blank _ ih =>
    have plain := isPlain_of_isBlank blank
    rw [Comment.closes_cons_of_plain plain, Comment.clean_cons_of_plain plain]
    exact ih
  | @token t cs ts lexeme _ _ ih =>
    rw [quotes_cons]
    cases quoted : t.isQuoted with
    | true =>
      have edge : ∀ c, t.spelling.getLast? = some c → IsPlain c := fun c last =>
        Token.isPlain_of_getLast? quoted last
      exact ⟨Comment.closes_append_congr (fun c last => (edge c last).2) ih.1,
        Comment.clean_append_congr edge ih.1 ih.2⟩
    | false =>
      have plain := Token.isPlain_of_not_isQuoted lexeme quoted
      rw [Comment.closes_append_of_plain plain, Comment.clean_append_of_plain plain]
      exact ih

/-- Texts with the same in quotes are both free of comments, or neither of them is. -/
theorem clean_congr {cs cs' : List Char} {ts ts' : List Token} (splits : Splits cs ts)
    (splits' : Splits cs' ts') (same : quotes ts = quotes ts') : Clean cs ↔ Clean cs' := by
  rw [(clean_iff_of_splits splits).2, (clean_iff_of_splits splits').2, same]

end MessageCodec.Schema
