import MessageCodec.Proofs.Schema.Lexeme
import MessageCodec.Schema.Parser

/-! Splitting a text into tokens. Between blanks, each token takes the longest lexeme at its
place; the scanner gets to the end of a text exactly when it can be split like this, and
then finds these tokens. -/

namespace MessageCodec.Schema

namespace Token

variable {t : Token} {c : Char} {cs rest : List Char}

/-- No lexeme at the front of a text is longer than the one in front of the rest. -/
def Longest (t : Token) (rest : List Char) : Prop :=
  ∀ u : Token, u.IsLexeme → u.spelling <+: t.spelling ++ rest →
    u.spelling.length ≤ t.spelling.length

theorem isBlank_of_isAlphanum (h : c.isAlphanum) : Text.isBlank c = false := by
  rw [Char.isAlphanum, Bool.or_eq_true, isAlpha_iff_toNat, Char.isDigit_iff_toNat] at h
  change _ ∨ (48 ≤ c.toNat ∧ c.toNat ≤ 57) at h
  simp only [Text.isBlank, Text.blankRuns, List.any_cons, List.any_nil, Bool.or_false,
    Bool.or_eq_false_iff, Bool.and_eq_false_iff, decide_eq_false_iff_not]
  omega

theorem IsLexeme.spelling_eq_cons (lexeme : t.IsLexeme) :
    ∃ c ds, t.spelling = c :: ds ∧ Text.isBlank c = false := by
  cases t with
  | identifier name =>
    obtain ⟨c, ds, word, letter, -⟩ := lexeme
    exact ⟨c, ds, word, isBlank_of_isAlphanum (by simp [Char.isAlphanum, letter])⟩
  | number text =>
    obtain ⟨c, ds, spelled, start⟩ := IsNumeral.exists_cons lexeme
    refine ⟨c, ds, spelled, ?_⟩
    rcases start with digit | rfl | rfl
    · exact isBlank_of_isAlphanum (by simp [Char.isAlphanum, digit])
    · decide
    · decide
  | _ => exact ⟨_, _, rfl, by decide⟩

theorem spelling_injective {u : Token} (lexeme : t.IsLexeme) (lexeme' : u.IsLexeme)
    (same : t.spelling = u.spelling) : t = u := by
  obtain ⟨c, ds, spelled, -⟩ := lexeme.spelling_eq_cons
  have alone (v : Token) : v.StopsAt [] := by cases v <;> simp [StopsAt]
  have read := first_of_stop lexeme (alone t) (by rw [List.append_nil, spelled])
  have read' := first_of_stop lexeme' (alone u) (by rw [List.append_nil, ← same, spelled])
  rw [read] at read'
  cases read'
  rfl

theorem longest_of_first (h : first c cs = .ok (t, rest)) : t.Longest rest := by
  intro u lexeme front
  obtain ⟨rest', front⟩ := front
  have text := (first_sound h).2
  obtain ⟨t', _, taken, le⟩ := first_of_lexeme lexeme (text.trans front.symm)
  rw [h] at taken
  cases taken
  exact le

theorem longest_of_stop (lexeme : t.IsLexeme) (stops : t.StopsAt rest) : t.Longest rest := by
  obtain ⟨c, ds, spelled, -⟩ := lexeme.spelling_eq_cons
  exact longest_of_first (first_of_stop lexeme stops (by rw [spelled, List.cons_append]))

/-- The longest lexeme is the token that is taken. -/
theorem first_of_longest (lexeme : t.IsLexeme) (longest : t.Longest rest)
    (h : c :: cs = t.spelling ++ rest) : first c cs = .ok (t, rest) := by
  obtain ⟨u, rest', taken, le⟩ := first_of_lexeme lexeme h
  obtain ⟨lexeme', text⟩ := first_sound taken
  rw [h] at text
  have ge := longest u lexeme' ⟨rest', text.symm⟩
  obtain ⟨same, rfl⟩ := List.append_inj text (Nat.le_antisymm le ge)
  rw [taken, spelling_injective lexeme lexeme' same]

end Token

/-- The tokens that a text consists of, apart from blanks; each one is as long as can be. -/
inductive Splits : List Char → List Token → Prop where
  | nil : Splits [] []
  | blank {c : Char} {cs : List Char} {ts : List Token} (blank : Text.isBlank c)
    (rest : Splits cs ts) : Splits (c :: cs) ts
  | token {t : Token} {cs : List Char} {ts : List Token} (lexeme : t.IsLexeme)
    (longest : t.Longest cs) (rest : Splits cs ts) : Splits (t.spelling ++ cs) (t :: ts)

theorem Splits.of_dropWhile {cs : List Char} {ts : List Token}
    (h : Splits (cs.dropWhile Text.isBlank) ts) : Splits cs ts := by
  induction cs with
  | nil => exact h
  | cons c cs ih =>
    rw [List.dropWhile_cons] at h
    split at h
    · rename_i blank
      exact .blank blank (ih h)
    · exact h

namespace Tokens

/-- Some tokens stand in front of others, without a fault up to there. -/
inductive Front : List Token → Tokens → Tokens → Prop where
  | nil {tokens : Tokens} (settled : tokens.settle = .ok tokens) : Front [] tokens tokens
  | cons {place : Position} {t : Token} {ts : List Token} {tokens rest : Tokens}
    (front : Front ts tokens rest) : Front (t :: ts) (cons place t tokens) rest

/-- The tokens up to the end, which is reached without a fault. -/
def Lists (tokens : Tokens) (ts : List Token) : Prop := ∃ place, Front ts tokens (done place)

theorem scan_eq (place : Position) (cs : List Char) :
    scan place cs =
      match cs.dropWhile Text.isBlank with
      | [] => done (place.after (cs.takeWhile Text.isBlank))
      | c :: rest =>
        match Token.first c rest with
        | .error cause => fault (place.after (cs.takeWhile Text.isBlank)) cause
        | .ok (t, rest) => cons (place.after (cs.takeWhile Text.isBlank)) t
            (scan ((place.after (cs.takeWhile Text.isBlank)).after t.spelling) rest) := by
  rw [scan]
  split
  · rename_i ended
    rw [ended]
  · rename_i c rest started
    simp only [started]
    split <;> rename_i taken <;> simp only [taken]

theorem scan_blank {c : Char} (blank : Text.isBlank c) (place : Position) (cs : List Char) :
    scan place (c :: cs) = scan (place.after [c]) cs := by
  rw [scan_eq, scan_eq, List.dropWhile_cons_of_pos blank, List.takeWhile_cons_of_pos blank]
  rfl

theorem scan_token {t : Token} (lexeme : t.IsLexeme) {rest : List Char} (longest : t.Longest rest)
    (place : Position) :
    scan place (t.spelling ++ rest) = cons place t (scan (place.after t.spelling) rest) := by
  obtain ⟨c, ds, spelled, solid⟩ := lexeme.spelling_eq_cons
  have taken : Token.first c (ds ++ rest) = .ok (t, rest) :=
    Token.first_of_longest lexeme longest (by rw [spelled, List.cons_append])
  have dark : ¬ Text.isBlank c := by simp [solid]
  rw [scan_eq, spelled, List.cons_append, List.dropWhile_cons_of_neg dark,
    List.takeWhile_cons_of_neg dark]
  simp only [taken, spelled]
  rfl

theorem splits_of_lists {place : Position} {cs : List Char} {ts : List Token}
    (h : (scan place cs).Lists ts) : Splits cs ts := by
  induction hn : cs.length using Nat.strongRecOn generalizing place cs ts with
  | ind n ih =>
    subst hn
    obtain ⟨last, front⟩ := h
    refine Splits.of_dropWhile ?_
    rw [scan_eq] at front
    split at front
    · rename_i ended
      rw [ended]
      cases front
      exact .nil
    · rename_i c rest started
      rw [started]
      split at front
      · cases front
      · rename_i t rest' taken
        obtain ⟨lexeme, text⟩ := Token.first_sound taken
        have shorter : rest'.length < cs.length := by
          have blanks := Token.length_dropWhile Text.isBlank cs
          have token := Token.length_first taken
          rw [started, List.length_cons] at blanks
          omega
        cases front with
        | cons front =>
          rw [text]
          exact .token lexeme (Token.longest_of_first taken) (ih _ shorter ⟨last, front⟩ rfl)

theorem lists_of_splits {cs : List Char} {ts : List Token} (h : Splits cs ts) (place : Position) :
    (scan place cs).Lists ts := by
  induction h generalizing place with
  | nil =>
    rw [scan_eq]
    exact ⟨_, .nil rfl⟩
  | blank blank _ ih =>
    rw [scan_blank blank]
    exact ih _
  | token lexeme longest _ ih =>
    rw [scan_token lexeme longest]
    obtain ⟨last, front⟩ := ih _
    exact ⟨last, .cons front⟩

/-- The scanner gets to the end of a text when it splits into tokens, and then finds these. -/
theorem lists_ofText_iff (cs : List Char) (ts : List Token) :
    (ofText cs).Lists ts ↔ Splits cs ts :=
  ⟨splits_of_lists, fun h => lists_of_splits h _⟩

def list? : Tokens → Option (List Token)
  | cons _ t rest => rest.list?.map (t :: ·)
  | done _ => some []
  | fault _ _ => none

theorem list?_eq_some_iff {tokens : Tokens} {ts : List Token} :
    tokens.list? = some ts ↔ tokens.Lists ts := by
  induction tokens generalizing ts with
  | cons place t rest ih =>
    rw [list?, Option.map_eq_some_iff]
    constructor
    · rintro ⟨us, listed, rfl⟩
      obtain ⟨last, front⟩ := ih.1 listed
      exact ⟨last, .cons front⟩
    · rintro ⟨last, front⟩
      cases front with
      | cons front => exact ⟨_, ih.2 ⟨last, front⟩, rfl⟩
  | done place =>
    constructor
    · rintro ⟨⟩
      exact ⟨place, .nil rfl⟩
    · rintro ⟨last, front⟩
      cases front
      rfl
  | fault place cause =>
    constructor
    · nofun
    · rintro ⟨last, front⟩
      cases front

end Tokens

instance (cs : List Char) (ts : List Token) : Decidable (Splits cs ts) :=
  decidable_of_iff ((Tokens.ofText cs).list? = some ts)
    (Tokens.list?_eq_some_iff.trans (Tokens.lists_ofText_iff cs ts))

end MessageCodec.Schema
