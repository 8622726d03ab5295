import Mathlib.Data.List.Infix
import MessageCodec.Proofs.Schema.Splits

/-! Texts with their tokens, cut and joined. A lexeme that is as long as can be in front of a
character stays so whatever follows that character, because a longer one would already take that
character. A text therefore keeps its tokens in front of any other one if it ends in a mark. -/

namespace MessageCodec.Schema

section Growth

variable {d : Char} {cs ds rest : List Char}

theorem IsUnsigned.of_prefix (unsigned : IsUnsigned cs) (front : ds <+: cs) (nonempty : ds ≠ []) :
    IsUnsigned ds := by
  obtain ⟨whole, fraction, rfl, whole_ne, digits, fractional⟩ := unsigned
  obtain ⟨rest, parts⟩ := front
  rcases List.append_eq_append_iff.1 parts with ⟨es, rfl, -⟩ | ⟨es, rfl, behind⟩
  · exact ⟨ds, [], (List.append_nil ds).symm, nonempty,
      fun c mem => digits c (List.mem_append_left es mem), .inl rfl⟩
  · refine ⟨whole, es, rfl, whole_ne, digits, ?_⟩
    rcases fractional with rfl | ⟨fs, rfl, digits'⟩
    · exact .inl (List.append_eq_nil_iff.1 behind.symm).1
    · cases es with
      | nil => exact .inl rfl
      | cons e es =>
        rw [List.cons_append, List.cons.injEq] at behind
        obtain ⟨rfl, rfl⟩ := behind
        exact .inr ⟨es, rfl, fun c mem => digits' c (List.mem_append_left rest mem)⟩

/-- A number grows by one character at a time. -/
theorem IsNumeral.grow (numeral : IsNumeral (cs ++ d :: rest)) (nonempty : cs ≠ []) :
    IsNumeral (cs ++ [d]) := by
  have front (es : List Char) : es ++ [d] <+: es ++ d :: rest := ⟨rest, by simp⟩
  obtain unsigned | ⟨sign, es, signed, either, unsigned⟩ := numeral
  · exact .inl (unsigned.of_prefix (front cs) (by simp))
  · cases cs with
    | nil => exact absurd rfl nonempty
    | cons c cs =>
      rw [List.cons_append, List.cons.injEq] at signed
      obtain ⟨rfl, rfl⟩ := signed
      exact .inr ⟨c, cs ++ [d], rfl, either, unsigned.of_prefix (front cs) (by simp)⟩

end Growth

namespace Token

variable {t u : Token} {d : Char} {a b rest : List Char}

/-- In front of less there are fewer lexemes. -/
theorem Longest.of_append (longest : t.Longest (a ++ b)) : t.Longest a := by
  intro u lexeme front
  refine longest u lexeme (front.trans ?_)
  rw [← List.append_assoc]
  exact List.prefix_append ..

/-- No lexeme reaches one character further. -/
theorem Longest.not_grown (longest : t.Longest (d :: a)) (lexeme : u.IsLexeme) :
    u.spelling ≠ t.spelling ++ [d] := by
  intro grown
  have le := longest u lexeme ⟨a, by rw [grown]; simp⟩
  rw [grown, List.length_append, List.length_singleton] at le
  omega

theorem exists_number {text : String} (numeral : IsNumeral text.toList) {c : Char}
    {cs rest : List Char} (h : c :: cs = text.toList ++ rest) :
    ∃ text' rest', first c cs = .ok (number text', rest') := by
  obtain unsigned | ⟨sign, ds, signed, either, unsigned⟩ := numeral
  · have digit : startsWithDigit (c :: cs) := h ▸ startsWithDigit_append unsigned rest
    exact ⟨_, _, first_digits digit cs⟩
  · rw [signed, List.cons_append, List.cons.injEq] at h
    obtain ⟨rfl, rfl⟩ := h
    exact ⟨_, _, first_signed either (startsWithDigit_append unsigned rest)⟩

/-- Where a number ends in front of a character, no number reaches that character. -/
theorem Longest.length_le {text text' : String} (longest : (number text).Longest (d :: a))
    (nonempty : text.toList ≠ []) (numeral : IsNumeral text'.toList)
    (whole : text.toList ++ d :: b = text'.toList ++ rest) :
    text'.toList.length ≤ text.toList.length := by
  rcases List.append_eq_append_iff.1 whole with ⟨es, more, behind⟩ | ⟨es, less, -⟩
  · cases es with
    | nil => rw [more, List.append_nil]
    | cons e es =>
      rw [List.cons_append, List.cons.injEq] at behind
      obtain ⟨rfl, -⟩ := behind
      rw [more] at numeral
      have grown : (number (String.ofList (text.toList ++ [d]))).IsLexeme := by
        rw [IsLexeme, String.toList_ofList]
        exact numeral.grow nonempty
      exact absurd (by simp [spelling]) (longest.not_grown grown)
  · rw [less, List.length_append]
    exact Nat.le_add_right ..

/-- Whether a lexeme is as long as can be is up to the next character. -/
theorem Longest.congr_head (lexeme : t.IsLexeme) (longest : t.Longest (d :: a)) :
    t.Longest (d :: b) := by
  cases t with
  | identifier name =>
    refine longest_of_stop lexeme ?_
    rintro _ ⟨⟩
    rw [Bool.eq_false_iff]
    intro inside
    obtain ⟨c, ds, word, letter, chars⟩ := lexeme
    have grown : (identifier (String.ofList (name.toList ++ [d]))).IsLexeme := by
      rw [IsLexeme, String.toList_ofList, word]
      refine ⟨c, ds ++ [d], rfl, letter, ?_⟩
      rw [List.forall_mem_append, List.forall_mem_singleton]
      exact ⟨chars, inside⟩
    exact absurd (by simp [spelling]) (longest.not_grown grown)
  | number text =>
    obtain ⟨c, cs, spelled, -⟩ := IsNumeral.exists_cons lexeme
    have start : c :: (cs ++ d :: b) = text.toList ++ d :: b := by rw [spelled, List.cons_append]
    obtain ⟨text', rest, taken⟩ := exists_number lexeme start
    obtain ⟨lexeme', parts⟩ := first_sound taken
    have whole : text.toList ++ d :: b = text'.toList ++ rest := start.symm.trans parts
    have short := longest.length_le (by simp [spelled]) lexeme' whole
    intro u among front
    rw [spelling, whole] at front
    exact (longest_of_first taken u among front).trans short
  | _ => exact longest_of_stop lexeme trivial

end Token

namespace Splits

variable {cs a b : List Char} {us vs : List Token}

/-- A text is cut where its tokens are. -/
theorem cut (splits : Splits cs (us ++ vs)) : ∃ a b, cs = a ++ b ∧ Splits a us ∧ Splits b vs := by
  generalize whole : us ++ vs = ts at splits
  induction splits generalizing us with
  | nil =>
    obtain ⟨rfl, rfl⟩ := List.append_eq_nil_iff.1 whole
    exact ⟨[], [], rfl, .nil, .nil⟩
  | @blank c _ _ blank rest ih =>
    obtain ⟨a, b, rfl, front, behind⟩ := ih whole
    exact ⟨c :: a, b, rfl, .blank blank front, behind⟩
  | @token t cs ts lexeme longest rest ih =>
    cases us with
    | nil =>
      rw [List.nil_append] at whole
      exact ⟨[], _, rfl, .nil, whole ▸ .token lexeme longest rest⟩
    | cons u us =>
      rw [List.cons_append, List.cons.injEq] at whole
      obtain ⟨rfl, whole⟩ := whole
      obtain ⟨a, b, rfl, front, behind⟩ := ih whole
      exact ⟨_, b, (List.append_assoc ..).symm, .token lexeme longest.of_append front, behind⟩

theorem eq_nil (splits : Splits [] us) : us = [] := by
  generalize empty : [] = cs at splits
  cases splits with
  | nil => rfl
  | blank => cases empty
  | token lexeme =>
    obtain ⟨c, ds, spelled, -⟩ := lexeme.spelling_eq_cons
    rw [spelled] at empty
    cases empty

/-- Texts are joined with their tokens where the first one ends in a token that nothing behind it
extends. -/
theorem join (front : Splits a us)
    (last : ∀ t, us.getLast? = some t → ∀ rest, t.StopsAt rest) (behind : Splits b vs) :
    Splits (a ++ b) (us ++ vs) := by
  induction front with
  | nil => exact behind
  | blank blank _ ih => exact .blank blank (ih last)
  | @token t cs ts lexeme longest rest ih =>
    have more : ∀ u, ts.getLast? = some u → ∀ rest, u.StopsAt rest := by
      intro u final
      refine last u ?_
      rw [List.getLast?_cons, final]
      rfl
    rw [List.append_assoc]
    refine .token lexeme ?_ (ih more)
    cases cs with
    | nil =>
      cases rest.eq_nil
      exact Token.longest_of_stop lexeme (last t rfl b)
    | cons c cs => exact longest.congr_head lexeme

end Splits

end MessageCodec.Schema
