import MessageCodec.Proofs.Schema.Parsing
import MessageCodec.Proofs.Schema.Unambiguous

/-! Which texts are specifications. A text is accepted when it splits into tokens that
derive from the grammar and its messages are unambiguous; the two ways of refusing it tell
which of the two fails. -/

namespace MessageCodec.Schema

/-- The text, without its comments, splits into tokens that derive from the grammar and denote
these messages. -/
def Declares (text : String) (ms : List Message) : Prop :=
  ∃ ts, Splits (Comment.strip text.toList) ts ∧ Grammar.Specification ts ms

theorem specification_iff (text : String) (ms : List Message) :
    Parser.specification (Tokens.ofText (Comment.strip text.toList)) = .ok ms ↔
      Declares text ms := by
  simp only [Parser.specification_eq_ok, Tokens.lists_ofText_iff, Declares]

theorem declares_of_parse {text : String} {ms : List Message} (h : parse text = .ok ms) :
    Declares text ms := by
  rw [← specification_iff]
  rw [parse] at h
  split at h
  · cases h
  · split at h
    · cases h
    · cases h
      assumption

theorem Declares.unique {text : String} {ms ms' : List Message} (h : Declares text ms)
    (h' : Declares text ms') : ms = ms' := by
  rw [← specification_iff] at h h'
  exact Except.ok.inj (h.symm.trans h')

theorem parse_of_declares {text : String} {ms : List Message} (h : Declares text ms) :
    parse text = match conflict? [] [] ms with
      | some c => .error (.ambiguous c)
      | none => .ok ms := by
  have read := (specification_iff text ms).2 h
  cases found : conflict? [] [] ms with
  | none => simp only [parse, read, found]
  | some c => simp only [parse, read, found]

theorem parse_of_unambiguous {text : String} {ms : List Message} (h : Declares text ms)
    (clean : Unambiguous ms) : parse text = .ok ms := by
  rw [parse_of_declares h, (conflict?_eq_none ms).2 clean]

theorem parse_of_ambiguous {text : String} {ms : List Message} (h : Declares text ms)
    (duplicates : ¬ Unambiguous ms) : ∃ c, parse text = .error (.ambiguous c) := by
  rw [parse_of_declares h]
  cases found : conflict? [] [] ms with
  | some c => exact ⟨c, rfl⟩
  | none => exact absurd ((conflict?_eq_none ms).1 found) duplicates

theorem parse_of_not_declares {text : String} (h : ¬ ∃ ms, Declares text ms) :
    ∃ e, parse text = .error (.malformed e) := by
  cases read : Parser.specification (Tokens.ofText (Comment.strip text.toList)) with
  | ok ms => exact absurd ⟨ms, (specification_iff text ms).1 read⟩ h
  | error e => exact ⟨e, by simp only [parse, read]⟩

/-- The messages that the parser returns are those that the text denotes by the grammar, with
names and identifiers that are all distinct. A text that denotes messages with duplicates is
refused as such, and one that denotes nothing is refused for its syntax. -/
theorem parse_decides (text : String) :
    (∀ ms, parse text = .ok ms ↔ Declares text ms ∧ Unambiguous ms) ∧
      ((∃ e, parse text = .error e ∧ e.code = "DUPLICATE_IDENTIFIERS") ↔
        ∃ ms, Declares text ms ∧ ¬ Unambiguous ms) ∧
      ((∃ e, parse text = .error e ∧ e.code = "SYNTAX_ERROR") ↔ ¬ ∃ ms, Declares text ms) := by
  have malformed (e : SyntaxError) : (SpecificationError.malformed e).code = "SYNTAX_ERROR" := rfl
  have ambiguous (c : Conflict) :
      (SpecificationError.ambiguous c).code = "DUPLICATE_IDENTIFIERS" := rfl
  by_cases denotes : ∃ ms, Declares text ms
  · obtain ⟨ms, declared⟩ := denotes
    have only {ms' : List Message} (h : Declares text ms') : ms' = ms := h.unique declared
    by_cases clean : Unambiguous ms
    · rw [parse_of_unambiguous declared clean]
      refine ⟨fun ms' => ?_, ?_, ?_⟩
      · refine ⟨?_, fun ⟨h, _⟩ => by rw [only h]⟩
        rintro ⟨⟩
        exact ⟨declared, clean⟩
      · refine ⟨fun ⟨_, error, _⟩ => (nomatch error), fun ⟨ms', h, duplicates⟩ => ?_⟩
        rw [only h] at duplicates
        exact absurd clean duplicates
      · exact ⟨fun ⟨_, error, _⟩ => (nomatch error), fun none => absurd ⟨ms, declared⟩ none⟩
    · obtain ⟨c, refused⟩ := parse_of_ambiguous declared clean
      rw [refused]
      refine ⟨fun ms' => ?_, ?_, ?_⟩
      · refine ⟨nofun, fun ⟨h, unique⟩ => ?_⟩
        rw [only h] at unique
        exact absurd unique clean
      · exact ⟨fun _ => ⟨ms, declared, clean⟩, fun _ => ⟨_, rfl, ambiguous c⟩⟩
      · refine ⟨?_, fun none => absurd ⟨ms, declared⟩ none⟩
        rintro ⟨_, ⟨⟩, code⟩
        simp [ambiguous c] at code
  · obtain ⟨e, refused⟩ := parse_of_not_declares denotes
    rw [refused]
    refine ⟨fun ms => ?_, ?_, ?_⟩
    · exact ⟨nofun, fun ⟨h, _⟩ => absurd ⟨ms, h⟩ denotes⟩
    · refine ⟨?_, fun ⟨ms, h, _⟩ => absurd ⟨ms, h⟩ denotes⟩
      rintro ⟨_, ⟨⟩, code⟩
      simp [malformed e] at code
    · exact ⟨fun _ => denotes, fun _ => ⟨_, rfl, malformed e⟩⟩

end MessageCodec.Schema
