import MessageCodec.Proofs.Schema.Acceptance
import MessageCodec.Proofs.Schema.Written
import MessageCodec.Schema.Listing

/-! The normalised text of messages that were read, read again. Every piece of it splits into
tokens that derive the piece, whatever follows; and it opens no comment, because it has the same
in quotes as the text that the messages came from. -/

namespace MessageCodec.Schema

variable {rest : List Char} {us : List Token}

/-- A lexeme that ends where it should is a token of the text. -/
theorem Splits.of_stop {t : Token} (lexeme : t.IsLexeme) (stops : t.StopsAt rest)
    (behind : Splits rest us) : Splits (t.spelling ++ rest) (t :: us) :=
  .token lexeme (Token.longest_of_stop lexeme stops) behind

theorem Splits.space (behind : Splits rest us) : Splits (' ' :: rest) us :=
  .blank (by decide) behind

theorem Splits.line (behind : Splits rest us) : Splits ('\n' :: rest) us :=
  .blank (by decide) behind

theorem stop_of_space (c : Char) (head : (' ' :: rest).head? = some c) :
    Token.isIdentifierChar c = false := by
  cases head
  decide

theorem isWord_keyword : ∀ word ∈ ["package", "message", "default", "id"], IsWord word.toList := by
  decide

theorem Splits.word {name : String} (word : IsWord name.toList) (behind : Splits rest us) :
    Splits (name.toList ++ ' ' :: rest) (.identifier name :: us) :=
  .of_stop (t := .identifier name) word stop_of_space behind.space

/-- A dotted name is split at its dots. -/
theorem Splits.dotted {ts : List Token} {name : String} (dotted : Grammar.Dotted ts name)
    (lexemes : ∀ t ∈ ts, t.IsLexeme)
    (stop : ∀ c, rest.head? = some c → Token.isIdentifierChar c = false)
    (behind : Splits rest us) : Splits (name.toList ++ rest) (ts ++ us) := by
  induction dotted with
  | last name => exact .of_stop (lexemes (.identifier name) (by simp)) stop behind
  | @more name ts tail _ ih =>
    simp only [List.forall_mem_cons] at lexemes
    have text : (name ++ "." ++ tail).toList ++ rest =
        name.toList ++ '.' :: (tail.toList ++ rest) := by simp
    rw [text]
    refine .of_stop (t := .identifier name) lexemes.1 ?_ ?_
    · rintro _ ⟨⟩
      decide
    · exact .of_stop (t := .dot) trivial trivial (ih lexemes.2.2)

section Numbers

theorem toList_toString (n : Nat) : (toString n).toList = Decimal.digits n := by
  rw [Nat.toString_eq_repr, Nat.toList_repr, Decimal.digits]

/-- A positive number below a bound is written as the grammar has it. -/
theorem natural_toString {bound n : Nat} (pos : 0 < n) (fits : n < bound) :
    Grammar.Natural bound (toString n) n where
  digits := by
    intro c mem
    rw [toList_toString] at mem
    exact Decimal.isDigit_of_mem_digits mem
  leading := by
    rw [toList_toString]
    exact Decimal.head?_digits n pos
  value := by rw [toList_toString, Decimal.ofDigits_digits]
  fits := fits

theorem natural_id {id : UInt32} (nonzero : id ≠ 0) :
    Grammar.Natural UInt32.size (toString id.toNat) id.toNat := by
  refine natural_toString (Nat.pos_of_ne_zero fun zero => nonzero ?_) id.toNat_lt
  exact UInt32.toNat_inj.1 zero

theorem exists_natural {id : Int32} (pos : 0 < id) :
    ∃ n, Int32.ofNat n = id ∧ Grammar.Natural 0x80000000 (toString id.toInt) n := by
  have nonneg : 0 ≤ id := Int32.le_of_lt pos
  have value : (id.toNatClampNeg : Int) = id.toInt := Int32.cast_toNatClampNeg id nonneg
  have text : toString id.toInt = toString id.toNatClampNeg := by
    rw [← value]
    rfl
  rw [Int32.lt_iff_toInt_lt, Int32.toInt_zero, ← value, Int.natCast_pos] at pos
  refine ⟨id.toNatClampNeg, Int32.ofNat_toNatClampNeg id nonneg, ?_⟩
  rw [text]
  exact natural_toString pos id.toNatClampNeg_lt

theorem Grammar.Natural.isLexeme {bound n : Nat} {text : String}
    (natural : Grammar.Natural bound text n) : (Token.number text).IsLexeme := by
  refine .inl ⟨text.toList, [], (List.append_nil _).symm, ?_, natural.digits, .inl rfl⟩
  intro empty
  obtain ⟨c, head, -⟩ := natural.leading
  simp [empty] at head

theorem Splits.number {bound n : Nat} {text : String} (natural : Grammar.Natural bound text n)
    (behind : Splits rest us) : Splits (text.toList ++ ' ' :: rest) (.number text :: us) := by
  refine .of_stop (t := .number text) natural.isLexeme ?_ behind.space
  rintro _ ⟨⟩
  decide

end Numbers

theorem Splits.literal {t : Token} (literal : Grammar.IsLiteral t) (lexeme : t.IsLexeme)
    (behind : Splits rest us) : Splits (t.spelling ++ ',' :: rest) (t :: .comma :: us) := by
  refine .of_stop lexeme ?_ (.of_stop (t := .comma) trivial trivial behind)
  cases t with
  | identifier _ =>
    rintro _ ⟨⟩
    decide
  | number _ =>
    rintro _ ⟨⟩
    decide
  | _ => trivial

/-- What stands between the brackets of a field. -/
theorem Splits.stated {default? : Option String}
    (written : ∀ text, default? = some text → IsDefault text) (behind : Splits rest us) :
    ∃ ts vs, Grammar.FieldDefault ts default? ∧ Grammar.Comma vs ∧
      Splits ((default?.elim "" fun literal => "default = " ++ literal ++ ", ").toList ++ rest)
        (ts ++ vs ++ us) := by
  cases default? with
  | none => exact ⟨[], [], .absent, .absent, behind⟩
  | some text =>
    obtain ⟨t, literal, lexeme, rfl⟩ := written text rfl
    refine ⟨_, _, .stated literal, .present, ?_⟩
    have tail := Splits.literal literal lexeme behind.space
    have equals := Splits.of_stop (t := .equals) trivial trivial tail.space
    have keyword := Splits.word (isWord_keyword "default" (by simp)) equals
    simpa [Token.spelling] using keyword

theorem Splits.id {bound n : Nat} {text : String} (natural : Grammar.Natural bound text n)
    (behind : Splits rest us) :
    Splits ("id".toList ++ ' ' :: '=' :: ' ' :: (text.toList ++ ' ' :: ']' :: rest))
      (.identifier "id" :: .equals :: .number text :: .rightBracket :: us) := by
  have close := Splits.of_stop (t := .rightBracket) trivial trivial behind
  have equals := Splits.of_stop (t := .equals) trivial trivial (Splits.number natural close).space
  exact .word (isWord_keyword "id" (by simp)) equals

theorem Splits.fieldLine {f : Field} (written : f.Written) (behind : Splits rest us) :
    ∃ ts, Grammar.Field ts f.declaration ∧
      Splits ((fieldLine f.label f.name f.default? f.id).toList ++ rest) (ts ++ us) := by
  obtain ⟨⟨⟨type, dotted, inType⟩, word, default, nonzero⟩, -⟩ := written
  have natural := natural_id (nonzero f.id rfl)
  have semicolon := Splits.of_stop (t := .semicolon) trivial trivial behind.line
  obtain ⟨ts, vs, stated, comma, options⟩ := Splits.stated default (Splits.id natural semicolon)
  have bracket := Splits.of_stop (t := .leftBracket) trivial trivial options.space
  have label := Splits.dotted dotted inType stop_of_space (Splits.word word bracket).space
  have derived : Grammar.Field _ ⟨f.label, f.name, f.default?, some (UInt32.ofNat f.id.toNat)⟩ :=
    .declared dotted (.bracketed stated comma (.stated natural))
  rw [UInt32.ofNat_toNat] at derived
  refine ⟨_, derived, ?_⟩
  simpa [Schema.fieldLine, Field.declaration, Token.spelling] using label.space.space.space.space

theorem Splits.fieldLines {fs : List Field} (written : ∀ f ∈ fs, f.Written)
    (behind : Splits rest us) :
    ∃ ts, Grammar.Fields ts (fs.map Field.declaration) ∧
      Splits ((String.join (fs.map fun f => Schema.fieldLine f.label f.name f.default? f.id)).toList
        ++ rest) (ts ++ us) := by
  induction fs with
  | nil => exact ⟨[], .nil, behind⟩
  | cons f fs ih =>
    rw [List.forall_mem_cons] at written
    obtain ⟨vs, fields, others⟩ := ih written.2
    obtain ⟨ts, field, line⟩ := Splits.fieldLine written.1 others
    refine ⟨ts ++ vs, .cons field fields, ?_⟩
    simpa using line

theorem numbered_declaration {fs : List Field} (written : ∀ f ∈ fs, f.Written) :
    Grammar.numbered (fs.map Field.declaration) = fs := by
  refine List.ext_getElem (by simp [Grammar.numbered]) fun i _ within => ?_
  have type := (written fs[i] (List.getElem_mem within)).type
  simpa [Grammar.numbered_eq, Field.declaration] using type

/-- The identifier of a message is stated, or it is zero. -/
theorem Splits.openingLine {ts : List Token} {name : String} {id : Int32}
    (dotted : Grammar.Dotted ts name) (lexemes : ∀ t ∈ ts, t.IsLexeme) (nonneg : 0 ≤ id)
    (behind : Splits rest us) :
    ∃ vs, Grammar.MessageId vs id ∧ Splits ((openingLine name id).toList ++ rest)
      (.identifier "message" :: (ts ++ vs ++ .leftBrace :: us)) := by
  have brace := Splits.of_stop (t := .leftBrace) trivial trivial behind.line
  have keyword := isWord_keyword "message" (by simp)
  by_cases stated : 0 < id
  · obtain ⟨n, value, natural⟩ := exists_natural stated
    have identified := Grammar.MessageId.stated natural .absent
    rw [value] at identified
    have bracket := Splits.of_stop (t := .leftBracket) trivial trivial
      (Splits.id natural brace.space).space
    have named := Splits.dotted dotted lexemes stop_of_space bracket.space
    refine ⟨_, identified, ?_⟩
    simpa [Schema.openingLine, stated, Token.spelling] using Splits.word keyword named
  · obtain rfl : id = 0 := Int32.le_antisymm (Int32.not_lt.1 stated) nonneg
    have named := Splits.dotted dotted lexemes stop_of_space brace.space
    refine ⟨[], .absent, ?_⟩
    simpa [Schema.openingLine, Token.spelling] using Splits.word keyword named

/-- The text of a message by itself, without the line that keeps it apart from the next one. -/
def Message.text (m : Message) : String :=
  openingLine m.name m.id ++
    String.join (m.fields.map fun f => fieldLine f.label f.name f.default? f.id) ++ "\x7d\n"

theorem listMessage_eq (m : Message) : listMessage m.name m = m.text ++ "\n" := by
  simp only [listMessage, Message.text, String.append_assoc]
  rfl

/-- The text of a message derives it, whatever its package. -/
theorem Splits.text {m : Message} (written : m.Written) (behind : Splits rest us) :
    ∃ ts, Grammar.Message m.package ts m ∧ Splits (m.text.toList ++ rest) (ts ++ us) := by
  obtain ⟨⟨ts, named, inName⟩, nonneg, fields⟩ := written
  have brace := Splits.of_stop (t := .rightBrace) trivial trivial behind.line
  obtain ⟨ws, declared, lines⟩ := Splits.fieldLines fields brace
  obtain ⟨vs, identified, opening⟩ := Splits.openingLine named inName nonneg lines
  have message := @Grammar.Message.declared m.package _ _ _ _ _ _ named identified declared
  rw [numbered_declaration fields] at message
  refine ⟨_, message, ?_⟩
  simpa [Message.text, Token.spelling] using opening

theorem Splits.message {m : Message} (written : m.Written) (behind : Splits rest us) :
    ∃ ts, Grammar.Message m.package ts m ∧
      Splits ((listMessage m.name m).toList ++ rest) (ts ++ us) := by
  obtain ⟨ts, message, text⟩ := Splits.text written behind.line
  refine ⟨ts, message, ?_⟩
  rw [listMessage_eq]
  simpa using text

theorem Splits.messages (print : Message → String) {package : String} {ms : List Message}
    (each : ∀ m ∈ ms, ∀ rest us, Splits rest us →
      ∃ ts, Grammar.Message package ts m ∧ Splits ((print m).toList ++ rest) (ts ++ us)) :
    ∃ ts, Grammar.Messages package ts ms ∧ Splits (String.join (ms.map print)).toList ts := by
  induction ms with
  | nil => exact ⟨[], .nil, .nil⟩
  | cons m ms ih =>
    rw [List.forall_mem_cons] at each
    obtain ⟨vs, messages, texts⟩ := ih each.2
    obtain ⟨ts, message, text⟩ := each.1 _ _ texts
    refine ⟨ts ++ vs, .cons message messages, ?_⟩
    simpa using text

theorem longName_of_package {m : Message} (plain : m.package = "") : m.longName = m.name := by
  simp [Message.longName, plain]

/-- The package is stated if it has a name and there is a message in it. -/
theorem listing_eq {package : String} {ms : List Message} (all : ∀ m ∈ ms, m.package = package) :
    listing ms = (if package = "" ∨ ms = [] then "" else "package " ++ package ++ ";\n\n") ++
      String.join (ms.map fun m => listMessage m.name m) := by
  cases ms with
  | nil => simp [listing, sharedPackage?]
  | cons m ms =>
    by_cases plain : package = ""
    · subst plain
      have names : (m :: ms).map (fun m => listMessage m.longName m) =
          (m :: ms).map fun m => listMessage m.name m := by
        refine List.map_congr_left fun m mem => ?_
        rw [longName_of_package (all m mem)]
      have none : sharedPackage? (m :: ms) = none := by
        simp [sharedPackage?, all m (List.mem_cons_self ..)]
      rw [listing, none]
      simp only [names]
      simp
    · have shared : sharedPackage? (m :: ms) = some package := by
        rw [List.forall_mem_cons] at all
        obtain ⟨rfl, others⟩ := all
        simpa [sharedPackage?, plain] using others
      rw [listing, shared]
      simp [plain]

theorem Splits.listing {package : String} {ms : List Message}
    (named : package = "" ∨ IsDotted package)
    (written : ∀ m ∈ ms, m.package = package ∧ m.Written) :
    ∃ ts, Grammar.Specification ts ms ∧ Splits (Schema.listing ms).toList ts := by
  obtain ⟨ts, messages, texts⟩ := Splits.messages (fun m => listMessage m.name m)
    fun m mem _ _ behind => (written m mem).1 ▸ Splits.message (written m mem).2 behind
  rw [listing_eq fun m mem => (written m mem).1]
  split
  · rename_i unstated
    refine ⟨ts, ?_, by simpa using texts⟩
    rcases unstated with rfl | rfl
    · exact .plain messages
    · cases messages
      exact .plain .nil
  · rename_i stated
    rw [not_or] at stated
    obtain ⟨vs, dotted, lexemes⟩ := named.resolve_left stated.1
    have semicolon := Splits.of_stop (t := .semicolon) trivial trivial texts.line.line
    have name := Splits.dotted dotted lexemes (by rintro _ ⟨⟩; decide) semicolon
    refine ⟨_, .packaged dotted messages, ?_⟩
    simpa [Token.spelling] using Splits.word (isWord_keyword "package" (by simp)) name

/-- The normalised text of the messages that were read from a text is read as the same messages.
The count of the fields without a number has 32 bits; it must not start over, because then a
field gets the identifier zero, which no text can state. -/
theorem parse_listing {text : String} {ms : List Message} (read : parse text = .ok ms)
    (few : ∀ m ∈ ms, m.fields.length < UInt32.size) : parse (listing ms) = .ok ms := by
  obtain ⟨ts, splits, specification⟩ := declares_of_parse read
  have lexemes := isLexeme_of_splits splits
  obtain ⟨package, named, written⟩ := specification.written lexemes few
  obtain ⟨ts', specification', splits'⟩ := Splits.listing named written
  have quoted : quotes ts' = quotes ts := by
    rw [specification'.quotes_eq (isLexeme_of_splits splits'), specification.quotes_eq lexemes]
  -- the text that was read has no comments left, so its normal form has none either
  have clean := (clean_congr splits' splits quoted).2 (Comment.clean_strip text.toList)
  refine parse_of_unambiguous ⟨ts', ?_, specification'⟩ (unambiguous_of_parse read)
  rwa [Comment.strip_of_clean clean]

/-- A specification with an opener in a default that no closer follows. -/
def openedText : String :=
  "package a.b; message M [ id = 7 ] \x7b string s [ default = \"/* \" ]; char id [ id = 4 ]; \x7d"

def openedMessage : Message :=
  ⟨"a.b", "M", 7, [⟨.scalar .string, "string", "s", 1, some "\"/* \""⟩,
    ⟨.scalar .char, "char", "id", 4, none⟩]⟩

theorem parse_openedText : parse openedText = .ok [openedMessage] :=
  parse_of_toOption (by decide +kernel)

/-- The opener is kept, and opens no comment. -/
theorem parse_listing_opened : parse openedText = .ok [openedMessage] ∧
    (∀ m ∈ [openedMessage], m.fields.length < UInt32.size) ∧
      parse (listing [openedMessage]) = .ok [openedMessage] := by
  have few : ∀ m ∈ [openedMessage], m.fields.length < UInt32.size := by
    intro m mem
    rw [List.mem_singleton] at mem
    subst mem
    decide
  exact ⟨parse_openedText, few, parse_listing parse_openedText few⟩

end MessageCodec.Schema
