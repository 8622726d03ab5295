import MessageCodec.Decimal
import MessageCodec.Proofs.Schema.Grammar
import MessageCodec.Proofs.Schema.Quotation

/-! What is known of messages that were read. Their names, labels and defaults can be
written down as tokens again, no field has the identifier zero, and the quotes in the
text are those of the defaults, in order. -/

namespace MessageCodec.Schema

/-- A name that can be written as identifiers with dots between them. -/
def IsDotted (name : String) : Prop :=
  ∃ ts, Grammar.Dotted ts name ∧ ∀ t ∈ ts, t.IsLexeme

/-- A default that can be written as one token. -/
def IsDefault (text : String) : Prop :=
  ∃ t, Grammar.IsLiteral t ∧ t.IsLexeme ∧ String.ofList t.spelling = text

/-- A declaration as it is read from a text. -/
structure FieldDeclaration.Written (d : FieldDeclaration) : Prop where
  label : IsDotted d.label
  name : IsWord d.name.toList
  default : ∀ text, d.default? = some text → IsDefault text
  id : ∀ id, d.id? = some id → id ≠ 0

def Field.declaration (f : Field) : FieldDeclaration := ⟨f.label, f.name, f.default?, some f.id⟩

structure Field.Written (f : Field) : Prop where
  declaration : f.declaration.Written
  type : f.declaration.numbered f.id = f

structure Message.Written (m : Message) : Prop where
  name : IsDotted m.name
  id : 0 ≤ m.id
  fields : ∀ f ∈ m.fields, f.Written

theorem Grammar.Dotted.append {ts us : List Token} {name rest : String} (front : Dotted ts name)
    (behind : Dotted us rest) : Dotted (ts ++ .dot :: us) (name ++ "." ++ rest) := by
  induction front with
  | last name => exact .more name behind
  | @more name ts tail _ ih =>
    have text : name ++ "." ++ tail ++ "." ++ rest = name ++ "." ++ (tail ++ "." ++ rest) := by
      simp only [String.append_assoc]
    rw [text]
    exact .more name ih

theorem IsWord.isDotted {name : String} (word : IsWord name.toList) : IsDotted name :=
  ⟨_, .last name, List.forall_mem_singleton.2 word⟩

theorem IsDotted.append {name rest : String} (front : IsDotted name) (behind : IsDotted rest) :
    IsDotted (name ++ "." ++ rest) := by
  obtain ⟨ts, named, inName⟩ := front
  obtain ⟨us, dotted, inRest⟩ := behind
  refine ⟨_, named.append dotted, List.forall_mem_append.2 ⟨inName, ?_⟩⟩
  exact List.forall_mem_cons.2 ⟨trivial, inRest⟩

theorem isDotted_intercalate {words : List (List Char)} (nonempty : words ≠ [])
    (each : ∀ word ∈ words, IsWord word) : IsDotted (String.ofList (['.'].intercalate words)) := by
  induction words with
  | nil => exact absurd rfl nonempty
  | cons word words ih =>
    rw [List.forall_mem_cons] at each
    have first : IsDotted (String.ofList word) := by
      refine IsWord.isDotted ?_
      rw [String.toList_ofList]
      exact each.1
    cases words with
    | nil => simpa using first
    | cons next words =>
      have joined : String.ofList (['.'].intercalate (word :: next :: words)) =
          String.ofList word ++ "." ++ String.ofList (['.'].intercalate (next :: words)) := by
        rw [List.intercalate_cons_cons, String.ofList_append, String.ofList_append]
      rw [joined]
      exact first.append (ih (List.cons_ne_nil _ _) each.2)

/-- A name is dotted if the pieces between its dots are words. -/
theorem isDotted_iff (name : String) :
    IsDotted name ↔ ∀ word ∈ name.toList.splitOn '.', IsWord word := by
  constructor
  · rintro ⟨ts, derived, lexemes⟩
    have plain {word : String} (w : IsWord word.toList) : '.' ∉ word.toList :=
      fun mem => absurd (w.isIdentifierChar '.' mem) (by decide)
    induction derived with
    | last name =>
      have word : IsWord name.toList := lexemes (.identifier name) (List.mem_singleton_self _)
      rw [List.splitOn_eq_singleton (plain word)]
      exact List.forall_mem_singleton.2 word
    | @more name ts tail _ ih =>
      rw [List.forall_mem_cons, List.forall_mem_cons] at lexemes
      have text : (name ++ "." ++ tail).toList = name.toList ++ '.' :: tail.toList := by simp
      rw [text, List.splitOn_append_cons_self_of_not_mem (plain lexemes.1)]
      exact List.forall_mem_cons.2 ⟨lexemes.1, ih lexemes.2.2⟩
  · intro words
    have dotted := isDotted_intercalate (List.splitOn_ne_nil '.' name.toList) words
    rwa [List.intercalate_splitOn, String.ofList_toList] at dotted

instance (name : String) : Decidable (IsDotted name) := decidable_of_iff _ (isDotted_iff name).symm

theorem IsDotted.isIdentifierChar {name : String} (dotted : IsDotted name) :
    ∀ c ∈ name.toList, Token.isIdentifierChar c ∨ c = '.' := by
  obtain ⟨ts, derived, lexemes⟩ := dotted
  induction derived with
  | last name =>
    intro c mem
    exact .inl (IsWord.isIdentifierChar (lexemes (.identifier name) (by simp)) c mem)
  | @more name _ tail _ ih =>
    simp only [List.forall_mem_cons] at lexemes
    intro c mem
    rw [String.toList_append, String.toList_append, List.mem_append, List.mem_append] at mem
    rcases mem with (mem | mem) | mem
    · exact .inl (IsWord.isIdentifierChar lexemes.1 c mem)
    · exact .inr (List.mem_singleton.1 mem)
    · exact ih lexemes.2.2 c mem

theorem IsDotted.not_mem_colon {name : String} (dotted : IsDotted name) : ':' ∉ name.toList :=
  fun mem => absurd (dotted.isIdentifierChar ':' mem) (by decide)

theorem Field.Written.ofToken?_eq_none {f : Field} (written : f.Written)
    (type : f.type = .message) : ScalarType.ofToken? f.label = none := by
  cases named : ScalarType.ofToken? f.label with
  | none => rfl
  | some t =>
    have scalar := congrArg Field.type written.type
    simp only [FieldDeclaration.numbered, Field.declaration, named] at scalar
    cases scalar.trans type

/-- What the text of a default has in quotes: all of it, or nothing. -/
def quotedDefault (default? : Option String) : List Char :=
  match default? with
  | some text =>
    if text.toList.head? = some '"' ∨ text.toList.head? = some '\'' then text.toList else []
  | none => []

/-- What the defaults of the fields of some messages have in quotes, all together. -/
def quotedDefaults (ms : List Message) : List Char :=
  ms.flatMap fun m => m.fields.flatMap fun f => quotedDefault f.default?

theorem isLexeme_of_splits {cs : List Char} {ts : List Token} (splits : Splits cs ts) :
    ∀ t ∈ ts, t.IsLexeme := by
  induction splits with
  | nil => simp
  | blank _ _ ih => exact ih
  | token lexeme _ _ ih => exact List.forall_mem_cons.2 ⟨lexeme, ih⟩

theorem declaration_numbered (d : FieldDeclaration) (id : UInt32) :
    (d.numbered id).declaration = { d with id? := some id } := by
  unfold FieldDeclaration.numbered
  split <;> rfl

theorem id_numbered (d : FieldDeclaration) (id : UInt32) : (d.numbered id).id = id := by
  unfold FieldDeclaration.numbered
  split <;> rfl

namespace Grammar

theorem Natural.pos {bound : Nat} {text : String} {n : Nat} (natural : Natural bound text n) :
    0 < n := by
  obtain ⟨digits, ⟨c, head, nonzero⟩, rfl, -⟩ := natural
  cases shape : text.toList with
  | nil => simp [shape] at head
  | cons d ds =>
    obtain rfl : d = c := by simpa [shape] using head
    have digit : d.isDigit := digits d (by simp [shape])
    have ge : 48 ≤ d.toNat := (Char.isDigit_iff_toNat.1 digit).1
    have ne : d.toNat ≠ 48 := fun same => nonzero (Char.toNat_inj.1 same)
    have value : Decimal.digitValue d = d.toNat - 48 := rfl
    refine Nat.lt_of_lt_of_le ?_ (Decimal.le_ofDigits (10 * 0 + Decimal.digitValue d) ds)
    omega

variable {ts : List Token} {name package : String} {default? : Option String} {id? : Option UInt32}
  {d : FieldDeclaration} {ds : List FieldDeclaration} {m : Schema.Message} {ms : List Schema.Message}

theorem Dotted.quotes_eq_nil (dotted : Dotted ts name) : quotes ts = [] := by
  induction dotted with
  | last name => rfl
  | more name _ ih => exact ih

theorem Comma.quotes_eq_nil (comma : Comma ts) : quotes ts = [] := by
  cases comma <;> rfl

theorem FieldId.quotes_eq_nil (id : FieldId ts id?) : quotes ts = [] := by
  cases id <;> rfl

theorem MessageId.quotes_eq_nil {id : Int32} (identified : MessageId ts id) : quotes ts = [] := by
  cases identified with
  | absent => rfl
  | stated _ comma => cases comma <;> rfl

/-- A default is all in quotes, or nothing of it is. -/
theorem quotes_literal {t : Token} (literal : IsLiteral t) (lexeme : t.IsLexeme) :
    quotes [t] = quotedDefault (some (String.ofList t.spelling)) := by
  cases t with
  | string content => simp [quotes_cons, quotedDefault, Token.isQuoted, Token.spelling]
  | character c => simp [quotes_cons, quotedDefault, Token.isQuoted, Token.spelling]
  | number text =>
    obtain ⟨c, ds, spelled, start⟩ := IsNumeral.exists_cons lexeme
    have plain : c ≠ '"' ∧ c ≠ '\'' := by
      constructor <;> (rintro rfl; exact absurd start (by decide))
    simp [quotes_cons, quotedDefault, Token.isQuoted, Token.spelling, spelled, plain]
  | identifier word =>
    rcases literal with rfl | rfl <;> decide
  | _ => cases literal

theorem FieldDefault.quotes_eq (default : FieldDefault ts default?)
    (lexemes : ∀ t ∈ ts, t.IsLexeme) : quotes ts = quotedDefault default? := by
  cases default with
  | absent => rfl
  | stated literal => exact quotes_literal literal (lexemes _ (by simp))

theorem FieldOptions.quotes_eq (options : FieldOptions ts default? id?)
    (lexemes : ∀ t ∈ ts, t.IsLexeme) : quotes ts = quotedDefault default? := by
  cases options with
  | absent => rfl
  | bracketed default comma id =>
    simp only [List.forall_mem_cons, List.forall_mem_append] at lexemes
    have stated := default.quotes_eq lexemes.2.1.1.1
    simp [quotes_cons, Token.isQuoted, stated, comma.quotes_eq_nil, id.quotes_eq_nil]

theorem Field.quotes_eq (field : Field ts d) (lexemes : ∀ t ∈ ts, t.IsLexeme) :
    quotes ts = quotedDefault d.default? := by
  obtain ⟨type, options⟩ := field
  simp only [List.forall_mem_cons, List.forall_mem_append] at lexemes
  have stated := options.quotes_eq lexemes.2.2.1
  simp [quotes_cons, Token.isQuoted, type.quotes_eq_nil, stated]

theorem Fields.quotes_eq (fields : Fields ts ds) (lexemes : ∀ t ∈ ts, t.IsLexeme) :
    quotes ts = ds.flatMap fun d => quotedDefault d.default? := by
  induction fields with
  | nil => rfl
  | cons first _ ih =>
    rw [List.forall_mem_append] at lexemes
    rw [quotes_append, List.flatMap_cons, first.quotes_eq lexemes.1, ih lexemes.2]

theorem FieldDefault.written (default : FieldDefault ts default?)
    (lexemes : ∀ t ∈ ts, t.IsLexeme) : ∀ text, default? = some text → IsDefault text := by
  cases default with
  | absent => nofun
  | @stated t literal =>
    rintro _ ⟨⟩
    exact ⟨t, literal, lexemes t (by simp), rfl⟩

theorem FieldId.ne_zero (identified : FieldId ts id?) : ∀ id, id? = some id → id ≠ 0 := by
  cases identified with
  | absent => nofun
  | @stated text n natural =>
    rintro _ ⟨⟩ zero
    have same := congrArg UInt32.toNat zero
    rw [UInt32.toNat_ofNat_of_lt' natural.fits] at same
    exact absurd same (Nat.ne_of_gt natural.pos)

theorem FieldOptions.written (options : FieldOptions ts default? id?)
    (lexemes : ∀ t ∈ ts, t.IsLexeme) :
    (∀ text, default? = some text → IsDefault text) ∧ ∀ id, id? = some id → id ≠ 0 := by
  cases options with
  | absent => exact ⟨nofun, nofun⟩
  | bracketed default _ id =>
    simp only [List.forall_mem_cons, List.forall_mem_append] at lexemes
    exact ⟨default.written lexemes.2.1.1.1, id.ne_zero⟩

theorem Field.written (field : Field ts d) (lexemes : ∀ t ∈ ts, t.IsLexeme) : d.Written := by
  obtain ⟨type, options⟩ := field
  simp only [List.forall_mem_cons, List.forall_mem_append] at lexemes
  obtain ⟨inType, word, inOptions, -⟩ := lexemes
  have stated := options.written inOptions
  exact ⟨⟨_, type, inType⟩, word, stated.1, stated.2⟩

theorem Fields.written (fields : Fields ts ds) (lexemes : ∀ t ∈ ts, t.IsLexeme) :
    ∀ d ∈ ds, d.Written := by
  induction fields with
  | nil => nofun
  | cons first _ ih =>
    rw [List.forall_mem_append] at lexemes
    exact List.forall_mem_cons.2 ⟨first.written lexemes.1, ih lexemes.2⟩

theorem length_numbered (ds : List FieldDeclaration) : (numbered ds).length = ds.length := by
  simp [numbered]

/-- As long as the count stays below its bound, each field has an identifier other than zero. -/
theorem mem_numbered (few : ds.length < UInt32.size) (stated : ∀ d ∈ ds, d.Written)
    {f : Schema.Field} (mem : f ∈ numbered ds) :
    ∃ d ∈ ds, ∃ id, id ≠ 0 ∧ f = d.numbered id := by
  simp only [numbered_eq, List.mem_mapIdx] at mem
  obtain ⟨i, within, rfl⟩ := mem
  refine ⟨ds[i], List.getElem_mem within, _, ?_, rfl⟩
  cases explicit : ds[i].id? with
  | some id => exact (stated _ (List.getElem_mem within)).id id explicit
  | none =>
    have counted : 0 < (ds.take (i + 1)).countP (·.id?.isNone) := by
      rw [List.countP_pos_iff]
      refine ⟨ds[i], ?_, by simp [explicit]⟩
      rw [List.mem_take_iff_getElem]
      exact ⟨i, by omega, rfl⟩
    have bounded : (ds.take (i + 1)).countP (·.id?.isNone) ≤ ds.length :=
      Nat.le_trans List.countP_le_length (List.length_take_le' ..)
    intro zero
    have same := congrArg UInt32.toNat zero
    rw [Option.getD_none, UInt32.toNat_ofNat_of_lt' (by omega)] at same
    exact absurd same (Nat.ne_of_gt counted)

theorem written_numbered (few : ds.length < UInt32.size) (stated : ∀ d ∈ ds, d.Written) :
    ∀ f ∈ numbered ds, f.Written := by
  intro f mem
  obtain ⟨d, among, id, nonzero, rfl⟩ := mem_numbered few stated mem
  have written := stated d among
  refine ⟨?_, ?_⟩
  · rw [declaration_numbered]
    refine ⟨written.label, written.name, written.default, ?_⟩
    rintro _ ⟨⟩
    exact nonzero
  · rw [declaration_numbered, id_numbered]
    rfl

theorem defaults_numbered (ds : List FieldDeclaration) :
    (numbered ds).map (·.default?) = ds.map (·.default?) := by
  refine List.ext_getElem (by simp [numbered]) fun i _ _ => ?_
  simp [numbered]

theorem MessageId.nonneg {id : Int32} (identified : MessageId ts id) : 0 ≤ id := by
  cases identified with
  | absent => decide
  | stated natural =>
    rw [Int32.le_iff_toInt_le, Int32.toInt_ofNat_of_lt natural.fits]
    exact Int.natCast_nonneg _

theorem Message.written (message : Message package ts m) (lexemes : ∀ t ∈ ts, t.IsLexeme)
    (few : m.fields.length < UInt32.size) : m.Written := by
  obtain ⟨named, identified, fields⟩ := message
  simp only [List.forall_mem_cons, List.forall_mem_append] at lexemes
  obtain ⟨-, ⟨inName, -⟩, -, inFields, -⟩ := lexemes
  rw [length_numbered] at few
  exact ⟨⟨_, named, inName⟩, identified.nonneg, written_numbered few (fields.written inFields)⟩

theorem Message.quotes_eq (message : Message package ts m) (lexemes : ∀ t ∈ ts, t.IsLexeme) :
    quotes ts = m.fields.flatMap fun f => quotedDefault f.default? := by
  cases message with
  | @declared us vs ws _ _ ds named identified fields =>
    simp only [List.forall_mem_cons, List.forall_mem_append] at lexemes
    obtain ⟨-, -, -, inFields, -⟩ := lexemes
    have defaults := congrArg (List.flatMap quotedDefault) (defaults_numbered ds)
    rw [List.flatMap_map, List.flatMap_map] at defaults
    simp [quotes_cons, Token.isQuoted, named.quotes_eq_nil, identified.quotes_eq_nil,
      fields.quotes_eq inFields, defaults]

theorem Messages.written (messages : Messages package ts ms) (lexemes : ∀ t ∈ ts, t.IsLexeme)
    (few : ∀ m ∈ ms, m.fields.length < UInt32.size) :
    ∀ m ∈ ms, m.package = package ∧ m.Written := by
  induction messages with
  | nil => nofun
  | cons first _ ih =>
    rw [List.forall_mem_append] at lexemes
    rw [List.forall_mem_cons] at few ⊢
    refine ⟨⟨?_, first.written lexemes.1 few.1⟩, ih lexemes.2 few.2⟩
    obtain ⟨-, -, -⟩ := first
    rfl

theorem Messages.quotes_eq (messages : Messages package ts ms)
    (lexemes : ∀ t ∈ ts, t.IsLexeme) : quotes ts = quotedDefaults ms := by
  induction messages with
  | nil => rfl
  | cons first _ ih =>
    rw [List.forall_mem_append] at lexemes
    rw [quotes_append, first.quotes_eq lexemes.1, ih lexemes.2]
    rfl

theorem Specification.written (specification : Specification ts ms)
    (lexemes : ∀ t ∈ ts, t.IsLexeme) (few : ∀ m ∈ ms, m.fields.length < UInt32.size) :
    ∃ package, (package = "" ∨ IsDotted package) ∧ ∀ m ∈ ms, m.package = package ∧ m.Written := by
  cases specification with
  | plain messages => exact ⟨"", .inl rfl, messages.written lexemes few⟩
  | @packaged us vs package _ named messages =>
    simp only [List.forall_mem_cons, List.forall_mem_append] at lexemes
    exact ⟨package, .inr ⟨us, named, lexemes.2.1⟩, messages.written lexemes.2.2.2 few⟩

/-- The messages of a specification tell what its text has in quotes. -/
theorem Specification.quotes_eq (specification : Specification ts ms)
    (lexemes : ∀ t ∈ ts, t.IsLexeme) : quotes ts = quotedDefaults ms := by
  cases specification with
  | plain messages => exact messages.quotes_eq lexemes
  | packaged named messages =>
    simp only [List.forall_mem_cons, List.forall_mem_append] at lexemes
    have all := messages.quotes_eq lexemes.2.2.2
    simp [quotes_cons, Token.isQuoted, named.quotes_eq_nil, all]

end Grammar

end MessageCodec.Schema
