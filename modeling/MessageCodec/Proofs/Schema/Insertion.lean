import Mathlib.Data.List.InsertIdx
import MessageCodec.Proofs.Schema.Joining
import MessageCodec.Proofs.Schema.Listing
import MessageCodec.Proofs.Schema.Outside

/-! A field with a string for its default, added to a message of a text that was read. The messages
are read with that field in its place and as they were apart from it, whatever the string holds,
unless it takes part in a comment; and no default that was read has a comment in it. -/

namespace MessageCodec.Schema

open Comment (IsPlain Outside Harmless)

namespace FieldDeclaration

/-- A field with a number of its own takes none from the fields around it. -/
theorem number_insert {d : FieldDeclaration} {id : UInt32} (explicit : d.id? = some id)
    (last : UInt32) (ds es : List FieldDeclaration) :
    number last (ds ++ d :: es) = (number last (ds ++ es)).insertIdx ds.length (d.numbered id) := by
  induction ds generalizing last with
  | nil => simp [number, explicit]
  | cons e ds ih => cases stated : e.id? <;> simp [number, stated, ih]

end FieldDeclaration

namespace Grammar

variable {ts us vs : List Token} {package : String} {before ms after : List Schema.Message}
  {m : Schema.Message} {ds es : List FieldDeclaration} {d : FieldDeclaration} {j : Nat}

/-- The package that the messages of a specification belong to, as it is stated in front of them:
`('package' dotted ';')?`. -/
inductive Opening : List Token → String → Prop where
  | plain : Opening [] ""
  | packaged {ts : List Token} {package : String} (named : Dotted ts package) :
    Opening (.identifier "package" :: (ts ++ [.semicolon])) package

/-- A place for a field among the tokens of a specification: after `j` fields of the message `m`,
which has messages before and after it. -/
inductive Gap (before : List Schema.Message) (after : List Schema.Message) :
    List Token → List Token → Schema.Message → Nat → Prop where
  | intro {ps ts ns is fs gs us : List Token} {package name : String} {id : Int32}
    {ds es : List FieldDeclaration} (opening : Opening ps package)
    (front : Messages package ts before) (named : Dotted ns name) (identified : MessageId is id)
    (first : Fields fs ds) (rest : Fields gs es) (behind : Messages package us after) :
    Gap before after (ps ++ ts ++ .identifier "message" :: (ns ++ is ++ .leftBrace :: fs))
      (gs ++ .rightBrace :: us) ⟨package, name, id, numbered (ds ++ es)⟩ ds.length

theorem Opening.specification (opening : Opening ts package) (messages : Messages package us ms) :
    Specification (ts ++ us) ms := by
  cases opening with
  | plain => exact .plain messages
  | packaged named =>
    rw [List.cons_append, List.append_assoc]
    exact .packaged named messages

theorem Specification.exists_opening (specification : Specification ts ms) :
    ∃ us vs package, ts = us ++ vs ∧ Opening us package ∧ Messages package vs ms := by
  cases specification with
  | plain messages => exact ⟨[], ts, "", rfl, .plain, messages⟩
  | packaged named messages => exact ⟨_, _, _, by simp, .packaged named, messages⟩

theorem Fields.append (first : Fields ts ds) (rest : Fields us es) :
    Fields (ts ++ us) (ds ++ es) := by
  induction first with
  | nil => exact rest
  | cons field _ ih =>
    rw [List.append_assoc]
    exact .cons field ih

theorem Fields.cut (fields : Fields ts (ds ++ es)) :
    ∃ us vs, ts = us ++ vs ∧ Fields us ds ∧ Fields vs es := by
  induction ds generalizing ts with
  | nil => exact ⟨[], ts, rfl, .nil, fields⟩
  | cons d ds ih =>
    cases fields with
    | cons field rest =>
      obtain ⟨us, vs, rfl, first, behind⟩ := ih rest
      exact ⟨_, vs, (List.append_assoc ..).symm, .cons field first, behind⟩

theorem Messages.append (front : Messages package ts before) (behind : Messages package us after) :
    Messages package (ts ++ us) (before ++ after) := by
  induction front with
  | nil => exact behind
  | cons message _ ih =>
    rw [List.append_assoc]
    exact .cons message ih

theorem Messages.cut (messages : Messages package ts (before ++ after)) :
    ∃ us vs, ts = us ++ vs ∧ Messages package us before ∧ Messages package vs after := by
  induction before generalizing ts with
  | nil => exact ⟨[], ts, rfl, .nil, messages⟩
  | cons m before ih =>
    cases messages with
    | cons message rest =>
      obtain ⟨us, vs, rfl, front, behind⟩ := ih rest
      exact ⟨_, vs, (List.append_assoc ..).symm, .cons message front, behind⟩

theorem Fields.eq_nil_or_concat (fields : Fields ts ds) :
    ts = [] ∨ ∃ us, ts = us ++ [.semicolon] := by
  induction fields with
  | nil => exact .inl rfl
  | @cons ts us _ _ field _ ih =>
    rcases ih with rfl | ⟨vs, rfl⟩
    · obtain ⟨type, options⟩ := field
      exact .inr ⟨_, by rw [List.append_nil, ← List.cons_append, ← List.append_assoc]⟩
    · exact .inr ⟨ts ++ vs, (List.append_assoc ..).symm⟩

/-- In front of the place stands a mark, which nothing behind it extends. -/
theorem Gap.stopsAt (gap : Gap before after us vs m j) :
    ∀ t, us.getLast? = some t → ∀ rest, t.StopsAt rest := by
  cases gap with
  | intro opening front named identified first rest behind =>
    intro t last
    rcases first.eq_nil_or_concat with rfl | ⟨fs, rfl⟩
    · obtain rfl : .leftBrace = t := by simpa [List.getLast?_cons] using last
      exact fun _ => trivial
    · obtain rfl : .semicolon = t := by simpa [List.getLast?_cons] using last
      exact fun _ => trivial

/-- Each message has a place in front of each of its fields, and one behind them all. -/
theorem Specification.exists_gap (specification : Specification ts (before ++ m :: after))
    (within : j ≤ m.fields.length) : ∃ us vs, ts = us ++ vs ∧ Gap before after us vs m j := by
  obtain ⟨ps, ts, package, rfl, opening, messages⟩ := specification.exists_opening
  obtain ⟨ts, us, rfl, front, messages⟩ := messages.cut
  cases messages with
  | cons message behind =>
    obtain ⟨named, identified, fields⟩ := message
    rename_i ds
    rw [length_numbered] at within
    rw [← List.take_append_drop j ds] at fields
    obtain ⟨fs, gs, rfl, first, rest⟩ := fields.cut
    have gap := Gap.intro opening front named identified first rest behind
    rw [List.take_append_drop, List.length_take, Nat.min_eq_left within] at gap
    exact ⟨_, _, by simp, gap⟩

theorem Gap.within (gap : Gap before after us vs m j) : j ≤ m.fields.length := by
  cases gap
  rw [length_numbered, List.length_append]
  exact Nat.le_add_right ..

/-- A field with a number of its own is put into its place, and nothing else changes. -/
theorem Gap.insert {id : UInt32} (gap : Gap before after us vs m j) (field : Field ts d)
    (explicit : d.id? = some id) :
    Specification (us ++ (ts ++ vs))
      (before ++ { m with fields := m.fields.insertIdx j (d.numbered id) } :: after) := by
  obtain ⟨opening, front, named, identified, first, rest, behind⟩ := gap
  rename_i ds es
  have fields := first.append (.cons field rest)
  have message := Messages.cons (.declared named identified fields) behind
  rw [← number_zero, FieldDeclaration.number_insert explicit, number_zero] at message
  have specification := opening.specification (front.append message)
  simpa using specification

end Grammar

section Freshness

variable {before after : List Message} {m : Message} {f : Field} {j : Nat}

theorem nodup_insertIdx {α : Type} {fs : List Field} (key : Field → α) (within : j ≤ fs.length)
    (apart : (fs.map key).Nodup) (fresh : ∀ g ∈ fs, key g ≠ key f) :
    ((fs.insertIdx j f).map key).Nodup := by
  rw [((List.perm_insertIdx f fs within).map key).nodup_iff, List.map_cons, List.nodup_cons,
    List.mem_map]
  exact ⟨fun ⟨g, mem, same⟩ => fresh g mem same, apart⟩

/-- One more field, with a name and an identifier of its own, makes nothing ambiguous. -/
theorem Unambiguous.insert (clean : Unambiguous (before ++ m :: after))
    (within : j ≤ m.fields.length) (fresh : ∀ g ∈ m.fields, g.name ≠ f.name ∧ g.id ≠ f.id) :
    Unambiguous (before ++ { m with fields := m.fields.insertIdx j f } :: after) := by
  obtain ⟨ids, names, fieldIds, fieldNames⟩ := clean
  rw [List.forall_mem_append, List.forall_mem_cons] at fieldIds fieldNames
  rw [List.map_append, List.map_cons] at ids names
  refine ⟨?_, ?_, ?_, ?_⟩
  · rw [List.map_append, List.map_cons]
    exact ids
  · rw [List.map_append, List.map_cons]
    exact names
  · have ids' := nodup_insertIdx (·.id) within fieldIds.2.1 fun g mem => (fresh g mem).2
    rw [List.forall_mem_append, List.forall_mem_cons]
    exact ⟨fieldIds.1, ids', fieldIds.2.2⟩
  · have names' := nodup_insertIdx (·.name) within fieldNames.2.1 fun g mem => (fresh g mem).1
    rw [List.forall_mem_append, List.forall_mem_cons]
    exact ⟨fieldNames.1, names', fieldNames.2.2⟩

end Freshness

def quoted (content : String) : String := "\"" ++ content ++ "\""

/-- What stands in front of the content in a field that has a string for its default. -/
def stringOpening (name : String) : String := "string " ++ name ++ " [default = \""

def stringClosing (id : UInt32) : String := "\", id = " ++ toString id.toNat ++ "];"

/-- The text of a field that has a string for its default. -/
def stringField (name content : String) (id : UInt32) : String :=
  stringOpening name ++ content ++ stringClosing id

/-- The field that the text declares. -/
def Field.defaulted (name content : String) (id : UInt32) : Field :=
  ⟨.scalar .string, "string", name, id, some (quoted content)⟩

section Text

variable {name content : String} {id : UInt32} {rest : List Char} {us : List Token}

theorem spelling_string (content : String) :
    String.ofList (Token.string content).spelling = quoted content := by
  rw [← String.toList_inj, String.toList_ofList]
  simp [Token.spelling, quoted]

theorem isPlain_stringOpening (word : IsWord name.toList) :
    ∀ c ∈ (stringOpening name).toList, IsPlain c := by
  have inName : ∀ c ∈ name.toList, IsPlain c :=
    Token.isPlain_of_not_isQuoted (t := .identifier name) word rfl
  simp only [stringOpening, String.toList_append, List.forall_mem_append]
  exact ⟨⟨by simp [IsPlain], inName⟩, by simp [IsPlain]⟩

theorem isPlain_stringClosing (nonzero : id ≠ 0) :
    ∀ c ∈ (stringClosing id).toList, IsPlain c := by
  have inNumber : ∀ c ∈ (toString id.toNat).toList, IsPlain c :=
    Token.isPlain_of_not_isQuoted (t := .number (toString id.toNat)) (natural_id nonzero).isLexeme
      rfl
  simp only [stringClosing, String.toList_append, List.forall_mem_append]
  exact ⟨⟨by simp [IsPlain], inNumber⟩, by simp [IsPlain]⟩

theorem Splits.stringField (word : IsWord name.toList) (inside : '"' ∉ content.toList)
    (nonzero : id ≠ 0) (behind : Splits rest us) :
    ∃ ts, Grammar.Field ts ⟨"string", name, some (quoted content), some id⟩ ∧
      Splits ((stringField name content id).toList ++ rest) (ts ++ us) := by
  have natural := natural_id nonzero
  have semicolon := Splits.of_stop (t := .semicolon) trivial trivial behind
  have bracket := Splits.of_stop (t := .rightBracket) trivial trivial semicolon
  have number := Splits.of_stop (t := .number (toString id.toNat)) natural.isLexeme
    (by rintro _ ⟨⟩; decide) bracket
  have equals := Splits.of_stop (t := .equals) trivial trivial number.space
  have keyword := Splits.word (isWord_keyword "id" (by simp)) equals
  have literal := Splits.literal (t := .string content) trivial inside keyword.space
  have equals' := Splits.of_stop (t := .equals) trivial trivial literal.space
  have keyword' := Splits.word (isWord_keyword "default" (by simp)) equals'
  have opening := Splits.of_stop (t := .leftBracket) trivial trivial keyword'
  have typeWord : IsWord "string".toList := by decide
  have label := Splits.word typeWord (Splits.word word opening)
  have derived : Grammar.Field _ ⟨"string", name,
      some (String.ofList (Token.string content).spelling), some (UInt32.ofNat id.toNat)⟩ :=
    .declared (.last "string") (.bracketed (.stated trivial) .present (.stated natural))
  rw [spelling_string, UInt32.ofNat_toNat] at derived
  refine ⟨_, derived, ?_⟩
  simpa [Schema.stringField, stringOpening, stringClosing, Token.spelling] using label

end Text

/-- A place for a field in a text, outside of its comments: after `j` fields of the message `m`,
which has messages before and after it. -/
structure FieldPlace (text : String) (before : List Message) (m : Message) (after : List Message)
    (j : Nat) (front behind : String) : Prop where
  parts : text = front ++ behind
  outside : Outside front.toList behind.toList
  gap : ∃ us vs, Splits (Comment.strip front.toList) us ∧ Splits (Comment.strip behind.toList) vs ∧
    Grammar.Gap before after us vs m j

section Places

variable {text text' front behind name content : String} {before after : List Message}
  {m : Message} {j : Nat} {id : UInt32}

/-- Each message that was read has a place in front of each of its fields, and one behind them
all. -/
theorem exists_fieldPlace (declared : Declares text (before ++ m :: after))
    (within : j ≤ m.fields.length) :
    ∃ front behind, FieldPlace text before m after j front behind := by
  obtain ⟨ts, splits, specification⟩ := declared
  obtain ⟨us, vs, rfl, gap⟩ := specification.exists_gap within
  obtain ⟨a, b, parts, splitsFront, splitsBehind⟩ := splits.cut
  obtain ⟨front, behind, whole, rfl, rfl, outside⟩ := Comment.exists_outside parts
  refine ⟨String.ofList front, String.ofList behind, ?_, ?_, us, vs, ?_, ?_, gap⟩
  · rw [← String.toList_inj, whole]
    simp
  all_goals simpa only [String.toList_ofList]

theorem FieldPlace.within (place : FieldPlace text before m after j front behind) :
    j ≤ m.fields.length := by
  obtain ⟨us, vs, -, -, gap⟩ := place.gap
  exact gap.within

/-- Apart from the comments, the text with the field in its place derives the message with that
field. -/
theorem FieldPlace.exists_splits (place : FieldPlace text before m after j front behind)
    (word : IsWord name.toList) (inside : '"' ∉ content.toList) (nonzero : id ≠ 0) :
    ∃ ts, Splits (Comment.strip front.toList ++ ((stringOpening name).toList ++ (content.toList ++
        ((stringClosing id).toList ++ Comment.strip behind.toList)))) ts ∧
      Grammar.Specification ts
        (before ++ { m with fields := m.fields.insertIdx j (.defaulted name content id) } ::
          after) := by
  obtain ⟨us, vs, splitsFront, splitsBehind, gap⟩ := place.gap
  obtain ⟨ts, field, splits⟩ := Splits.stringField word inside nonzero splitsBehind
  refine ⟨us ++ (ts ++ vs), ?_, gap.insert field rfl⟩
  have joined := splitsFront.join gap.stopsAt splits
  simpa only [stringField, String.toList_append, List.append_assoc] using joined

/-- A field whose string takes part in no comment is read in its place. -/
theorem FieldPlace.declares (place : FieldPlace text before m after j front behind)
    (word : IsWord name.toList) (inside : '"' ∉ content.toList) (nonzero : id ≠ 0)
    (harmless : Harmless front.toList content.toList behind.toList) :
    Declares (front ++ stringField name content id ++ behind)
      (before ++ { m with fields := m.fields.insertIdx j (.defaulted name content id) } ::
        after) := by
  obtain ⟨ts, splits, specification⟩ := place.exists_splits word inside nonzero
  have kept := Comment.strip_between place.outside harmless (isPlain_stringOpening word)
    (by simp [stringOpening]) (isPlain_stringClosing nonzero) (by simp [stringClosing])
  refine ⟨ts, ?_, specification⟩
  simp only [stringField, String.toList_append, List.append_assoc]
  rw [kept]
  exact splits

/-- A field that is read in its place has a string that takes part in no comment, apart from those
that are behind the place already. -/
theorem FieldPlace.harmless (place : FieldPlace text before m after j front behind)
    (word : IsWord name.toList) (inside : '"' ∉ content.toList) (nonzero : id ≠ 0)
    (declared : Declares text'
      (before ++ { m with fields := m.fields.insertIdx j (.defaulted name content id) } ::
        after)) :
    Harmless front.toList content.toList (Comment.strip behind.toList) := by
  obtain ⟨ts, splits, specification⟩ := place.exists_splits word inside nonzero
  obtain ⟨ts', splits', specification'⟩ := declared
  have same : quotes ts = quotes ts' := by
    rw [specification.quotes_eq (isLexeme_of_splits splits),
      specification'.quotes_eq (isLexeme_of_splits splits')]
  exact ((clean_congr splits splits' same).2 (Comment.clean_strip _)).harmless

end Places

/-- Into each message of a text that was read, a field with a string for its default can be put in
front of each of its fields and behind them all. At each such place, a field with a name and an
identifier that the message does not have yet is read with the string as it is written, and all
else as before, if the string takes part in no comment there; and only if it would take part in
none once the comments behind the place were gone. -/
theorem parse_stringField {text : String} {before after : List Message} {m : Message}
    (read : parse text = .ok (before ++ m :: after)) :
    (∀ j ≤ m.fields.length, ∃ front behind, FieldPlace text before m after j front behind) ∧
      ∀ j front behind, FieldPlace text before m after j front behind →
        ∀ name content id, IsWord name.toList → '"' ∉ content.toList → id ≠ 0 →
          (∀ f ∈ m.fields, f.name ≠ name ∧ f.id ≠ id) →
            let extended := before ++
              { m with fields := m.fields.insertIdx j (.defaulted name content id) } :: after
            (Harmless front.toList content.toList behind.toList →
              parse (front ++ stringField name content id ++ behind) = .ok extended) ∧
            (parse (front ++ stringField name content id ++ behind) = .ok extended →
              Harmless front.toList content.toList (Comment.strip behind.toList)) := by
  have declared := declares_of_parse read
  refine ⟨fun j within => exists_fieldPlace declared within, ?_⟩
  intro j front behind place name content id word inside nonzero fresh extended
  refine ⟨fun harmless => ?_, fun kept => ?_⟩
  · exact parse_of_unambiguous (place.declares word inside nonzero harmless)
      ((unambiguous_of_parse read).insert place.within fresh)
  · exact place.harmless word inside nonzero (declares_of_parse kept)

def commentedText : String := "// jobs\nmessage Job [id = 1] \x7b uint32 n; /* count */ \x7d"

def commentedMessage : Message := ⟨"", "Job", 1, [⟨.scalar (.uint .w32), "uint32", "n", 1, none⟩]⟩

theorem parse_commentedText : parse commentedText = .ok [commentedMessage] :=
  parse_of_toOption (by decide +kernel)

theorem parse_stringField_type :
    parse commentedText = .ok [commentedMessage] ∧
      ∃ front behind, commentedText = front ++ behind ∧
        parse (front ++ stringField "kind" "text/plain" 7 ++ behind) =
          .ok [⟨"", "Job", 1, [⟨.scalar (.uint .w32), "uint32", "n", 1, none⟩,
            .defaulted "kind" "text/plain" 7]⟩] := by
  obtain ⟨places, kept⟩ := @parse_stringField commentedText [] [] _ parse_commentedText
  obtain ⟨front, behind, place⟩ := places 1 (by decide)
  refine ⟨parse_commentedText, front, behind, place.parts, ?_⟩
  have word : IsWord "kind".toList := by decide
  have added := kept 1 front behind place "kind" "text/plain" 7 word
  exact (added (by decide) (by decide) (by decide)).1
    (Comment.harmless_of_no_marks (by decide) (by decide) (by decide))

/-- A line comment in a default takes the rest of the line with it, so that the text is refused; a
block comment is left out of the default. -/
theorem comment_in_default :
    (parse ("message M \x7b " ++ stringField "s" "http://x" 1 ++ " \x7d")).toOption = none ∧
      (parse ("message M \x7b " ++ stringField "s" "a/*x*/b" 1 ++ " \x7d")).toOption =
        some [⟨"", "M", 0, [.defaulted "s" "ab" 1]⟩] := by
  decide +kernel

end MessageCodec.Schema
