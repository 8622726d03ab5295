import MessageCodec.Proofs.Envelope.Converter
import MessageCodec.Proofs.Json.Records

/-! Envelopes in JSON and back. The object of an envelope is plain, and so is the payload in it when
there are no floating-point numbers. A frame that is made from the text of that payload is the
frame of the envelope. -/

namespace MessageCodec

/-- Of messages whose identifiers other than zero are distinct, one with an identifier of its own is
found under it. -/
theorem Schema.find?_reverse_id {ms : List Schema.Message}
    (ids : ((ms.map (·.id)).filter (· ≠ 0)).Nodup) {m : Schema.Message} (mem : m ∈ ms)
    (numbered : m.id ≠ 0) : ms.reverse.find? (·.id == m.id) = some m := by
  cases found : ms.reverse.find? (·.id == m.id) with
  | none =>
    rw [List.find?_eq_none] at found
    exact absurd (beq_self_eq_true m.id) (found m (List.mem_reverse.2 mem))
  | some m' =>
    have same : m'.id = m.id := by simpa using List.find?_some found
    have mem' : m' ∈ ms := List.mem_reverse.1 (List.mem_of_find?_eq_some found)
    rw [Schema.eq_of_id ids mem mem' numbered same]

namespace Converter

theorem envelopeMembers_eq (e : Envelope) :
    envelopeMembers e =
      [("dataType", .number (.integer e.dataType.toBitVec.toInt)), ("sent", e.sent.json),
        ("received", e.received.json), ("sampleTimeStamp", e.sampled.json),
        ("senderStamp", .number (.integer e.sender.toBitVec.toNat))] := rfl

theorem plain_json (t : TimeStamp) (levels : Nat) : Json.Plain (levels + 1) t.json := by
  have plain (v : BitVec 32) : Json.Plain levels (.number (.integer v.toInt)) :=
    Json.plain_ofScalar (t := .int .w32) nofun nofun v levels
  refine .object (by simp) ?_
  rw [List.forall_mem_cons, List.forall_mem_singleton]
  exact ⟨plain _, plain _⟩

theorem plain_envelopeMembers (e : Envelope) (levels : Nat) :
    Json.Plain (levels + 2) (.object (envelopeMembers e)) := by
  have type : Json.Plain (levels + 1) (.number (.integer e.dataType.toBitVec.toInt)) :=
    Json.plain_ofScalar (t := .int .w32) nofun nofun _ _
  have sender : Json.Plain (levels + 1) (.number (.integer e.sender.toBitVec.toNat)) :=
    Json.plain_ofScalar (t := .uint .w32) nofun nofun _ _
  rw [envelopeMembers_eq]
  refine .object (by simp) ?_
  simp only [List.forall_mem_cons]
  exact ⟨type, plain_json _ _, plain_json _ _, plain_json _ _, sender, List.forall_mem_nil _⟩

section Payload

variable {c : Converter} {m : Schema.Message} {bs : Bytes}
variable (ids : ∀ m ∈ c.messages, (m.fields.map (·.id)).Nodup) (mem : m ∈ c.messages)
variable (restores : Wire.Restores c.messages [m.longName] m bs)
include ids mem restores

/-- A payload becomes the object of the record that is read from it. -/
theorem payloadJson_eq :
    c.payloadJson m bs = .object (Wire.shown c.messages [m.longName] m bs).members := by
  have distinct : (Record.decode Wire.decoder m c.messages bs).1.Distinct :=
    Record.distinct_ofDecoder ids mem _
  have walked := congrArg Prod.snd (Record.walk_view Json.Encoding.pass distinct (.empty []))
  have members := Json.Encoding.walk_pass (e := .empty []) restores.named rfl
    restores.named.nodup_names
  exact (congrArg Json.Encoding.value walked).symm.trans (congrArg Json.object members)

/-- What is rebuilt from the text of a payload's object is what is kept of the payload. -/
theorem payloadOfJson_eq :
    c.payloadOfJson m (Json.object (Wire.shown c.messages [m.longName] m bs).members).text =
      (Wire.kept c.messages [m.longName] m bs).bytes := by
  have shallow : maxLevels - [m.longName].length < Json.maxNesting :=
    Nat.lt_of_le_of_lt (Nat.sub_le ..) (by decide)
  have built : (Record.ofDecoder Json.decoder m c.messages
      (Wire.shown c.messages [m.longName] m bs).members).1 =
        (Record.decode Wire.decoder m c.messages bs).1 :=
    congrArg (Record.mk m c.messages) restores.back
  rw [← Wire.walk_pass_decode ids mem, ← built, payloadOfJson, Json.membersOfText,
    (restores.plain _ shallow).parse?_text]
  rfl

end Payload

variable {c : Converter} {m : Schema.Message}

theorem parse_of_load {text : String} {count : Nat} (accepted : load text = (c, .ok count)) :
    Schema.parse text = .ok c.messages := by
  rw [load] at accepted
  cases parsed : Schema.parse text with
  | error e =>
    rw [parsed] at accepted
    cases accepted
  | ok messages =>
    rw [parsed] at accepted
    cases accepted
    rfl

/-- Of a loaded specification, take a message with an identifier of its own and without
floating-point numbers. The text of the payload in the JSON of an envelope gives back the frame of
the envelope, if the payload is one that encoding a record of the message gives. -/
theorem frameOfJson_jsonOfEnvelope {text : String} {count : Nat}
    (accepted : load text = (c, .ok count)) (mem : m ∈ c.messages) (numbered : m.id ≠ 0)
    (free : c.messages.FloatFree m) (bs : Bytes) (sender : UInt32) (sampled : TimeStamp) :
    let payload :=
      ((Record.decode Wire.decoder m c.messages bs).1.walk Wire.Encoding.pass .empty).2.bytes
    let e : Envelope := { Envelope.empty with dataType := m.id, payload, sender, sampled }
    ∀ frame, e.frame = .ok frame →
      ∃ (members : Json.Members) (j : Json),
        Json.parse? (c.jsonOfEnvelope e).text.toList = some (.object members) ∧
          members.find? (memberName m) = some j ∧
          c.frameOfJson j.text m.id sender sampled = frame := by
  obtain ⟨messageIds, -, ids, names⟩ := Schema.unambiguous_of_parse (parse_of_load accepted)
  intro payload e frame framed
  have form : payload = (Wire.kept c.messages [m.longName] m bs).bytes :=
    Wire.walk_pass_decode ids mem bs
  have known : c.schema? m.id = some m := Schema.find?_reverse_id messageIds mem numbered
  have restores := Wire.restores ids names mem free [m.longName] payload
  let inner := (Wire.shown c.messages [m.longName] m payload).members
  have again : c.payloadOfJson m (Json.object inner).text = payload := by
    rw [payloadOfJson_eq ids mem restores, form, (Wire.settles ids mem [m.longName]).again]
  have json : c.jsonOfEnvelope e =
      .object ((envelopeMembers e).insert (memberName m) (.object inner)) := by
    have type : c.schema? e.dataType = some m := known
    rw [jsonOfEnvelope, type]
    simp only
    rw [payloadJson_eq ids mem restores]
  have shallow : maxLevels - [m.longName].length < 126 :=
    Nat.lt_of_le_of_lt (Nat.sub_le ..) (by decide)
  have plain : Json.Plain Json.maxNesting (c.jsonOfEnvelope e) := by
    rw [json]
    exact (plain_envelopeMembers e 125).insert _ (restores.plain _ shallow)
  refine ⟨_, .object inner, ?_, Json.Members.find?_insert_self (envelopeMembers e) _ _, ?_⟩
  · rw [plain.parse?_text, json]
  · rw [frameOfJson, known]
    simp only
    rw [again]
    simp only [e] at framed
    simp only [framed]

def linkText : String := "message p.Link [ id = 7 ] \x7b p.Link next [ id = 2 ]; int64 v [ id = 1 ]; \x7d"

def link : Schema.Message :=
  ⟨"", "p.Link", 7,
    [⟨.message, "p.Link", "next", 2, none⟩, ⟨.scalar (.int .w64), "int64", "v", 1, none⟩]⟩

theorem fields_link : link.fields =
    [⟨.message, "p.Link", "next", 2, none⟩, ⟨.scalar (.int .w64), "int64", "v", 1, none⟩] := rfl

theorem resolve?_link : Schema.Catalogue.resolve? [link] "p.Link" "" = some link := by
  decide +kernel

/-- Without bytes for another one a link in a link is only a number. -/
theorem addDecoded_link (path : List String) (bs : Bytes) (v : BitVec 64)
    (around : link.longName ∈ path)
    (absent : ((Wire.Decoding.ofBytes 0 bs).scalar 2 .bytes []).1 = [])
    (number : (((Wire.Decoding.ofBytes 0 bs).scalar 2 .bytes []).2.scalar 1 (.int .w64) 0).1 = v) :
    (Record.addDecoded Wire.decoder [link] path "" link.fields .nil (.ofBytes 0 bs)).1 =
      .scalar 1 ⟨.int .w64, v⟩ .nil := by
  rw [fields_link, Record.addDecoded_closed rfl resolve?_link around absent,
    Record.addDecoded_scalar rfl, Record.addDecoded_nil]
  exact congrArg (fun v => Entries.scalar 1 ⟨.int .w64, v⟩ .nil) number

theorem load_linkText : load linkText = (⟨[link]⟩, .ok 1) := by
  have read : Schema.parse linkText = .ok [link] := Schema.parse_of_toOption (by decide +kernel)
  rw [load, read]
  rfl

theorem floatFree_link : Schema.Catalogue.FloatFree [link] link := by
  intro inner chain
  obtain rfl : inner = link := by
    obtain rfl | ⟨outer, -, holds⟩ := Relation.ReflTransGen.cases_tail chain
    · rfl
    · exact List.mem_singleton.1 (Schema.Catalogue.mem_of_holds holds)
  decide

/-- A number in more digits than it needs, a link that holds another one, and a key without a
payload. -/
def looseLink : Bytes := [0x08, 0x8A, 0, 0x12, 4, 0x12, 0, 0x08, 2, 0x18]

theorem decode_looseLink :
    (Record.decode Wire.decoder link [link] looseLink).1 =
      ⟨link, [link], .record 2 link [link] (.scalar 1 ⟨.int .w64, 1#64⟩ .nil)
        (.scalar 1 ⟨.int .w64, 5#64⟩ .nil)⟩ := by
  have inner := addDecoded_link ["p.Link", "p.Link"] [0x12, 0, 0x08, 2] 1 (by decide)
    (by decide +kernel) (by decide +kernel)
  rw [Record.decode, Record.ofDecoder, fields_link, Record.addDecoded_built [0x12, 0, 0x08, 2] rfl
    resolve?_link (by decide) (by decide +kernel) (by decide), Record.addDecoded_scalar rfl,
    Record.addDecoded_nil]
  refine congrArg₂ (fun inner v => (⟨link, [link], .record 2 link [link] inner
    (.scalar 1 ⟨.int .w64, v⟩ .nil)⟩ : Record)) inner ?_
  decide +kernel

theorem frameOfJson_jsonOfEnvelope_link :
    load linkText = (⟨[link]⟩, .ok 1) ∧ link ∈ [link] ∧ link.id ≠ 0 ∧
      Schema.Catalogue.FloatFree [link] link ∧
      let payload :=
        ((Record.decode Wire.decoder link [link] looseLink).1.walk Wire.Encoding.pass .empty).2.bytes
      let e : Envelope :=
        { Envelope.empty with dataType := link.id, payload, sender := 3, sampled := ⟨1, 0⟩ }
      let frame : Bytes :=
        [0x0D, 0xA4, 16, 0, 0, 0x08, 14, 0x12, 6, 0x12, 2, 0x08, 2, 0x08, 10, 0x2A, 2, 0x08, 2,
          0x30, 3]
      e.frame = .ok frame ∧
        ∃ (members : Json.Members) (j : Json),
          Json.parse? (Converter.jsonOfEnvelope ⟨[link]⟩ e).text.toList = some (.object members) ∧
            members.find? "p_Link" = some j ∧
            Converter.frameOfJson ⟨[link]⟩ j.text 7 3 ⟨1, 0⟩ = frame := by
  have mem : link ∈ [link] := List.mem_singleton.2 rfl
  have numbered : link.id ≠ 0 := by decide
  have normal :
      ((Record.decode Wire.decoder link [link] looseLink).1.walk Wire.Encoding.pass .empty).2.bytes =
        [0x12, 2, 0x08, 2, 0x08, 10] := by
    rw [decode_looseLink]
    decide +kernel
  have framed : { Envelope.empty with
        dataType := link.id, payload := [0x12, 2, 0x08, 2, 0x08, 10], sender := 3,
        sampled := ⟨1, 0⟩ }.frame =
      .ok [0x0D, 0xA4, 16, 0, 0, 0x08, 14, 0x12, 6, 0x12, 2, 0x08, 2, 0x08, 10, 0x2A, 2, 0x08, 2,
        0x30, 3] := Envelope.frame_eq_ok.2 (by decide +kernel)
  have rebuilt := frameOfJson_jsonOfEnvelope load_linkText mem numbered floatFree_link looseLink 3
    ⟨1, 0⟩
  have name : memberName link = "p_Link" := by decide +kernel
  rw [name] at rebuilt
  dsimp only at rebuilt ⊢
  rw [normal] at rebuilt ⊢
  exact ⟨load_linkText, mem, numbered, floatFree_link, framed, rebuilt _ framed⟩

end Converter

end MessageCodec
