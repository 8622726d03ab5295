import MessageCodec.Envelope.Registry
import MessageCodec.Proofs.Envelope.Rebuild

/-! Converters that are given one specification after another. What was loaded before a
specification leaves no trace. Under an identifier that one message has this message is found, under
one that no message has none; only the identifier zero can belong to several messages, and of these
the last one is found. -/

namespace MessageCodec

/-- In a clean specification an identifier other than zero has at most one message. -/
theorem Schema.length_filter_id_le_one {ms : List Schema.Message}
    (ids : ((ms.map (·.id)).filter (· ≠ 0)).Nodup) {k : Int32} (numbered : k ≠ 0) :
    (ms.filter (·.id == k)).length ≤ 1 :=
  calc (ms.filter (·.id == k)).length
      = ms.countP (·.id == k) := List.countP_eq_length_filter.symm
    _ = (ms.map (·.id)).count k := by rw [List.count, List.countP_map]; rfl
    _ = ((ms.map (·.id)).filter (· ≠ 0)).count k :=
        (List.count_filter (by simpa using numbered)).symm
    _ ≤ 1 := List.nodup_iff_count_le_one.1 ids k

namespace Registry

def named (r : Registry) (k : Int32) : List Schema.Message := r.messages.filter (·.id == k)

theorem index_append (ms : Schema.Catalogue) (m : Schema.Message) :
    index (ms ++ [m]) = (m.id, ms.length) :: index ms := by
  simp [index, List.zipIdx_append]

theorem lt_length_of_lookup_index {ms : Schema.Catalogue} {k : Int32} {i : Nat}
    (found : (index ms).lookup k = some i) : i < ms.length := by
  induction ms using List.reverseRecOn with
  | nil => cases found
  | append_singleton ms m ih =>
    rw [index_append, List.lookup_cons] at found
    rw [List.length_append]
    cases own : k == m.id with
    | true =>
      rw [own] at found
      cases found
      exact Nat.lt_succ_self _
    | false =>
      rw [own] at found
      exact Nat.lt_succ_of_lt (ih found)

/-- Under an identifier the index leads to the last message that has it. -/
theorem lookup_index (ms : Schema.Catalogue) (k : Int32) :
    ((index ms).lookup k).bind (ms[·]?) = ms.reverse.find? (·.id == k) := by
  induction ms using List.reverseRecOn with
  | nil => rfl
  | append_singleton ms m ih =>
    rw [index_append, List.lookup_cons, List.reverse_concat, List.find?_cons, BEq.comm]
    cases m.id == k with
    | true => exact List.getElem?_concat_length
    | false =>
      refine Eq.trans (Option.bind_congr fun i found => ?_) ih
      exact List.getElem?_append_left (lt_length_of_lookup_index found)

/-- What holds between specifications: the messages are free of conflicts, and the table is their
index. -/
structure Settled (r : Registry) : Prop where
  unambiguous : Schema.Unambiguous r.messages
  positions : r.positions = index r.messages

theorem settled_empty : empty.Settled := ⟨Schema.unambiguous_nil, rfl⟩

/-- What a specification leaves does not depend on what was there. -/
theorem load_eq (r : Registry) (text : String) : r.load text = empty.load text := rfl

theorem settled_load (r : Registry) (text : String) : (r.load text).1.Settled := by
  rw [load]
  cases parsed : Schema.parse text with
  | error e => exact settled_empty
  | ok ms => exact ⟨Schema.unambiguous_of_parse parsed, rfl⟩

theorem run_append (r : Registry) (texts : List String) (text : String) :
    r.run (texts ++ [text]) = ((r.run texts).load text).1 := List.foldl_append

theorem settled_run {r : Registry} (settled : r.Settled) (texts : List String) :
    (r.run texts).Settled := by
  induction texts generalizing r with
  | nil => exact settled
  | cons text texts ih => exact ih (settled_load r text)

theorem converter_load (r : Registry) (text : String) :
    (r.load text).1.converter = (Converter.load text).1 ∧
      (r.load text).2 = (Converter.load text).2 := by
  rw [load, Converter.load]
  cases Schema.parse text <;> exact ⟨rfl, rfl⟩

namespace Settled

variable {r : Registry} (settled : r.Settled)
include settled

theorem schema?_eq (k : Int32) : r.schema? k = r.converter.schema? k := by
  rw [schema?, settled.positions, lookup_index]
  rfl

theorem schema?_eq_getLast? (k : Int32) : r.schema? k = (r.named k).getLast? := by
  rw [settled.schema?_eq, named, List.getLast?_filter]
  rfl

theorem length_named_le_one {k : Int32} (numbered : k ≠ 0) : (r.named k).length ≤ 1 :=
  Schema.length_filter_id_le_one settled.unambiguous.ids numbered

theorem jsonOfEnvelope_eq (e : Envelope) :
    r.jsonOfEnvelope e = r.converter.jsonOfEnvelope e := by
  rw [jsonOfEnvelope, settled.schema?_eq]
  rfl

theorem frameOfJson_eq (json : String) (id : Int32) (sender : UInt32) (sampled : TimeStamp) :
    r.frameOfJson json id sender sampled = r.converter.frameOfJson json id sender sampled := by
  rw [frameOfJson, settled.schema?_eq]
  rfl

theorem jsonOfBytes_eq (bs : Bytes) :
    r.jsonOfBytes bs = r.converter.jsonOfBytes bs ∧
      r.jsonOfBytes bs = r.jsonOfEnvelope (.ofBytes bs) := by
  refine ⟨by rw [jsonOfBytes, settled.jsonOfEnvelope_eq]; rfl, ?_⟩
  rw [jsonOfBytes]
  split
  · rename_i none
    rw [jsonOfEnvelope, settled.schema?_eq_getLast?, named, List.isEmpty_iff.1 none]
    rfl
  · rfl

end Settled

/-- Only the last one of several specifications counts: what is left is what a converter holds that
was given no other, and an empty one if it was refused. The answers are those of that converter. A
message is used for an identifier just when one has it. Several can only have the identifier zero,
and then the last one of them is used. -/
theorem answers_run (texts : List String) :
    let r : Registry := empty.run texts
    (∀ earlier text, texts = earlier ++ [text] →
      r = (empty.load text).1 ∧ r.converter = (Converter.load text).1 ∧
        ∀ e, Schema.parse text = .error e → r = empty) ∧
    (∀ text, (r.load text).2 = (Converter.load text).2) ∧
    (∀ bs, r.jsonOfBytes bs = r.converter.jsonOfBytes bs ∧
      r.jsonOfBytes bs = r.jsonOfEnvelope (.ofBytes bs)) ∧
    ∀ (e : Envelope) (json : String) (sender : UInt32) (sampled : TimeStamp),
      let k := e.dataType
      (r.jsonOfEnvelope e = r.converter.jsonOfEnvelope e ∧
        r.frameOfJson json k sender sampled = r.converter.frameOfJson json k sender sampled) ∧
      (k ≠ 0 → (r.named k).length ≤ 1) ∧
      (r.named k = [] →
        (r.jsonOfEnvelope e).text = "\x7b\x7d" ∧ r.frameOfJson json k sender sampled = []) ∧
      ∀ earlier m, r.named k = earlier ++ [m] →
        r.jsonOfEnvelope e = r.converter.objectOf m e ∧
          r.frameOfJson json k sender sampled = r.converter.frameOf m json k sender sampled := by
  intro r
  have settled : r.Settled := settled_run settled_empty texts
  have known (e : Envelope) (m? : Option Schema.Message)
      (found : (r.named e.dataType).getLast? = m?) : r.schema? e.dataType = m? :=
    (settled.schema?_eq_getLast? _).trans found
  refine ⟨fun earlier text split => ?_, fun text => (converter_load r text).2,
    settled.jsonOfBytes_eq, fun e json sender sampled => ⟨⟨settled.jsonOfEnvelope_eq e,
      settled.frameOfJson_eq ..⟩, settled.length_named_le_one, fun absent => ?_,
      fun earlier m present => ?_⟩⟩
  · have last : r = (empty.load text).1 := by
      rw [← load_eq (empty.run earlier), ← run_append, ← split]
    refine ⟨last, last ▸ (converter_load empty text).1, fun e refused => ?_⟩
    rw [last, load, refused]
    rfl
  · have unknown := known e none (by rw [absent]; rfl)
    rw [jsonOfEnvelope, frameOfJson, unknown]
    exact ⟨rfl, rfl⟩
  · have found := known e (some m) (by rw [present, List.getLast?_concat])
    rw [jsonOfEnvelope, frameOfJson, found]
    exact ⟨rfl, rfl⟩

/-- A specification with two messages without identifiers. -/
def pairText : String :=
  "message A \x7b uint8 a [ id = 1 ]; \x7d message B \x7b uint8 b [ id = 1 ]; \x7d"

def unnumbered (name field : String) : Schema.Message :=
  ⟨"", name, 0, [⟨.scalar (.uint .w8), "uint8", field, 1, none⟩]⟩

def pair : Registry := ⟨[unnumbered "A" "a", unnumbered "B" "b"], [(0, 1), (0, 0)]⟩

theorem load_pairText (r : Registry) : (r.load pairText).1 = pair := by
  have read : Schema.parse pairText = .ok pair.messages :=
    Schema.parse_of_toOption (by decide +kernel)
  rw [load, read]
  rfl

theorem jsonOfEnvelope_pair :
    pair.jsonOfEnvelope .empty = .object [("dataType", .number (.integer 0)),
      ("sent", TimeStamp.zero.json), ("received", TimeStamp.zero.json),
      ("sampleTimeStamp", TimeStamp.zero.json), ("senderStamp", .number (.integer 0)),
      ("B", .object [("b", .number (.integer 0))])] :=
  congrArg (fun payload => Json.object ((Converter.envelopeMembers .empty).insert "B" payload))
    (pair.converter.payloadJson_of_byte [] 0 rfl (by decide +kernel))

theorem payloadOfJson_pair :
    pair.converter.payloadOfJson (unnumbered "B" "b") "\x7b\x7d" = [] := by
  have read : (Record.ofDecoder Json.decoder (unnumbered "B" "b") pair.messages
      (Json.membersOfText "\x7b\x7d")).1 =
        ⟨unnumbered "B" "b", pair.messages, .scalar 1 ⟨.uint .w8, 0#8⟩ .nil⟩ := by
    refine (Record.ofDecoder_of_scalar rfl rfl).trans ?_
    refine congrArg (fun v => Record.mk _ _ (.scalar 1 ⟨.uint .w8, v⟩ .nil)) ?_
    decide +kernel
  have walked := congrArg (fun r => (r.walk Wire.Encoding.pass .empty).2.bytes) read
  exact walked.trans (by decide +kernel)

theorem answers_run_link :
    let r := empty.run [pairText, "message", Converter.linkText]
    let e : Envelope := { Envelope.empty with dataType := 7, payload := [0x08, 2] }
    (e.dataType ≠ 0 ∧ (r.named 7).length ≤ 1) ∧
      (r.named 7 = [] ++ [Converter.link] ∧
        r.jsonOfEnvelope e = Converter.objectOf ⟨[Converter.link]⟩ Converter.link e) ∧
      (r.named 0 = [] ∧ (r.jsonOfEnvelope .empty).text = "\x7b\x7d" ∧
        r.frameOfJson "\x7b\x7d" 0 3 ⟨1, 0⟩ = []) ∧
      (Schema.parse "message").toOption = none ∧ empty.run [pairText, "message"] = empty := by
  intro r e
  obtain ⟨left, -, -, answers⟩ := answers_run [pairText, "message", Converter.linkText]
  obtain ⟨-, same, -⟩ := left [pairText, "message"] Converter.linkText rfl
  rw [Converter.load_linkText] at same
  have messages : r.messages = [Converter.link] := congrArg Converter.messages same
  rw [same] at answers
  have seven : r.named 7 = [] ++ [Converter.link] := by
    rw [named, messages]
    rfl
  have zero : r.named 0 = [] := by
    rw [named, messages]
    rfl
  have refused : (Schema.parse "message").toOption = none := by decide +kernel
  have emptied : empty.run [pairText, "message"] = empty := by
    cases parsed : Schema.parse "message" with
    | ok ms => simp [parsed, Except.toOption] at refused
    | error fault =>
      obtain ⟨-, -, left⟩ := (answers_run [pairText, "message"]).1 [pairText] "message" rfl
      exact left fault parsed
  obtain ⟨-, few, -, used⟩ := answers e "\x7b\x7d" 3 ⟨1, 0⟩
  obtain ⟨-, -, unused, -⟩ := answers .empty "\x7b\x7d" 3 ⟨1, 0⟩
  exact ⟨⟨by decide, few (by decide)⟩, ⟨seven, (used [] Converter.link seven).1⟩,
    ⟨zero, unused zero⟩, refused, emptied⟩

/-- Of two messages without identifiers the second one is used for an envelope without a data type,
and so for bytes that hold no envelope. -/
theorem answers_run_pair :
    let r := empty.run [pairText]
    (r.named 0).length = 2 ∧ r.schema? 0 = some (unnumbered "B" "b") ∧
      (r.jsonOfEnvelope .empty).text ≠ "\x7b\x7d" ∧ (r.jsonOfBytes [0xFF]).text ≠ "\x7b\x7d" ∧
      r.frameOfJson "\x7b\x7d" 0 0 ⟨0, 0⟩ = [0x0D, 0xA4, 0, 0, 0] := by
  have loaded : empty.run [pairText] = pair := load_pairText empty
  have nothing : Envelope.ofBytes [0xFF] = .empty := by decide +kernel
  have framed : { Envelope.empty with
        dataType := 0, payload := [], sampled := ⟨0, 0⟩, sender := 0 }.frame =
      .ok [0x0D, 0xA4, 0, 0, 0] := Envelope.frame_eq_ok.2 (by decide +kernel)
  rw [loaded]
  refine ⟨rfl, rfl, ?_, ?_, ?_⟩
  · rw [jsonOfEnvelope_pair]
    decide +kernel
  · rw [jsonOfBytes, if_neg (by decide), nothing, jsonOfEnvelope_pair]
    decide +kernel
  · have found : pair.schema? 0 = some (unnumbered "B" "b") := rfl
    rw [frameOfJson, found]
    simp only [Converter.frameOf, payloadOfJson_pair]
    simp only [framed]

end Registry

end MessageCodec
