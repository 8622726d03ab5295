import MessageCodec.Proofs.Envelope.Registry
import MessageCodec.Proofs.Record.Conforming

/-! The members of the object of an envelope. The payload stands under the name of its message,
behind the fields of the envelope. A message with the name of one of these fields takes its place;
under every other name the object has all of them, and the payload, and nothing else. -/

namespace MessageCodec

namespace Schema

/-- A name without dots and underscores is the underscored form of itself only. -/
theorem underscored_eq_iff {name word : String}
    (plain : ∀ c ∈ word.toList, c ≠ '.' ∧ c ≠ '_') : underscored name = word ↔ name = word := by
  have same (cs : List Char) (undotted : '.' ∉ cs) :
      cs.map (fun c => if c = '.' then '_' else c) = cs :=
    (List.map_congr_left fun c mem => if_neg (ne_of_mem_of_not_mem mem undotted)).trans
      (List.map_id cs)
  constructor
  · rintro rfl
    have undotted : '.' ∉ name.toList := by
      intro mem
      refine (plain '_' ?_).2 rfl
      rw [underscored, String.toList_ofList]
      exact List.mem_map.2 ⟨'.', mem, rfl⟩
    rw [underscored, same _ undotted, String.ofList_toList]
  · rintro rfl
    rw [underscored, same _ fun mem => (plain '.' mem).1 rfl, String.ofList_toList]

end Schema

namespace Json.Members

variable {members : Members} {name other : String}

theorem find?_insert_of_ne (different : other ≠ name) (item : Json) :
    (members.insert name item).find? other = members.find? other := by
  induction members with
  | nil => simp [insert, find?, different]
  | cons member members ih =>
    rw [insert]
    split
    · rename_i same
      subst same
      rw [find?, find?, List.lookup_cons, List.lookup_cons, beq_false_of_ne different]
    · rw [find?, find?, List.lookup_cons, List.lookup_cons]
      cases other == member.1 with
      | true => rfl
      | false => exact ih

/-- A member is added behind the others just when none of them has its name. -/
theorem insert_eq_concat_iff (item : Json) :
    members.insert name item = members ++ [(name, item)] ↔ name ∉ members.map Prod.fst := by
  refine ⟨fun added known => ?_, fun new => insert_of_new new item⟩
  have names := map_fst_insert_of_mem known item
  rw [added, List.map_append] at names
  simpa using congrArg List.length names

end Json.Members

namespace Record

/-- No two fields of a nested message have one name. -/
def namedApart : Schema.Suiting := fun _ _ inner _ => (inner.fields.map (·.name)).Nodup

theorem distinctNames_content {entries : Entries} {m : Schema.Message}
    (conform : entries.Conform namedApart m) {i : UInt32} {shown : Message}
    (held : entries.content? i = some (.message shown)) : shown.fields.DistinctNames := by
  induction entries generalizing m i shown with
  | nil => cases held
  | scalar id s rest ih =>
    rw [Entries.content?] at held
    split at held
    · cases held
    · exact ih conform.2.2 held
  | record id schema catalogue inner rest ihInner ih =>
    obtain ⟨⟨f, -, -, suited⟩, ⟨-, inside⟩, -, behind⟩ := conform
    rw [Entries.content?] at held
    split at held
    · cases held
      exact Fields.named_arrange (suited _ rfl) fun f _ _ nested => ihInner inside nested
    · exact ih behind held

/-- Where the fields of every schema have names of their own, so have those that are shown. -/
theorem distinctNames_view {r : Record} (conforms : r.ConformsWith namedApart)
    (names : (r.schema.fields.map (·.name)).Nodup) : r.view.fields.DistinctNames :=
  Fields.named_arrange names fun _ _ _ held => distinctNames_content conforms.2 held

end Record

namespace Converter

variable {c : Converter} {m : Schema.Message}

def payload (c : Converter) (m : Schema.Message) (bs : Bytes) : Message :=
  (Record.decode Wire.decoder m c.messages bs).1.view

/-- A payload becomes an object with a member for each field of the message it is read as. -/
theorem payloadJson_eq_members (clean : Schema.Unambiguous c.messages) (mem : m ∈ c.messages)
    (bs : Bytes) : c.payloadJson m bs = .object (c.payload m bs).fields.members := by
  have conforms : (Record.decode Wire.decoder m c.messages bs).1.ConformsWith Record.namedApart :=
    Record.conforms_ofDecoder clean.fieldIds
      (fun inside => clean.fieldNames _ (Schema.Catalogue.mem_of_holds inside.holds))
      (clean.fieldIds m mem) _
  have named : (c.payload m bs).fields.DistinctNames :=
    Record.distinctNames_view conforms (clean.fieldNames m mem)
  have walked := congrArg Prod.snd
    (Record.walk_view Json.Encoding.pass conforms.distinct (.empty []))
  have members := Json.Encoding.walk_pass (e := .empty []) named rfl named.nodup_names
  exact (congrArg Json.Encoding.value walked).symm.trans (congrArg Json.object members)

theorem load_of_parse {text : String} {ms : Schema.Catalogue} (accepted : Schema.parse text = .ok ms) :
    (load text).1 = ⟨ms⟩ := by
  rw [load, accepted]

theorem schema?_of_named {ms earlier : Schema.Catalogue} {k : Int32}
    (named : ms.filter (·.id == k) = earlier ++ [m]) : (Converter.mk ms).schema? k = some m := by
  have last := congrArg List.getLast? named
  rw [List.getLast?_concat, List.getLast?_filter] at last
  exact last

/-- Take an envelope for a message of a specification, which is the last one with the data type of
the envelope, and the only one if that is not zero. The object of the envelope has the values of
the envelope, without the bytes of its payload, and behind them the payload as a message, just when
that message does not have the name of a field of the envelope. If it does, the payload is found in
place of that field. -/
theorem jsonOfEnvelope_members {text : String} {ms : Schema.Catalogue}
    (accepted : Schema.parse text = .ok ms) {e : Envelope} (known : ∃ m ∈ ms, m.id = e.dataType) :
    ∃ earlier m, ms.filter (·.id == e.dataType) = earlier ++ [m] ∧
      (e.dataType ≠ 0 → earlier = []) ∧
      let c : Converter := (load text).1
      let payload : Json := .object (c.payload m e.payload).fields.members
      let own : Json.Members :=
        [("dataType", .number (.integer e.dataType.toInt)), ("sent", e.sent.json),
          ("received", e.received.json), ("sampleTimeStamp", e.sampled.json),
          ("senderStamp", .number (.integer e.sender.toNat))]
      ∃ members : Json.Members, c.jsonOfEnvelope e = .object members ∧ (members.map Prod.fst).Nodup ∧
        members.find? (Schema.underscored m.name) = some payload ∧
        members.find? "serializedData" =
          (if m.name = "serializedData" then some payload else none) ∧
        (m.name ∉ own.map Prod.fst ↔
          members = own ++ [(Schema.underscored m.name, payload)]) ∧
        (m.name ∈ own.map Prod.fst → members.map Prod.fst = own.map Prod.fst ∧
          ∀ name, name ≠ m.name → members.find? name = own.find? name) := by
  have clean := Schema.unambiguous_of_parse accepted
  have present : ms.filter (·.id == e.dataType) ≠ [] := by
    obtain ⟨m, mem, id⟩ := known
    exact List.ne_nil_of_mem (List.mem_filter.2 ⟨mem, beq_iff_eq.2 id⟩)
  obtain ⟨earlier, m, named⟩ := (List.eq_nil_or_concat' _).resolve_left present
  have listed : m ∈ ms.filter (·.id == e.dataType) := by simp [named]
  have mem : m ∈ ms := (List.mem_filter.1 listed).1
  refine ⟨earlier, m, named, fun numbered => ?_, ?_⟩
  · have few := Schema.length_filter_id_le_one clean.ids numbered
    rw [named, List.length_append, List.length_singleton] at few
    exact List.length_eq_zero_iff.1 (by omega)
  intro c payload own
  have loaded : c = ⟨ms⟩ := load_of_parse accepted
  have value : c.payloadJson m e.payload = payload :=
    payloadJson_eq_members (by rwa [loaded]) (by rwa [loaded]) e.payload
  have object : c.jsonOfEnvelope e = .object (own.insert (memberName m) payload) := by
    have found : c.schema? e.dataType = some m := by rw [loaded, schema?_of_named named]
    rw [jsonOfEnvelope, found]
    simp only [value]
    rfl
  have plain : ∀ word ∈ own.map Prod.fst ++ ["serializedData"],
      ∀ c ∈ word.toList, c ≠ '.' ∧ c ≠ '_' := by
    simp [own]
  have name_eq_iff (word : String) (mem : word ∈ own.map Prod.fst ++ ["serializedData"]) :
      memberName m = word ↔ m.name = word := Schema.underscored_eq_iff (plain word mem)
  have taken : memberName m ∈ own.map Prod.fst ↔ m.name ∈ own.map Prod.fst := by
    constructor <;> intro mem
    · rwa [(name_eq_iff _ (List.mem_append_left _ mem)).1 rfl]
    · rwa [(name_eq_iff _ (List.mem_append_left _ mem)).2 rfl]
  refine ⟨_, object, Json.Members.nodup_insert (by simp [own]) _ _,
    Json.Members.find?_insert_self .., ?_, ?_, fun known => ⟨?_, fun name other => ?_⟩⟩
  · have raw := name_eq_iff "serializedData" (by simp)
    split
    · rename_i same
      rw [← raw.2 same]
      exact Json.Members.find?_insert_self ..
    · rename_i other
      rw [Json.Members.find?_insert_of_ne (Ne.symm (mt raw.1 other))]
      exact Json.Members.find?_of_not_mem (by simp [own])
  · exact (taken.not.symm.trans (Json.Members.insert_eq_concat_iff _).symm)
  · exact Json.Members.map_fst_insert_of_mem (taken.2 known) _
  · refine Json.Members.find?_insert_of_ne ?_ _
    rwa [(name_eq_iff _ (List.mem_append_left _ known)).2 rfl]

/-- The payload of a link is found behind the fields of its envelope. -/
theorem jsonOfEnvelope_members_link :
    let e : Envelope := ⟨7, [0x08, 10], .zero, .zero, ⟨1, 0⟩, 3⟩
    Schema.parse linkText = .ok [link] ∧ (∃ m ∈ [link], m.id = e.dataType) ∧
      (load linkText).1.jsonOfEnvelope e =
        .object [("dataType", .number (.integer 7)), ("sent", TimeStamp.zero.json),
          ("received", TimeStamp.zero.json), ("sampleTimeStamp", TimeStamp.json ⟨1, 0⟩),
          ("senderStamp", .number (.integer 3)), ("p_Link", .object [("v", .number (.integer 5))])] := by
  intro e
  have accepted : Schema.parse linkText = .ok [link] := parse_of_load load_linkText
  have known : ∃ m ∈ [link], m.id = e.dataType := ⟨link, List.mem_singleton_self _, rfl⟩
  obtain ⟨earlier, m, named, -, members, object, -, -, -, whole, -⟩ :=
    jsonOfEnvelope_members accepted known
  obtain ⟨-, rfl⟩ : link.id = e.dataType ∧ link = m := by
    simpa using congrArg List.getLast? named
  have read : (Record.decode Wire.decoder link [link] [0x08, 10]).1 =
      ⟨link, [link], .scalar 1 ⟨.int .w64, 5#64⟩ .nil⟩ :=
    congrArg (Record.mk link [link])
      (addDecoded_link ["p.Link"] [0x08, 10] 5 (by decide) (by decide +kernel) (by decide +kernel))
  have fields : ((Converter.mk [link]).payload link [0x08, 10]).fields.members =
      [("v", .number (.integer 5))] := congrArg (fun r => r.view.fields.members) read
  have name : Schema.underscored link.name = "p_Link" := by decide +kernel
  rw [load_of_parse accepted, fields, name] at whole
  rw [whole.1 (by decide)] at object
  exact ⟨accepted, known, object⟩

/-- A message with the name of a field of the envelope. -/
def dataTypeText : String := "message dataType [ id = 5 ] \x7b uint8 v [ id = 1 ]; \x7d"

/-- Its payload takes the place of the data type. -/
theorem jsonOfEnvelope_dataType :
    (Schema.parse dataTypeText).toOption.map (·.map (·.id)) = some [5] ∧
      (load dataTypeText).1.jsonOfEnvelope ⟨5, [0x08, 7], .zero, .zero, .zero, 0⟩ =
        .object [("dataType", .object [("v", .number (.integer 7))]),
          ("sent", TimeStamp.zero.json), ("received", TimeStamp.zero.json),
          ("sampleTimeStamp", TimeStamp.zero.json), ("senderStamp", .number (.integer 0))] := by
  have read : Schema.parse dataTypeText =
      .ok [⟨"", "dataType", 5, [⟨.scalar (.uint .w8), "uint8", "v", 1, none⟩]⟩] :=
    Schema.parse_of_toOption (by decide +kernel)
  rw [load_of_parse read, read]
  refine ⟨rfl, ?_⟩
  exact congrArg (fun payload => Json.object ((envelopeMembers .empty).insert "dataType" payload))
    (payloadJson_of_byte _ [0x08, 7] 7 rfl (by decide +kernel))

end Converter

end MessageCodec
