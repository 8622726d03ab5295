import MessageCodec.Proofs.Declarations.Shape
import MessageCodec.Proofs.Record.Copy
import MessageCodec.Proofs.Wire.Normal
import MessageCodec.Proofs.Wire.Records
import MessageCodec.Proofs.Wire.RoundTrip

/-! Specifications made from messages of static types. Such a specification is accepted, and the
binary form of the message is read against it as the message itself would read it. -/

namespace MessageCodec

namespace Fields

theorem zeroed_narrowed (fs : Fields) : fs.narrowed.zeroed = fs.zeroed := by
  induction fs with
  | nil => rfl
  | scalar tag s rest ih =>
    have type : s.narrowed.type = s.type := by
      rw [Scalar.narrowed_eq]
      split <;> rfl
    rw [narrowed, zeroed, zeroed, type, ih]
  | nested tag header inner rest ihInner ih => rw [narrowed, zeroed, zeroed, ihInner, ih]

theorem table_of_matches {a b : Fields} (same : a.Matches b) : a.table = b.table := by
  induction a generalizing b with
  | nil =>
    cases b with
    | nil => rfl
    | _ => cases same
  | scalar tag s rest ih =>
    cases b with
    | scalar tag' s' rest' =>
      obtain ⟨id, rfl, same⟩ := same
      rw [table, table, id, ih same]
    | _ => cases same
  | nested tag header inner rest ihInner ih =>
    cases b with
    | nested tag' header' inner' rest' =>
      obtain ⟨id, sameInner, same⟩ := same
      rw [table, table, id, ihInner sameInner, ih same]
    | _ => cases same

theorem table_narrowed (fs : Fields) : fs.narrowed.table = fs.table := by
  induction fs with
  | nil => rfl
  | scalar tag s rest ih =>
    have payload : Wire.Payload.ofField? s.narrowed = Wire.Payload.ofField? s := by
      rw [← Wire.Payload.ofField?_carried s, Scalar.narrowed_eq]
      split <;> rfl
    rw [narrowed, table, table, payload, ih]
  | nested tag header inner rest ihInner ih => rw [narrowed, table, table, ihInner, ih]

end Fields

theorem Wire.encode_view {r : Record} (distinct : r.Distinct) :
    (r.walk Encoding.pass .empty).2.bytes = encode r.view :=
  congrArg (fun walked => walked.2.bytes) (r.walk_view Encoding.pass distinct .empty).symm

namespace Message

/-- A message of static types with names that a specification can state. Each long name stands for
one identifier and one list of fields; the fields of a message have names, identifiers from one on,
none of them twice; and the label of a nested message is its long name, with dots or with double
colons between the segments. -/
structure Typed (m : Message) : Prop where
  dotted : ∀ p ∈ m.parts, Schema.IsDotted p.header.longName
  named : ∀ p ∈ m.parts, ScalarType.ofToken? p.header.longName = none
  uniform : ∀ p ∈ m.parts, ∀ q ∈ m.parts, p.header.longName = q.header.longName →
    p.header.id = q.header.id ∧ p.fields.listed = q.fields.listed
  positive : ∀ p ∈ m.parts, 0 < p.header.id
  apart : ∀ p ∈ m.parts, ∀ q ∈ m.parts, p.header.longName ≠ q.header.longName →
    p.header.id ≠ q.header.id
  fieldIds : ∀ p ∈ m.parts, (p.fields.listed.map (·.id)).Nodup
  fieldNames : ∀ p ∈ m.parts, (p.fields.listed.map (·.name)).Nodup
  counted : ∀ p ∈ m.parts, ∀ f ∈ p.fields.listed, 1 ≤ f.id
  words : ∀ p ∈ m.parts, ∀ f ∈ p.fields.listed, Schema.IsWord f.name.toList
  labels : ∀ p ∈ m.parts, ∀ x ∈ p.fields.held, Declarations.dotted x.1.label = x.2.header.longName

namespace Typed

variable {m p : Message}

theorem declaredAlike (typed : m.Typed) : m.Uniform := by
  intro p hp q hq same
  obtain ⟨id, fields⟩ := typed.uniform p hp q hq same
  rw [declaration, declaration, same, id, fields]

theorem labelled (typed : m.Typed) : m.Labelled := by
  intro p hp q hq _ x hx y hy same
  rw [← typed.labels p hp x hx, ← typed.labels q hq y hy, same]

theorem written (typed : m.Typed) : ∀ p ∈ m.parts, p.declaration.Written := by
  intro p part
  refine Declarations.written_declaration (typed.dotted p part)
    (Int32.le_of_lt (typed.positive p part)) (fun f listed => ?_) fun x held => ?_
  · refine ⟨typed.words p part f listed, fun zero => ?_⟩
    have counted := typed.counted p part f listed
    rw [zero] at counted
    exact absurd counted (by decide)
  · have part' := held_mem_parts part held
    rw [typed.labels p part x held]
    exact ⟨typed.dotted x.2 part', typed.named x.2 part'⟩

theorem unambiguous (typed : m.Typed) : Schema.Unambiguous m.declarations := by
  refine unambiguous_declarations typed.declaredAlike typed.labelled (fun p hp q hq _ id => ?_)
    typed.fieldIds typed.fieldNames
  by_contra other
  exact typed.apart p hp q hq other id

theorem resolvedBy (typed : m.Typed) : m.fields.ResolvedBy m.declarations := by
  have names := names_nodup typed.declaredAlike typed.labelled
  have resolves : ∀ p ∈ m.parts, ∀ x ∈ p.fields.held,
      Schema.Catalogue.resolve? m.declarations (Declarations.dotted x.1.label) "" =
        some x.2.declaration := by
    intro p part x held
    rw [typed.labels p part x held, ← longName_declaration]
    exact Schema.Catalogue.resolve?_of_mem names (declaration_mem (held_mem_parts part held)) ""
  exact Fields.resolvedBy_of_parts resolves fun x held =>
    ⟨held_mem_parts m.self_mem_parts held, resolves m m.self_mem_parts x held⟩

theorem distinct (typed : m.Typed) : m.fields.Distinct := by
  have ids : ∀ p ∈ m.parts, p.fields.ids.Nodup := by
    intro p part
    rw [← Fields.ids_listed]
    exact typed.fieldIds p part
  exact Fields.distinct_of_inner (ids m m.self_mem_parts) fun p inside =>
    ids p (List.mem_append_left _ inside)

theorem longName_ne (typed : m.Typed) (part : p ∈ m.parts) :
    ∀ q ∈ p.fields.inner, q.header.longName ≠ p.header.longName :=
  fun _ nested => longName_ne_of_mem_inner typed.declaredAlike typed.labelled part nested

theorem matches_ofSchema (typed : m.Typed) :
    m.fields.zeroed.Matches (Record.ofSchema m.declaration m.declarations).view.fields := by
  refine Record.matches_ofSchema typed.resolvedBy typed.distinct ?_
    (typed.longName_ne m.self_mem_parts)
  exact Fields.unrepeated_of_inner fun p inside =>
    typed.longName_ne (List.mem_append_left _ inside)

end Typed

end Message

open Wire (decoder encode)

/-- The specification made from a message of static types is accepted. With the schema that it
declares for the message, a record is read from the binary form of the message, and nothing is
passed over; the record has the same binary form, and copying it into a message of this type gives
the message back, up to negative zeros and characters above U+00FF. A length prefix has 64 bits, so
the binary form has to be shorter than 2^64 bytes. -/
theorem decode_specification {m : Message} (typed : m.Typed) (levels : m.levels ≤ maxLevels)
    (fits : (encode m).length < UInt64.size) :
    Schema.parse m.specification = .ok m.declarations ∧
      Schema.Catalogue.find? m.declarations m.header.longName = some m.declaration ∧
      let read := Record.decode decoder m.declaration m.declarations (encode m)
      read.2.diagnostics.isClean ∧
        (read.1.walk Wire.Encoding.pass .empty).2.bytes = encode m ∧
        ∀ target : Message, target.zeroed = m.zeroed →
          read.1.copyInto target = ⟨m.header, m.fields.narrowed⟩ := by
  have clean := typed.unambiguous
  have mem := Message.declaration_mem m.self_mem_parts
  have accepted : Schema.parse m.specification = .ok m.declarations :=
    Schema.parse_of_unambiguous (Message.declares_specification typed.written) clean
  have found := Schema.Catalogue.find?_of_mem clean.names mem
  rw [Message.longName_declaration] at found
  have nests := (Message.nestsWithin_declaration typed.resolvedBy).mono levels
  obtain ⟨values, counts⟩ :=
    Wire.decode_of_matches clean mem nests (encode m) typed.matches_ofSchema
  obtain ⟨narrowed, none⟩ := Wire.walk_zeroed typed.distinct levels fits
  rw [narrowed] at values
  rw [none] at counts
  have distinct : (Record.decode decoder m.declaration m.declarations (encode m)).1.Distinct :=
    Record.distinct_ofDecoder clean.fieldIds mem _
  refine ⟨accepted, found, decide_eq_true counts.symm, ?_, fun target shape => ?_⟩
  · rw [Wire.encode_view distinct, Wire.encode_eq, ← Fields.table_of_matches values,
      Fields.table_narrowed, ← Wire.encode_eq]
  · refine Record.copyInto_of_matches (m := ⟨m.header, m.fields.narrowed⟩) values ?_
    rw [shape, Message.zeroed, Message.zeroed, Fields.zeroed_narrowed]

/-- A message with two places of one type, which come under different labels. -/
def route : Message :=
  ⟨⟨1030, "Route", "demo.Route"⟩,
    .nested ⟨1, "demo::Place", "start"⟩ ⟨7, "Place", "demo.Place"⟩
      (.scalar ⟨1, "double", "x"⟩ ⟨.double, 0x8000000000000000⟩ <|
        .scalar ⟨4, "char", "row"⟩ ⟨.char, 'Ā'⟩ .nil) <|
      .scalar ⟨9, "string", "note"⟩ ⟨.string, "lane 2"⟩ <|
        .nested ⟨2, "demo.Place", "stop"⟩ ⟨7, "Place", "demo.Place"⟩
          (.scalar ⟨1, "double", "x"⟩ ⟨.double, 0x3FF8000000000000⟩ <|
            .scalar ⟨4, "char", "row"⟩ ⟨.char, 'b'⟩ .nil) .nil⟩

theorem typed_route : route.Typed where
  dotted := by decide +kernel
  named := by decide
  uniform := by decide +kernel
  positive := by decide
  apart := by decide
  fieldIds := by decide
  fieldNames := by decide
  counted := by decide
  words := by decide
  labels := by decide +kernel

/-- The type of both places is declared once, ahead of the route, and both come back; the negative
zero and the character above U+00FF do not. -/
theorem decode_specification_route :
    route.Typed ∧ route.levels ≤ maxLevels ∧ (encode route).length < UInt64.size ∧
      Schema.parse route.specification = .ok route.declarations ∧
      route.declarations.map (·.longName) = ["demo.Place", "demo.Route"] ∧
      (Record.decode decoder route.declaration route.declarations
        (encode route)).2.diagnostics.isClean ∧
      (Record.decode decoder route.declaration route.declarations (encode route)).1.copyInto
        route.zeroed = ⟨route.header, route.fields.narrowed⟩ := by
  have levels : route.levels ≤ maxLevels := by decide
  have fits : (encode route).length < UInt64.size := by decide +kernel
  obtain ⟨accepted, -, clean, -, restored⟩ := decode_specification typed_route levels fits
  have names : route.declarations.map (·.longName) = ["demo.Place", "demo.Route"] := by
    decide +kernel
  exact ⟨typed_route, levels, fits, accepted, names, clean, restored route.zeroed rfl⟩

end MessageCodec
