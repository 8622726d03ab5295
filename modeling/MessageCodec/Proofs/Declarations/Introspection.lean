import MessageCodec.Proofs.Declarations.Typed
import MessageCodec.Proofs.Record.Catalogue
import MessageCodec.Proofs.Schema.Retyped

/-! Two ways to a specification of a message: the listing of the catalogue of its capture, and the
specification that is made from the message itself. Both declare the parts of the message, with the
same names and identifiers. A capture keeps the labels of scalar fields and the other specification
has the words for their types, so the two agree on types exactly when these are the same. -/

namespace MessageCodec

namespace Schema

theorem lastSegment_append (front rest : String) :
    lastSegment (front ++ "." ++ rest) = lastSegment rest := by
  have text : (front ++ "." ++ rest).toList.reverse =
      rest.toList.reverse ++ '.' :: front.toList.reverse := by simp
  rw [lastSegment, text, List.takeWhile_append]
  split
  · rename_i undotted
    have whole := (List.takeWhile_prefix (p := (· != '.')) (l := rest.toList.reverse)).eq_of_length
      undotted
    rw [lastSegment, whole]
    simp
  · rfl

/-- The last segment of a dotted name is a name by itself, and so is what its last dot follows. -/
theorem IsDotted.exists_front {name : String} (dotted : IsDotted name) :
    IsDotted (lastSegment name) ∧
      (name = lastSegment name ∨
        ∃ front, IsDotted front ∧ name = front ++ "." ++ lastSegment name) := by
  obtain ⟨ts, derived, lexemes⟩ := dotted
  induction derived with
  | last name =>
    have word : IsWord name.toList := lexemes (.identifier name) (by simp)
    have undotted : '.' ∉ name.toList := fun mem =>
      absurd (word.isIdentifierChar '.' mem) (by decide)
    rw [lastSegment_of_undotted undotted]
    exact ⟨word.isDotted, .inl rfl⟩
  | @more name ts tail _ ih =>
    simp only [List.forall_mem_cons] at lexemes
    have word : IsWord name.toList := lexemes.1
    obtain ⟨last, split⟩ := ih lexemes.2.2
    rw [lastSegment_append]
    refine ⟨last, .inr ?_⟩
    rcases split with whole | ⟨front, dotted, split⟩
    · exact ⟨name, word.isDotted, by rw [← whole]⟩
    · refine ⟨name ++ "." ++ front, word.isDotted.append dotted, ?_⟩
      simp only [String.append_assoc] at split ⊢
      rw [← split]

end Schema

theorem Capture.isDotted_schemaOf {h : Header} (named : h.Named)
    (dotted : Schema.IsDotted h.longName) :
    ((schemaOf h).package = "" ∨ Schema.IsDotted (schemaOf h).package) ∧
      Schema.IsDotted (schemaOf h).name := by
  obtain ⟨last, whole | ⟨front, dottedFront, split⟩⟩ := dotted.exists_front
  · have undotted : '.' ∉ h.longName.toList := whole ▸ Schema.not_mem_lastSegment h.longName
    rw [schemaOf_of_undotted undotted]
    exact ⟨.inl rfl, dotted⟩
  · rw [← named] at last split
    have chars : h.longName.toList = front.toList ++ '.' :: h.shortName.toList := by
      rw [split]
      simp
    rw [schemaOf_of_split chars]
    split
    · exact ⟨.inl rfl, dotted⟩
    · rw [String.ofList_toList]
      exact ⟨.inr dottedFront, last⟩

namespace Fields

variable {fs : Fields}

theorem tags_declared (fs : Fields) :
    fs.declared.map (fun f => (f.id, f.name)) = fs.listed.map fun f => (f.id, f.name) := by
  induction fs with
  | nil => rfl
  | scalar tag s rest ih => exact congrArg ((tag.id, tag.name) :: ·) ih
  | nested tag header inner rest _ ih => exact congrArg ((tag.id, tag.name) :: ·) ih

theorem default?_declared (fs : Fields) : ∀ f ∈ fs.declared, f.default? = none := by
  induction fs with
  | nil => nofun
  | scalar tag s rest ih => exact List.forall_mem_cons.2 ⟨rfl, ih⟩
  | nested tag header inner rest _ ih => exact List.forall_mem_cons.2 ⟨rfl, ih⟩

/-- The label of each scalar field is the word for its type. -/
def TokenLabelled (fs : Fields) : Prop :=
  ∀ f ∈ fs.declared, f.type ≠ .message → f.label = f.type.token

instance (fs : Fields) : Decidable fs.TokenLabelled :=
  inferInstanceAs (Decidable (∀ f ∈ fs.declared, _))

/-- Where the labels of nested messages have dots already and are no words for types, both ways tell
the same of fields exactly when the labels of the others are the words for their types. -/
theorem outline_declared_iff
    (labels : ∀ x ∈ fs.held, Declarations.dotted x.1.label = x.1.label ∧
      ScalarType.ofToken? x.1.label = none) :
    fs.declared.map (fun f => f.retyped.outline) = fs.listed.map Schema.Field.outline ↔
      fs.TokenLabelled := by
  induction fs with
  | nil => exact iff_of_true rfl nofun
  | scalar tag s rest ih =>
    rw [declared, listed, List.map_cons, List.map_cons, List.cons.injEq, ih labels, TokenLabelled,
      TokenLabelled, declared, List.forall_mem_cons]
    refine and_congr_left' ?_
    simp only [Schema.Field.outline, Schema.id_retyped, Schema.name_retyped, Schema.type_retyped,
      Schema.label_retyped, Prod.mk.injEq, true_and, ne_eq, reduceCtorEq, not_false_eq_true,
      true_imp_iff, Schema.FieldType.token]
    refine and_iff_right_of_imp fun label => ?_
    exact Schema.Grammar.typeOf_eq_scalar_iff.2 label
  | nested tag header inner rest _ ih =>
    rw [held, List.forall_mem_cons] at labels
    rw [declared, listed, List.map_cons, List.map_cons, List.cons.injEq, ih labels.2, TokenLabelled,
      TokenLabelled, declared, List.forall_mem_cons, labels.1.1]
    refine and_congr_left' (iff_of_true ?_ fun other => absurd rfl other)
    simp only [Schema.Field.outline, Schema.id_retyped, Schema.name_retyped, Schema.type_retyped,
      Schema.label_retyped, Schema.Field.nested, Schema.Grammar.typeOf, labels.1.2]
    rfl

end Fields

namespace Message

variable {m p : Message}

/-- A message of static types with names that both ways can state: each short name is the last
segment of the long one, each long name stands for one list of fields with their labels, the label
of a nested message is its long name, and every label is a dotted name. -/
structure Coherent (m : Message) : Prop extends m.Typed where
  short : ∀ p ∈ m.parts, p.header.Named
  shapes : ∀ p ∈ m.parts, ∀ q ∈ m.parts, p.header.longName = q.header.longName →
    p.fields.declared = q.fields.declared
  nested : ∀ p ∈ m.parts, ∀ x ∈ p.fields.held, x.1.label = x.2.header.longName
  spelled : ∀ p ∈ m.parts, ∀ f ∈ p.fields.declared, Schema.IsDotted f.label

namespace Coherent

theorem header_schema (coherent : m.Coherent) (part : p ∈ m.parts) :
    p.schema.longName = p.header.longName ∧ p.schema.id = p.header.id := by
  have shown := Capture.header_schemaOf (coherent.short p part)
  exact ⟨congrArg Header.longName shown, congrArg Header.id shown⟩

theorem mem_catalogue (coherent : m.Coherent) {s : Schema.Message} :
    s ∈ m.capture.catalogue ↔ ∃ p ∈ m.parts, p.schema = s := by
  refine Capture.mem_catalogue fun p hp q hq same => ?_
  rw [(coherent.header_schema hp).1, (coherent.header_schema hq).1] at same
  have id := (coherent.uniform p hp q hq same).1
  have short : p.header.shortName = q.header.shortName :=
    (coherent.short p hp).trans ((congrArg _ same).trans (coherent.short q hq).symm)
  have header : p.header = q.header := by
    cases header : p.header
    cases header' : q.header
    simp_all
  rw [schema, schema, header, coherent.shapes p hp q hq same]

/-- What is told of the parts in both ways agrees as a whole when it agrees for each part. -/
theorem perm_iff (coherent : m.Coherent) {α : Type} {f g : Schema.Message → String × α}
    (named : ∀ s, (f s).1 = s.longName) (named' : ∀ s, (g s).1 = s.longName) :
    (m.capture.catalogue.map f).Perm (m.declarations.map g) ↔
      ∀ p ∈ m.parts, f p.schema = g p.declaration := by
  constructor
  · intro perm p part
    have told : f p.schema ∈ m.declarations.map g :=
      perm.mem_iff.1 (List.mem_map_of_mem (coherent.mem_catalogue.2 ⟨p, part, rfl⟩))
    obtain ⟨s, mem, same⟩ := List.mem_map.1 told
    obtain ⟨q, part', rfl⟩ := mem_declarations.1 mem
    have names := congrArg Prod.fst same
    rw [named, named', longName_declaration, (coherent.header_schema part).1] at names
    rw [← same, coherent.declaredAlike q part' p part names]
  · intro alike
    have names : (m.capture.catalogue.map f).Nodup := by
      refine List.Nodup.of_map Prod.fst ?_
      simpa only [List.map_map, Function.comp_def, named] using Capture.names_catalogue_nodup m
    have names' : (m.declarations.map g).Nodup := by
      refine List.Nodup.of_map Prod.fst ?_
      simpa only [List.map_map, Function.comp_def, named'] using coherent.unambiguous.names
    refine (List.perm_ext_iff_of_nodup names names').2 fun a => ?_
    simp only [List.mem_map, coherent.mem_catalogue, mem_declarations]
    constructor
    · rintro ⟨-, ⟨p, part, rfl⟩, rfl⟩
      exact ⟨p.declaration, ⟨p, part, rfl⟩, (alike p part).symm⟩
    · rintro ⟨-, ⟨p, part, rfl⟩, rfl⟩
      exact ⟨p.schema, ⟨p, part, rfl⟩, alike p part⟩

theorem skeleton_schema (coherent : m.Coherent) (part : p ∈ m.parts) :
    p.schema.skeleton = p.declaration.skeleton := by
  obtain ⟨name, id⟩ := coherent.header_schema part
  rw [Schema.Message.skeleton, Schema.Message.skeleton, name, id, longName_declaration]
  exact congrArg (p.header.longName, p.header.id, ·) (Fields.tags_declared p.fields)

theorem outline_schema_iff (coherent : m.Coherent) (part : p ∈ m.parts) :
    p.schema.retyped.outline = p.declaration.outline ↔ p.fields.TokenLabelled := by
  obtain ⟨name, id⟩ := coherent.header_schema part
  have labels : ∀ x ∈ p.fields.held, Declarations.dotted x.1.label = x.1.label ∧
      ScalarType.ofToken? x.1.label = none := by
    intro x held
    have label := coherent.nested p part x held
    exact ⟨(coherent.labels p part x held).trans label.symm,
      label ▸ coherent.named x.2 (held_mem_parts part held)⟩
  have name' : p.schema.retyped.longName = p.declaration.longName := name.trans
    (longName_declaration p).symm
  rw [← Fields.outline_declared_iff labels, Schema.Message.outline, Schema.Message.outline, name',
    Prod.mk.injEq, Prod.mk.injEq]
  have fields : p.schema.retyped.fields.map Schema.Field.outline =
      p.fields.declared.map fun f => f.retyped.outline := List.map_map
  rw [fields]
  exact ⟨fun same => same.2.2, fun same => ⟨rfl, id, same⟩⟩

theorem listable (coherent : m.Coherent) (part : p ∈ m.parts) : p.schema.Listable := by
  have split := Capture.isDotted_schemaOf (coherent.short p part) (coherent.dotted p part)
  refine ⟨split.1, split.2, ?_, fun f declared => ?_, Fields.default?_declared p.fields⟩
  · rw [(coherent.header_schema part).2]
    exact Int32.le_of_lt (coherent.positive p part)
  · have tag : (f.id, f.name) ∈ p.fields.listed.map fun f => (f.id, f.name) :=
      Fields.tags_declared p.fields ▸ List.mem_map_of_mem declared
    obtain ⟨g, listed, same⟩ := List.mem_map.1 tag
    obtain ⟨id, name⟩ := Prod.mk.inj same
    refine ⟨coherent.spelled p part f declared, ?_, ?_, ?_⟩
    · have word := coherent.words p part g listed
      rwa [name] at word
    · intro text stated
      cases (Fields.default?_declared p.fields f declared).symm.trans stated
    · rintro _ ⟨⟩ zero
      have counted := coherent.counted p part g listed
      rw [id, zero] at counted
      exact absurd counted (by decide)

end Coherent

/-- The listing of the catalogue of the capture of a message and the specification made from the
message itself are both accepted, and they declare messages of the same long names, with the same
identifiers and the same names and identifiers of fields in the same order. They declare the same
types and labels, too, exactly when the label of each scalar field is the word for its type. -/
theorem parse_catalogue_capture {m : Message} (coherent : m.Coherent) :
    ∃ captured declared,
      Schema.parse (Schema.listing m.capture.catalogue) = .ok captured ∧
      Schema.parse m.specification = .ok declared ∧
      (captured.map (·.longName)).Nodup ∧ (declared.map (·.longName)).Nodup ∧
      (captured.map (·.skeleton)).Perm (declared.map (·.skeleton)) ∧
      ((captured.map (·.outline)).Perm (declared.map (·.outline)) ↔
        ∀ p ∈ m.parts, p.fields.TokenLabelled) := by
  have alike := (coherent.perm_iff (f := Schema.Message.skeleton) (g := Schema.Message.skeleton)
    (fun _ => rfl) fun _ => rfl).2 fun p part => coherent.skeleton_schema part
  have clean : Schema.Unambiguous m.capture.catalogue := coherent.unambiguous.congr alike.symm
  have listable : ∀ s ∈ m.capture.catalogue, s.Listable := by
    intro s mem
    obtain ⟨p, part, rfl⟩ := coherent.mem_catalogue.1 mem
    exact coherent.listable part
  obtain ⟨captured, read, outlines⟩ := Schema.parse_listing_of_listable listable clean
  have accepted : Schema.parse m.specification = .ok m.declarations :=
    Schema.parse_of_unambiguous (declares_specification coherent.written) coherent.unambiguous
  have types := coherent.perm_iff (f := fun s => s.retyped.outline) (g := Schema.Message.outline)
    (fun _ => rfl) fun _ => rfl
  refine ⟨captured, m.declarations, read, accepted, (Schema.unambiguous_of_parse read).names,
    coherent.unambiguous.names, Schema.skeletons_of_outlines outlines ▸ alike, ?_⟩
  rw [outlines, types]
  exact forall₂_congr fun p part => coherent.outline_schema_iff part

/-- A message outside every package of its type, in which a place comes twice. -/
def survey : Message :=
  ⟨⟨12, "Survey", "demo.lab.Survey"⟩,
    .nested ⟨3, "demo.Place", "start"⟩ ⟨7, "Place", "demo.Place"⟩
      (.scalar ⟨1, "double", "x"⟩ ⟨.double, 0⟩ .nil) <|
      .scalar ⟨1, "string", "note"⟩ ⟨.string, "lane 2"⟩ <|
        .nested ⟨9, "demo.Place", "stop"⟩ ⟨7, "Place", "demo.Place"⟩
          (.scalar ⟨1, "double", "x"⟩ ⟨.double, 0x3FF8000000000000⟩ .nil) .nil⟩

theorem coherent_survey : survey.Coherent where
  dotted := by decide +kernel
  named := by decide
  uniform := by decide +kernel
  positive := by decide
  apart := by decide
  fieldIds := by decide
  fieldNames := by decide
  counted := by decide
  words := by decide
  labels := by decide +kernel
  short := by
    simp only [Header.Named]
    decide +kernel
  shapes := by decide +kernel
  nested := by decide
  spelled := by decide +kernel

/-- The listing of the capture and the specification of the survey tell the same of both types. -/
theorem parse_catalogue_capture_survey :
    survey.Coherent ∧ (∀ p ∈ survey.parts, p.fields.TokenLabelled) ∧
      survey.capture.catalogue.map (·.package) = ["demo.lab", "demo"] ∧
      ∃ captured declared,
        Schema.parse (Schema.listing survey.capture.catalogue) = .ok captured ∧
        Schema.parse survey.specification = .ok declared ∧
        (captured.map (·.skeleton)).Perm (declared.map (·.skeleton)) ∧
        (captured.map (·.outline)).Perm (declared.map (·.outline)) := by
  have labels : ∀ p ∈ survey.parts, p.fields.TokenLabelled := by decide
  have packages : survey.capture.catalogue.map (·.package) = ["demo.lab", "demo"] := by
    decide +kernel
  obtain ⟨captured, declared, read, accepted, -, -, names, types⟩ :=
    parse_catalogue_capture coherent_survey
  exact ⟨coherent_survey, labels, packages, captured, declared, read, accepted, names,
    types.2 labels⟩

/-- A message with a label of its own for a number. -/
def heading : Message :=
  ⟨⟨5, "Heading", "Heading"⟩, .scalar ⟨1, "Angle", "value"⟩ ⟨.double, 0x3FF8000000000000⟩ .nil⟩

theorem coherent_heading : heading.Coherent where
  dotted := by decide +kernel
  named := by decide
  uniform := by decide +kernel
  positive := by decide
  apart := by decide
  fieldIds := by decide
  fieldNames := by decide
  counted := by decide
  words := by decide
  labels := by decide +kernel
  short := by
    simp only [Header.Named]
    decide +kernel
  shapes := by decide +kernel
  nested := by decide
  spelled := by decide +kernel

/-- In the listing of its capture the number is a message of the type that the label names, and in
its specification it is a number. -/
theorem heading_told_apart :
    heading.Coherent ∧
      Schema.parse (Schema.listing heading.capture.catalogue) =
        .ok [⟨"", "Heading", 5, [⟨.message, "Angle", "value", 1, none⟩]⟩] ∧
      Schema.parse heading.specification =
        .ok [⟨"", "Heading", 5, [⟨.scalar .double, "double", "value", 1, some "0.0"⟩]⟩] ∧
      ¬ ∃ captured declared,
        Schema.parse (Schema.listing heading.capture.catalogue) = .ok captured ∧
        Schema.parse heading.specification = .ok declared ∧
        (captured.map (·.outline)).Perm (declared.map (·.outline)) := by
  have read : Schema.parse (Schema.listing heading.capture.catalogue) =
      .ok [⟨"", "Heading", 5, [⟨.message, "Angle", "value", 1, none⟩]⟩] :=
    Schema.parse_of_toOption (by decide +kernel)
  have accepted : Schema.parse heading.specification =
      .ok [⟨"", "Heading", 5, [⟨.scalar .double, "double", "value", 1, some "0.0"⟩]⟩] :=
    Schema.parse_of_toOption (by decide +kernel)
  refine ⟨coherent_heading, read, accepted, ?_⟩
  rintro ⟨captured, declared, read', accepted', same⟩
  cases read.symm.trans read'
  cases accepted.symm.trans accepted'
  have told := List.perm_singleton.1 same
  simp [Schema.Message.outline, Schema.Field.outline] at told

end Message

end MessageCodec
