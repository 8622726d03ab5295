import MessageCodec.Proofs.Schema.Listing

/-! The listing of messages that no text has declared. A listing has the labels of fields and not
their types, and says nothing about packages unless all messages share one. It is read as messages
with the same long names and identifiers, whose fields have the types that their labels name. -/

namespace MessageCodec.Schema

namespace Field

/-- The field that is read where a field is written. -/
def retyped (f : Field) : Field := f.declaration.numbered f.id

/-- What a field says about itself, its default apart. -/
def outline (f : Field) : UInt32 × String × FieldType × String := (f.id, f.name, f.type, f.label)

end Field

namespace Message

/-- A message with the types that its labels name. -/
def retyped (m : Message) : Message := { m with fields := m.fields.map Field.retyped }

/-- A message without a package, with its long name as its name. -/
def unpackaged (m : Message) : Message := { m with package := "", name := m.longName }

/-- The names and identifiers of a message and of its fields. -/
def skeleton (m : Message) : String × Int32 × List (UInt32 × String) :=
  (m.longName, m.id, m.fields.map fun f => (f.id, f.name))

/-- What a message says about itself and its fields, their defaults apart. -/
def outline (m : Message) : String × Int32 × List (UInt32 × String × FieldType × String) :=
  (m.longName, m.id, m.fields.map Field.outline)

/-- A message without defaults that can be written down, with its package or without it. -/
structure Listable (m : Message) : Prop where
  package : m.package = "" ∨ IsDotted m.package
  name : IsDotted m.name
  id : 0 ≤ m.id
  fields : ∀ f ∈ m.fields, f.declaration.Written
  undefaulted : ∀ f ∈ m.fields, f.default? = none

end Message

variable {ms : List Message} {m : Message} {package : String}

theorem declaration_retyped (f : Field) : f.retyped.declaration = f.declaration :=
  declaration_numbered f.declaration f.id

theorem id_retyped (f : Field) : f.retyped.id = f.id := id_numbered f.declaration f.id

theorem label_retyped (f : Field) : f.retyped.label = f.label :=
  congrArg FieldDeclaration.label (declaration_retyped f)

theorem name_retyped (f : Field) : f.retyped.name = f.name :=
  congrArg FieldDeclaration.name (declaration_retyped f)

theorem default?_retyped (f : Field) : f.retyped.default? = f.default? :=
  congrArg FieldDeclaration.default? (declaration_retyped f)

/-- The type of the field that is read is the one that the label names, if it names one. -/
theorem type_retyped (f : Field) : f.retyped.type = Grammar.typeOf f.label := by
  unfold Field.retyped FieldDeclaration.numbered Field.declaration Grammar.typeOf
  cases ScalarType.ofToken? f.label <;> rfl

/-- The text of messages does not depend on the types of their fields. -/
theorem listing_retyped (ms : List Message) : listing (ms.map Message.retyped) = listing ms := by
  have text (name : String) (m : Message) : listMessage name m.retyped = listMessage name m := by
    simp only [listMessage, Message.retyped, List.map_map, Function.comp_def, label_retyped,
      name_retyped, default?_retyped, id_retyped]
  have shared : sharedPackage? (ms.map Message.retyped) = sharedPackage? ms := by
    cases ms with
    | nil => rfl
    | cons m ms =>
      simp only [sharedPackage?, List.map_cons, List.all_map]
      rfl
  rw [listing, shared, listing]
  cases sharedPackage? ms <;> simp only [List.map_map, Function.comp_def, text] <;> rfl

theorem listing_unpackaged (apart : sharedPackage? ms = none) :
    listing (ms.map Message.unpackaged) = listing ms := by
  have plain : ∀ m ∈ ms.map Message.unpackaged, m.package = "" := by
    simp [Message.unpackaged]
  rw [listing_eq plain, listing, apart]
  simp [Message.unpackaged, listMessage, Function.comp_def]

theorem package_of_shared (shared : sharedPackage? ms = some package) :
    ∀ m ∈ ms, m.package = package := by
  cases ms with
  | nil => cases shared
  | cons m ms =>
    simp only [sharedPackage?, Option.ite_none_right_eq_some, Bool.and_eq_true, List.all_eq_true,
      Option.some.injEq] at shared
    obtain ⟨⟨-, same⟩, rfl⟩ := shared
    exact List.forall_mem_cons.2 ⟨rfl, fun m mem => by simpa using same m mem⟩

/-- Whether messages can stand in one specification is told by their names and identifiers. -/
theorem Unambiguous.congr {ms' : List Message} (clean : Unambiguous ms)
    (same : (ms.map Message.skeleton).Perm (ms'.map Message.skeleton)) : Unambiguous ms' := by
  have alike {m' : Message} (mem : m' ∈ ms') : ∃ m ∈ ms, m.skeleton = m'.skeleton :=
    List.mem_map.1 (same.mem_iff.2 (List.mem_map_of_mem mem))
  refine ⟨?_, ?_, fun m' mem => ?_, fun m' mem => ?_⟩
  · have ids := (same.map (·.2.1)).filter (· ≠ 0)
    simp only [List.map_map] at ids
    exact ids.nodup_iff.1 clean.ids
  · have names := same.map (·.1)
    simp only [List.map_map] at names
    exact names.nodup_iff.1 clean.names
  · obtain ⟨m, mem, equal⟩ := alike mem
    have ids := congrArg (fun s => s.2.2.map (·.1)) equal
    simp only [Message.skeleton, List.map_map] at ids
    exact ids ▸ clean.fieldIds m mem
  · obtain ⟨m, mem, equal⟩ := alike mem
    have names := congrArg (fun s => s.2.2.map (·.2)) equal
    simp only [Message.skeleton, List.map_map] at names
    exact names ▸ clean.fieldNames m mem

theorem skeleton_retyped (m : Message) : m.retyped.skeleton = m.skeleton := by
  have name : m.retyped.longName = m.longName := rfl
  simp only [Message.skeleton, name]
  simp [Message.retyped, Function.comp_def, id_retyped, name_retyped]

theorem skeletons_of_outlines {read : List Message}
    (outlines : read.map Message.outline = ms.map fun m => m.retyped.outline) :
    read.map Message.skeleton = ms.map Message.skeleton := by
  let told (o : String × Int32 × List (UInt32 × String × FieldType × String)) :
      String × Int32 × List (UInt32 × String) := (o.1, o.2.1, o.2.2.map fun f => (f.1, f.2.1))
  have skeleton (m : Message) : told m.outline = m.skeleton := by
    simp [told, Message.outline, Message.skeleton, Field.outline]
  have same := congrArg (List.map told) outlines
  simpa only [List.map_map, Function.comp_def, skeleton, skeleton_retyped] using same

theorem longName_unpackaged (m : Message) : m.unpackaged.longName = m.longName :=
  longName_of_package rfl

theorem skeleton_unpackaged (m : Message) : m.unpackaged.skeleton = m.skeleton := by
  rw [Message.skeleton, longName_unpackaged]
  rfl

theorem Message.Listable.written (listable : m.Listable) : m.retyped.Written where
  name := listable.name
  id := listable.id
  fields := by
    refine List.forall_mem_map.2 fun f mem => ⟨?_, ?_⟩
    · rw [declaration_retyped]
      exact listable.fields f mem
    · rw [declaration_retyped, id_retyped]
      rfl

theorem Message.Listable.unpackaged (listable : m.Listable) : m.unpackaged.Listable where
  package := .inl rfl
  name := by
    change IsDotted m.longName
    rw [Message.longName]
    split
    · exact listable.name
    · rename_i stated
      refine IsDotted.append (listable.package.resolve_left fun plain => stated ?_) listable.name
      rw [plain]
      rfl
  id := listable.id
  fields := listable.fields
  undefaulted := listable.undefaulted

theorem Message.Listable.quotedDefault_eq_nil (listable : m.Listable) :
    m.retyped.fields.flatMap (fun f => quotedDefault f.default?) = [] := by
  rw [List.flatMap_eq_nil_iff]
  refine List.forall_mem_map.2 fun f mem => ?_
  rw [default?_retyped, listable.undefaulted f mem]
  rfl

/-- Messages of one package are read from their listing, with the types that the labels name. -/
theorem parse_listing_of_package (named : package = "" ∨ IsDotted package)
    (listable : ∀ m ∈ ms, m.package = package ∧ m.Listable) (clean : Unambiguous ms) :
    parse (listing ms) = .ok (ms.map Message.retyped) := by
  rw [← listing_retyped]
  have written : ∀ m ∈ ms.map Message.retyped, m.package = package ∧ m.Written :=
    List.forall_mem_map.2 fun m mem => ⟨(listable m mem).1, (listable m mem).2.written⟩
  obtain ⟨ts, specification, splits⟩ := Splits.listing named written
  have unquoted : quotes ts = [] := by
    rw [specification.quotes_eq (isLexeme_of_splits splits), quotedDefaults,
      List.flatMap_eq_nil_iff]
    exact List.forall_mem_map.2 fun m mem => (listable m mem).2.quotedDefault_eq_nil
  have plain : Comment.Clean (listing (ms.map Message.retyped)).toList := by
    rw [(clean_iff_of_splits splits).2, unquoted]
    trivial
  refine parse_of_unambiguous ⟨ts, ?_, specification⟩ (clean.congr ?_)
  · rwa [Comment.strip_of_clean plain]
  · simp only [List.map_map, Function.comp_def, skeleton_retyped, List.Perm.refl]

/-- Messages are read from their listing up to packages, with the types that the labels name. -/
theorem parse_listing_of_listable (listable : ∀ m ∈ ms, m.Listable) (clean : Unambiguous ms) :
    ∃ read, parse (listing ms) = .ok read ∧
      read.map Message.outline = ms.map fun m => m.retyped.outline := by
  cases shared : sharedPackage? ms with
  | some package =>
    have same := package_of_shared shared
    have named : package = "" ∨ IsDotted package := by
      cases ms with
      | nil => cases shared
      | cons m ms => exact same m List.mem_cons_self ▸ (listable m List.mem_cons_self).package
    refine ⟨_, parse_listing_of_package named (fun m mem => ⟨same m mem, listable m mem⟩) clean, ?_⟩
    rw [List.map_map]
    rfl
  | none =>
    have plain : ∀ m ∈ ms.map Message.unpackaged, m.package = "" ∧ m.Listable :=
      List.forall_mem_map.2 fun m mem => ⟨rfl, (listable m mem).unpackaged⟩
    have clean' : Unambiguous (ms.map Message.unpackaged) := clean.congr (by
      simp only [List.map_map, Function.comp_def, skeleton_unpackaged, List.Perm.refl])
    rw [← listing_unpackaged shared]
    refine ⟨_, parse_listing_of_package (.inl rfl) plain clean', ?_⟩
    rw [List.map_map, List.map_map]
    refine List.map_congr_left fun m _ => ?_
    exact congrArg (·, m.id, m.retyped.fields.map Field.outline) (longName_unpackaged m)

end MessageCodec.Schema
