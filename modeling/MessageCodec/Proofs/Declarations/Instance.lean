import MessageCodec.Proofs.Declarations.Built
import MessageCodec.Wire.Decoder

/-! Specifications made from decoded records. Whether such a specification is accepted depends on
the instance: a type that contains itself can occur with different fields, and is then declared
more than once. The declarations have long names, but nested fields keep the labels that they have
in the specification that the record was made with. -/

namespace MessageCodec

open Declarations (dotted)
open Record (addDecoded addDecoded_built addDecoded_closed addDecoded_nil addDecoded_scalar)
open Schema (Catalogue IsDotted)

namespace Schema

/-- Messages as they are read from a specification: all of one package, without duplicates, and with
names, labels and identifiers that can be written down. -/
structure Catalogue.Accepted (c : Catalogue) (package : String) : Prop where
  clean : Unambiguous c
  named : package = "" ∨ IsDotted package
  written : ∀ m ∈ c, m.package = package ∧ m.Written

theorem Catalogue.accepted_of_parse {text : String} {c : Catalogue} (read : parse text = .ok c)
    (few : ∀ m ∈ c, m.fields.length < UInt32.size) : ∃ package, c.Accepted package := by
  obtain ⟨ts, splits, specification⟩ := declares_of_parse read
  obtain ⟨package, named, written⟩ := specification.written (isLexeme_of_splits splits) few
  exact ⟨package, unambiguous_of_parse read, named, written⟩

variable {c : Catalogue} {package : String} {m : Message}

theorem Catalogue.Accepted.isDotted_longName (accepted : c.Accepted package) (mem : m ∈ c) :
    IsDotted m.longName := by
  obtain ⟨rfl, written⟩ := accepted.written m mem
  exact Message.isDotted_longName accepted.named written.name

end Schema

variable {c : Catalogue} {package : String} {path : List String} {m : Schema.Message}
variable {p v : Message}

namespace Message

theorem BuiltFor.parts (built : v.BuiltFor c path m) (mem : m ∈ c) :
    ∀ p ∈ v.parts, ∃ path, ∃ s ∈ c, p.BuiltFor c path s := by
  refine parts_induction ⟨path, m, mem, built⟩ fun p ⟨_, s, _, built⟩ x held => ?_
  obtain ⟨_, _, s', _, resolved, _, inner⟩ := built.2.exists_of_held held
  exact ⟨_, s', Schema.Catalogue.mem_of_resolve? resolved, inner⟩

theorem BuiltFor.longName_eq (built : p.BuiltFor c path m) : p.header.longName = m.longName :=
  congrArg Header.longName built.1

/-- The label of a nested field is a dotted name, no scalar type, and resolves to the type that the
message in it is built for. -/
theorem BuiltFor.held (accepted : c.Accepted package) (built : p.BuiltFor c path m) (mem : m ∈ c)
    {x : FieldTag × Message} (held : x ∈ p.fields.held) :
    (IsDotted (dotted x.1.label) ∧ ScalarType.ofToken? (dotted x.1.label) = none) ∧
      ∃ s, c.resolve? (dotted x.1.label) package = some s ∧
        x.2.BuiltFor c (m.longName :: path) s := by
  obtain ⟨f, declared, s, type, resolved, tag, inner⟩ := built.2.exists_of_held held
  obtain ⟨rfl, written⟩ := accepted.written m mem
  have field := written.fields f declared
  have label : dotted x.1.label = f.label := by
    rw [tag]
    exact Declarations.dotted_of_isDotted field.declaration.label
  rw [label]
  exact ⟨⟨field.declaration.label, field.ofToken?_eq_none type⟩, s, resolved, inner⟩

theorem BuiltFor.labelled (accepted : c.Accepted package) (built : v.BuiltFor c path m)
    (mem : m ∈ c) : v.Labelled := by
  intro p hp q hq same x hx y hy labels
  obtain ⟨_, s, hs, bp⟩ := built.parts mem p hp
  obtain ⟨_, t, ht, bq⟩ := built.parts mem q hq
  obtain ⟨-, s', resolved, inner⟩ := bp.held accepted hs hx
  obtain ⟨-, t', resolved', inner'⟩ := bq.held accepted ht hy
  rw [labels, resolved'] at resolved
  obtain rfl := Option.some.inj resolved
  rw [inner.longName_eq, inner'.longName_eq]

/-- A listed field has its identifier and its name from a declared one. -/
theorem BuiltFor.exists_of_listed (built : p.BuiltFor c path m) {f : Schema.Field}
    (listed : f ∈ p.fields.listed) : ∃ g ∈ m.fields, g.id = f.id ∧ g.name = f.name := by
  have pair := built.2.sublist_listed.subset (List.mem_map_of_mem listed)
  obtain ⟨g, declared, same⟩ := List.mem_map.1 pair
  exact ⟨g, declared, congrArg Prod.fst same, congrArg Prod.snd same⟩

theorem BuiltFor.written (accepted : c.Accepted package) (built : v.BuiltFor c path m)
    (mem : m ∈ c) : ∀ p ∈ v.parts, p.declaration.Written := by
  intro p part
  obtain ⟨_, s, hs, built⟩ := built.parts mem p part
  obtain ⟨-, written⟩ := accepted.written s hs
  refine Declarations.written_declaration ?_ ?_ (fun f listed => ?_) fun x held => ?_
  · rw [built.longName_eq]
    exact accepted.isDotted_longName hs
  · rw [built.1]
    exact written.id
  · obtain ⟨g, declared, id, name⟩ := built.exists_of_listed listed
    have field := (written.fields g declared).declaration
    rw [← id, ← name]
    exact ⟨field.name, field.id g.id rfl⟩
  · exact (built.held accepted hs held).1

theorem BuiltFor.unambiguous (accepted : c.Accepted package) (built : v.BuiltFor c path m)
    (mem : m ∈ c) (uniform : v.Uniform) : Schema.Unambiguous v.declarations := by
  refine unambiguous_declarations uniform (built.labelled accepted mem) (fun p hp q hq => ?_)
    (fun p hp => ?_) fun p hp => ?_
  · obtain ⟨_, s, hs, bp⟩ := built.parts mem p hp
    obtain ⟨_, t, ht, bq⟩ := built.parts mem q hq
    rw [bp.1, bq.1]
    intro numbered same
    rw [Schema.eq_of_id accepted.clean.ids hs ht numbered same.symm]
  · obtain ⟨_, s, hs, bp⟩ := built.parts mem p hp
    have ids := bp.2.sublist_listed.map Prod.fst
    rw [List.map_map, List.map_map] at ids
    exact ids.nodup (accepted.clean.fieldIds s hs)
  · obtain ⟨_, s, hs, bp⟩ := built.parts mem p hp
    have names := bp.2.sublist_listed.map Prod.snd
    rw [List.map_map, List.map_map] at names
    exact names.nodup (accepted.clean.fieldNames s hs)

end Message

/-- What is listed for a declared field when nothing is left out. -/
def Schema.Field.listed? (c : Catalogue) (package : String) (f : Schema.Field) :
    Option Schema.Field :=
  match f.type with
  | .scalar t => some ⟨.scalar t, t.token, f.name, f.id, some (Declarations.defaultLiteral t)⟩
  | .message => (c.resolve? f.label package).map fun _ => .nested (dotted f.label) f.name f.id
  | .undefined => none

/-- All declared fields are listed, if none of them is left out for its type or its level. -/
theorem Fields.Built.listed_eq {fs : List Schema.Field} {shown : Fields}
    (built : shown.Built c path package fs)
    (opens : ∀ f ∈ fs, ∀ m, f.type = .message → c.resolve? f.label package = some m →
      m.longName ∉ path ∧ path.length < maxLevels) :
    shown.listed = fs.filterMap (Schema.Field.listed? c package) := by
  induction built with
  | nil => rfl
  | @absent path package f fs shown other closed _ ih =>
    rw [List.forall_mem_cons] at opens
    have unlisted : f.listed? c package = none := by
      rw [Schema.Field.listed?]
      cases type : f.type with
      | scalar t => exact absurd type (other t)
      | undefined => rfl
      | message =>
        cases resolved : c.resolve? f.label package with
        | none => rfl
        | some m =>
          obtain ⟨fresh, shallow⟩ := opens.1 m type resolved
          rcases closed m type resolved with around | deep
          · exact absurd around fresh
          · exact absurd shallow (Nat.not_lt.2 deep)
    rw [List.filterMap_cons_none unlisted, ih opens.2]
  | @scalar path package f fs shown s type _ ih =>
    rw [List.forall_mem_cons] at opens
    have listed : f.listed? c package =
        some ⟨.scalar s.type, s.type.token, f.name, f.id,
          some (Declarations.defaultLiteral s.type)⟩ := by
      simp only [Schema.Field.listed?, type]
    rw [List.filterMap_cons_some listed, Fields.listed, ih opens.2]
    rfl
  | @nested path package f fs shown inside m type resolved _ _ _ ih =>
    rw [List.forall_mem_cons] at opens
    have listed : f.listed? c package = some (.nested (dotted f.label) f.name f.id) := by
      simp only [Schema.Field.listed?, type, resolved, Option.map_some]
    rw [List.filterMap_cons_some listed, Fields.listed, ih opens.2]
    rfl

/-- Where types do not contain themselves and do not go below the deepest level, each part lists all
fields of its type. -/
theorem Message.BuiltFor.uniform (accepted : c.Accepted package) (built : v.BuiltFor c [] m)
    (mem : m ∈ c) (nests : c.NestsWithin maxLevels m) : v.Uniform := by
  have parts : ∀ p ∈ v.parts, ∃ path n, ∃ s ∈ c, p.BuiltFor c path s ∧ c.NestsWithin n s ∧
      c.Encloses (s.longName :: path) s ∧ (s.longName :: path).length + n ≤ maxLevels + 1 := by
    refine parts_induction ⟨[], maxLevels, m, mem, built, nests,
      Schema.Catalogue.encloses_self mem, Nat.le_of_eq (Nat.add_comm 1 maxLevels)⟩ ?_
    rintro p ⟨path, n, s, -, built, nests, around, room⟩ x held
    obtain ⟨f, declared, s', type, resolved, -, inner⟩ := built.2.exists_of_held held
    have holds : c.Holds s s' := ⟨f, declared, type, resolved⟩
    have mem' := Schema.Catalogue.mem_of_holds holds
    obtain ⟨n, rfl⟩ := Nat.exists_eq_succ_of_ne_zero (Nat.ne_of_gt nests.pos)
    refine ⟨s.longName :: path, n, s', mem', inner, nests.of_holds holds,
      around.of_holds holds mem', ?_⟩
    rw [List.length_cons]
    omega
  have fields : ∀ p ∈ v.parts, ∃ s ∈ c, p.header = s.header ∧
      p.fields.listed = s.fields.filterMap (Schema.Field.listed? c s.package) := by
    intro p part
    obtain ⟨path, n, s, hs, built, nests, around, room⟩ := parts p part
    refine ⟨s, hs, built.1, built.2.listed_eq fun f declared s' type resolved => ?_⟩
    have holds : c.Holds s s' := ⟨f, declared, type, resolved⟩
    obtain ⟨n, rfl⟩ := Nat.exists_eq_succ_of_ne_zero (Nat.ne_of_gt nests.pos)
    have deeper := (nests.of_holds holds).pos
    exact ⟨around.fresh accepted.clean.names nests holds, by omega⟩
  intro p hp q hq same
  obtain ⟨s, hs, header, listed⟩ := fields p hp
  obtain ⟨t, ht, header', listed'⟩ := fields q hq
  have names : s.longName = t.longName := by
    rw [header, header'] at same
    exact same
  obtain rfl := List.inj_on_of_nodup_map accepted.clean.names hs ht names
  rw [declaration, declaration, header, header', listed, listed']

/-- Without a package each nested field is labelled with the long name of its message. -/
theorem Message.BuiltFor.label_eq (accepted : c.Accepted "") (built : v.BuiltFor c path m)
    (mem : m ∈ c) :
    ∀ p ∈ v.parts, ∀ x ∈ p.fields.held, dotted x.1.label = x.2.header.longName := by
  intro p part x held
  obtain ⟨_, s, hs, built⟩ := built.parts mem p part
  obtain ⟨-, s', resolved, inner⟩ := built.held accepted hs held
  have plain : ∀ m ∈ c, m.package = "" := fun m mem => (accepted.written m mem).1
  rw [inner.longName_eq, Schema.Catalogue.longName_of_resolve? plain resolved]

/-- In a specification that was read, a label resolves to the message it stands for when it is the
long name of that message. -/
theorem Message.resolve?_declarations (names : (v.declarations.map (·.longName)).Nodup)
    (part : p ∈ v.parts) {label : String} :
    Catalogue.resolve? v.declarations label "" = some p.declaration ↔
      label = p.header.longName := by
  constructor
  · intro resolved
    have same := Schema.Catalogue.longName_of_resolve? package_of_mem_declarations resolved
    rw [← same, longName_declaration]
  · rintro rfl
    rw [← longName_declaration]
    exact Schema.Catalogue.resolve?_of_mem names (declaration_mem part) ""

/-- The specification that is made from a decoded record is accepted if all parts of one type show
the same fields, and else is refused for names that are used twice. Once it is accepted, it declares
the type of each part one time, as the part shows it, and a nested field resolves to the type of the
message in it just when its label is that type's long name. Parts of one type always show the same
fields when types do not contain themselves and nest at most 64 levels; labels are long names when
there is no package. -/
theorem parse_specification_ofDecoder {text : String} {c : Catalogue} {m : Schema.Message}
    (read : Schema.parse text = .ok c) (few : ∀ m ∈ c, m.fields.length < UInt32.size)
    (mem : m ∈ c) {σ : Type} (d : Decoder σ) (s : σ) :
    let r := (Record.ofDecoder d m c s).1
    let specification := (r.walk Declarations.pass .empty).2.text
    ((∃ ms, Schema.parse specification = .ok ms) ↔ r.view.Uniform) ∧
      (¬ r.view.Uniform →
        ∃ e, Schema.parse specification = .error e ∧ e.code = "DUPLICATE_IDENTIFIERS") ∧
      (∀ ms, Schema.parse specification = .ok ms → ∀ p ∈ r.view.parts,
        (ms.map (·.longName)).count p.header.longName = 1 ∧ p.declaration ∈ ms ∧
          ∀ x ∈ p.fields.held,
            Catalogue.resolve? ms (dotted x.1.label) "" = some x.2.declaration ↔
              dotted x.1.label = x.2.header.longName) ∧
      (c.NestsWithin maxLevels m → r.view.Uniform) ∧
      (m.package = "" →
        ∀ p ∈ r.view.parts, ∀ x ∈ p.fields.held, dotted x.1.label = x.2.header.longName) := by
  intro r specification
  obtain ⟨package, accepted⟩ := Schema.Catalogue.accepted_of_parse read few
  have built : r.view.BuiltFor c [] m := Record.built_ofDecoder accepted.clean.fieldIds mem s
  have distinct : r.Distinct := Record.distinct_ofDecoder accepted.clean.fieldIds mem s
  have shown : specification = r.view.specification :=
    congrArg (fun walked => walked.2.text) (r.walk_view Declarations.pass distinct .empty).symm
  have declares := Message.declares_specification (built.written accepted mem)
  rw [← shown] at declares
  have ambiguous : ¬ r.view.Uniform → ¬ Schema.Unambiguous r.view.declarations :=
    fun other clean => other (Message.uniform_of_names_nodup clean.names)
  refine ⟨⟨?_, fun uniform => ?_⟩, fun other => ?_, fun ms again p part => ?_,
    built.uniform accepted mem, fun plain => ?_⟩
  · rintro ⟨ms, again⟩
    obtain rfl := (Schema.declares_of_parse again).unique declares
    exact Message.uniform_of_names_nodup (Schema.unambiguous_of_parse again).names
  · exact ⟨_, Schema.parse_of_unambiguous declares (built.unambiguous accepted mem uniform)⟩
  · obtain ⟨conflict, refused⟩ := Schema.parse_of_ambiguous declares (ambiguous other)
    exact ⟨_, refused, rfl⟩
  · obtain rfl := (Schema.declares_of_parse again).unique declares
    have names := (Schema.unambiguous_of_parse again).names
    have declared := Message.declaration_mem part
    refine ⟨?_, declared, fun x held => ?_⟩
    · rw [← Message.longName_declaration]
      exact List.count_eq_one_of_mem names (List.mem_map_of_mem declared)
    · exact Message.resolve?_declarations names (Message.held_mem_parts part held)
  · obtain rfl : package = "" := by rw [← (accepted.written m mem).1, plain]
    exact built.label_eq accepted mem

def parcelText : String :=
  "package p; message Item [id = 1] \x7b uint8 v; \x7d message Parcel [id = 2] \x7b Item item; \x7d"

def parcelItem : Schema.Message := ⟨"p", "Item", 1, [⟨.scalar (.uint .w8), "uint8", "v", 1, none⟩]⟩

def parcel : Schema.Message := ⟨"p", "Parcel", 2, [⟨.message, "Item", "item", 1, none⟩]⟩

theorem nestsWithin_parcel : Catalogue.NestsWithin [parcelItem, parcel] maxLevels parcel := by
  refine Schema.Catalogue.nestsWithin_succ fun inner holds => ?_
  obtain ⟨f, mem, -, resolved⟩ := holds
  obtain rfl := List.mem_singleton.1 mem
  have known : Catalogue.resolve? [parcelItem, parcel] "Item" "p" = some parcelItem := by
    decide +kernel
  obtain rfl := Option.some.inj (known.symm.trans resolved)
  refine Schema.Catalogue.nestsWithin_succ fun inner holds => ?_
  obtain ⟨f, mem, type, -⟩ := holds
  obtain rfl := List.mem_singleton.1 mem
  cases type

theorem ofDecoder_parcel :
    (Record.ofDecoder Wire.decoder parcel [parcelItem, parcel]
        (Wire.decoder.prime [0x0A, 2, 8, 5])).1 =
      ⟨parcel, [parcelItem, parcel],
        .record 1 parcelItem [parcelItem, parcel] (.scalar 1 ⟨.uint .w8, 5#8⟩ .nil) .nil⟩ := by
  have known : Catalogue.resolve? [parcelItem, parcel] "Item" "p" = some parcelItem := by
    decide +kernel
  have item : parcelItem.fields = [⟨.scalar (.uint .w8), "uint8", "v", 1, none⟩] := rfl
  have fields : parcel.fields = [⟨.message, "Item", "item", 1, none⟩] := rfl
  have number : ((Wire.Decoding.ofBytes 0 [8, 5]).scalar 1 (.uint .w8) 0).1 = 5 := by
    decide +kernel
  rw [Record.ofDecoder, fields, addDecoded_built [8, 5] rfl known (by decide) (by decide +kernel)
    (by decide), item, addDecoded_scalar rfl, addDecoded_nil, addDecoded_nil]
  exact congrArg (fun v => (⟨parcel, [parcelItem, parcel],
    .record 1 parcelItem _ (.scalar 1 ⟨.uint .w8, v⟩ .nil) .nil⟩ : Record)) number

/-- The specification of a parcel declares its item as `p.Item`, but the field that holds the item
is still labelled `Item`, which resolves to nothing there. -/
theorem parse_specification_ofDecoder_parcel :
    Schema.parse parcelText = .ok [parcelItem, parcel] ∧
      (∀ m ∈ [parcelItem, parcel], m.fields.length < UInt32.size) ∧
      parcel ∈ [parcelItem, parcel] ∧
      let r := (Record.ofDecoder Wire.decoder parcel [parcelItem, parcel]
        (Wire.decoder.prime [0x0A, 2, 8, 5])).1
      let specification := (r.walk Declarations.pass .empty).2.text
      (∃ ms, Schema.parse specification = .ok ms) ∧
        ∀ ms, Schema.parse specification = .ok ms →
          ∃ x ∈ r.view.fields.held, x.1.label = "Item" ∧
            Catalogue.resolve? ms (dotted x.1.label) "" ≠ some x.2.declaration := by
  have read : Schema.parse parcelText = .ok [parcelItem, parcel] := by decide +kernel
  have few : ∀ m ∈ [parcelItem, parcel], m.fields.length < UInt32.size := by decide
  have mem : parcel ∈ [parcelItem, parcel] := by simp
  obtain ⟨accepted, -, resolves, uniform, -⟩ := parse_specification_ofDecoder read few mem
    Wire.decoder (Wire.decoder.prime [0x0A, 2, 8, 5])
  refine ⟨read, few, mem, accepted.2 (uniform nestsWithin_parcel), fun ms again => ?_⟩
  obtain ⟨-, -, labels⟩ := resolves ms again _ (Message.self_mem_parts _)
  have item : (⟨⟨1, "Item", "item"⟩, ⟨⟨1, "Item", "p.Item"⟩,
        .scalar ⟨1, "uint8", "v"⟩ ⟨.uint .w8, 5#8⟩ .nil⟩⟩ : FieldTag × Message) ∈
      (Record.ofDecoder Wire.decoder parcel [parcelItem, parcel]
        (Wire.decoder.prime [0x0A, 2, 8, 5])).1.view.fields.held := by
    rw [ofDecoder_parcel]
    exact List.mem_cons_self ..
  refine ⟨_, item, rfl, fun resolved => ?_⟩
  exact absurd ((labels _ item).1 resolved) (by decide +kernel)

def nodeText : String :=
  "message Node [id = 1] \x7b Node next [id = 1]; uint8 v [id = 2]; \x7d"

def node : Schema.Message :=
  ⟨"", "Node", 1,
    [⟨.message, "Node", "next", 1, none⟩, ⟨.scalar (.uint .w8), "uint8", "v", 2, none⟩]⟩

theorem decode_node :
    (Record.decode Wire.decoder node [node] [0x0A, 2, 0x10, 1]).1 =
      ⟨node, [node], .record 1 node [node] (.scalar 2 ⟨.uint .w8, 1#8⟩ .nil)
        (.scalar 2 ⟨.uint .w8, 0#8⟩ .nil)⟩ := by
  have known : Catalogue.resolve? [node] "Node" "" = some node := by decide +kernel
  have fields : node.fields =
      [⟨.message, "Node", "next", 1, none⟩, ⟨.scalar (.uint .w8), "uint8", "v", 2, none⟩] := rfl
  have inner : (addDecoded Wire.decoder [node] ["Node", "Node"] "" node.fields .nil
      (.ofBytes 0 [0x10, 1])).1 = .scalar 2 ⟨.uint .w8, 1#8⟩ .nil := by
    rw [fields, addDecoded_closed rfl known (by decide) (by decide +kernel),
      addDecoded_scalar rfl, addDecoded_nil]
    refine congrArg (fun v => Entries.scalar 2 ⟨.uint .w8, v⟩ .nil) ?_
    decide +kernel
  rw [Record.decode, Record.ofDecoder, fields, addDecoded_built [0x10, 1] rfl known (by decide)
    (by decide +kernel) (by decide), addDecoded_scalar rfl, addDecoded_nil]
  refine congrArg₂ (fun inner v => (⟨node, [node], .record 1 node [node] inner
    (.scalar 2 ⟨.uint .w8, v⟩ .nil)⟩ : Record)) inner ?_
  decide +kernel

/-- A node in a node: the outer one shows both fields, the inner one shows no further node. The
specification declares the type both ways and is refused. -/
theorem parse_specification_node :
    Schema.parse nodeText = .ok [node] ∧ node ∈ [node] ∧
      Schema.parse ((Record.decode Wire.decoder node [node] [0x0A, 2, 0x10, 1]).1.walk
        Declarations.pass .empty).2.text = .error (.ambiguous (.messageId 1)) := by
  refine ⟨by decide +kernel, List.mem_singleton.2 rfl, ?_⟩
  rw [decode_node]
  decide +kernel

end MessageCodec
