import Mathlib.Data.List.Nodup
import MessageCodec.Proofs.Declarations.Parts
import MessageCodec.Proofs.Schema.Resolution

/-! The specification of a message, read again. Its text declares the types of the parts, each
declaration once. It is accepted when parts of one long name are declared alike: then no message
is nested in one of its own type, and the names of the declarations are distinct. -/

namespace MessageCodec

namespace Schema

open Comment (Clean IsPlain)

/-- The texts of messages without a package, one behind the other, declare these messages. -/
theorem declares_texts (ms : List Message) (written : ∀ m ∈ ms, m.package = "" ∧ m.Written)
    (plain : ∀ c ∈ quotedDefaults ms, IsPlain c) :
    Declares (String.join (ms.map Message.text)) ms := by
  obtain ⟨ts, messages, splits⟩ := Splits.messages Message.text
    fun m mem _ _ behind => (written m mem).1 ▸ Splits.text (written m mem).2 behind
  have clean : Clean (String.join (ms.map Message.text)).toList := by
    rw [(clean_iff_of_splits splits).2, messages.quotes_eq (isLexeme_of_splits splits),
      ← List.append_nil (quotedDefaults ms), Comment.clean_append_of_plain plain]
    trivial
  refine ⟨ts, ?_, .plain messages⟩
  rwa [Comment.strip_of_clean clean]

namespace Catalogue

variable {c : Catalogue} {m : Message}

theorem longName_of_resolve? (plain : ∀ m ∈ c, m.package = "") {label : String}
    (resolved : c.resolve? label "" = some m) : m.longName = label := by
  rw [resolve?, Option.or_eq_some_iff] at resolved
  rcases resolved with found | ⟨-, found⟩
  · simpa using List.find?_some found
  · have named : List.find? (·.name == label) c = some m := by simpa using found
    rw [longName_of_package (plain m (List.mem_of_find?_eq_some named))]
    simpa using List.find?_some named

end Catalogue

end Schema

namespace Declarations

open Schema (quotedDefault quotedDefaults)
open Schema.Comment (IsPlain)

theorem dottedChars_of_not_mem {cs : List Char} (plain : ':' ∉ cs) : dottedChars cs = cs := by
  fun_induction dottedChars cs with
  | case1 => simp at plain
  | case2 _ _ _ ih => rw [ih fun mem => plain (List.mem_cons_of_mem _ mem)]
  | case3 => rfl

theorem dotted_of_isDotted {label : String} (h : Schema.IsDotted label) : dotted label = label := by
  rw [dotted, dottedChars_of_not_mem h.not_mem_colon, String.ofList_toList]

theorem isWord_token (t : ScalarType) : Schema.IsWord t.token.toList := by
  cases t with
  | int w => cases w <;> decide
  | uint w => cases w <;> decide
  | _ => decide

theorem isDefault_defaultLiteral (t : ScalarType) : Schema.IsDefault (defaultLiteral t) := by
  have zero : Schema.IsDefault "0" := by
    refine ⟨.number "0", trivial, .inl ⟨['0'], [], rfl, by simp, ?_, .inl rfl⟩, rfl⟩
    simp
  have fraction : Schema.IsDefault "0.0" := by
    refine ⟨.number "0.0", trivial,
      .inl ⟨['0'], ['.', '0'], rfl, by simp, ?_, .inr ⟨['0'], rfl, ?_⟩⟩, rfl⟩ <;> simp
  cases t with
  | bool =>
    have word : Schema.IsWord "false".toList := by decide
    exact ⟨.identifier "false", .inr rfl, word, rfl⟩
  | char => exact ⟨.character '0', trivial, by simp [Schema.Token.IsLexeme], rfl⟩
  | int w => exact zero
  | uint w => exact zero
  | float => exact fraction
  | double => exact fraction
  | string => exact ⟨.string "", trivial, by simp [Schema.Token.IsLexeme], rfl⟩
  | bytes => exact ⟨.string "", trivial, by simp [Schema.Token.IsLexeme], rfl⟩

/-- The declaration of a message can be written down if its names can, no field has the
identifier zero, and the labels of nested messages are no scalar types. -/
theorem written_declaration {p : Message} (name : Schema.IsDotted p.header.longName)
    (nonneg : 0 ≤ p.header.id)
    (fields : ∀ f ∈ p.fields.listed, Schema.IsWord f.name.toList ∧ f.id ≠ 0)
    (labels : ∀ x ∈ p.fields.held, Schema.IsDotted (dotted x.1.label) ∧
      ScalarType.ofToken? (dotted x.1.label) = none) : p.declaration.Written where
  name := name
  id := nonneg
  fields f mem := by
    obtain ⟨word, nonzero⟩ := fields f mem
    have stated : ∀ id, some f.id = some id → id ≠ 0 := by
      rintro _ ⟨⟩
      exact nonzero
    rcases Fields.mem_listed mem with ⟨t, eq⟩ | ⟨x, held, rfl⟩
    · rw [eq]
      have label : Schema.IsDotted t.token := (isWord_token t).isDotted
      have default : ∀ text, some (defaultLiteral t) = some text → Schema.IsDefault text := by
        rintro _ ⟨⟩
        exact isDefault_defaultLiteral t
      refine ⟨⟨label, word, default, stated⟩, ?_⟩
      simp [Schema.Field.declaration, Schema.FieldDeclaration.numbered,
        ScalarType.ofToken?_token]
    · obtain ⟨label, message⟩ := labels x held
      have default : ∀ text : String, none = some text → Schema.IsDefault text := by
        rintro _ ⟨⟩
      refine ⟨⟨label, word, default, stated⟩, ?_⟩
      simp [Schema.Field.declaration, Schema.FieldDeclaration.numbered, Schema.Field.nested,
        message]

theorem isPlain_quotedDefault (t : ScalarType) :
    ∀ c ∈ quotedDefault (some (defaultLiteral t)), IsPlain c := by
  have plain : (quotedDefault (some (defaultLiteral t))).all fun c => c != '/' && c != '*' := by
    cases t <;> simp only [defaultLiteral] <;> decide
  intro c mem
  simpa [IsPlain] using List.all_eq_true.1 plain c mem

/-- No default that is declared has a slash or a star in it. -/
theorem isPlain_quotedDefaults (ps : List Message) :
    ∀ c ∈ quotedDefaults (ps.map Message.declaration), IsPlain c := by
  have fields (fs : Fields) : ∀ f ∈ fs.listed, ∀ c ∈ quotedDefault f.default?, IsPlain c := by
    induction fs with
    | nil => nofun
    | scalar tag s rest ih => exact List.forall_mem_cons.2 ⟨isPlain_quotedDefault s.type, ih⟩
    | nested tag header inner rest _ ih => exact List.forall_mem_cons.2 ⟨nofun, ih⟩
  intro c mem
  simp only [quotedDefaults, List.mem_flatMap, List.mem_map] at mem
  obtain ⟨-, ⟨p, -, rfl⟩, f, listed, inside⟩ := mem
  exact fields p.fields f listed c inside

end Declarations

namespace Message

open Declarations (adjoin mem_adjoin nodup_adjoin dotted)

/-- The declarations in the specification of a message: those of the types nested in it, each
once, and its own. -/
def declarations (m : Message) : List Schema.Message :=
  adjoin [] (m.fields.inner.map declaration) ++ [m.declaration]

variable {m p q : Message}

theorem longName_declaration (p : Message) : p.declaration.longName = p.header.longName :=
  Schema.longName_of_package rfl

theorem mem_declarations {s : Schema.Message} :
    s ∈ m.declarations ↔ ∃ p ∈ m.parts, p.declaration = s := by
  simp only [declarations, parts, List.mem_append, mem_adjoin, List.mem_map, List.mem_singleton]
  constructor
  · rintro ((⟨⟨⟩⟩ | ⟨p, mem, rfl⟩) | rfl)
    · exact ⟨p, .inl mem, rfl⟩
    · exact ⟨m, .inr rfl, rfl⟩
  · rintro ⟨p, mem | rfl, rfl⟩
    · exact .inl (.inr ⟨p, mem, rfl⟩)
    · exact .inr rfl

theorem declaration_mem (part : p ∈ m.parts) : p.declaration ∈ m.declarations :=
  mem_declarations.2 ⟨p, part, rfl⟩

theorem package_of_mem_declarations : ∀ s ∈ m.declarations, s.package = "" := by
  intro s mem
  obtain ⟨p, -, rfl⟩ := mem_declarations.1 mem
  rfl

/-- The specification of a message declares what it should, if that can be written down. -/
theorem declares_specification (written : ∀ p ∈ m.parts, p.declaration.Written) :
    Schema.Declares m.specification m.declarations := by
  -- a text declares one message only, so different declarations have different texts
  have told : ∀ p ∈ m.parts, ∀ q ∈ m.parts, p.declaration.text = q.declaration.text →
      p.declaration = q.declaration := by
    have alone (p : Message) (part : p ∈ m.parts) :
        Schema.Declares p.declaration.text [p.declaration] := by
      have declared := Schema.declares_texts ([p].map declaration) (by
        simpa using ⟨rfl, written p part⟩) (Declarations.isPlain_quotedDefaults [p])
      simpa using declared
    intro p hp q hq same
    have both := (alone p hp).unique (same ▸ alone q hq)
    exact (List.cons.inj both).1
  have texts : adjoin [] (m.fields.inner.map fun p => p.declaration.text) =
      (adjoin [] (m.fields.inner.map declaration)).map Schema.Message.text := by
    have nested : m.fields.inner ⊆ m.parts := List.subset_append_left ..
    rw [← Declarations.adjoin_map, List.map_map]
    · rfl
    · intro a ha b hb same
      obtain ⟨p, hp, rfl⟩ := List.mem_map.1 (by simpa using ha)
      obtain ⟨q, hq, rfl⟩ := List.mem_map.1 (by simpa using hb)
      exact told p (nested hp) q (nested hq) same
  have plain : ∀ c ∈ Schema.quotedDefaults m.declarations, Schema.Comment.IsPlain c := by
    intro c mem
    simp only [Schema.quotedDefaults, List.mem_flatMap] at mem
    obtain ⟨s, declared, f, listed, inside⟩ := mem
    obtain ⟨p, -, rfl⟩ := mem_declarations.1 declared
    refine Declarations.isPlain_quotedDefaults [p] c ?_
    simpa [Schema.quotedDefaults] using ⟨f, listed, inside⟩
  have declared := Schema.declares_texts m.declarations (fun s mem => by
    obtain ⟨p, part, rfl⟩ := mem_declarations.1 mem
    exact ⟨rfl, written p part⟩) plain
  rw [specification_eq, texts]
  simpa [declarations] using declared

/-- Parts of one long name are declared alike. -/
def Uniform (m : Message) : Prop :=
  ∀ p ∈ m.parts, ∀ q ∈ m.parts, p.header.longName = q.header.longName →
    p.declaration = q.declaration

/-- In parts of one long name, fields of one label hold messages of one long name. -/
def Labelled (m : Message) : Prop :=
  ∀ p ∈ m.parts, ∀ q ∈ m.parts, p.header.longName = q.header.longName →
    ∀ x ∈ p.fields.held, ∀ y ∈ q.fields.held, dotted x.1.label = dotted y.1.label →
      x.2.header.longName = y.2.header.longName

/-- Fields that are declared alike are nested equally deep. -/
theorem levels_eq_of_listed (uniform : m.Uniform) (labelled : m.Labelled) {fs gs : Fields}
    (same : fs.listed = gs.listed) (parts : ∀ x ∈ fs.held, x.2 ∈ m.parts)
    (parts' : ∀ y ∈ gs.held, y.2 ∈ m.parts)
    (labels : ∀ x ∈ fs.held, ∀ y ∈ gs.held, dotted x.1.label = dotted y.1.label →
      x.2.header.longName = y.2.header.longName) : fs.levels = gs.levels := by
  induction fs generalizing gs with
  | nil =>
    cases gs with
    | nil => rfl
    | _ => simp [Fields.listed] at same
  | scalar tag s rest ih =>
    cases gs with
    | scalar tag' s' rest' =>
      have levels : rest.levels = rest'.levels :=
        ih (List.cons.inj same).2 parts parts' labels
      exact levels
    | _ => simp [Fields.listed, Schema.Field.nested] at same
  | nested tag header inner rest ihInner ih =>
    cases gs with
    | nested tag' header' inner' rest' =>
      obtain ⟨first, behind⟩ := List.cons.inj same
      simp only [Fields.held, List.forall_mem_cons] at parts parts' labels
      have names := labels.1.1 (congrArg Schema.Field.label first)
      have alike := uniform _ parts.1 _ parts'.1 names
      have levels : inner.levels = inner'.levels :=
        ihInner (congrArg Schema.Message.fields alike)
          (fun x held => held_mem_parts parts.1 held) (fun y held => held_mem_parts parts'.1 held)
          (labelled _ parts.1 _ parts'.1 names)
      have others := ih behind parts.2 parts'.2 fun x hx y hy => (labels.2 x hx).2 y hy
      rw [Fields.levels, Fields.levels, levels, others]
    | _ => simp [Fields.listed, Schema.Field.nested] at same

/-- No message is nested in one of its own name, because it would be as deep as that one. -/
theorem longName_ne_of_mem_inner (uniform : m.Uniform) (labelled : m.Labelled)
    (part : p ∈ m.parts) (nested : q ∈ p.fields.inner) :
    q.header.longName ≠ p.header.longName := by
  intro same
  have part' := inner_subset_parts part nested
  have fields := congrArg Schema.Message.fields (uniform q part' p part same)
  have levels := levels_eq_of_listed uniform labelled fields
    (fun x held => held_mem_parts part' held) (fun x held => held_mem_parts part held)
    (labelled q part' p part same)
  exact Nat.ne_of_lt (Fields.levels_lt_of_mem_inner nested) levels

theorem names_nodup (uniform : m.Uniform) (labelled : m.Labelled) :
    (m.declarations.map (·.longName)).Nodup := by
  refine List.Nodup.map_on (fun s hs t ht same => ?_) (List.nodup_append.2 ⟨?_, by simp, ?_⟩)
  · obtain ⟨p, hp, rfl⟩ := mem_declarations.1 hs
    obtain ⟨q, hq, rfl⟩ := mem_declarations.1 ht
    exact uniform p hp q hq (by simpa only [longName_declaration] using same)
  · exact nodup_adjoin List.nodup_nil _
  · intro s hs t ht same
    obtain rfl := List.mem_singleton.1 ht
    obtain ⟨p, nested, rfl⟩ := List.mem_map.1 ((mem_adjoin.1 hs).resolve_left List.not_mem_nil)
    have names := congrArg Schema.Message.longName same
    simp only [longName_declaration] at names
    exact longName_ne_of_mem_inner uniform labelled m.self_mem_parts nested names

theorem uniform_of_names_nodup (names : (m.declarations.map (·.longName)).Nodup) : m.Uniform := by
  intro p hp q hq same
  refine List.inj_on_of_nodup_map names (declaration_mem hp) (declaration_mem hq) ?_
  simpa only [longName_declaration] using same

/-- The declarations of a message whose parts are declared alike can stand in one specification,
if names and identifiers go together and the fields of each part are distinct. -/
theorem unambiguous_declarations (uniform : m.Uniform) (labelled : m.Labelled)
    (ids : ∀ p ∈ m.parts, ∀ q ∈ m.parts, p.header.id ≠ 0 → p.header.id = q.header.id →
      p.header.longName = q.header.longName)
    (fieldIds : ∀ p ∈ m.parts, (p.fields.listed.map (·.id)).Nodup)
    (fieldNames : ∀ p ∈ m.parts, (p.fields.listed.map (·.name)).Nodup) :
    Schema.Unambiguous m.declarations where
  ids := by
    rw [List.filter_map]
    refine List.Nodup.map_on (fun s hs t ht same => ?_)
      ((names_nodup uniform labelled).of_map _ |>.filter _)
    obtain ⟨hs, numbered⟩ := List.mem_filter.1 hs
    obtain ⟨p, hp, rfl⟩ := mem_declarations.1 hs
    obtain ⟨q, hq, rfl⟩ := mem_declarations.1 (List.mem_filter.1 ht).1
    exact uniform p hp q hq (ids p hp q hq (by simpa [declaration] using numbered) same)
  names := names_nodup uniform labelled
  fieldIds s mem := by
    obtain ⟨p, part, rfl⟩ := mem_declarations.1 mem
    exact fieldIds p part
  fieldNames s mem := by
    obtain ⟨p, part, rfl⟩ := mem_declarations.1 mem
    exact fieldNames p part

end Message

end MessageCodec
