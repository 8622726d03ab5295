import MessageCodec.Proofs.Json.Encoder
import MessageCodec.Proofs.Wire.Normal

/-! Records as JSON objects. A record that is read from its binary form and has no floating-point
numbers becomes a plain object, and the same record is built from that object. Each nested record
goes through a text of its own on the way back. -/

namespace MessageCodec

open Schema (Catalogue)
open Record (decoded? decodedInner? addDecoded)

def Content.json : Content → Json
  | scalar s => .ofScalar s.type s.value
  | message m => .object m.fields.members

namespace Fields

variable {content? : UInt32 → Option Content} {fs : List Schema.Field}

/-- The fields that have some content become members, in the order of the schema. -/
theorem members_arrange (content? : UInt32 → Option Content) (fs : List Schema.Field) :
    (arrange content? fs).members =
      fs.filterMap fun f => (content? f.id).map fun x => (f.name, x.json) := by
  induction fs with
  | nil => rfl
  | cons f fs ih =>
    rw [arrange, List.filterMap_cons]
    cases content? f.id with
    | none => exact ih
    | some x => cases x <;> exact congrArg (_ :: ·) ih

theorem names_arrange_sublist (content? : UInt32 → Option Content) (fs : List Schema.Field) :
    (arrange content? fs).names.Sublist (fs.map (·.name)) := by
  induction fs with
  | nil => exact .slnil
  | cons f fs ih =>
    rw [arrange, List.map_cons]
    split
    · exact ih.cons f.name
    · exact ih.cons_cons f.name
    · exact ih.cons_cons f.name

theorem named_arrange (names : (fs.map (·.name)).Nodup)
    (inner : ∀ f ∈ fs, ∀ m, content? f.id = some (.message m) → m.fields.DistinctNames) :
    (arrange content? fs).DistinctNames := by
  induction fs with
  | nil => trivial
  | cons f fs ih =>
    rw [List.map_cons, List.nodup_cons] at names
    rw [List.forall_mem_cons] at inner
    have behind := ih names.2 inner.2
    have new : f.name ∉ (arrange content? fs).names :=
      fun mem => names.1 ((names_arrange_sublist content? fs).subset mem)
    rw [arrange]
    split
    · exact behind
    · exact ⟨new, behind⟩
    · rename_i m held
      exact ⟨new, inner.1 m held, behind⟩

theorem mem_members_arrange {member : String × Json} :
    member ∈ (arrange content? fs).members ↔
      ∃ f ∈ fs, ∃ x, content? f.id = some x ∧ (f.name, x.json) = member := by
  simp only [members_arrange, List.mem_filterMap, Option.map_eq_some_iff]

theorem find?_members_arrange (names : (fs.map (·.name)).Nodup) {f : Schema.Field} (mem : f ∈ fs) :
    (arrange content? fs).members.find? f.name = (content? f.id).map Content.json := by
  cases held : content? f.id with
  | none =>
    refine Json.Members.find?_of_not_mem fun named => ?_
    obtain ⟨member, found, same⟩ := List.mem_map.1 named
    obtain ⟨g, declared, x, given, rfl⟩ := mem_members_arrange.1 found
    obtain rfl := List.inj_on_of_nodup_map names declared mem same
    rw [held] at given
    cases given
  | some x =>
    refine Json.Members.find?_of_mem ?_ (mem_members_arrange.2 ⟨f, mem, x, held, rfl⟩)
    rw [map_fst_members]
    exact (names_arrange_sublist content? fs).nodup names

end Fields

namespace Schema.Catalogue

/-- No message that can be nested in `m`, itself included, has a field in floating point. -/
def FloatFree (c : Catalogue) (m : Schema.Message) : Prop :=
  ∀ inner, Relation.ReflTransGen c.Holds m inner →
    ∀ f ∈ inner.fields, f.type ≠ .scalar .float ∧ f.type ≠ .scalar .double

theorem FloatFree.of_holds {c : Catalogue} {m inner : Schema.Message} (free : c.FloatFree m)
    (holds : c.Holds m inner) : c.FloatFree inner :=
  fun deeper chain => free deeper (.head holds chain)

end Schema.Catalogue

namespace Json

open Wire (Builds read)

variable {c : Catalogue} {path : List String} {package : String} {f : Schema.Field}
variable {m : Schema.Message} {members : Members}

theorem encode_ne_nil {s : String} (filled : s ≠ "") : Utf8.encode s ≠ [] := by
  intro empty
  have read := Utf8.decode?_encode s
  rw [empty] at read
  exact filled (Option.some.inj read).symm

theorem object_text_ne_empty (members : Members) : (Json.object members).text ≠ "" := by
  intro empty
  have chars := congrArg String.toList empty
  rw [text, String.toList_ofList, render] at chars
  cases chars

section Inner

variable {tag : FieldTag}

theorem decodedInner?_of_object {inner : Members}
    (found : members.find? tag.name = some (.object inner))
    (plain : Plain maxNesting (.object inner)) (shallow : path.length < maxLevels) :
    decodedInner? decoder c path tag m members =
      (some (.record
        ⟨m, c, (addDecoded decoder c (m.longName :: path) m.package m.fields .nil inner).1⟩),
        members) := by
  have given : decoder.scalar tag .bytes [] members =
      (Utf8.encode (Json.object inner).text, members) := by
    change (fillScalar members tag.name .bytes [], members) = _
    rw [fillScalar, found]
    rfl
  have filled : (Utf8.encode (Json.object inner).text).isEmpty = false := by
    rw [List.isEmpty_eq_false_iff]
    exact encode_ne_nil (object_text_ne_empty inner)
  simp only [decodedInner?, given, filled, prime_of_plain plain, Bool.false_and,
    Bool.false_eq_true, Nat.not_le.2 shallow, if_false]
  rfl

/-- Where there is no object, no nested record is built, unless it would be from nothing. -/
theorem decodedInner?_of_absent (absent : members.find? tag.name = none)
    (closed : ¬ Builds path m []) :
    decodedInner? decoder c path tag m members = (none, members) := by
  have given : decoder.scalar tag .bytes [] members = ([], members) := by
    change (fillScalar members tag.name .bytes [], members) = _
    rw [fillScalar, absent]
    rfl
  simp only [decodedInner?, given, List.isEmpty_nil, Bool.true_and, decide_eq_true_eq, if_true]
  split
  · rfl
  · rename_i fresh
    split
    · rfl
    · rename_i shallow
      exact absurd ⟨Nat.lt_of_not_le shallow, fun around => absurd around fresh⟩ closed

end Inner

end Json

namespace Wire

open Json (Plain)

variable {c : Catalogue} {path : List String} {f : Schema.Field} {m : Schema.Message} {bs : Bytes}

/-- The fields that a record of a message shows after it is read from a buffer. -/
def shown (c : Catalogue) (path : List String) (m : Schema.Message) (bs : Bytes) : Fields :=
  .arrange (read c path m bs).1.content? m.fields

/-- The object of a record is plain, and the record is built from it. -/
structure Restores (c : Catalogue) (path : List String) (m : Schema.Message) (bs : Bytes) :
    Prop where
  named : (shown c path m bs).DistinctNames
  plain (n : Nat) : maxLevels - path.length < n → Plain n (.object (shown c path m bs).members)
  back : (addDecoded Json.decoder c path m.package m.fields .nil (shown c path m bs).members).1 =
    (read c path m bs).1

/-- The value that a field gets from a buffer. -/
def value? (c : Catalogue) (path : List String) (m : Schema.Message) (bs : Bytes)
    (f : Schema.Field) : Option Value :=
  (decoded? decoder c path m.package f (.ofBytes 0 bs)).1

/-- The content of a field is plain, and its value comes back from a member with that content. -/
structure FieldRestores (c : Catalogue) (path : List String) (m : Schema.Message) (bs : Bytes)
    (f : Schema.Field) : Prop where
  named (inner : Message) : (value? c path m bs f).map Value.content = some (.message inner) →
    inner.fields.DistinctNames
  plain (n : Nat) : maxLevels - path.length ≤ n → ∀ v, value? c path m bs f = some v →
    Plain n v.content.json
  back (members : Json.Members) :
    members.find? f.name = (value? c path m bs f).map (·.content.json) →
      decoded? Json.decoder c path m.package f members = (value? c path m bs f, members)

theorem restores_of_fields (ids : (m.fields.map (·.id)).Nodup)
    (names : (m.fields.map (·.name)).Nodup)
    (fields : ∀ f ∈ m.fields, FieldRestores c path m bs f) : Restores c path m bs := by
  have content : ∀ f ∈ m.fields,
      (read c path m bs).1.content? f.id = (value? c path m bs f).map Value.content := by
    intro f mem
    rw [Entries.content?_eq]
    exact congrArg (Option.map Value.content) (Decoding.get?_addDecoded ids (fun _ _ => rfl) f mem)
  have named : (shown c path m bs).DistinctNames := by
    refine Fields.named_arrange names fun f mem inner held => ?_
    rw [content f mem] at held
    exact (fields f mem).named inner held
  refine ⟨named, fun n deep => ?_, ?_⟩
  · obtain ⟨n, rfl⟩ := Nat.exists_eq_add_of_lt deep
    refine .object ?_ fun member mem => ?_
    · rw [Fields.map_fst_members]
      exact named.nodup_names
    · obtain ⟨f, declared, x, held, rfl⟩ := Fields.mem_members_arrange.1 mem
      rw [content f declared, Option.map_eq_some_iff] at held
      obtain ⟨v, held, rfl⟩ := held
      exact (fields f declared).plain _ (Nat.le_add_right ..) v held
  · refine Record.addDecoded_congr (R := fun members d =>
      members = (shown c path m bs).members ∧ d.table = (Decoding.ofBytes 0 bs).table)
      ?_ .nil ⟨rfl, rfl⟩
    rintro f mem members d ⟨rfl, same⟩
    have found : (shown c path m bs).members.find? f.name =
        (value? c path m bs f).map (·.content.json) := by
      rw [shown, Fields.find?_members_arrange names mem, content f mem, Option.map_map]
      rfl
    rw [(fields f mem).back _ found]
    refine ⟨?_, rfl, ?_⟩
    · exact (Decoding.decoded?_congr (congrArg (·.find? f.id) same)).symm
    · exact (Decoding.table_decoded? ..).trans same

theorem fieldRestores_of_none (nothing : value? c path m bs f = none)
    (back : ∀ members, members.find? f.name = none →
      decoded? Json.decoder c path m.package f members = (none, members)) :
    FieldRestores c path m bs f := by
  refine ⟨fun inner held => ?_, fun n deep v held => ?_, fun members found => ?_⟩
  · rw [nothing] at held
    cases held
  · rw [nothing] at held
    cases held
  · rw [nothing] at found ⊢
    exact back members found

theorem fieldRestores_of_scalar {t : ScalarType} (type : f.type = .scalar t) (single : t ≠ .float)
    (double : t ≠ .double) : FieldRestores c path m bs f := by
  obtain ⟨v, value⟩ : ∃ v : t.Value, value? c path m bs f = some (.scalar ⟨t, v⟩) := by
    rw [value?, decoded?, type]
    exact ⟨_, rfl⟩
  refine ⟨fun inner held => ?_, fun n deep w held => ?_, fun members found => ?_⟩
  · rw [value] at held
    cases held
  · rw [value] at held
    cases held
    exact Json.plain_ofScalar single double v n
  · have filled : Json.fillScalar members f.name t t.zero = v := by
      rw [Json.fillScalar, found, value]
      change (Json.fit? t (Json.ofScalar t v)).getD t.zero = v
      rw [Json.fit?_ofScalar single double]
      rfl
    rw [decoded?, type, value, ← filled]
    rfl

theorem fieldRestores_of_message {inner : Schema.Message} (type : f.type = .message)
    (resolved : c.resolve? f.label m.package = some inner)
    (restores : ∀ bs, path.length < maxLevels → Restores c (inner.longName :: path) inner bs) :
    FieldRestores c path m bs f := by
  have built (d : Decoding) : decoded? decoder c path m.package f d =
      decodedInner? decoder c path f.tag inner d := by
    rw [decoded?, type]
    simp only [resolved]
  have rebuilt (members : Json.Members) : decoded? Json.decoder c path m.package f members =
      decodedInner? Json.decoder c path f.tag inner members := by
    rw [decoded?, type]
    simp only [resolved]
  let given := ((Decoding.ofBytes 0 bs).scalar f.id .bytes []).1
  by_cases builds : Builds path inner given
  · have shallow : path.length < maxLevels := builds.1
    obtain ⟨named, plain, back⟩ := restores given shallow
    have value : value? c path m bs f =
        some (.record ⟨inner, c, (read c (inner.longName :: path) inner given).1⟩) := by
      rw [value?, built, decodedInner?_of_builds rfl builds]
      rfl
    have fits : maxLevels - (inner.longName :: path).length < Json.maxNesting :=
      Nat.lt_of_le_of_lt (Nat.sub_le ..) (by decide)
    refine ⟨fun outer held => ?_, fun n deep w held => ?_, fun members found => ?_⟩
    · rw [value] at held
      cases held
      exact named
    · rw [value] at held
      cases held
      refine plain n ?_
      rw [List.length_cons]
      omega
    · rw [value] at found
      rw [rebuilt, Json.decodedInner?_of_object found (plain _ fits) shallow, value, ← back]
  · refine fieldRestores_of_none ?_ fun members absent => ?_
    · rw [value?, built]
      exact (decodedInner?_of_not_builds rfl builds).1
    · rw [rebuilt]
      exact Json.decodedInner?_of_absent absent fun empty => builds (empty.of_nil _)

/-- What is built without floating point is restored from its object. -/
theorem restores (ids : ∀ m ∈ c, (m.fields.map (·.id)).Nodup)
    (names : ∀ m ∈ c, (m.fields.map (·.name)).Nodup) (mem : m ∈ c) (free : c.FloatFree m)
    (path : List String) (bs : Bytes) : Restores c path m bs := by
  induction left : maxLevels - path.length using Nat.strongRecOn generalizing path m bs with
  | ind n ih =>
    subst left
    refine restores_of_fields (ids m mem) (names m mem) fun f declared => ?_
    cases type : f.type with
    | undefined =>
      refine fieldRestores_of_none ?_ fun members _ => ?_
      · rw [value?, decoded?, type]
      · rw [decoded?, type]
    | scalar t =>
      obtain ⟨single, double⟩ := free m .refl f declared
      rw [type] at single double
      exact fieldRestores_of_scalar type (mt (congrArg _) single) (mt (congrArg _) double)
    | message =>
      cases resolved : c.resolve? f.label m.package with
      | none =>
        refine fieldRestores_of_none ?_ fun members _ => ?_
        · rw [value?, decoded?, type]
          simp only [resolved]
        · rw [decoded?, type]
          simp only [resolved]
      | some inner =>
        refine fieldRestores_of_message type resolved fun bs shallow => ?_
        have memInner := Schema.Catalogue.mem_of_resolve? resolved
        have freeInner := free.of_holds ⟨f, declared, type, resolved⟩
        refine ih _ ?_ memInner freeInner (inner.longName :: path) bs rfl
        rw [List.length_cons]
        omega

end Wire

end MessageCodec
