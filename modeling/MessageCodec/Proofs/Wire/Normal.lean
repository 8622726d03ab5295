import MessageCodec.Proofs.Record.Decode
import MessageCodec.Proofs.Record.View
import MessageCodec.Proofs.Schema.Unambiguous
import MessageCodec.Proofs.Wire.FirstRecord
import MessageCodec.Proofs.Wire.Gather

/-! Normal forms of buffers. Whatever a buffer holds, what a record keeps of it is one
payload for each field that gets a value other than its default. Decoding these
payloads again passes nothing over and keeps all of them: everything that is lost is
lost at once, also in types that contain themselves and at the deepest level. -/

namespace MessageCodec.Wire

open Schema (Catalogue)
open Record (decoded? decodedInner? addDecoded)

variable {c : Catalogue} {path : List String} {package : String} {f : Schema.Field}
variable {m : Schema.Message}

namespace Payload

theorem ofField?_zero (t : ScalarType) : ofField? ⟨t, t.zero⟩ = none := by
  cases t <;> rfl

/-- A value that is not carried has no payload, and neither has the zero that comes back. -/
theorem ofField?_carried (s : Scalar) :
    ofField? ⟨s.type, if s.isCarried then s.value else s.type.zero⟩ = ofField? s := by
  have present := isSome_ofField? s
  cases carried : s.isCarried with
  | true => rfl
  | false =>
    rw [carried, Option.isSome_eq_false_iff, Option.isNone_iff_eq_none] at present
    rw [present]
    exact ofField?_zero s.type

theorem ofField?_bytes {bs : Bytes} (given : bs ≠ []) :
    ofField? ⟨.bytes, bs⟩ = some (delimited bs) :=
  if_neg (mt List.isEmpty_iff.1 given)

theorem carried_bytes (bs : Bytes) :
    (if Scalar.isCarried ⟨.bytes, bs⟩ then bs else []) = bs := by
  cases bs <;> rfl

end Payload

namespace Decoding

variable {d d' : Decoding}

theorem scalar_congr {id : UInt32} (same : d.table.find? id = d'.table.find? id) (t : ScalarType)
    (v : t.Value) : (d.scalar id t v).1 = (d'.scalar id t v).1 := by
  rw [Decoding.scalar, Decoding.scalar, same]
  cases d'.table.find? id with
  | none => rfl
  | some p =>
    dsimp only
    cases fit? t p <;> rfl

theorem table_decodedInner? (tag : FieldTag) :
    (decodedInner? decoder c path tag m d).2.table = d.table := by
  have read : (decoder.scalar tag .bytes [] d).2.table = d.table :=
    (fills_scalar d tag.id .bytes []).table
  simp only [decodedInner?]
  split
  · exact read
  · split
    · split
      · exact read
      · exact read
    · exact read

/-- The payload of a value that is read is no longer than the one it is read from. -/
theorem shortens_of_scalar {id : UInt32} {t : ScalarType} {q : Payload}
    (kept : Payload.ofField? ⟨t, (d.scalar id t t.zero).1⟩ = some q) :
    ∃ p, d.table.find? id = some p ∧ q.Shortens p := by
  rw [Decoding.scalar] at kept
  cases found : d.table.find? id with
  | none => simp [found, Payload.ofField?_zero] at kept
  | some p =>
    rw [found] at kept
    dsimp only at kept
    cases fit : fit? t p with
    | none => simp [fit, Payload.ofField?_zero] at kept
    | some v =>
      rw [fit, Payload.ofField?, Option.ite_none_left_eq_some] at kept
      exact ⟨p, rfl, Payload.shortens_of_fit? fit kept.2⟩

/-- What a field can get: no value, a scalar from its payload, or a record from its bytes. -/
theorem decoded?_cases (c : Catalogue) (path : List String) (package : String)
    (f : Schema.Field) :
    (∀ d, decoded? decoder c path package f d = (none, d)) ∨
      (∃ t : ScalarType, ∀ d : Decoding, decoded? decoder c path package f d =
        (some (.scalar ⟨t, (d.scalar f.id t t.zero).1⟩), (d.scalar f.id t t.zero).2)) ∨
      ∃ m ∈ c, ∀ d, decoded? decoder c path package f d =
        decodedInner? decoder c path f.tag m d := by
  unfold decoded?
  cases f.type with
  | undefined => exact .inl fun _ => rfl
  | scalar t => exact .inr (.inl ⟨t, fun _ => rfl⟩)
  | message =>
    cases resolved : c.resolve? f.label package with
    | none => exact .inl fun _ => rfl
    | some m =>
      have mem := Schema.Catalogue.mem_of_resolve? resolved
      exact .inr (.inr ⟨m, mem, fun _ => rfl⟩)

theorem table_decoded? : (decoded? decoder c path package f d).2.table = d.table := by
  obtain nothing | ⟨t, built⟩ | ⟨m, -, built⟩ := decoded?_cases c path package f
  · rw [nothing]
  · rw [built]
    exact (fills_scalar d f.id t t.zero).table
  · rw [built]
    exact table_decodedInner? f.tag

/-- The value of a field depends on its own payload only. -/
theorem decoded?_congr (same : d.table.find? f.id = d'.table.find? f.id) :
    (decoded? decoder c path package f d).1 = (decoded? decoder c path package f d').1 := by
  obtain nothing | ⟨t, built⟩ | ⟨m, -, built⟩ := decoded?_cases c path package f
  · rw [nothing, nothing]
  · rw [built, built, scalar_congr same]
  · have read : (decoder.scalar f.tag .bytes [] d).1 = (decoder.scalar f.tag .bytes [] d').1 :=
      scalar_congr same .bytes []
    rw [built, built]
    simp only [decodedInner?, read]
    split
    · rfl
    · split <;> rfl

/-- A record holds the value that each of its fields gets by itself. -/
theorem get?_addDecoded {fs : List Schema.Field} (distinct : (fs.map (·.id)).Nodup)
    {entries : Entries} (fresh : ∀ f ∈ fs, entries.get? f.id = none) :
    ∀ f ∈ fs, (addDecoded decoder c path package fs entries d).1.get? f.id =
      (decoded? decoder c path package f d).1 := by
  induction fs generalizing entries d with
  | nil => simp
  | cons f fs ih =>
    rw [List.map_cons, List.nodup_cons] at distinct
    rw [List.forall_mem_cons] at fresh ⊢
    rw [Record.addDecoded_cons]
    constructor
    · rw [Record.get?_addDecoded_of_ne distinct.1]
      cases (decoded? decoder c path package f d).1 with
      | none => exact fresh.1
      | some v => exact Entries.get?_insert_self ..
    · have later : ∀ g ∈ fs,
          (entries.put f.id (decoded? decoder c path package f d).1).get? g.id = none := by
        intro g mem
        have other := ne_of_mem_of_not_mem (List.mem_map_of_mem mem) distinct.1
        rw [Entries.get?_put_of_ne other.symm, fresh.2 g mem]
      intro g mem
      rw [ih distinct.2 later g mem]
      exact decoded?_congr (congrArg (·.find? g.id) table_decoded?)

end Decoding

/-- The payload that a field leaves in the binary form after it is built. -/
def kept? (c : Catalogue) (path : List String) (package : String) (d : Decoding)
    (f : Schema.Field) : Option Payload :=
  (decoded? decoder c path package f d).1.bind fun v => Payload.ofContent? v.content

/-- The payloads that a record of a message leaves in the binary form after it is read from a
buffer; the path holds the long names of the messages around its fields. -/
def kept (c : Catalogue) (path : List String) (m : Schema.Message) (bs : Bytes) : Table :=
  .gather (kept? c path m.package (.ofBytes 0 bs)) m.fields

/-- The entries that a record of a message gets from a buffer, and the state that is left. -/
def read (c : Catalogue) (path : List String) (m : Schema.Message) (bs : Bytes) :
    Entries × Decoding :=
  addDecoded decoder c path m.package m.fields .nil (.ofBytes 0 bs)

open Decoding

theorem table_arrange_read (distinct : (m.fields.map (·.id)).Nodup) (bs : Bytes) :
    (Fields.arrange (read c path m bs).1.content? m.fields).table = kept c path m bs := by
  rw [table_arrange]
  apply Table.gather_congr
  intro f mem
  have held : (read c path m bs).1.get? f.id = _ := get?_addDecoded distinct (fun _ _ => rfl) f mem
  rw [Entries.content?_eq, held, kept?]
  cases (decoded? decoder c path m.package f (.ofBytes 0 bs)).1 <;> rfl

/-- A field keeps no more than it finds, and all of what it keeps when it finds that again. -/
structure FieldSettles (c : Catalogue) (path : List String) (package : String)
    (f : Schema.Field) : Prop where
  shortens (d : Decoding) (q : Payload) : kept? c path package d f = some q →
    ∃ p, d.table.find? f.id = some p ∧ q.Shortens p
  again (d d' : Decoding) : d'.table.find? f.id = kept? c path package d f →
    kept? c path package d' f = kept? c path package d f ∧
      Asks d' (decoded? decoder c path package f d').2
        ((kept? c path package d f).toList.map fun _ => f.id)

/-- A message keeps no more than it finds, and all of what it keeps when it finds that again, in
which case nothing is passed over. -/
structure Settles (c : Catalogue) (path : List String) (m : Schema.Message) : Prop where
  shortens (bs : Bytes) : (kept c path m bs).bytes.length ≤ bs.length
  found (bs : Bytes) : ∀ f ∈ m.fields, (ofBytes 0 (kept c path m bs).bytes).table.find? f.id =
    kept? c path m.package (ofBytes 0 bs) f
  again (bs : Bytes) : kept c path m (kept c path m bs).bytes = kept c path m bs
  clean (bs : Bytes) : (read c path m (kept c path m bs).bytes).2.diagnostics = .none

theorem fieldSettles_of_none
    (nothing : ∀ d, decoded? decoder c path package f d = (none, d)) :
    FieldSettles c path package f := by
  refine ⟨fun d q kept => ?_, fun d d' found => ?_⟩
  · rw [kept?, nothing] at kept
    cases kept
  · rw [kept?, kept?, nothing, nothing]
    exact ⟨rfl, .refl d'⟩

section Scalars

variable {t : ScalarType}
variable (built : ∀ d : Decoding, decoded? decoder c path package f d =
  (some (.scalar ⟨t, (d.scalar f.id t t.zero).1⟩), (d.scalar f.id t t.zero).2))
include built

theorem kept?_of_scalar (d : Decoding) :
    kept? c path package d f = Payload.ofField? ⟨t, (d.scalar f.id t t.zero).1⟩ := by
  rw [kept?, built]
  rfl

theorem fieldSettles_of_scalar : FieldSettles c path package f := by
  have left := kept?_of_scalar built
  refine ⟨fun d q kept => ?_, fun d d' found => ?_⟩
  · rw [left] at kept
    exact shortens_of_scalar kept
  · rw [left] at found
    obtain ⟨value, asks⟩ := scalar_of_find? t.zero found
    rw [left, left, built, value]
    exact ⟨Payload.ofField?_carried ⟨t, _⟩, asks⟩

end Scalars

/-- Is a nested record built from some bytes? Only so many levels down it is, and without bytes only
if its type is not being built further out. -/
def Builds (path : List String) (m : Schema.Message) (bs : Bytes) : Prop :=
  path.length < maxLevels ∧ (m.longName ∈ path → bs ≠ [])

instance (path : List String) (m : Schema.Message) (bs : Bytes) : Decidable (Builds path m bs) :=
  inferInstanceAs (Decidable (_ ∧ _))

section Inner

variable {tag : FieldTag} {d : Decoding} {bs : Bytes}

/-- Whatever is built without bytes is built from any bytes. -/
theorem Builds.of_nil (builds : Builds path m []) (bs : Bytes) : Builds path m bs :=
  ⟨builds.1, fun around => absurd rfl (builds.2 around)⟩

theorem decodedInner?_of_builds (given : (d.scalar tag.id .bytes []).1 = bs)
    (builds : Builds path m bs) :
    decodedInner? decoder c path tag m d =
      (some (.record ⟨m, c, (read c (m.longName :: path) m bs).1⟩),
        (d.scalar tag.id .bytes []).2.absorb (read c (m.longName :: path) m bs).2) := by
  subst given
  have own : decoder.scalar tag .bytes [] d = d.scalar tag.id .bytes [] := rfl
  have given : ¬ ((d.scalar tag.id .bytes []).1.isEmpty && decide (m.longName ∈ path)) = true := by
    rw [Bool.and_eq_true, List.isEmpty_iff, decide_eq_true_eq]
    rintro ⟨empty, around⟩
    exact builds.2 around empty
  simp only [decodedInner?, own]
  rw [if_neg given, if_neg (Nat.not_le.2 builds.1)]
  rfl

theorem decodedInner?_of_not_builds (given : (d.scalar tag.id .bytes []).1 = bs)
    (closed : ¬ Builds path m bs) :
    (decodedInner? decoder c path tag m d).1 = none ∧
      (bs = [] → (decodedInner? decoder c path tag m d).2 = (d.scalar tag.id .bytes []).2) := by
  subst given
  have own : decoder.scalar tag .bytes [] d = d.scalar tag.id .bytes [] := rfl
  simp only [decodedInner?, own]
  split
  · exact ⟨rfl, fun _ => rfl⟩
  · rename_i given
    split
    · exact ⟨rfl, fun empty => if_pos (List.isEmpty_iff.2 empty)⟩
    · rename_i shallow
      refine absurd ⟨Nat.lt_of_not_le shallow, fun around empty => given ?_⟩ closed
      rw [Bool.and_eq_true, List.isEmpty_iff, decide_eq_true_eq]
      exact ⟨empty, around⟩

/-- What a nested record keeps of its bytes, if it is built from them. -/
def keptInner (c : Catalogue) (path : List String) (m : Schema.Message) (bs : Bytes) : Table :=
  if Builds path m bs then kept c (m.longName :: path) m bs else []

theorem keptInner_of_not_builds (closed : ¬ Builds path m bs) : keptInner c path m bs = [] :=
  if_neg closed

theorem keptInner_nil_of_not_builds (closed : ¬ Builds path m bs) : keptInner c path m [] = [] :=
  if_neg fun builds => closed (builds.of_nil bs)

variable (settles : path.length < maxLevels → Settles c (m.longName :: path) m)
include settles

theorem length_keptInner_le (bs : Bytes) : (keptInner c path m bs).bytes.length ≤ bs.length := by
  rw [keptInner]
  split
  · rename_i builds
    exact (settles builds.1).shortens bs
  · exact Nat.zero_le _

/-- What is kept is kept again, and where nothing is built again nothing was kept. -/
theorem keptInner_again (bs : Bytes) :
    keptInner c path m (keptInner c path m bs).bytes = keptInner c path m bs ∧
      (¬ Builds path m (keptInner c path m bs).bytes → keptInner c path m bs = []) := by
  by_cases builds : Builds path m bs
  · have own : keptInner c path m bs = kept c (m.longName :: path) m bs := if_pos builds
    rw [own]
    by_cases again : Builds path m (kept c (m.longName :: path) m bs).bytes
    · rw [keptInner, if_pos again]
      exact ⟨(settles builds.1).again bs, absurd again⟩
    · have nothing : kept c (m.longName :: path) m bs = [] := by
        by_contra filled
        exact again ⟨builds.1, fun _ => mt Table.bytes_eq_nil.1 filled⟩
      rw [keptInner, if_neg again, nothing]
      exact ⟨rfl, fun _ => rfl⟩
  · rw [keptInner_of_not_builds builds]
    exact ⟨keptInner_nil_of_not_builds builds, fun _ => rfl⟩

theorem snd_decodedInner?_again
    (given : (d.scalar tag.id .bytes []).1 = (keptInner c path m bs).bytes) :
    (decodedInner? decoder c path tag m d).2 = (d.scalar tag.id .bytes []).2 := by
  by_cases again : Builds path m (keptInner c path m bs).bytes
  · have builds : Builds path m bs := by
      by_contra closed
      rw [keptInner_of_not_builds closed] at again
      exact closed (again.of_nil bs)
    have own : keptInner c path m bs = kept c (m.longName :: path) m bs := if_pos builds
    have clean := (settles builds.1).clean bs
    rw [decodedInner?_of_builds given again, own]
    exact absorb_of_clean _ clean
  · have nothing := (keptInner_again settles bs).2 again
    exact (decodedInner?_of_not_builds given again).2 (by rw [nothing]; rfl)

end Inner

section Messages

variable (ids : (m.fields.map (·.id)).Nodup)
variable (built : ∀ d, decoded? decoder c path package f d = decodedInner? decoder c path f.tag m d)
include ids built

theorem kept?_of_message (d : Decoding) : kept? c path package d f =
    (keptInner c path m (d.scalar f.id .bytes []).1).payload? := by
  rw [kept?, built]
  have given : (d.scalar f.tag.id .bytes []).1 = (d.scalar f.id .bytes []).1 := rfl
  by_cases builds : Builds path m (d.scalar f.id .bytes []).1
  · rw [decodedInner?_of_builds given builds, keptInner, if_pos builds, ← table_arrange_read ids]
    rfl
  · rw [(decodedInner?_of_not_builds given builds).1, keptInner_of_not_builds builds]
    rfl

theorem fieldSettles_of_message
    (settles : path.length < maxLevels → Settles c (m.longName :: path) m) :
    FieldSettles c path package f := by
  have left := kept?_of_message ids built
  refine ⟨fun d q kept => ?_, fun d d' found => ?_⟩
  · have length := length_keptInner_le settles (d.scalar f.id .bytes []).1
    rw [left, Table.payload?, Option.ite_none_left_eq_some, Option.some.injEq] at kept
    obtain ⟨filled, rfl⟩ := kept
    have given : (d.scalar f.id .bytes []).1 ≠ [] := by
      intro empty
      rw [empty] at length filled
      have short := List.length_eq_zero_iff.1 (Nat.le_zero.1 length)
      exact filled (List.isEmpty_iff.2 (Table.bytes_eq_nil.1 short))
    obtain ⟨p, found, shortens⟩ := shortens_of_scalar (Payload.ofField?_bytes given)
    exact ⟨p, found, (Payload.shortens_delimited length).trans shortens⟩
  · rw [left, Table.payload?_eq_ofField?] at found
    obtain ⟨value, asks⟩ := scalar_of_find? [] found
    rw [Payload.carried_bytes] at value
    have again := (keptInner_again settles (d.scalar f.id .bytes []).1).1
    have state : (decodedInner? decoder c path f.tag m d').2 = (d'.scalar f.id .bytes []).2 :=
      snd_decodedInner?_again settles value
    rw [left, left, built, state, value, again, Table.payload?_eq_ofField?]
    exact ⟨rfl, asks⟩

end Messages

/-- Building fields that find what they keep asks for all of it and notes nothing. -/
theorem asks_addDecoded {fs : List Schema.Field}
    (fields : ∀ f ∈ fs, FieldSettles c path package f) (entries : Entries) {d d' : Decoding}
    (found : ∀ f ∈ fs, d'.table.find? f.id = kept? c path package d f) :
    Asks d' (addDecoded decoder c path package fs entries d').2
      ((Table.gather (kept? c path package d) fs).map Prod.fst) := by
  induction fs generalizing entries d' with
  | nil =>
    rw [Record.addDecoded_nil]
    exact .refl d'
  | cons f fs ih =>
    rw [List.forall_mem_cons] at fields found
    rw [Record.addDecoded_cons]
    have first := (fields.1.again d d' found.1).2
    have behind := found.2
    rw [← first.table] at behind
    exact first.front (ih fields.2 _ behind)

theorem settles_of_fields (distinct : (m.fields.map (·.id)).Nodup)
    (fields : ∀ f ∈ m.fields, FieldSettles c path m.package f) : Settles c path m := by
  have fits (bs : Bytes) : ∀ entry ∈ kept c path m bs, entry.2.Fits := by
    intro entry mem
    obtain ⟨f, mem, held⟩ := Table.mem_gather mem
    obtain ⟨p, found, shortens⟩ := (fields f mem).shortens _ _ held
    exact shortens.fits (fits_of_find? found)
  have start (bs : Bytes) : ofBytes 0 (kept c path m bs).bytes = ⟨kept c path m bs, [], .none, 0⟩ :=
    ofBytes_bytes_of_fits 0 (Table.nodup_gather distinct) (fits bs)
  have found (bs : Bytes) : ∀ f ∈ m.fields, (ofBytes 0 (kept c path m bs).bytes).table.find? f.id =
      kept? c path m.package (ofBytes 0 bs) f := by
    rw [start]
    exact Table.find?_gather distinct
  refine ⟨fun bs => ?_, found, fun bs => ?_, fun bs => ?_⟩
  · have shorter := Table.length_bytes_gather_le distinct (ofBytes 0 bs).table
      fun f mem => (fields f mem).shortens (ofBytes 0 bs)
    exact Nat.le_trans shorter (length_table_ofBytes 0 bs)
  · exact Table.gather_congr fun f mem => ((fields f mem).again _ _ (found bs f mem)).1
  · have asks := asks_addDecoded fields .nil (found bs)
    rw [start] at asks
    rw [read, start]
    exact asks.diagnostics rfl (List.Subset.refl _)

/-- Every field settles, at any level. Types may contain themselves: on the way in there are ever
fewer levels left. -/
theorem fieldSettles (ids : ∀ m ∈ c, (m.fields.map (·.id)).Nodup) (path : List String)
    (package : String) (f : Schema.Field) : FieldSettles c path package f := by
  induction left : maxLevels - path.length using Nat.strongRecOn generalizing path package f with
  | ind n ih =>
    subst left
    obtain nothing | ⟨t, built⟩ | ⟨inner, memInner, built⟩ := decoded?_cases c path package f
    · exact fieldSettles_of_none nothing
    · exact fieldSettles_of_scalar built
    · have distinct := ids inner memInner
      refine fieldSettles_of_message distinct built fun shallow => ?_
      refine settles_of_fields distinct fun g _ => ih _ ?_ (inner.longName :: path) _ g rfl
      rw [List.length_cons]
      omega

theorem settles (ids : ∀ m ∈ c, (m.fields.map (·.id)).Nodup) (mem : m ∈ c) (path : List String) :
    Settles c path m :=
  settles_of_fields (ids m mem) fun f _ => fieldSettles ids path m.package f

/-- A scalar field that finds what it kept gets its value back, up to negative zeros and characters
above U+00FF. -/
theorem fst_decoded?_again {d d' : Decoding} {s : Scalar}
    (held : (decoded? decoder c path package f d).1 = some (.scalar s))
    (found : d'.table.find? f.id = kept? c path package d f) :
    (decoded? decoder c path package f d').1 = some (.scalar s.narrowed) := by
  have left : kept? c path package d f = Payload.ofField? s := by
    rw [kept?, held]
    rfl
  obtain nothing | ⟨t, built⟩ | ⟨m, -, built⟩ := decoded?_cases c path package f
  · rw [nothing] at held
    cases held
  · obtain ⟨value, -⟩ := scalar_of_find? s.type.zero (found.trans left)
    rw [built] at held
    obtain rfl : t = s.type := by
      cases held
      rfl
    rw [built, value, Scalar.narrowed_eq]
    cases s.isCarried <;> rfl
  · rw [built] at held
    by_cases builds : Builds path m (d.scalar f.tag.id .bytes []).1
    · rw [decodedInner?_of_builds rfl builds] at held
      cases held
    · rw [(decodedInner?_of_not_builds rfl builds).1] at held
      cases held

theorem walk_pass_decode (ids : ∀ m ∈ c, (m.fields.map (·.id)).Nodup) (mem : m ∈ c) (bs : Bytes) :
    ((Record.decode decoder m c bs).1.walk Encoding.pass .empty).2.bytes =
      (kept c [m.longName] m bs).bytes := by
  have distinct : (Record.decode decoder m c bs).1.Distinct := Record.distinct_ofDecoder ids mem _
  have walked := congrArg Prod.snd (Record.walk_view Encoding.pass distinct .empty)
  rw [← table_arrange_read (ids m mem), ← walked]
  exact encode_eq (Record.decode decoder m c bs).1.view

/-- Reading a record from any bytes and writing it gives a normal form of the bytes, which is no
longer: reading a record from the normal form passes nothing over, and writing that record gives
the normal form again. Scalar fields keep their values, up to negative zeros and characters above
U+00FF. Messages may contain themselves, and the bytes may be of any kind. -/
theorem decode_normal {text : String} (accepted : Schema.parse text = .ok c) (mem : m ∈ c)
    (bs : Bytes) :
    let first := (Record.decode decoder m c bs).1
    let normal := (first.walk Encoding.pass .empty).2.bytes
    let again := Record.decode decoder m c normal
    normal.length ≤ bs.length ∧ again.2.diagnostics.isClean ∧
      (again.1.walk Encoding.pass .empty).2.bytes = normal ∧
      ∀ f ∈ m.fields, ∀ s, first.value? f.id = some (.scalar s) →
        again.1.value? f.id = some (.scalar s.narrowed) := by
  have ids := (Schema.unambiguous_of_parse accepted).fieldIds
  have steady := settles ids mem [m.longName]
  intro first normal again
  have form : normal = (kept c [m.longName] m bs).bytes := walk_pass_decode ids mem bs
  have value (bs : Bytes) : ∀ f ∈ m.fields, (Record.decode decoder m c bs).1.value? f.id =
      (decoded? decoder c [m.longName] m.package f (ofBytes 0 bs)).1 :=
    get?_addDecoded (ids m mem) fun _ _ => rfl
  refine ⟨?_, ?_, ?_, ?_⟩
  · rw [form]
    exact steady.shortens bs
  · have clean : again.2.diagnostics = .none := by
      have left := steady.clean bs
      rw [← form] at left
      exact left
    exact decide_eq_true clean
  · have rewritten : (again.1.walk Encoding.pass .empty).2.bytes =
        (kept c [m.longName] m normal).bytes := walk_pass_decode ids mem normal
    rw [rewritten, form, steady.again]
  · intro f declared s held
    have found := steady.found bs f declared
    rw [← form] at found
    rw [value bs f declared] at held
    rw [value normal f declared]
    exact fst_decoded?_again held found

def chainText : String := "message Link { Link next [ id = 2 ]; int32 v [ id = 1 ]; }"

def linkValue : Schema.Field := ⟨.scalar (.int .w32), "int32", "v", 1, none⟩

def chainLink : Schema.Message :=
  ⟨"", "Link", 0, [⟨.message, "Link", "next", 2, none⟩, linkValue]⟩

theorem parse_chainText : Schema.parse chainText = .ok [chainLink] :=
  Schema.parse_of_toOption (by decide +kernel)

/-- A number in more digits than it needs, a link that holds an empty one, and a key without a
payload. -/
def looseChain : Bytes := [0x08, 0x8A, 0, 0x12, 4, 0x12, 0, 0x08, 2, 0x18]

theorem value?_looseChain : (Record.decode decoder chainLink [chainLink] looseChain).1.value? 1 =
    some (.scalar ⟨.int .w32, 5⟩) := by
  have distinct : (chainLink.fields.map (·.id)).Nodup := by decide
  have held : (Record.decode decoder chainLink [chainLink] looseChain).1.value? 1 =
      (decoded? decoder [chainLink] ["Link"] "" linkValue (ofBytes 0 looseChain)).1 :=
    get?_addDecoded distinct (fun _ _ => rfl) linkValue (by simp [chainLink])
  have five : ((ofBytes 0 looseChain).scalar 1 (.int .w32) 0).1 = 5 := by decide +kernel
  rw [held]
  exact congrArg (fun v => some (Value.scalar ⟨.int .w32, v⟩)) five

theorem decode_normal_looseChain :
    Schema.parse chainText = .ok [chainLink] ∧ chainLink ∈ [chainLink] ∧
      linkValue ∈ chainLink.fields ∧
      let first := (Record.decode decoder chainLink [chainLink] looseChain).1
      let normal := (first.walk Encoding.pass .empty).2.bytes
      let again := Record.decode decoder chainLink [chainLink] normal
      first.value? 1 = some (.scalar ⟨.int .w32, 5⟩) ∧
        normal.length ≤ 10 ∧ again.2.diagnostics.isClean ∧
        (again.1.walk Encoding.pass .empty).2.bytes = normal ∧
        again.1.value? 1 = some (.scalar ⟨.int .w32, 5⟩) := by
  have mem : chainLink ∈ [chainLink] := List.mem_singleton.2 rfl
  have declared : linkValue ∈ chainLink.fields := by simp [chainLink]
  obtain ⟨length, clean, same, values⟩ := decode_normal parse_chainText mem looseChain
  exact ⟨parse_chainText, mem, declared, value?_looseChain, length, clean, same,
    values linkValue declared _ value?_looseChain⟩

end MessageCodec.Wire
