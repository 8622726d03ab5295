import MessageCodec.Proofs.Wire.Levels
import MessageCodec.Proofs.Wire.Normal
import MessageCodec.Proofs.Wire.Records

/-! The limit on nested messages. Filling a message goes down to the same level as building
a record does, and both pass nothing over above it. They differ where a message of its own
type is nested without a single byte: it can be filled, but a record of it is not built. -/

namespace MessageCodec

namespace Record

/-- A record of `m` with the values that some bytes have for its scalar fields. -/
def HasValues (r : Record) (m : Schema.Message) (bs : Bytes) : Prop :=
  r.schema = m ∧ ∀ f ∈ m.fields, ∀ t, f.type = .scalar t →
    r.value? f.id = some (.scalar ⟨t, (Wire.given? bs f.id t).getD t.zero⟩)

/-- Records of `m`, each in the field `id` of the one around it, with the values that some bytes
have, level by level. In the last one that field is unset. -/
inductive FilledBy (m : Schema.Message) (id : UInt32) : Record → List Bytes → Prop where
  | last {r : Record} {bs : Bytes} (values : r.HasValues m bs) (unset : r.value? id = none) :
    FilledBy m id r [bs]
  | cons {r inner : Record} {bs : Bytes} {levels : List Bytes} (values : r.HasValues m bs)
    (nested : r.value? id = some (.record inner)) (filled : FilledBy m id inner levels) :
    FilledBy m id r (bs :: levels)

end Record

namespace Wire

open Schema (Catalogue)
open Record (decoded? decodedInner? addDecoded)
open Decoding

variable {c : Catalogue} {path : List String} {package : String} {f : Schema.Field}
variable {m : Schema.Message} {id : UInt32} {bs next : Bytes} {next? : Option Bytes}
variable {levels : List Bytes} {deep k : Nat}

theorem passes_addDecoded {fs : List Schema.Field} (distinct : (fs.map (·.id)).Nodup)
    {table : Table} (fields : ∀ g ∈ fs, ∀ d : Decoding, d.table = table →
      Passes id deep d (decoded? decoder c path package g d).2 [g.id])
    (entries : Entries) {d : Decoding} (same : d.table = table) :
    Passes id deep d (addDecoded decoder c path package fs entries d).2 (fs.map (·.id)) := by
  induction fs generalizing entries d with
  | nil =>
    rw [Record.addDecoded_nil]
    exact passes_refl d
  | cons g fs ih =>
    rw [List.map_cons, List.nodup_cons] at distinct
    rw [List.forall_mem_cons] at fields
    have first := fields.1 d same
    rw [Record.addDecoded_cons]
    exact first.cons (ih distinct.2 fields.2 _ (first.table.trans same)) distinct.1

theorem diagnostics_read_nil (ids : ∀ m ∈ c, (m.fields.map (·.id)).Nodup) (mem : m ∈ c)
    (path : List String) : (read c path m []).2.diagnostics = .none := by
  have steady := settles ids mem path
  have nothing : (kept c path m []).bytes = [] :=
    List.length_eq_zero_iff.1 (Nat.le_zero.1 (steady.shortens []))
  have clean := steady.clean []
  rwa [nothing] at clean

theorem snd_decodedInner?_of_absent (ids : ∀ m ∈ c, (m.fields.map (·.id)).Nodup) (mem : m ∈ c)
    {tag : FieldTag} {d : Decoding} (absent : d.table.find? tag.id = none) :
    (decodedInner? decoder c path tag m d).2 = d := by
  have read : d.scalar tag.id .bytes [] = ([], d) := by rw [Decoding.scalar, absent]
  have given : (d.scalar tag.id .bytes []).1 = [] := by rw [read]
  by_cases builds : Builds path m []
  · rw [decodedInner?_of_builds given builds, read]
    exact absorb_of_clean d (diagnostics_read_nil ids mem _)
  · rw [(decodedInner?_of_not_builds given builds).2 rfl, read]

theorem decodedInner?_of_limit {tag : FieldTag} {d : Decoding}
    (given : (d.scalar tag.id .bytes []).1 ≠ []) (limit : maxLevels ≤ path.length) :
    decodedInner? decoder c path tag m d = (none, (d.scalar tag.id .bytes []).2.noteMalformed) := by
  have own : decoder.scalar tag .bytes [] d = d.scalar tag.id .bytes [] := rfl
  have some : (d.scalar tag.id .bytes []).1.isEmpty = false := by simpa using given
  simp only [decodedInner?, own, some, Bool.false_and, Bool.false_eq_true, ↓reduceIte, limit]
  rfl

/-- The bytes that one level has for the next one. -/
theorem IsLevel.fst_scalar (level : IsLevel m id bs next?) {d : Decoding}
    (same : d.table = (ofBytes 0 bs).table) : (d.scalar id .bytes []).1 = next?.getD [] := by
  rw [Decoding.fst_scalar, same, level.next]
  cases next? <;> rfl

theorem IsLevel.scalar (level : IsLevel m id bs (some next)) {d : Decoding}
    (same : d.table = (ofBytes 0 bs).table) : d.scalar id .bytes [] = (next, d.ask id) := by
  rw [Decoding.scalar, same, level.next]
  rfl

/-- There is nothing below an empty level. -/
theorem AreLevels.eq_nil_of_empty (chain : AreLevels m id [] levels) : levels = [] := by
  cases chain with
  | last => rfl
  | cons level _ =>
    have found := level.next
    rw [(idle_ofBytes_nil 0).1] at found
    cases found

section Level

variable (ids : ∀ m ∈ c, (m.fields.map (·.id)).Nodup)
include ids

/-- Building any other field than `id` takes its payload, if that fits, and passes nothing over. -/
theorem passes_decoded?_of_level (level : IsLevel m id bs next?) (mem : m ∈ c)
    {g : Schema.Field} (declared : g ∈ m.fields) (other : g.id ≠ id) {d : Decoding}
    (same : d.table = (ofBytes 0 bs).table) :
    Passes id deep d (decoded? decoder c path m.package g d).2 [g.id] := by
  have fits : ∀ p, d.table.find? g.id = some p → ∃ t, g.type = .scalar t ∧ (fit? t p).isSome := by
    intro p found
    obtain ⟨g', declared', t, sameId, type, fits⟩ := level.fits g.id p (same ▸ found) other
    obtain rfl := List.inj_on_of_nodup_map (ids m mem) declared' declared sameId
    exact ⟨t, type, fits⟩
  have shallow : g.id = id → deep = 0 := fun same => absurd same other
  have absent (noScalar : ∀ t, g.type ≠ .scalar t) : d.table.find? g.id = none := by
    rw [← Option.not_isSome_iff_eq_none, Option.isSome_iff_exists]
    rintro ⟨p, found⟩
    obtain ⟨t, type, -⟩ := fits p found
    exact noScalar t type
  cases type : g.type with
  | undefined =>
    simp only [decoded?, type]
    exact passes_of_absent shallow (absent (by simp [type]))
  | scalar t =>
    simp only [decoded?, type]
    refine passes_scalar shallow (fun p found => ?_) t.zero
    obtain ⟨t', type', fits⟩ := fits p found
    cases type.symm.trans type'
    exact fits
  | message =>
    have absent := absent (by simp [type])
    have unchanged : (decoded? decoder c path m.package g d).2 = d := by
      simp only [decoded?, type]
      cases resolved : c.resolve? g.label m.package with
      | none => rfl
      | some inner =>
        have mem := Schema.Catalogue.mem_of_resolve? resolved
        exact snd_decodedInner?_of_absent ids mem absent
    rw [unchanged]
    exact passes_of_absent shallow absent

theorem hasValues_read (mem : m ∈ c) (path : List String) (bs : Bytes) :
    (Record.mk m c (read c path m bs).1).HasValues m bs := by
  refine ⟨rfl, fun g declared t type => ?_⟩
  have held : (read c path m bs).1.get? g.id =
      (decoded? decoder c path m.package g (ofBytes 0 bs)).1 :=
    get?_addDecoded (ids m mem) (fun _ _ => rfl) g declared
  have value : ((ofBytes 0 bs).scalar g.id t t.zero).1 = (given? bs g.id t).getD t.zero :=
    Decoding.fst_scalar _ g.id t t.zero
  simp only [decoded?, type] at held
  rw [← value]
  exact held

variable (holds : c.HoldsIn f m m)
include holds

theorem read_level (path : List String) (deep : Nat) (level : IsLevel m f.id bs next?)
    (inside : ∀ d : Decoding, d.table = (ofBytes 0 bs).table →
      Passes f.id deep d (decodedInner? decoder c path f.tag m d).2 [f.id]) :
    (Record.mk m c (read c path m bs).1).HasValues m bs ∧
      (read c path m bs).1.get? f.id = (decodedInner? decoder c path f.tag m (ofBytes 0 bs)).1 ∧
      (read c path m bs).2.diagnostics = ⟨0, 0, deep⟩ := by
  have mem := Schema.Catalogue.mem_of_holds holds.holds
  obtain ⟨declared, type, resolved⟩ := holds
  have own : ∀ d, decoded? decoder c path m.package f d = decodedInner? decoder c path f.tag m d := by
    intro d
    simp only [decoded?, type, resolved]
  have fields : ∀ g ∈ m.fields, ∀ d : Decoding, d.table = (ofBytes 0 bs).table →
      Passes f.id deep d (decoded? decoder c path m.package g d).2 [g.id] := by
    intro g declared' d same
    by_cases here : g.id = f.id
    · obtain rfl := List.inj_on_of_nodup_map (ids m mem) declared' declared here
      rw [own]
      exact inside d same
    · exact passes_decoded?_of_level ids level mem declared' here same
  have held : (read c path m bs).1.get? f.id =
      (decoded? decoder c path m.package f (ofBytes 0 bs)).1 :=
    get?_addDecoded (ids m mem) (fun _ _ => rfl) f declared
  refine ⟨hasValues_read ids mem path bs, by rw [held, own], ?_⟩
  have passes := passes_addDecoded (ids m mem) fields .nil (d := ofBytes 0 bs) rfl
  refine passes.diagnostics level.clean (fun i present => ?_) (List.mem_map_of_mem declared)
  by_cases here : i = f.id
  · rw [here]
    exact List.mem_map_of_mem declared
  · obtain ⟨p, found⟩ := Option.isSome_iff_exists.1 present
    obtain ⟨g, declared', -, rfl, -⟩ := level.fits i p found here
    exact List.mem_map_of_mem declared'

/-- Without bytes for it, no record is built in a field of the message's own type. -/
theorem read_level_of_empty (level : IsLevel m f.id bs next?) (empty : next?.getD [] = [])
    (around : m.longName ∈ path) :
    (Record.mk m c (read c path m bs).1).FilledBy m f.id [bs] ∧
      (read c path m bs).2.diagnostics = ⟨0, 0, 0⟩ := by
  have closed : ¬ Builds path m [] := fun builds => builds.2 around rfl
  have given {d : Decoding} (same : d.table = (ofBytes 0 bs).table) :
      (d.scalar f.tag.id .bytes []).1 = [] := (level.fst_scalar same).trans empty
  obtain ⟨values, held, told⟩ := read_level ids holds path 0 level
    fun d same => by
      rw [(decodedInner?_of_not_builds (given same) closed).2 rfl]
      refine passes_scalar (t := .bytes) (fun _ => rfl) (fun p found => ?_) []
      have found : next?.map .delimited = some p := by rw [← level.next, ← same]; exact found
      obtain ⟨next, -, rfl⟩ := Option.map_eq_some_iff.1 found
      rfl
  rw [(decodedInner?_of_not_builds (given rfl) closed).1] at held
  exact ⟨.last values held, told⟩

/-- Where there is no room for another record, none is built, and that is noted. -/
theorem read_level_of_limit (level : IsLevel m f.id bs (some next)) (some : next ≠ [])
    (limit : maxLevels ≤ path.length) :
    (Record.mk m c (read c path m bs).1).FilledBy m f.id [bs] ∧
      (read c path m bs).2.diagnostics = ⟨0, 0, 1⟩ := by
  have own {d : Decoding} (same : d.table = (ofBytes 0 bs).table) :
      d.scalar f.tag.id .bytes [] = (next, d.ask f.id) := level.scalar same
  have given {d : Decoding} (same : d.table = (ofBytes 0 bs).table) :
      (d.scalar f.tag.id .bytes []).1 ≠ [] := by rwa [own same]
  obtain ⟨values, held, told⟩ := read_level ids holds path 1 level
    fun d same => by
      rw [decodedInner?_of_limit (given same) limit, own same]
      exact passes_noteMalformed d
  rw [decodedInner?_of_limit (given rfl) limit] at held
  exact ⟨.last values held, told⟩

/-- Where there is room, a record is built from the bytes, and what was noted on the way is taken
over. -/
theorem read_level_of_builds (level : IsLevel m f.id bs (some next))
    (builds : Builds path m next)
    (filled : (Record.mk m c (read c (m.longName :: path) m next).1).FilledBy m f.id levels)
    (told : (read c (m.longName :: path) m next).2.diagnostics = ⟨0, 0, deep⟩) :
    (Record.mk m c (read c path m bs).1).FilledBy m f.id (bs :: levels) ∧
      (read c path m bs).2.diagnostics = ⟨0, 0, deep⟩ := by
  have own {d : Decoding} (same : d.table = (ofBytes 0 bs).table) :
      d.scalar f.tag.id .bytes [] = (next, d.ask f.id) := level.scalar same
  have given {d : Decoding} (same : d.table = (ofBytes 0 bs).table) :
      (d.scalar f.tag.id .bytes []).1 = next := by rw [own same]
  obtain ⟨values, held, told⟩ := read_level ids holds path deep level
    fun d same => by
      rw [decodedInner?_of_builds (given same) builds, own same]
      exact passes_absorb d told
  rw [decodedInner?_of_builds (given rfl) builds] at held
  exact ⟨.cons values held filled, told⟩

/-- Building a record goes down as far as there is room and bytes are left, and notes once that
there are more of them. -/
theorem read_levels (chain : AreLevels m f.id bs levels) (around : m.longName ∈ path)
    (room : path.length + k = maxLevels) :
    (Record.mk m c (read c path m bs).1).FilledBy m f.id
        (bs :: (levels.take k).takeWhile fun level => !level.isEmpty) ∧
      (read c path m bs).2.diagnostics = ⟨0, 0, if levels[k]?.getD [] = [] then 0 else 1⟩ := by
  induction chain generalizing path k with
  | last level =>
    rw [List.take_nil]
    exact read_level_of_empty ids holds level rfl around
  | @cons bs next rest level chain ih =>
    by_cases empty : next = []
    · subst empty
      obtain rfl := chain.eq_nil_of_empty
      have kept : (([[]] : List Bytes).take k).takeWhile (fun level => !level.isEmpty) = [] := by
        cases k <;> rfl
      have nothing : ([[]] : List Bytes)[k]?.getD [] = [] := by cases k <;> rfl
      rw [kept, if_pos nothing]
      exact read_level_of_empty ids holds level rfl around
    · cases k with
      | zero =>
        obtain ⟨filled, told⟩ := read_level_of_limit ids holds level empty (Nat.le_of_eq room.symm)
        exact ⟨filled, told.trans (by simp [empty])⟩
      | succ k =>
        have builds : Builds path m next := ⟨by omega, fun _ => empty⟩
        have room : (m.longName :: path).length + k = maxLevels := by rw [List.length_cons]; omega
        obtain ⟨filled, told⟩ := ih (List.mem_cons_self ..) room
        rw [List.take_succ_cons, List.takeWhile_cons_of_pos (by simpa using empty),
          List.getElem?_cons_succ]
        exact read_level_of_builds ids holds level builds filled told

end Level

/-- Nested messages are read down to one level, whether a message is filled or a record is built:
all levels up to the 64th take their values, what is below stays as it was or unset, and one
malformed record is noted if there are more levels, and nothing else is. A record is not built from
a level without bytes, and whether such a level is noted below the 64th one is left open. -/
theorem decode_levels {text : String} (accepted : Schema.parse text = .ok c)
    (holds : c.HoldsIn f m m) (chain : AreLevels m f.id bs levels) :
    (∀ typed : Message, typed.fields.HasLevels m f.id (min (levels.length + 1) maxLevels) →
      (decoder.decodeInto bs typed).1 =
          ⟨typed.header, typed.fields.fillLevels f.id ((bs :: levels).take maxLevels)⟩ ∧
        (decoder.decodeInto bs typed).2.diagnostics =
          ⟨0, 0, if maxLevels < levels.length + 1 then 1 else 0⟩) ∧
      let built := Record.decode decoder m c bs
      built.1.FilledBy m f.id
          (bs :: (levels.take (maxLevels - 1)).takeWhile fun level => !level.isEmpty) ∧
        built.2.diagnostics.unknown = 0 ∧ built.2.diagnostics.mismatched = 0 ∧
        ((bs :: levels)[maxLevels]? ≠ some [] →
          built.2.diagnostics.malformed = if maxLevels < levels.length + 1 then 1 else 0) := by
  have ids := (Schema.unambiguous_of_parse accepted).fieldIds
  have levelsLeft : (maxLevels < levels.length + 1) = (63 < levels.length) := by
    rw [maxLevels, eq_iff_iff]
    omega
  constructor
  · intro typed has
    have has : typed.fields.HasLevels m f.id (min levels.length 63 + 1) := by
      rw [← Nat.add_min_add_right]
      exact has
    obtain ⟨filled, told⟩ := chain.walk has (rfl : 0 + 63 + 1 = maxLevels)
    simp only [levelsLeft]
    exact ⟨congrArg (Message.mk typed.header) filled, told⟩
  · intro built
    have around : m.longName ∈ [m.longName] := List.mem_singleton.2 rfl
    obtain ⟨filled, told⟩ := read_levels ids holds chain around (rfl : 1 + 63 = maxLevels)
    have told : built.2.diagnostics = ⟨0, 0, if levels[63]?.getD [] = [] then 0 else 1⟩ := told
    rw [told]
    refine ⟨filled, rfl, rfl, fun given => ?_⟩
    have given : levels[63]? ≠ some [] := given
    simp only [levelsLeft]
    cases found : levels[63]? with
    | none => exact (if_neg (Nat.not_lt.2 (List.getElem?_eq_none_iff.1 found))).symm
    | some level =>
      obtain ⟨below, -⟩ := List.getElem?_eq_some_iff.1 found
      have filled : level ≠ [] := fun empty => given (found.trans (congrArg some empty))
      rw [Option.getD_some, if_neg filled, if_pos below]

def linkNext : Schema.Field := ⟨.message, "Link", "next", 2, none⟩

theorem holdsIn_chainLink :
    Schema.Catalogue.HoldsIn [chainLink] linkNext chainLink chainLink := by
  have known : Schema.Catalogue.resolve? [chainLink] "Link" "" = some chainLink := by rfl
  exact ⟨by simp [chainLink, linkNext], rfl, known⟩

/-- Payloads of links in each other, with a number in each. -/
def linksTable : Nat → Table
  | 0 => [(1, .varint 2)]
  | n + 1 => [(2, .delimited (linksTable n).bytes), (1, .varint 2)]

def linksInside : Nat → List Bytes
  | 0 => []
  | n + 1 => (linksTable n).bytes :: linksInside n

theorem fits_linkValue {i : UInt32} {p : Payload}
    (found : Table.find? [(1, .varint 2)] i = some p) :
    ∃ f ∈ chainLink.fields, ∃ t, f.id = i ∧ f.type = .scalar t ∧ (fit? t p).isSome := by
  rw [Table.find?, List.lookup_cons] at found
  split at found
  · rename_i own
    obtain rfl := eq_of_beq own
    obtain rfl := Option.some.inj found
    exact ⟨linkValue, by simp [chainLink], .int .w32, rfl, rfl, rfl⟩
  · cases found

theorem areLevels_linksTable {n : Nat}
    (short : ∀ k < n, (linksTable k).bytes.length < UInt64.size) :
    AreLevels chainLink 2 (linksTable n).bytes (linksInside n) := by
  induction n with
  | zero =>
    refine .last (isLevel_bytes (by decide) (by simp [linksTable, Payload.Fits]) rfl ?_)
    exact fun i p found _ => fits_linkValue found
  | succ n ih =>
    have inside := ih fun k below => short k (Nat.lt_succ_of_lt below)
    refine .cons (isLevel_bytes (by decide : [(2 : UInt32), 1].Nodup) ?_ rfl ?_) inside
    · simpa [linksTable, Payload.Fits] using short n (Nat.lt_succ_self n)
    · intro i p found other
      rw [linksTable, Table.find?, List.lookup_cons, beq_eq_false_iff_ne.2 other] at found
      exact fits_linkValue found

def linkFields : Nat → Fields
  | 0 => .nil
  | n + 1 =>
    .nested ⟨2, "Link", "next"⟩ chainLink.header (linkFields n)
      (.scalar ⟨1, "int32", "v"⟩ ⟨.int .w32, 0⟩ .nil)

theorem hasLevels_linkFields (n : Nat) : (linkFields n).HasLevels chainLink 2 n := by
  induction n with
  | zero => trivial
  | succ n ih =>
    refine ⟨by simp [linkFields, Fields.ids], ?_, _, rfl, ih⟩
    simp only [chainLink, List.forall_mem_cons]
    refine ⟨fun t type => ?_, fun t type => ?_, by simp⟩
    · cases type
    · cases type
      exact ⟨0, rfl⟩

/-- The 65th link lies too deep. -/
theorem decode_levels_linksTable :
    Schema.parse chainText = .ok [chainLink] ∧
      Schema.Catalogue.HoldsIn [chainLink] linkNext chainLink chainLink ∧
      AreLevels chainLink 2 (linksTable 64).bytes (linksInside 64) ∧
      (linkFields 64).HasLevels chainLink 2 64 ∧
      (decoder.decodeInto (linksTable 64).bytes ⟨chainLink.header, linkFields 64⟩).2.diagnostics =
        ⟨0, 0, 1⟩ ∧
      (Record.decode decoder chainLink [chainLink] (linksTable 64).bytes).2.diagnostics.malformed =
        1 := by
  have short : ∀ k < 64, (linksTable k).bytes.length < UInt64.size := by decide +kernel
  have chain := areLevels_linksTable short
  obtain ⟨typed, -, -, -, malformed⟩ := decode_levels parse_chainText holdsIn_chainLink chain
  have count : (linksInside 64).length = 64 := by rfl
  rw [count] at typed malformed
  have has : (linkFields 64).HasLevels chainLink 2 (min (64 + 1) maxLevels) :=
    hasLevels_linkFields 64
  have filled : ((linksTable 64).bytes :: linksInside 64)[maxLevels]? ≠ some [] := by decide +kernel
  exact ⟨parse_chainText, holdsIn_chainLink, chain, has,
    (typed ⟨chainLink.header, linkFields 64⟩ has).2, malformed filled⟩

/-- A link without bytes, in another one, is not built. -/
theorem not_filledBy_emptyLink :
    Schema.parse chainText = .ok [chainLink] ∧ AreLevels chainLink 2 [0x12, 0] [[]] ∧
      (Record.decode decoder chainLink [chainLink] [0x12, 0]).1.value? 2 = none ∧
      ¬ (Record.decode decoder chainLink [chainLink] [0x12, 0]).1.FilledBy chainLink 2
        [[0x12, 0], []] := by
  have inner : IsLevel chainLink 2 [] none := by
    have empty := idle_ofBytes_nil 0
    exact ⟨empty.2, by rw [empty.1]; rfl, fun i p found => by rw [empty.1] at found; cases found⟩
  have outer : IsLevel chainLink 2 [0x12, 0] (some []) := by
    have bytes : Table.bytes [(2, .delimited [])] = [0x12, 0] := by decide +kernel
    rw [← bytes]
    refine isLevel_bytes (List.nodup_singleton 2) (by simp [Payload.Fits]) rfl ?_
    intro i p found other
    rw [Table.find?, List.lookup_cons, beq_eq_false_iff_ne.2 other] at found
    cases found
  have ids := (Schema.unambiguous_of_parse parse_chainText).fieldIds
  obtain ⟨filled, -⟩ := read_level_of_empty ids holdsIn_chainLink outer rfl
    (List.mem_singleton.2 rfl : chainLink.longName ∈ [chainLink.longName])
  cases filled with
  | cons _ _ below => cases below
  | last _ unset =>
    refine ⟨parse_chainText, .cons outer (.last inner), unset, fun filled => ?_⟩
    cases filled with
    | cons _ nested _ => exact absurd (unset.symm.trans nested) (by simp)

end Wire

end MessageCodec
