import MessageCodec.Proofs.MessagePack.Encoder
import MessageCodec.Proofs.Record.Decode
import MessageCodec.Proofs.Schema.Unambiguous
import MessageCodec.Proofs.Wire.Records

/-! Records from MessagePack. The decoder that builds a record writes the map of a nested message
and reads it again, at each level; the one that walks over a message takes it as it is. A value
that was written and read stands for the same scalars, so both give the same record. -/

namespace MessageCodec.MessagePack

open Schema (Catalogue)

section Settled

mutual

theorem settled_settled (v : MessagePack) : settled (settled v) = settled v := by
  cases v with
  | string bs =>
    rw [settled]
    split
    · rename_i text
      rw [settled, if_pos text]
    · rw [settled]
  | array items => rw [settled, settled, settledItems_settledItems]
  | map pairs => rw [settled, settled, settledPairs_settledPairs]
  | _ => rw [settled, settled]

theorem settledItems_settledItems (items : List MessagePack) :
    settledItems (settledItems items) = settledItems items := by
  cases items with
  | nil => rfl
  | cons item items =>
    rw [settledItems, settledItems, settled_settled, settledItems_settledItems]

theorem settledPairs_settledPairs (pairs : List (MessagePack × MessagePack)) :
    settledPairs (settledPairs pairs) = settledPairs pairs := by
  cases pairs with
  | nil => rfl
  | cons pair pairs =>
    rw [settledPairs, settledPairs, settled_settled, settled_settled, settledPairs_settledPairs]

end

@[simp]
theorem integer?_settled (v : MessagePack) : (settled v).integer? = v.integer? := by
  cases v with
  | string bs =>
    rw [settled]
    split <;> rfl
  | _ => rw [settled] <;> rfl

@[simp]
theorem double?_settled (v : MessagePack) : (settled v).double? = v.double? := by
  cases v with
  | string bs =>
    rw [settled]
    split <;> rfl
  | _ => rw [settled] <;> rfl

/-- A value that was written and read stands for the same scalars as before. -/
@[simp]
theorem fit?_settled (t : ScalarType) (v : MessagePack) : fit? t (settled v) = fit? t v := by
  cases t with
  | bytes =>
    cases v with
    | string bs =>
      rw [settled]
      split <;> rfl
    | map pairs =>
      have written := write_settled (.map pairs)
      rw [settled] at written ⊢
      rw [fit?, fit?, written]
    | _ => rw [settled] <;> rfl
  | _ => simp only [fit?, integer?_settled, double?_settled, text?_settled]

end Settled

namespace Table

theorem ofPairs_settledPairs (pairs : List (MessagePack × MessagePack)) :
    ofPairs (settledPairs pairs) = (ofPairs pairs).map fun (name, v) => (name, settled v) := by
  rw [ofPairs, ofPairs, settledPairs_eq, ← List.map_reverse, List.filterMap_map, List.map_filterMap]
  congr 1
  funext pair
  simp only [Function.comp_apply, text?_settled, Option.map_map]
  rfl

theorem lookup_map_settled (table : Table) (name : String) :
    List.lookup name (table.map fun (name, v) => (name, settled v)) =
      (table.find? name).map settled := by
  induction table with
  | nil => rfl
  | cons entry table ih =>
    rw [find?] at ih ⊢
    rw [List.map_cons, List.lookup_cons, List.lookup_cons, ih]
    cases name == entry.1 <;> rfl

theorem find?_ofPairs_settledPairs (pairs : List (MessagePack × MessagePack)) (name : String) :
    (ofPairs (settledPairs pairs)).find? name = ((ofPairs pairs).find? name).map settled := by
  rw [find?, ofPairs_settledPairs, lookup_map_settled]

theorem mem_of_find?_ofPairs {pairs : List (MessagePack × MessagePack)} {name : String}
    {v : MessagePack} (found : (ofPairs pairs).find? name = some v) : ∃ key, (key, v) ∈ pairs := by
  obtain ⟨front, back, shape, -⟩ := List.lookup_eq_some_iff.1 found
  have mem : (name, v) ∈ ofPairs pairs := by simp [shape]
  obtain ⟨⟨key, w⟩, pair, text⟩ := List.mem_filterMap.1 mem
  obtain ⟨_, -, same⟩ := Option.map_eq_some_iff.1 text
  cases same
  exact ⟨key, List.mem_reverse.1 pair⟩

end Table

/-- The table of a value that a nested message is filled from. -/
def inside? : MessagePack → Option Table
  | map pairs => some (Table.ofPairs pairs)
  | _ => none

theorem Table.nested?_eq (table : Table) (name : String) :
    table.nested? name = (table.find? name).bind inside? := by
  rw [nested?]
  cases table.find? name with
  | none => rfl
  | some v => cases v <;> rfl

/-- A table in which no nested message of `m` is given as a string or as binary data. -/
def Unpacked (c : Catalogue) (m : Schema.Message) (table : Table) : Prop :=
  ∀ v, c.Given Table.find? inside? m table v → ∀ bs, v ≠ string bs ∧ v ≠ binary bs

/-- The first table gives what the second one does, once written and read or not. -/
structure Level (c : Catalogue) (m : Schema.Message) (table table' : Table) : Prop where
  same (name : String) : (table.find? name).map settled = (table'.find? name).map settled
  readable {name : String} {v : MessagePack} : table'.find? name = some v → Readable maxNesting v
  unpacked : Unpacked c m table'

variable {c : Catalogue} {m inner : Schema.Message} {f : Schema.Field} {table table' : Table}

theorem Table.fillScalar_congr (name : String)
    (same : (table.find? name).map settled = (table'.find? name).map settled) (t : ScalarType)
    (v : t.Value) : table.fillScalar name t v = table'.fillScalar name t v := by
  have fits (table : Table) :
      (table.find? name).bind (fit? t) = ((table.find? name).map settled).bind (fit? t) := by
    rw [Option.bind_map]
    exact congrArg _ (funext fun v => (fit?_settled t v).symm)
  rw [fillScalar, fillScalar, fits table, fits table', same]

theorem readable_of_mem {pairs : List (MessagePack × MessagePack)} {key v : MessagePack}
    (readable : Readable maxNesting (.map pairs)) (mem : (key, v) ∈ pairs) :
    Readable maxNesting v := by
  cases readable with
  | map _ _ values => exact (values (key, v) mem).mono (by decide)

/-- What the first table gives as bytes for a nested message that is filled from a map primes a
table that belongs to the one of the map. -/
theorem Level.opened {pairs : List (MessagePack × MessagePack)} (level : Level c m table table')
    (holds : c.HoldsIn f m inner) (found : table'.find? f.name = some (.map pairs)) :
    Level c inner (Table.ofBytes (table.fillScalar f.name .bytes [])) (Table.ofPairs pairs) := by
  have readable := level.readable found
  have bytes : table.fillScalar f.name .bytes [] = write (.map pairs) := by
    rw [Table.fillScalar_congr f.name (level.same f.name), Table.fillScalar, found]
    rfl
  rw [bytes, Table.ofBytes_write readable]
  refine ⟨fun name => ?_, fun found => ?_, fun v given => ?_⟩
  · rw [Table.find?_ofPairs_settledPairs, Option.map_map]
    exact congrArg (Option.map · _) (funext settled_settled)
  · obtain ⟨key, mem⟩ := Table.mem_of_find?_ofPairs found
    exact readable_of_mem readable mem
  · exact level.unpacked v (.inside holds found rfl given)

/-- A nested message that is not filled from a map is given no bytes. -/
theorem Level.closed (level : Level c m table table') (holds : c.HoldsIn f m inner)
    (closed : table'.nested? f.name = none) : table.fillScalar f.name .bytes [] = [] := by
  rw [Table.fillScalar_congr f.name (level.same f.name), Table.fillScalar]
  cases found : table'.find? f.name with
  | none => rfl
  | some v =>
    have other := level.unpacked v (.here holds found)
    rw [Table.nested?_eq, found] at closed
    cases v with
    | string bs => exact absurd rfl (other bs).1
    | binary bs => exact absurd rfl (other bs).2
    | map pairs => cases closed
    | _ => rfl

theorem decoder_rests : decoder.Rests (· = []) where
  prime := rfl
  start _ idle := idle
  scalar tag t v idle := by
    subst idle
    exact ⟨rfl, rfl⟩
  absorb _ idle := idle
  finish idle := idle

theorem decoder_mirrorsIn : decoder.MirrorsIn c (· = []) fun _ => Level c where
  start _ level := level
  scalar tag t v level := ⟨Table.fillScalar_congr tag.name (level.same tag.name) t v, level⟩
  closed holds level _ entered := by
    obtain ⟨rfl, closed⟩ := Prod.mk.inj entered
    have empty := level.closed holds closed
    exact ⟨congrArg Table.ofBytes empty, fun _ _ => level⟩
  opened holds level _ entered := by
    obtain ⟨rfl, opened⟩ := Prod.mk.inj entered
    rw [Table.nested?_eq, Option.bind_eq_some_iff] at opened
    obtain ⟨v, found, inside⟩ := opened
    cases v with
    | map pairs =>
      cases inside
      exact ⟨level.opened holds found, fun _ _ _ => level⟩
    | _ => cases inside
  finish level := level

/-- What is read from bytes is readable, so the table of the bytes belongs to itself. -/
theorem level_ofBytes {bs : Bytes} (unpacked : Unpacked c m (Table.ofBytes bs)) :
    Level c m (Table.ofBytes bs) (Table.ofBytes bs) := by
  refine ⟨fun _ => rfl, fun {name v} found => ?_, unpacked⟩
  rw [Table.ofBytes] at found
  cases read : parse? bs with
  | none => simp [read, Table.find?] at found
  | some whole =>
    rw [read] at found
    cases whole with
    | map pairs =>
      obtain ⟨key, mem⟩ := Table.mem_of_find?_ofPairs found
      exact readable_of_mem (readable_of_parse? read) mem
    | _ => cases found

/-- For a message of an accepted specification whose types do not contain themselves and nest at
most 64 levels, building a record from MessagePack gives the record that filling the default one
does, if the bytes give no string and no binary data for a nested message. -/
theorem decode_eq_walk_of_unpacked {text : String} (accepted : Schema.parse text = .ok c)
    (mem : m ∈ c) (nests : c.NestsWithin maxLevels m) (bs : Bytes)
    (unpacked : Unpacked c m (Table.ofBytes bs)) :
    (Record.decode decoder m c bs).1 =
      ((Record.ofSchema m c).walk decoder.toPass (decoder.prime bs)).1 := by
  have clean := Schema.unambiguous_of_parse accepted
  exact (Record.ofDecoder_eq_walk_of_mirrorsIn decoder_rests decoder_mirrorsIn clean.names
    clean.fieldIds mem nests (level_ofBytes unpacked)).1

/-- Two maps for one nested message, behind a key that is no text. -/
def repeatedPairs : List (MessagePack × MessagePack) :=
  [(.integer 1, .extension 0 []), (ofText "n", .map [(ofText "v", .integer 5)]),
    (ofText "n", .map [(ofText "v", .integer (-7))])]

theorem readable_repeatedPairs : Readable maxNesting (.map repeatedPairs) := by
  have entry (i : Int) (low : -0x8000000000000000 ≤ i) (high : i < 0x10000000000000000) :
      Readable 511 (.map [(ofText "v", .integer i)]) := by
    refine .map (by simp) (List.forall_mem_singleton.2 ?_) (List.forall_mem_singleton.2 ?_)
    · exact .string (by decide)
    · exact .integer low high
  have name : Readable 511 (ofText "n") := .string (by decide)
  refine .map (by decide) ?_ ?_
  · simp only [repeatedPairs, List.forall_mem_cons]
    exact ⟨.integer (by decide) (by decide), name, name, by simp⟩
  · simp only [repeatedPairs, List.forall_mem_cons]
    exact ⟨.extension 0 (by decide), entry 5 (by decide) (by decide),
      entry (-7) (by decide) (by decide), by simp⟩

theorem ofBytes_repeatedPairs : Table.ofBytes (write (.map repeatedPairs)) =
    [("n", .map [(ofText "v", .integer (-7))]), ("n", .map [(ofText "v", .integer 5)])] := by
  rw [Table.ofBytes_write readable_repeatedPairs]
  rfl

/-- The last of two maps counts, and what stands under other keys does not. -/
theorem decode_eq_walk_repeatedPairs :
    Schema.parse Wire.nestedText = .ok [Wire.nestedInner, Wire.nestedOuter] ∧
      Wire.nestedOuter ∈ [Wire.nestedInner, Wire.nestedOuter] ∧
      Catalogue.NestsWithin [Wire.nestedInner, Wire.nestedOuter] maxLevels Wire.nestedOuter ∧
      Unpacked [Wire.nestedInner, Wire.nestedOuter] Wire.nestedOuter
        (Table.ofBytes (write (.map repeatedPairs))) ∧
      (Record.decode decoder Wire.nestedOuter [Wire.nestedInner, Wire.nestedOuter]
          (write (.map repeatedPairs))).1 =
        ((Record.ofSchema Wire.nestedOuter [Wire.nestedInner, Wire.nestedOuter]).walk
          decoder.toPass (decoder.prime (write (.map repeatedPairs)))).1 := by
  have mem : Wire.nestedOuter ∈ [Wire.nestedInner, Wire.nestedOuter] := by simp
  have unpacked : Unpacked [Wire.nestedInner, Wire.nestedOuter] Wire.nestedOuter
      (Table.ofBytes (write (.map repeatedPairs))) := by
    rw [ofBytes_repeatedPairs]
    intro v given bs
    cases given with
    | here holds found =>
      obtain ⟨rfl, rfl⟩ := Wire.holdsIn_nestedOuter holds
      cases found
      simp
    | inside holds found opens given =>
      obtain ⟨rfl, rfl⟩ := Wire.holdsIn_nestedOuter holds
      cases given with
      | here holds | inside holds => exact absurd holds Wire.not_holdsIn_nestedInner
  exact ⟨Wire.parse_nestedText, mem, Wire.nestsWithin_nestedOuter, unpacked,
    decode_eq_walk_of_unpacked Wire.parse_nestedText mem Wire.nestsWithin_nestedOuter _ unpacked⟩

end MessageCodec.MessagePack
