import Mathlib.Algebra.GroupWithZero.Nat
import Mathlib.Data.Finset.Card
import MessageCodec.Proofs.Record.Walk
import MessageCodec.Proofs.Wire.RoundTrip
import MessageCodec.Proofs.Wire.Spelling

/-! What decoding depends on. Of all records only the first one of each declared field
counts; the others are passed over, wherever they stand. The identifiers among them that
are not declared are counted once each, and records beyond every identifier one by one. -/

namespace MessageCodec

namespace Wire

/-- The payload of the first record that carries an identifier. -/
def Item.first? (items : List Item) (id : UInt32) : Option Payload :=
  (items.find? fun item => Key.id? item.key == some id).map (·.payload)

namespace Table

variable {table : Table} {id : UInt32}

theorem isSome_find? : (table.find? id).isSome ↔ id ∈ table.map Prod.fst := by
  rw [← not_iff_not, Option.not_isSome_iff_eq_none]
  refine ⟨fun absent mem => ?_, find?_eq_none⟩
  obtain ⟨entry, held, rfl⟩ := List.mem_map.1 mem
  have other := List.lookup_eq_none_iff.1 absent entry held
  simp at other

theorem find?_add (table : Table) (item : Item) (id : UInt32) :
    (table.add item).find? id =
      (table.find? id).or (if Key.id? item.key = some id then some item.payload else none) := by
  rw [add]
  cases carried : Key.id? item.key with
  | none => simp
  | some i =>
    dsimp only
    split
    · rename_i taken
      obtain ⟨entry, mem, same⟩ := List.any_eq_true.1 taken
      by_cases wanted : i = id
      · have held : (table.find? id).isSome := by
          rw [isSome_find?, ← wanted, ← eq_of_beq same]
          exact List.mem_map_of_mem mem
        rw [Option.or_of_isSome held]
      · rw [if_neg (by simpa using wanted), Option.or_none]
    · rw [find?, List.lookup_append]
      congr 1
      by_cases wanted : i = id
      · subst wanted
        simp
      · simp [List.lookup_cons, beq_eq_false_iff_ne.2 (Ne.symm wanted), wanted]

theorem find?_foldl_add (table : Table) (items : List Item) (id : UInt32) :
    (items.foldl add table).find? id = (table.find? id).or (Item.first? items id) := by
  induction items generalizing table with
  | nil => simp [Item.first?]
  | cons item items ih =>
    rw [List.foldl_cons, ih, find?_add, Option.or_assoc]
    congr 1
    by_cases carried : Key.id? item.key = some id <;> simp [Item.first?, carried]

theorem find?_ofItems (items : List Item) (id : UInt32) :
    (ofItems items).find? id = Item.first? items id :=
  find?_foldl_add [] items id

theorem nodup_add (distinct : (table.map Prod.fst).Nodup) (item : Item) :
    ((table.add item).map Prod.fst).Nodup := by
  rw [add]
  cases Key.id? item.key with
  | none => exact distinct
  | some i =>
    dsimp only
    split
    · exact distinct
    · rename_i fresh
      rw [List.map_append, List.nodup_append]
      refine ⟨distinct, List.nodup_singleton i, ?_⟩
      rintro _ mem _ last rfl
      obtain rfl := List.mem_singleton.1 last
      obtain ⟨entry, held, same⟩ := List.mem_map.1 mem
      exact fresh (List.any_eq_true.2 ⟨entry, held, by simpa using same⟩)

theorem nodup_foldl_add (distinct : (table.map Prod.fst).Nodup) (items : List Item) :
    ((items.foldl add table).map Prod.fst).Nodup := by
  induction items generalizing table with
  | nil => exact distinct
  | cons item items ih => exact ih (nodup_add distinct item)

theorem nodup_ofItems (items : List Item) : ((ofItems items).map Prod.fst).Nodup :=
  @nodup_foldl_add [] List.nodup_nil items

theorem isSome_first? {items : List Item} :
    (Item.first? items id).isSome ↔ id ∈ items.filterMap fun item => Key.id? item.key := by
  simp [Item.first?, List.find?_isSome]

theorem toFinset_ofItems (items : List Item) :
    ((ofItems items).map Prod.fst).toFinset =
      (items.filterMap fun item => Key.id? item.key).toFinset := by
  ext i
  rw [List.mem_toFinset, List.mem_toFinset, ← isSome_find?, find?_ofItems, isSome_first?]

end Table

namespace Decoding

/-- Two states that give the same to fields with these identifiers, and have noted the same
about what they were asked for. -/
structure Agree (ids : List UInt32) (d d' : Decoding) : Prop where
  found : ∀ i ∈ ids, d.table.find? i = d'.table.find? i
  depth : d.depth = d'.depth
  mismatched : d.noted.mismatched = d'.noted.mismatched
  malformed : d.noted.malformed = d'.noted.malformed

variable {ids : List UInt32} {d d' : Decoding} {id : UInt32}

theorem Agree.ask (agree : Agree ids d d') (id : UInt32) : Agree ids (d.ask id) (d'.ask id) := by
  have asks := asks_ask d id
  have asks' := asks_ask d' id
  constructor
  · rw [asks.table, asks'.table]
    exact agree.found
  · rw [asks.depth, asks'.depth, agree.depth]
  · rw [asks.noted, asks'.noted, agree.mismatched]
  · rw [asks.noted, asks'.noted, agree.malformed]

theorem Agree.noteMismatch (agree : Agree ids d d') : Agree ids d.noteMismatch d'.noteMismatch :=
  ⟨agree.found, agree.depth, congrArg (· + 1) agree.mismatched, agree.malformed⟩

theorem Agree.noteMalformed (agree : Agree ids d d') : Agree ids d.noteMalformed d'.noteMalformed :=
  ⟨agree.found, agree.depth, agree.mismatched, congrArg (· + 1) agree.malformed⟩

theorem Agree.absorb (agree : Agree ids d d') (inner : Decoding) :
    Agree ids (d.absorb inner) (d'.absorb inner) :=
  ⟨agree.found, agree.depth, congrArg (· + inner.diagnostics.mismatched) agree.mismatched,
    congrArg (· + inner.diagnostics.malformed) agree.malformed⟩

theorem Agree.scalar (agree : Agree ids d d') (mem : id ∈ ids) (t : ScalarType) (v : t.Value) :
    (d.scalar id t v).1 = (d'.scalar id t v).1 ∧
      Agree ids (d.scalar id t v).2 (d'.scalar id t v).2 := by
  rw [Decoding.scalar, Decoding.scalar, agree.found id mem]
  cases d'.table.find? id with
  | none => exact ⟨rfl, agree⟩
  | some p =>
    dsimp only
    cases fit? t p with
    | none => exact ⟨rfl, (agree.ask id).noteMismatch⟩
    | some v => exact ⟨rfl, agree.ask id⟩

theorem Agree.enter (agree : Agree ids d d') (mem : id ∈ ids) :
    Agree ids (d.enter id).1 (d'.enter id).1 ∧ (d.enter id).2 = (d'.enter id).2 := by
  rw [Decoding.enter, Decoding.enter, agree.found id mem, agree.depth]
  cases d'.table.find? id with
  | none => exact ⟨agree, rfl⟩
  | some p =>
    cases p with
    | delimited bs =>
      dsimp only
      split
      · exact ⟨(agree.ask id).noteMalformed, rfl⟩
      · exact ⟨agree.ask id, rfl⟩
    | _ => exact ⟨(agree.ask id).noteMismatch, rfl⟩

theorem Agree.descend {μ : Type} {tag : FieldTag} (agree : Agree ids d d') (mem : tag.id ∈ ids)
    (walk : Decoding → μ × Decoding) (m : μ) :
    (decoder.descend walk tag m d).1 = (decoder.descend walk tag m d').1 ∧
      Agree ids (decoder.descend walk tag m d).2 (decoder.descend walk tag m d').2 := by
  obtain ⟨around, same⟩ := agree.enter mem
  rcases entered : d.enter tag.id with ⟨s, opened⟩
  rcases entered' : d'.enter tag.id with ⟨s', opened'⟩
  rw [entered, entered'] at around same
  obtain rfl : opened = opened' := same
  cases opened with
  | none =>
    rw [Pass.descend_of_closed entered, Pass.descend_of_closed entered']
    exact ⟨rfl, around⟩
  | some opened =>
    rw [Pass.descend_of_opened entered, Pass.descend_of_opened entered']
    exact ⟨rfl, around.absorb _⟩

theorem walk_scalar (tag : FieldTag) (s : Scalar) (rest : Fields) (d : Decoding) :
    (Fields.scalar tag s rest).walk decoder.toPass d =
      let filled := d.scalar tag.id s.type s.value
      (.scalar tag ⟨s.type, filled.1⟩ (rest.walk decoder.toPass filled.2).1,
        (rest.walk decoder.toPass filled.2).2) := rfl

theorem walk_nested (tag : FieldTag) (header : Header) (inner rest : Fields) (d : Decoding) :
    (Fields.nested tag header inner rest).walk decoder.toPass d =
      let filled := decoder.descend (inner.walk decoder.toPass) tag inner d
      (.nested tag header filled.1 (rest.walk decoder.toPass filled.2).1,
        (rest.walk decoder.toPass filled.2).2) := rfl

/-- Fields are filled in the same way from states that agree on their identifiers. -/
theorem Agree.walk {fs : Fields} (agree : Agree ids d d') (declared : fs.ids ⊆ ids) :
    (fs.walk decoder.toPass d).1 = (fs.walk decoder.toPass d').1 ∧
      Agree ids (fs.walk decoder.toPass d).2 (fs.walk decoder.toPass d').2 := by
  induction fs generalizing d d' with
  | nil => exact ⟨rfl, agree⟩
  | scalar tag s rest ih =>
    obtain ⟨mem, declared⟩ := List.cons_subset.1 declared
    obtain ⟨value, agree⟩ := agree.scalar mem s.type s.value
    obtain ⟨fields, agree⟩ := ih agree declared
    simp only [walk_scalar, value, fields]
    exact ⟨trivial, agree⟩
  | nested tag header inner rest _ ih =>
    obtain ⟨mem, declared⟩ := List.cons_subset.1 declared
    obtain ⟨content, agree⟩ := agree.descend mem (inner.walk decoder.toPass) inner
    obtain ⟨fields, agree⟩ := ih agree declared
    simp only [walk_nested, content, fields]
    exact ⟨trivial, agree⟩

/-- What is opened depends on the table and on the depth only. -/
theorem snd_enter (d : Decoding) (id : UInt32) :
    (d.enter id).2 =
      match d.table.find? id with
      | some (.delimited bs) =>
        if maxLevels ≤ d.depth + 1 then none else some (ofBytes (d.depth + 1) bs)
      | _ => none := by
  rw [enter]
  cases d.table.find? id with
  | none => rfl
  | some p =>
    cases p with
    | delimited bs => dsimp only; split <;> rfl
    | _ => rfl

/-- What is noted in the nested messages that are opened for fields. -/
def reports (d : Decoding) : Fields → List Diagnostics
  | .nil => []
  | .scalar _ _ rest => reports d rest
  | .nested tag _ inner rest =>
    match (d.enter tag.id).2 with
    | none => reports d rest
    | some opened => (inner.walk decoder.toPass opened).2.diagnostics :: reports d rest

theorem reports_congr (table : d.table = d'.table) (depth : d.depth = d'.depth) (fs : Fields) :
    reports d fs = reports d' fs := by
  induction fs with
  | nil => rfl
  | scalar tag s rest ih => exact ih
  | nested tag header inner rest _ ih =>
    have opened : (d.enter tag.id).2 = (d'.enter tag.id).2 := by
      rw [snd_enter, snd_enter, table, depth]
    rw [reports, reports, opened, ih]

/-- The second state comes from the first one by filling fields with these identifiers. -/
structure Fills (d d' : Decoding) (ids : List UInt32) (reports : List Diagnostics) : Prop where
  table : d'.table = d.table
  depth : d'.depth = d.depth
  asked : ∀ i, i ∈ d'.asked ↔ i ∈ d.asked ∨ i ∈ ids ∧ (d.table.find? i).isSome
  unknown : d'.noted.unknown = d.noted.unknown + (reports.map (·.unknown)).sum

variable {d₁ : Decoding} {own behind : List UInt32} {told later : List Diagnostics}

theorem Fills.refl (d : Decoding) : Fills d d [] [] :=
  ⟨rfl, rfl, by simp, rfl⟩

theorem Fills.trans (h : Fills d d₁ own told) (h' : Fills d₁ d' behind later) :
    Fills d d' (own ++ behind) (told ++ later) where
  table := h'.table.trans h.table
  depth := h'.depth.trans h.depth
  asked i := by
    rw [h'.asked, h.asked, h.table, List.mem_append, or_assoc, ← or_and_right]
  unknown := by
    rw [h'.unknown, h.unknown, List.map_append, List.sum_append, Nat.add_assoc]

theorem fills_of_absent (found : d.table.find? id = none) : Fills d d [id] [] := by
  refine ⟨rfl, rfl, fun i => ?_, rfl⟩
  rw [List.mem_singleton, or_iff_left]
  rintro ⟨rfl, present⟩
  simp [found] at present

theorem fills_ask {p : Payload} (found : d.table.find? id = some p) :
    Fills d (d.ask id) [id] [] := by
  have asks := asks_ask d id
  refine ⟨asks.table, asks.depth, fun i => ?_, congrArg Diagnostics.unknown asks.noted⟩
  have present : i ∈ [id] ∧ (d.table.find? i).isSome ↔ i = id := by
    rw [List.mem_singleton, and_iff_left_iff_imp]
    rintro rfl
    rw [found]
    rfl
  rw [present, ask]
  split
  · rename_i known
    rw [or_iff_left_of_imp]
    rintro rfl
    simpa using known
  · exact List.mem_cons.trans or_comm

theorem Fills.noteMismatch (h : Fills d d' own told) : Fills d d'.noteMismatch own told :=
  ⟨h.table, h.depth, h.asked, h.unknown⟩

theorem Fills.noteMalformed (h : Fills d d' own told) : Fills d d'.noteMalformed own told :=
  ⟨h.table, h.depth, h.asked, h.unknown⟩

theorem Fills.absorb (h : Fills d d' own []) (inner : Decoding) :
    Fills d (d'.absorb inner) own [inner.diagnostics] :=
  ⟨h.table, h.depth, h.asked, congrArg (· + inner.diagnostics.unknown) h.unknown⟩

theorem fills_scalar (d : Decoding) (id : UInt32) (t : ScalarType) (v : t.Value) :
    Fills d (d.scalar id t v).2 [id] [] := by
  rw [Decoding.scalar]
  cases found : d.table.find? id with
  | none => exact fills_of_absent found
  | some p =>
    dsimp only
    cases fit? t p with
    | none => exact (fills_ask found).noteMismatch
    | some v => exact fills_ask found

theorem fills_enter (d : Decoding) (id : UInt32) : Fills d (d.enter id).1 [id] [] := by
  rw [enter]
  cases found : d.table.find? id with
  | none => exact fills_of_absent found
  | some p =>
    cases p with
    | delimited bs =>
      dsimp only
      split
      · exact (fills_ask found).noteMalformed
      · exact fills_ask found
    | _ => exact (fills_ask found).noteMismatch

/-- Filling fields asks for those of their identifiers that are there, and takes over what is noted
in the nested messages. -/
theorem fills_walk (d : Decoding) (fs : Fields) :
    Fills d (fs.walk decoder.toPass d).2 fs.ids (reports d fs) := by
  induction fs generalizing d with
  | nil => exact .refl d
  | scalar tag s rest ih =>
    have first := fills_scalar d tag.id s.type s.value
    have behind := ih (d.scalar tag.id s.type s.value).2
    rw [reports_congr first.table first.depth] at behind
    exact first.trans behind
  | nested tag header inner rest _ ih =>
    have first := fills_enter d tag.id
    rcases entered : d.enter tag.id with ⟨around, _ | opened⟩
    · rw [entered] at first
      have behind := ih around
      rw [reports_congr first.table first.depth] at behind
      have closed : decoder.enter tag d = (around, none) := entered
      rw [walk_nested, Pass.descend_of_closed closed, reports, entered]
      exact first.trans behind
    · rw [entered] at first
      have first := first.absorb (inner.walk decoder.toPass opened).2
      have behind := ih (around.absorb (inner.walk decoder.toPass opened).2)
      rw [reports_congr first.table first.depth] at behind
      have entered' : decoder.enter tag d = (around, some opened) := entered
      rw [walk_nested, Pass.descend_of_opened entered', reports, entered]
      exact first.trans behind

theorem content?_walk {fs : Fields} {i : UInt32} (absent : d.table.find? i = none) :
    (fs.walk decoder.toPass d).1.content? i = fs.content? i := by
  induction fs generalizing d with
  | nil => rfl
  | scalar tag s rest ih =>
    have first := fills_scalar d tag.id s.type s.value
    rw [walk_scalar, Fields.content?, Fields.content?, ih (first.table ▸ absent)]
    split
    · rename_i same
      subst same
      rw [Decoding.scalar, absent]
    · rfl
  | nested tag header inner rest _ ih =>
    have first := fills_enter d tag.id
    rcases entered : d.enter tag.id with ⟨around, _ | opened⟩
    · rw [entered] at first
      rw [walk_nested, Pass.descend_of_closed entered, Fields.content?, Fields.content?,
        ih (first.table ▸ absent)]
    · rw [entered] at first
      have other : tag.id ≠ i := by
        rintro rfl
        rw [enter, absent] at entered
        cases entered
      rw [walk_nested, Pass.descend_of_opened entered, Fields.content?, Fields.content?,
        if_neg other, if_neg other]
      exact ih (d := around.absorb _) (first.table ▸ absent)

/-- Identifiers that are not declared stay unasked for. -/
theorem countP_unasked (fills : Fills d d' ids told) (fresh : d.asked = [])
    (distinct : (d.table.map Prod.fst).Nodup) :
    d'.table.countP (fun entry => !d'.asked.contains entry.1) =
      ((d.table.map Prod.fst).toFinset \ ids.toFinset).card := by
  have unasked : ∀ entry ∈ d.table, (!d'.asked.contains entry.1) = true ↔ entry.1 ∉ ids := by
    intro entry mem
    have present : (d.table.find? entry.1).isSome :=
      Table.isSome_find?.2 (List.mem_map_of_mem mem)
    rw [Bool.not_eq_true', ← Bool.not_eq_true, List.contains_iff_mem, fills.asked, fresh]
    simp [present]
  have counted : d'.table.countP (fun entry => !d'.asked.contains entry.1) =
      (d.table.map Prod.fst).countP (· ∉ ids) := by
    rw [List.countP_map, fills.table]
    refine List.countP_congr fun entry mem => ?_
    rw [unasked entry mem]
    simp
  rw [counted, List.countP_eq_length_filter, ← List.toFinset_card_of_nodup (distinct.filter _)]
  congr 1
  ext i
  simp

end Decoding

theorem prime_flatten {items : List Item} {chunks : List Bytes}
    (spelled : List.Forall₂ Item.Spelled items chunks) :
    decoder.prime chunks.flatten =
      ⟨.ofItems items, [],
        ⟨items.countP fun item => UInt32.size ≤ Key.fieldNumber item.key, 0, 0⟩, 0⟩ := by
  have scanned := Item.readAll_flatten chunks.flatten spelled
  have beyond (key : UInt64) :
      (Key.id? key).isNone = decide (UInt32.size ≤ Key.fieldNumber key) := by
    rw [Key.id?]
    split
    · rename_i within
      simpa using within
    · rename_i outside
      simpa using outside
  change Decoding.ofBytes 0 chunks.flatten = _
  simp only [Decoding.ofBytes, Cursor.ofBytes, scanned, beyond]
  rfl

/-- Of two runs of records with the same first record for each declared identifier, a message takes
the same values, and the same payloads do not fit or are malformed. Fields without a record keep
their values. The message itself passes over each identifier that is not declared once and over each
record beyond every identifier; all else that is unknown is noted in nested messages. -/
theorem decodeInto_of_first {m : Message} {items items' : List Item} {chunks chunks' : List Bytes}
    (spelled : List.Forall₂ Item.Spelled items chunks)
    (spelled' : List.Forall₂ Item.Spelled items' chunks')
    (same : ∀ i ∈ m.fields.ids, Item.first? items i = Item.first? items' i) :
    let decoded := decoder.decodeInto chunks.flatten m
    let decoded' := decoder.decodeInto chunks'.flatten m
    decoded.1 = decoded'.1 ∧
      decoded.2.diagnostics.mismatched = decoded'.2.diagnostics.mismatched ∧
      decoded.2.diagnostics.malformed = decoded'.2.diagnostics.malformed ∧
      (∀ i, Item.first? items i = none →
        decoded.1.fields.content? i = m.fields.content? i) ∧
      decoded.2.diagnostics.unknown =
        ((items.filterMap fun item => Key.id? item.key).toFinset \ m.fields.ids.toFinset).card +
          items.countP (fun item => UInt32.size ≤ Key.fieldNumber item.key) +
          ((Decoding.reports (decoder.prime chunks.flatten) m.fields).map (·.unknown)).sum := by
  intro decoded decoded'
  have start := prime_flatten spelled
  have start' := prime_flatten spelled'
  have agree : Decoding.Agree m.fields.ids (decoder.prime chunks.flatten)
      (decoder.prime chunks'.flatten) := by
    rw [start, start']
    refine ⟨fun i mem => ?_, rfl, rfl, rfl⟩
    rw [Table.find?_ofItems, Table.find?_ofItems, same i mem]
  obtain ⟨fields, agree⟩ := agree.walk (List.Subset.refl m.fields.ids)
  refine ⟨congrArg (Message.mk m.header) fields, agree.mismatched, agree.malformed, ?_, ?_⟩
  · intro i absent
    have unheld : (decoder.prime chunks.flatten).table.find? i = none := by
      rw [start, Table.find?_ofItems, absent]
    exact Decoding.content?_walk unheld
  · have fills : Decoding.Fills (decoder.prime chunks.flatten) decoded.2 m.fields.ids _ :=
      Decoding.fills_walk (decoder.prime chunks.flatten) m.fields
    have unasked := Decoding.countP_unasked fills (by rw [start])
      (by rw [start]; exact Table.nodup_ofItems items)
    have noted := fills.unknown
    have total : decoded.2.diagnostics.unknown = decoded.2.noted.unknown +
        decoded.2.table.countP fun entry => !decoded.2.asked.contains entry.1 := rfl
    rw [total, unasked, noted]
    simp only [start, Table.toFinset_ofItems]
    omega

/-- A character and a nested message. -/
def plainItems : List Item := [⟨0x10, .varint 65⟩, ⟨0x1A, .delimited [0x08, 4]⟩]

def plainChunks : List Bytes := [[0x10, 65], [0x1A, 2, 0x08, 4]]

/-- The same in another order and with longer numerals, behind an undeclared record, between one
beyond every identifier and a second character. -/
def mixedItems : List Item :=
  [⟨0x3D, .fixed32 0⟩, ⟨0x1A, .delimited [0x08, 4]⟩, ⟨0x8000000000, .varint 0⟩, ⟨0x10, .varint 65⟩,
    ⟨0x10, .varint 66⟩]

def mixedChunks : List Bytes :=
  [[0x3D, 0, 0, 0, 0], [0x1A, 0x82, 0, 0x08, 4], [0x80, 0x80, 0x80, 0x80, 0x80, 0x10, 0],
    [0x10, 0xC1, 0], [0x10, 66]]

theorem Item.Spelled.of_eq {key : UInt64} {p : Payload} {bs whole : Bytes}
    (type : Key.typeNumber key = p.type.number) (spelled : p.Spelled bs)
    (whole_eq : Varint.write key ++ bs = whole) : Spelled ⟨key, p⟩ whole :=
  whole_eq ▸ .mk type spelled

theorem spelled_plainChunks : List.Forall₂ Item.Spelled plainItems plainChunks :=
  .cons (.of_eq (by decide) (.varint ⟨[], 65, rfl, by simp, by decide⟩ (by decide))
    (by decide +kernel)) <|
  .cons (.of_eq (by decide)
    (.delimited ⟨[], 2, rfl, by simp, by decide⟩ (by decide) rfl (by decide))
    (by decide +kernel)) .nil

theorem spelled_mixedChunks : List.Forall₂ Item.Spelled mixedItems mixedChunks :=
  .cons (.of_eq (by decide) (@Payload.Spelled.fixed32 [0, 0, 0, 0] rfl) (by decide +kernel)) <|
  .cons (.of_eq (by decide)
    (.delimited ⟨[0x82], 0, rfl, by simp, by decide⟩ (by decide) rfl (by decide))
    (by decide +kernel)) <|
  .cons (.of_eq (by decide) (.varint ⟨[], 0, rfl, by simp, by decide⟩ (by decide))
    (by decide +kernel)) <|
  .cons (.of_eq (by decide) (.varint ⟨[0xC1], 0, rfl, by simp, by decide⟩ (by decide))
    (by decide +kernel)) <|
  .cons (.of_eq (by decide) (.varint ⟨[], 66, rfl, by simp, by decide⟩ (by decide))
    (by decide +kernel)) .nil

theorem decodeInto_of_first_mixedChunks :
    List.Forall₂ Item.Spelled mixedItems mixedChunks ∧
      List.Forall₂ Item.Spelled plainItems plainChunks ∧
      (∀ i ∈ (sample 7 'b' 3 "kept").fields.ids,
        Item.first? mixedItems i = Item.first? plainItems i) ∧
      (decoder.decodeInto mixedChunks.flatten (sample 7 'b' 3 "kept")).1 =
        (decoder.decodeInto plainChunks.flatten (sample 7 'b' 3 "kept")).1 ∧
      (decoder.decodeInto mixedChunks.flatten (sample 7 'b' 3 "kept")).2.diagnostics.unknown =
        2 := by
  have same : ∀ i ∈ (sample 7 'b' 3 "kept").fields.ids,
      Item.first? mixedItems i = Item.first? plainItems i := by
    simp only [sample, Fields.ids, List.forall_mem_cons]
    exact ⟨by decide, by decide, by decide, by simp⟩
  obtain ⟨fields, -, -, -, unknown⟩ :=
    decodeInto_of_first spelled_mixedChunks spelled_plainChunks same
  refine ⟨spelled_mixedChunks, spelled_plainChunks, same, fields, unknown.trans ?_⟩
  decide +kernel

end Wire

end MessageCodec
