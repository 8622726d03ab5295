import MessageCodec.Proofs.Wire.FirstRecord

/-! Messages nested in one field. The bytes of a message may have a payload for a field of
its own type, and that payload one of its own, and so on. A walk over a message that goes
down as far fills the first 64 levels, leaves what is below as it was, and notes once that
there are more of them. -/

namespace MessageCodec

namespace Wire

def given? (bs : Bytes) (id : UInt32) (t : ScalarType) : Option t.Value :=
  ((Decoding.ofBytes 0 bs).table.find? id).bind (fit? t)

/-- Bytes in which nothing is to be passed over: in the field `id` they hold the bytes of a nested
message, if any, and all other payloads fit scalar fields of `m`. -/
structure IsLevel (m : Schema.Message) (id : UInt32) (bs : Bytes) (next? : Option Bytes) :
    Prop where
  clean : (Decoding.ofBytes 0 bs).noted = .none
  next : (Decoding.ofBytes 0 bs).table.find? id = next?.map .delimited
  fits : ∀ i p, (Decoding.ofBytes 0 bs).table.find? i = some p → i ≠ id →
    ∃ f ∈ m.fields, ∃ t, f.id = i ∧ f.type = .scalar t ∧ (fit? t p).isSome

/-- The bytes of a message and of those nested in its field `id`, one in the other. -/
inductive AreLevels (m : Schema.Message) (id : UInt32) : Bytes → List Bytes → Prop where
  | last {bs : Bytes} (level : IsLevel m id bs none) : AreLevels m id bs []
  | cons {bs next : Bytes} {rest : List Bytes} (level : IsLevel m id bs (some next))
    (levels : AreLevels m id next rest) : AreLevels m id bs (next :: rest)

end Wire

namespace Fields

/-- The fields of a message like `m` that goes so many levels down in the field `id`. -/
def HasLevels (m : Schema.Message) (id : UInt32) : Nat → Fields → Prop
  | 0, _ => True
  | n + 1, fs =>
    fs.ids.Nodup ∧
      (∀ f ∈ m.fields, ∀ t, f.type = .scalar t → ∃ v, fs.content? f.id = some (.scalar ⟨t, v⟩)) ∧
      ∃ inner, fs.content? id = some (.message inner) ∧ inner.fields.HasLevels m id n

/-- Puts the values in place that bytes have for scalar fields: the first ones for these fields,
and the others for the message in the field `id`, level by level. -/
def fillLevels (id : UInt32) : Fields → List Bytes → Fields
  | fs, [] => fs
  | nil, _ :: _ => nil
  | scalar tag s rest, bs :: levels =>
    scalar tag ⟨s.type, (Wire.given? bs tag.id s.type).getD s.value⟩
      (rest.fillLevels id (bs :: levels))
  | nested tag header inner rest, bs :: levels =>
    nested tag header (if tag.id = id then inner.fillLevels id levels else inner)
      (rest.fillLevels id (bs :: levels))

@[simp]
theorem fillLevels_nil (fs : Fields) (id : UInt32) : fs.fillLevels id [] = fs := by
  cases fs <;> rfl

/-- A field in front does not hide one behind it that has another identifier. -/
theorem content?_of_fresh {fs : Fields} {i j : UInt32} {x y : Content} (fresh : j ∉ fs.ids)
    (held : fs.content? i = some y) : (if j = i then some x else fs.content? i) = some y :=
  (if_neg (ne_of_mem_of_not_mem (mem_ids_of_content? held) fresh).symm).trans held

end Fields

namespace Wire

namespace Decoding

variable {id i : UInt32} {deep : Nat} {d d₁ d' : Decoding} {ids : List UInt32}

/-- The second state has taken the payloads of some fields from the first one. Nothing was passed
over, except for what lies too deep in the field `id`. -/
structure Passes (id : UInt32) (deep : Nat) (d d' : Decoding) (ids : List UInt32) : Prop where
  table : d'.table = d.table
  depth : d'.depth = d.depth
  noted : d'.noted = d.noted.merge ⟨0, 0, if id ∈ ids then deep else 0⟩
  kept : d.asked ⊆ d'.asked
  added : ∀ j ∈ ids, (d.table.find? j).isSome → j ∈ d'.asked

theorem passes_refl (d : Decoding) : Passes id deep d d [] :=
  ⟨rfl, rfl, rfl, List.Subset.refl _, by simp⟩

theorem passes_of_absent (shallow : i = id → deep = 0) (absent : d.table.find? i = none) :
    Passes id deep d d [i] := by
  refine ⟨rfl, rfl, ?_, List.Subset.refl _, by simp [absent]⟩
  have nothing : (if id ∈ [i] then deep else 0) = 0 :=
    ite_eq_right_iff.2 fun own => shallow (List.mem_singleton.1 own).symm
  rw [nothing]
  rfl

theorem passes_of_ask (table : d'.table = d.table) (depth : d'.depth = d.depth)
    (asked : d'.asked = (d.ask i).asked)
    (noted : d'.noted = d.noted.merge ⟨0, 0, if i = id then deep else 0⟩) :
    Passes id deep d d' [i] := by
  have asks := asks_ask d i
  refine ⟨table, depth, ?_, asked ▸ asks.kept, fun j mem _ => asked ▸ asks.added mem⟩
  simpa only [List.mem_singleton, eq_comm] using noted

theorem passes_scalar (shallow : i = id → deep = 0) {t : ScalarType}
    (fits : ∀ p, d.table.find? i = some p → (fit? t p).isSome) (v : t.Value) :
    Passes id deep d (d.scalar i t v).2 [i] := by
  rw [Decoding.scalar]
  cases found : d.table.find? i with
  | none => exact passes_of_absent shallow found
  | some p =>
    obtain ⟨w, fit⟩ := Option.isSome_iff_exists.1 (fits p found)
    have asks := asks_ask d i
    simp only [fit]
    refine passes_of_ask asks.table asks.depth rfl (asks.noted.trans ?_)
    have nothing : (if i = id then deep else 0) = 0 := ite_eq_right_iff.2 shallow
    rw [nothing]
    rfl

theorem passes_noteMalformed (d : Decoding) : Passes id 1 d (d.ask id).noteMalformed [id] := by
  have asks := asks_ask d id
  refine passes_of_ask asks.table asks.depth rfl ?_
  rw [if_pos rfl, noteMalformed, asks.noted]
  rfl

theorem passes_absorb (d : Decoding) {inner : Decoding} (told : inner.diagnostics = ⟨0, 0, deep⟩) :
    Passes id deep d ((d.ask id).absorb inner) [id] := by
  have asks := asks_ask d id
  refine passes_of_ask asks.table asks.depth rfl ?_
  rw [if_pos rfl, absorb, asks.noted, told]

theorem Passes.cons (first : Passes id deep d d₁ [i]) (behind : Passes id deep d₁ d' ids)
    (fresh : i ∉ ids) : Passes id deep d d' (i :: ids) where
  table := behind.table.trans first.table
  depth := behind.depth.trans first.depth
  noted := by
    rw [behind.noted, first.noted]
    by_cases own : id = i
    · subst own
      simp [Diagnostics.merge, fresh]
    · simp [Diagnostics.merge, own]
  kept := List.Subset.trans first.kept behind.kept
  added j mem present := by
    rcases List.mem_cons.1 mem with rfl | mem
    · exact behind.kept (first.added j (List.mem_singleton.2 rfl) present)
    · exact behind.added j mem (first.table ▸ present)

/-- When every payload is taken, only what lies too deep is reported. -/
theorem Passes.diagnostics (passes : Passes id deep d d' ids) (clean : d.noted = .none)
    (all : ∀ j, (d.table.find? j).isSome → j ∈ ids) (mem : id ∈ ids) :
    d'.diagnostics = ⟨0, 0, deep⟩ := by
  have asked : d'.table.map Prod.fst ⊆ d'.asked := by
    rw [passes.table]
    intro j held
    have present := Table.isSome_find?.2 held
    exact passes.added j (all j present) present
  rw [diagnostics_of_asked asked, passes.noted, clean, if_pos mem]
  simp [Diagnostics.merge, Diagnostics.none]

theorem fst_scalar (d : Decoding) (id : UInt32) (t : ScalarType) (v : t.Value) :
    (d.scalar id t v).1 = ((d.table.find? id).bind (fit? t)).getD v := by
  rw [Decoding.scalar]
  cases d.table.find? id with
  | none => rfl
  | some p =>
    rw [Option.bind_some]
    dsimp only
    cases fit? t p <;> rfl

theorem descend_of_absent {μ : Type} {tag : FieldTag} (absent : d.table.find? tag.id = none)
    (walk : Decoding → μ × Decoding) (x : μ) : decoder.descend walk tag x d = (x, d) := by
  have closed : decoder.enter tag d = (d, none) := by
    change d.enter tag.id = _
    rw [enter, absent]
  exact Pass.descend_of_closed closed walk x

theorem descend_of_limit {μ : Type} {tag : FieldTag} {next : Bytes}
    (found : d.table.find? tag.id = some (.delimited next)) (limit : maxLevels ≤ d.depth + 1)
    (walk : Decoding → μ × Decoding) (x : μ) :
    decoder.descend walk tag x d = (x, (d.ask tag.id).noteMalformed) := by
  have closed : decoder.enter tag d = ((d.ask tag.id).noteMalformed, none) := by
    change d.enter tag.id = _
    rw [enter, found]
    exact if_pos limit
  exact Pass.descend_of_closed closed walk x

/-- A message is walked over with its bytes, and what is noted there is taken over. -/
theorem descend_of_shallow {μ : Type} {tag : FieldTag} {next : Bytes}
    (found : d.table.find? tag.id = some (.delimited next)) (shallow : d.depth + 1 < maxLevels)
    (walk : Decoding → μ × Decoding) (x : μ) :
    decoder.descend walk tag x d =
      ((walk (ofBytes (d.depth + 1) next)).1,
        (d.ask tag.id).absorb (walk (ofBytes (d.depth + 1) next)).2) := by
  have opened : decoder.enter tag d = (d.ask tag.id, some (ofBytes (d.depth + 1) next)) := by
    change d.enter tag.id = _
    rw [enter, found]
    exact if_neg (Nat.not_le.2 shallow)
  exact Pass.descend_of_opened opened walk x

variable {bs : Bytes} {levels : List Bytes} {depth : Nat}

/-- A field takes its value from some bytes and passes nothing over, except for what lies too deep
in the field `id`; a message in that field takes the values of the levels below. -/
def FieldPasses (id : UInt32) (deep : Nat) (bs : Bytes) (levels : List Bytes) (depth : Nat)
    (i : UInt32) : Content → Prop
  | .scalar s => ∀ d : Decoding, d.table = (ofBytes 0 bs).table →
    Passes id deep d (d.scalar i s.type s.value).2 [i]
  | .message inner => ∀ (d : Decoding) (tag : FieldTag), tag.id = i →
    d.table = (ofBytes 0 bs).table → d.depth = depth →
    (decoder.descend (inner.fields.walk decoder.toPass) tag inner.fields d).1 =
        (if i = id then inner.fields.fillLevels id levels else inner.fields) ∧
      Passes id deep d (decoder.descend (inner.fields.walk decoder.toPass) tag inner.fields d).2 [i]

theorem walk_of_fieldPasses {fs : Fields} (distinct : fs.ids.Nodup)
    (fields : ∀ i x, fs.content? i = some x → FieldPasses id deep bs levels depth i x)
    (same : d.table = (ofBytes 0 bs).table) (at' : d.depth = depth) :
    (fs.walk decoder.toPass d).1 = fs.fillLevels id (bs :: levels) ∧
      Passes id deep d (fs.walk decoder.toPass d).2 fs.ids := by
  induction fs generalizing d with
  | nil => exact ⟨rfl, passes_refl d⟩
  | scalar tag s rest ih =>
    obtain ⟨fresh, distinct⟩ := List.nodup_cons.1 distinct
    have first : Passes id deep d (d.scalar tag.id s.type s.value).2 [tag.id] :=
      fields tag.id (.scalar s) (if_pos rfl) d same
    have behind : ∀ i x, rest.content? i = some x → FieldPasses id deep bs levels depth i x :=
      fun i x held => fields i x (Fields.content?_of_fresh fresh held)
    obtain ⟨filled, passes⟩ := ih distinct behind (first.table.trans same) (first.depth.trans at')
    rw [walk_scalar, Fields.fillLevels, given?, ← same, ← fst_scalar]
    dsimp only
    rw [filled]
    exact ⟨rfl, first.cons passes fresh⟩
  | nested tag header inner rest _ ih =>
    obtain ⟨fresh, distinct⟩ := List.nodup_cons.1 distinct
    obtain ⟨content, first⟩ :=
      fields tag.id (.message ⟨header, inner⟩) (if_pos rfl) d tag rfl same at'
    have behind : ∀ i x, rest.content? i = some x → FieldPasses id deep bs levels depth i x :=
      fun i x held => fields i x (Fields.content?_of_fresh fresh held)
    obtain ⟨filled, passes⟩ := ih distinct behind (first.table.trans same) (first.depth.trans at')
    rw [walk_nested, Fields.fillLevels]
    dsimp only at content first ⊢
    rw [content, filled]
    exact ⟨rfl, first.cons passes fresh⟩

end Decoding

open Decoding

variable {m : Schema.Message} {id : UInt32} {bs : Bytes} {next? : Option Bytes}
variable {levels : List Bytes} {fs : Fields} {inner : Message} {deep depth k : Nat}

/-- Payloads of scalar fields, and perhaps one for the field `id`, make a level. -/
theorem isLevel_bytes {table : Table} (distinct : (table.map Prod.fst).Nodup)
    (sizes : ∀ entry ∈ table, entry.2.Fits) (next : table.find? id = next?.map .delimited)
    (fits : ∀ i p, table.find? i = some p → i ≠ id →
      ∃ f ∈ m.fields, ∃ t, f.id = i ∧ f.type = .scalar t ∧ (fit? t p).isSome) :
    IsLevel m id table.bytes next? := by
  have start := ofBytes_bytes_of_fits 0 distinct sizes
  refine ⟨?_, ?_, ?_⟩
  · rw [start]
  · rw [start]
    exact next
  · rw [start]
    exact fits

/-- The walk over a message of one level, given what it does to the message in the field `id`. -/
theorem IsLevel.walk (level : IsLevel m id bs next?) (distinct : fs.ids.Nodup)
    (scalars : ∀ f ∈ m.fields, ∀ t, f.type = .scalar t →
      ∃ v, fs.content? f.id = some (.scalar ⟨t, v⟩))
    (nested : fs.content? id = some (.message inner))
    (inside : FieldPasses id deep bs levels depth id (.message inner)) :
    (fs.walk decoder.toPass (ofBytes depth bs)).1 = fs.fillLevels id (bs :: levels) ∧
      (fs.walk decoder.toPass (ofBytes depth bs)).2.diagnostics = ⟨0, 0, deep⟩ := by
  have declared {i : UInt32} {p : Payload} (found : (ofBytes 0 bs).table.find? i = some p)
      (other : i ≠ id) : ∃ t v, fs.content? i = some (.scalar ⟨t, v⟩) ∧ (fit? t p).isSome := by
    obtain ⟨f, mem, t, rfl, type, fits⟩ := level.fits i p found other
    obtain ⟨v, held⟩ := scalars f mem t type
    exact ⟨t, v, held, fits⟩
  have fields : ∀ i x, fs.content? i = some x → FieldPasses id deep bs levels depth i x := by
    intro i x held
    by_cases own : i = id
    · subst own
      obtain rfl := Option.some.inj (nested.symm.trans held)
      exact inside
    · cases x with
      | scalar s =>
        intro d same
        refine passes_scalar (fun same => absurd same own) (fun p found => ?_) s.value
        obtain ⟨t, v, held', fits⟩ := declared (same ▸ found) own
        cases held.symm.trans held'
        exact fits
      | message other =>
        intro d tag tagged same _
        have absent : d.table.find? tag.id = none := by
          rw [tagged, same, ← Option.not_isSome_iff_eq_none, Option.isSome_iff_exists]
          rintro ⟨p, found⟩
          obtain ⟨t, v, held', -⟩ := declared found own
          cases held.symm.trans held'
        rw [descend_of_absent absent, if_neg own]
        exact ⟨rfl, passes_of_absent (fun same => absurd same own) (tagged ▸ absent)⟩
  have start : (ofBytes depth bs).table = (ofBytes 0 bs).table := rfl
  obtain ⟨filled, passes⟩ := walk_of_fieldPasses distinct fields start rfl
  refine ⟨filled, passes.diagnostics level.clean (fun i present => ?_)
    (Fields.mem_ids_of_content? nested)⟩
  obtain ⟨p, found⟩ := Option.isSome_iff_exists.1 present
  by_cases own : i = id
  · rw [own]
    exact Fields.mem_ids_of_content? nested
  · obtain ⟨t, v, held, -⟩ := declared found own
    exact Fields.mem_ids_of_content? held

/-- A walk fills as many levels as there is room for, and notes once that there are more. -/
theorem AreLevels.walk (chain : AreLevels m id bs levels)
    (has : fs.HasLevels m id (min levels.length k + 1)) (room : depth + k + 1 = maxLevels) :
    (fs.walk decoder.toPass (ofBytes depth bs)).1 = fs.fillLevels id (bs :: levels.take k) ∧
      (fs.walk decoder.toPass (ofBytes depth bs)).2.diagnostics =
        ⟨0, 0, if k < levels.length then 1 else 0⟩ := by
  induction chain generalizing fs depth k with
  | last level =>
    obtain ⟨distinct, scalars, inner, nested, -⟩ := has
    rw [List.length_nil, if_neg (Nat.not_lt_zero k), List.take_nil]
    refine level.walk distinct scalars nested fun d tag tagged same _ => ?_
    have absent : d.table.find? tag.id = none := by rw [tagged, same, level.next, Option.map_none]
    rw [descend_of_absent absent, if_pos rfl, Fields.fillLevels_nil]
    exact ⟨rfl, passes_of_absent (fun _ => rfl) (tagged ▸ absent)⟩
  | @cons bs next rest level chain ih =>
    obtain ⟨distinct, scalars, inner, nested, has⟩ := has
    have found {d : Decoding} {tag : FieldTag} (tagged : tag.id = id)
        (same : d.table = (ofBytes 0 bs).table) :
        d.table.find? tag.id = some (.delimited next) := by
      rw [tagged, same, level.next, Option.map_some]
    rw [List.length_cons]
    cases k with
    | zero =>
      -- the next level lies too deep
      rw [if_pos (Nat.succ_pos _), List.take_zero]
      refine level.walk distinct scalars nested fun d tag tagged same at' => ?_
      have limit : maxLevels ≤ d.depth + 1 := by omega
      rw [descend_of_limit (found tagged same) limit, if_pos rfl, Fields.fillLevels_nil, tagged]
      exact ⟨rfl, passes_noteMalformed d⟩
    | succ k =>
      have has : inner.fields.HasLevels m id (min rest.length k + 1) := by
        rwa [List.length_cons, Nat.succ_min_succ] at has
      obtain ⟨filled, told⟩ := ih has (by omega : depth + 1 + k + 1 = maxLevels)
      rw [List.take_succ_cons]
      simp only [Nat.add_lt_add_iff_right]
      refine level.walk distinct scalars nested fun d tag tagged same at' => ?_
      have shallow : d.depth + 1 < maxLevels := by omega
      rw [descend_of_shallow (found tagged same) shallow, if_pos rfl, at', tagged]
      exact ⟨filled, passes_absorb d told⟩

end Wire

end MessageCodec
