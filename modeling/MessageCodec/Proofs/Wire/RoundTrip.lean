import MessageCodec.Proofs.Wire.Carried
import MessageCodec.Proofs.Wire.Scan

/-! Decoding the binary form of one message into another one of the same shape. What
the binary form carries is put in place, and everything it leaves out, which is the
defaults and the characters above U+00FF, keeps what the target held. -/

namespace MessageCodec

namespace Fields

/-- The second fields with the values that the binary form of the first ones carries. -/
def overlay : Fields → Fields → Fields
  | scalar _ s rest, scalar tag s' rest' =>
    scalar tag (if s.isCarried then s else s') (rest.overlay rest')
  | nested _ _ inner rest, nested tag header inner' rest' =>
    nested tag header (inner.overlay inner') (rest.overlay rest')
  | _, fs => fs

/-- The fields with negative zeros made positive and characters above U+00FF made null. -/
def narrowed : Fields → Fields
  | nil => nil
  | scalar tag s rest => scalar tag s.narrowed rest.narrowed
  | nested tag header inner rest => nested tag header inner.narrowed rest.narrowed

theorem overlay_zeroed (fs : Fields) : fs.overlay fs.zeroed = fs.narrowed := by
  induction fs with
  | nil => rfl
  | scalar tag s rest ih => rw [zeroed, overlay, narrowed, Scalar.narrowed_eq, ih]
  | nested tag header inner rest ihInner ih => rw [zeroed, overlay, narrowed, ihInner, ih]

end Fields

namespace Wire

/-- Nothing is put in place of fields from a message that leaves nothing. -/
theorem overlay_of_isEmpty {a b : Fields} (alike : a.Alike b) (empty : a.table.isEmpty) :
    a.overlay b = b := by
  induction a generalizing b with
  | nil => rfl
  | scalar tag s rest ih =>
    cases b with
    | scalar tag' s' rest' =>
      obtain ⟨absent, behind⟩ := Table.isEmpty_front empty
      have left : s.isCarried = false := by rw [← Payload.isSome_ofField?, absent]; rfl
      rw [Fields.overlay, left, ih alike.2.2 behind]
      rfl
    | _ => cases alike
  | nested tag header inner rest ihInner ih =>
    cases b with
    | nested tag' header' inner' rest' =>
      obtain ⟨absent, behind⟩ := Table.isEmpty_front empty
      have inside : inner.table.isEmpty := Table.payload?_eq_none.1 absent
      rw [Fields.overlay, ihInner alike.2.1 inside, ih alike.2.2 behind]
    | _ => cases alike

/-- The payloads that a table has for the first of some fields and for the others. -/
theorem Table.find?_of_front {table : Table} {id : UInt32} {p? : Option Payload} {rest : Fields}
    (fresh : id ∉ rest.ids)
    (found : ∀ i ∈ id :: rest.ids, table.find? i = (front id p? rest.table).find? i) :
    table.find? id = p? ∧ ∀ i ∈ rest.ids, table.find? i = rest.table.find? i := by
  constructor
  · rw [found id (List.mem_cons_self ..),
      find?_front_self fun mem => fresh (Fields.mem_ids_of_mem_table mem)]
  · intro i mem
    have other : i ≠ id := by
      rintro rfl
      exact fresh mem
    rw [found i (List.mem_cons_of_mem _ mem), find?_front_of_ne other]

namespace Decoding

/-- The second state has asked for some identifiers more and is otherwise the first one. -/
structure Asks (d d' : Decoding) (ids : List UInt32) : Prop where
  table : d'.table = d.table
  noted : d'.noted = d.noted
  depth : d'.depth = d.depth
  kept : d.asked ⊆ d'.asked
  added : ids ⊆ d'.asked

theorem Asks.refl (d : Decoding) : Asks d d [] :=
  ⟨rfl, rfl, rfl, List.Subset.refl _, List.nil_subset _⟩

theorem asks_ask (d : Decoding) (id : UInt32) : Asks d (d.ask id) [id] := by
  unfold ask
  split
  · rename_i asked
    exact ⟨rfl, rfl, rfl, List.Subset.refl _, by simpa using asked⟩
  · exact ⟨rfl, rfl, rfl, List.subset_cons_self _ _, by simp⟩

theorem Asks.trans {d₁ d₂ d₃ : Decoding} {xs ys : List UInt32} (h : Asks d₁ d₂ xs)
    (h' : Asks d₂ d₃ ys) : Asks d₁ d₃ (xs ++ ys) where
  table := h'.table.trans h.table
  noted := h'.noted.trans h.noted
  depth := h'.depth.trans h.depth
  kept := List.Subset.trans h.kept h'.kept
  added := List.append_subset.2 ⟨List.Subset.trans h.added h'.kept, h'.added⟩

/-- When every payload has been asked for, nothing is added to what was noted. -/
theorem diagnostics_of_asked {d : Decoding} (all : d.table.map Prod.fst ⊆ d.asked) :
    d.diagnostics = d.noted := by
  have known : d.table.countP (fun entry => !d.asked.contains entry.1) = 0 := by
    rw [List.countP_eq_zero]
    intro entry mem
    have asked := all (List.mem_map_of_mem mem)
    simpa using asked
  have counted : d.diagnostics = { d.noted with
      unknown := d.noted.unknown + d.table.countP fun entry => !d.asked.contains entry.1 } := rfl
  rw [counted, known]
  rfl

/-- Nothing was passed over when every payload has been asked for. -/
theorem Asks.diagnostics {d d' : Decoding} {ids : List UInt32} (h : Asks d d' ids)
    (clean : d.noted = .none) (all : d.table.map Prod.fst ⊆ ids) : d'.diagnostics = .none := by
  have asked : d'.table.map Prod.fst ⊆ d'.asked := by
    rw [h.table]
    exact List.Subset.trans all h.added
  rw [diagnostics_of_asked asked, h.noted, clean]

/-- The identifiers in front of a table when a payload is. -/
theorem Asks.front {d d₁ d₂ : Decoding} {id : UInt32} {p? : Option Payload} {table : Table}
    (h : Asks d d₁ (p?.toList.map fun _ => id)) (h' : Asks d₁ d₂ (table.map Prod.fst)) :
    Asks d d₂ ((Table.front id p? table).map Prod.fst) := by
  cases p? with
  | none => exact h.trans h'
  | some p => exact h.trans h'

theorem scalar_of_find? {d : Decoding} {id : UInt32} {s : Scalar} (v : s.type.Value)
    (found : d.table.find? id = Payload.ofField? s) :
    (d.scalar id s.type v).1 = (if s.isCarried then s.value else v) ∧
      Asks d (d.scalar id s.type v).2 ((Payload.ofField? s).toList.map fun _ => id) := by
  rw [scalar, found, ← Payload.isSome_ofField?]
  cases h : Payload.ofField? s with
  | none => exact ⟨rfl, .refl d⟩
  | some p =>
    rw [Payload.ofField?, Option.ite_none_left_eq_some] at h
    simp only [Payload.fit?_ofScalar? h.2]
    exact ⟨rfl, asks_ask d id⟩

/-- What is folded in from a message in which nothing was passed over changes nothing. -/
theorem absorb_of_clean (d : Decoding) {inner : Decoding} (clean : inner.diagnostics = .none) :
    d.absorb inner = d := by
  rw [absorb, clean]
  rfl

theorem enter_of_find? {d : Decoding} {id : UInt32} {table : Table}
    (found : d.table.find? id = table.payload?) (distinct : (table.map Prod.fst).Nodup)
    (fits : table.bytes.length < UInt64.size) (shallow : d.depth + 1 < maxLevels) :
    d.enter id = if table.isEmpty then (d, none)
      else (d.ask id, some ⟨table, [], .none, d.depth + 1⟩) := by
  rw [enter, found, Table.payload?]
  cases table.isEmpty with
  | true => rfl
  | false =>
    simp only [Bool.false_eq_true, ↓reduceIte, Nat.not_le.2 shallow, ofBytes_bytes _ distinct fits]

theorem descend_of_find? {d : Decoding} {tag : FieldTag} {table : Table} {μ : Type} {old new : μ}
    {walk : Decoding → μ × Decoding} (found : d.table.find? tag.id = table.payload?)
    (distinct : (table.map Prod.fst).Nodup) (fits : table.bytes.length < UInt64.size)
    (shallow : d.depth + 1 < maxLevels)
    (inside : (walk ⟨table, [], .none, d.depth + 1⟩).1 = new ∧
      Asks ⟨table, [], .none, d.depth + 1⟩ (walk ⟨table, [], .none, d.depth + 1⟩).2
        (table.map Prod.fst)) :
    (decoder.descend walk tag old d).1 = (if table.isEmpty then old else new) ∧
      Asks d (decoder.descend walk tag old d).2 (table.payload?.toList.map fun _ => tag.id) := by
  have entered : decoder.enter tag d = _ := enter_of_find? found distinct fits shallow
  rw [Pass.descend, entered, Table.payload?]
  cases table.isEmpty with
  | true => exact ⟨rfl, .refl d⟩
  | false =>
    have left : decoder.leave tag (walk ⟨table, [], .none, d.depth + 1⟩).2 (d.ask tag.id) =
        d.ask tag.id :=
      absorb_of_clean _ (inside.2.diagnostics rfl (List.Subset.refl _))
    refine ⟨inside.1, ?_⟩
    simp only [Bool.false_eq_true, ↓reduceIte, left]
    exact asks_ask d tag.id

/-- A walk that meets the payloads of other fields of the same shape takes their values and asks
for all of them. -/
theorem walk_decoder {a b : Fields} (alike : a.Alike b) (distinct : a.Distinct)
    (fits : a.table.bytes.length < UInt64.size) {d : Decoding}
    (shallow : d.depth + a.levels < maxLevels)
    (found : ∀ id ∈ a.ids, d.table.find? id = a.table.find? id) :
    (b.walk decoder.toPass d).1 = a.overlay b ∧
      Asks d (b.walk decoder.toPass d).2 (a.table.map Prod.fst) := by
  induction a generalizing b d with
  | nil =>
    cases b with
    | nil => exact ⟨rfl, .refl d⟩
    | _ => cases alike
  | scalar tag s rest ih =>
    cases b with
    | scalar tag' s' rest' =>
      obtain ⟨t', v'⟩ := s'
      obtain ⟨sameId, sameType, alike⟩ := alike
      subst sameType
      obtain ⟨own, behind⟩ := Table.find?_of_front distinct.1 found
      rw [sameId] at own
      obtain ⟨value, asks⟩ := scalar_of_find? v' own
      rw [← asks.table] at behind
      rw [← asks.depth] at shallow
      obtain ⟨fields, asks'⟩ := ih alike distinct.2
        (Nat.lt_of_le_of_lt (Table.length_bytes_le_front ..) fits) shallow behind
      rw [Fields.table, sameId]
      refine ⟨?_, asks.front asks'⟩
      change Fields.scalar tag' ⟨s.type, (d.scalar tag'.id s.type v').1⟩ _ = _
      rw [value, Fields.overlay, ← fields]
      cases s.isCarried <;> rfl
    | _ => cases alike
  | nested tag header inner rest ihInner ih =>
    cases b with
    | nested tag' header' inner' rest' =>
      obtain ⟨sameId, alikeInner, alike⟩ := alike
      obtain ⟨own, behind⟩ := Table.find?_of_front distinct.1 found
      rw [sameId] at own
      have shallowInner : d.depth + 1 + inner.levels < maxLevels := by
        rw [Fields.levels] at shallow
        omega
      have fitsInner : inner.table.bytes.length < UInt64.size :=
        Nat.lt_of_le_of_lt (Table.length_bytes_le_payload ..) fits
      have inside := ihInner alikeInner distinct.2.1 fitsInner
        (d := ⟨inner.table, [], .none, d.depth + 1⟩) shallowInner fun _ _ => rfl
      have step : (decoder.descend (inner'.walk decoder.toPass) tag' inner' d).1 = _ ∧ _ :=
        descend_of_find? own distinct.2.1.nodup_table fitsInner (by omega) inside
      obtain ⟨content, asks⟩ := step
      have shallowRest : d.depth + rest.levels < maxLevels := by
        rw [Fields.levels] at shallow
        omega
      rw [← asks.table] at behind
      rw [← asks.depth] at shallowRest
      obtain ⟨fields, asks'⟩ := ih alike distinct.2.2
        (Nat.lt_of_le_of_lt (Table.length_bytes_le_front ..) fits) shallowRest behind
      rw [Fields.table, sameId]
      refine ⟨?_, asks.front asks'⟩
      change Fields.nested tag' header'
        (decoder.descend (inner'.walk decoder.toPass) tag' inner' d).1
        (rest'.walk decoder.toPass
          (decoder.descend (inner'.walk decoder.toPass) tag' inner' d).2).1 = _
      rw [content, Fields.overlay, ← fields]
      split
      · rename_i empty
        rw [overlay_of_isEmpty alikeInner empty]
      · rfl
    | _ => cases alike

end Decoding

/-- The fields of the default message take what the binary form carries, and nothing is passed
over. -/
theorem walk_zeroed {m : Message} (distinct : m.fields.Distinct) (levels : m.levels ≤ maxLevels)
    (fits : (encode m).length < UInt64.size) :
    (m.fields.zeroed.walk decoder.toPass (decoder.prime (encode m))).1 = m.fields.narrowed ∧
      (m.fields.zeroed.walk decoder.toPass (decoder.prime (encode m))).2.diagnostics = .none := by
  rw [encode_eq] at fits ⊢
  have start : decoder.prime m.fields.table.bytes = ⟨m.fields.table, [], .none, 0⟩ :=
    Decoding.ofBytes_bytes 0 distinct.nodup_table fits
  have shallow : 0 + m.fields.levels < maxLevels := by
    rw [Message.levels] at levels
    omega
  obtain ⟨fields, asks⟩ := Decoding.walk_decoder m.fields.alike_zeroed distinct fits
    (d := ⟨m.fields.table, [], .none, 0⟩) shallow fun _ _ => rfl
  rw [Fields.overlay_zeroed] at fields
  rw [start]
  exact ⟨fields, asks.diagnostics rfl (List.Subset.refl _)⟩

/-- Decoding its own binary form into the default message gives a message back, up to negative
zeros and characters above U+00FF. -/
theorem decodeInto_zeroed {m : Message} (distinct : m.fields.Distinct)
    (levels : m.levels ≤ maxLevels) (fits : (encode m).length < UInt64.size) :
    (decoder.decodeInto (encode m) m.zeroed).1 = ⟨m.header, m.fields.narrowed⟩ :=
  congrArg (Message.mk m.header) (walk_zeroed distinct levels fits).1

/-- Decoding the binary form of `a` into a message `b` of the same shape passes nothing over and
puts the carried values of `a` in place, at every depth; all other values of `b` stay. Into the
default message it gives back `a`, up to negative zeros and characters above U+00FF. A length
prefix has 64 bits, so the binary form has to be shorter than 2^64 bytes. -/
theorem decodeInto_encode {a b : Message} (alike : a.fields.Alike b.fields)
    (distinct : a.fields.Distinct) (levels : a.levels ≤ maxLevels)
    (fits : (encode a).length < UInt64.size) :
    (decoder.decodeInto (encode a) b).1 = ⟨b.header, a.fields.overlay b.fields⟩ ∧
      (decoder.decodeInto (encode a) b).2.diagnostics.isClean ∧
      (decoder.decodeInto (encode a) a.zeroed).1 = ⟨a.header, a.fields.narrowed⟩ := by
  rw [encode_eq] at fits ⊢
  have start : decoder.prime a.fields.table.bytes = ⟨a.fields.table, [], .none, 0⟩ :=
    Decoding.ofBytes_bytes 0 distinct.nodup_table fits
  have shallow : 0 + a.fields.levels < maxLevels := by
    rw [Message.levels] at levels
    omega
  have walk {fs : Fields} (alike : a.fields.Alike fs) :=
    Decoding.walk_decoder alike distinct fits (d := ⟨a.fields.table, [], .none, 0⟩) shallow
      fun _ _ => rfl
  obtain ⟨fields, asks⟩ := walk alike
  have clean := asks.diagnostics rfl (List.Subset.refl _)
  obtain ⟨zeroed, -⟩ := walk a.fields.alike_zeroed
  rw [Fields.overlay_zeroed] at zeroed
  rw [Decoder.decodeInto, Decoder.decodeInto, start]
  exact ⟨congrArg (Message.mk b.header) fields, decide_eq_true clean,
    congrArg (Message.mk a.header) zeroed⟩

def sample (x : UInt64) (c : Char) (v : BitVec 32) (s : String) : Message :=
  ⟨⟨1, "Outer", "t.Outer"⟩,
    .scalar ⟨1, "double", "x"⟩ ⟨.double, x⟩ <| .scalar ⟨2, "char", "c"⟩ ⟨.char, c⟩ <|
      .nested ⟨3, "t.Inner", "n"⟩ ⟨2, "Inner", "t.Inner"⟩
        (.scalar ⟨1, "int32", "v"⟩ ⟨.int .w32, v⟩ <|
          .scalar ⟨9, "string", "s"⟩ ⟨.string, s⟩ .nil) .nil⟩

/-- A negative zero, a character above U+00FF and an empty text stay behind. -/
theorem decodeInto_encode_sample :
    (sample 0x8000000000000000 'Ā' 5 "").fields.Alike (sample 7 'b' 3 "kept").fields ∧
      (sample 0x8000000000000000 'Ā' 5 "").fields.Distinct ∧
      (sample 0x8000000000000000 'Ā' 5 "").levels ≤ maxLevels ∧
      (encode (sample 0x8000000000000000 'Ā' 5 "")).length < UInt64.size ∧
      (decoder.decodeInto (encode (sample 0x8000000000000000 'Ā' 5 "")) (sample 7 'b' 3 "kept")).1 =
        sample 7 'b' 5 "kept" := by
  have alike : (sample 0x8000000000000000 'Ā' 5 "").fields.Alike (sample 7 'b' 3 "kept").fields := by
    simp [Fields.Alike, sample]
  have distinct : (sample 0x8000000000000000 'Ā' 5 "").fields.Distinct := by
    simp [Fields.Distinct, Fields.ids, sample]
  have levels : (sample 0x8000000000000000 'Ā' 5 "").levels ≤ maxLevels := by decide
  have fits : (encode (sample 0x8000000000000000 'Ā' 5 "")).length < UInt64.size := by decide +kernel
  have merged : (sample 0x8000000000000000 'Ā' 5 "").fields.overlay (sample 7 'b' 3 "kept").fields =
      (sample 7 'b' 5 "kept").fields := by
    have zero : Scalar.isCarried ⟨.double, 0x8000000000000000⟩ = false := by decide
    have wide : Scalar.isCarried ⟨.char, 'Ā'⟩ = false := by decide
    have five : Scalar.isCarried ⟨.int .w32, 5⟩ = true := by decide
    have empty : Scalar.isCarried ⟨.string, ""⟩ = false := by decide
    simp only [sample, Fields.overlay, zero, wide, five, empty, Bool.false_eq_true, ↓reduceIte]
  refine ⟨alike, distinct, levels, fits, ?_⟩
  rw [(decodeInto_encode alike distinct levels fits).1, merged]
  rfl

end Wire

end MessageCodec
