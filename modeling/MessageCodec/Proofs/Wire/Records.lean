import MessageCodec.Proofs.Fields
import MessageCodec.Proofs.Record.Decode
import MessageCodec.Proofs.Record.View
import MessageCodec.Proofs.Schema.Unambiguous
import MessageCodec.Proofs.Wire.Item
import MessageCodec.Wire.Decoder

/-! Records in binary form. The decoder that builds a record primes a fresh state for each
nested message and folds it back in; the one that walks over a message opens nested ones
itself and counts levels. Both read the same and pass over the same. -/

namespace MessageCodec.Wire

namespace Decoding

/-- Nothing is in the buffer and nothing was passed over. -/
def Idle (d : Decoding) : Prop := d.table = [] ∧ d.noted = .none

theorem idle_ofBytes_nil (depth : Nat) : (ofBytes depth []).Idle := by
  rw [ofBytes, Cursor.ofBytes, Item.readAll_nil]
  exact ⟨rfl, rfl⟩

theorem Idle.diagnostics {d : Decoding} (idle : d.Idle) : d.diagnostics = .none := by
  rw [Decoding.diagnostics, idle.1, idle.2]
  rfl

theorem absorb_of_idle (d : Decoding) {inner : Decoding} (idle : inner.Idle) :
    d.absorb inner = d := by
  rw [absorb, idle.diagnostics]
  rfl

/-- Two states that have read the same, the second one so many levels down. -/
structure Level (k : Nat) (d d' : Decoding) : Prop where
  table : d.table = d'.table
  asked : d.asked = d'.asked
  noted : d.noted = d'.noted
  depth : d'.depth + 1 = k

variable {k : Nat} {d d' : Decoding}

theorem level_ofBytes (bs : Bytes) (depth : Nat) :
    Level (depth + 1) (ofBytes 0 bs) (ofBytes depth bs) :=
  ⟨rfl, rfl, rfl, rfl⟩

theorem Level.diagnostics (level : Level k d d') : d.diagnostics = d'.diagnostics := by
  rw [Decoding.diagnostics, level.table, level.asked, level.noted]
  rfl

theorem Level.ask (level : Level k d d') (id : UInt32) : Level k (d.ask id) (d'.ask id) := by
  unfold Decoding.ask
  rw [level.asked]
  split
  · exact level
  · exact ⟨level.table, rfl, level.noted, level.depth⟩

theorem Level.noteMismatch (level : Level k d d') :
    Level k d.noteMismatch d'.noteMismatch := by
  refine ⟨level.table, level.asked, ?_, level.depth⟩
  rw [Decoding.noteMismatch, Decoding.noteMismatch, level.noted]

theorem Level.absorb (level : Level k d d') {inner inner' : Decoding}
    (same : inner.diagnostics = inner'.diagnostics) :
    Level k (d.absorb inner) (d'.absorb inner') := by
  refine ⟨level.table, level.asked, ?_, level.depth⟩
  rw [Decoding.absorb, Decoding.absorb, level.noted, same]

theorem Level.scalar (level : Level k d d') (id : UInt32) (t : ScalarType) (v : t.Value) :
    (d.scalar id t v).1 = (d'.scalar id t v).1 ∧
      Level k (d.scalar id t v).2 (d'.scalar id t v).2 := by
  rw [Decoding.scalar, Decoding.scalar, level.table]
  cases d'.table.find? id with
  | none => exact ⟨rfl, level⟩
  | some p =>
    dsimp only
    cases fit? t p with
    | none => exact ⟨rfl, (level.ask id).noteMismatch⟩
    | some v => exact ⟨rfl, level.ask id⟩

theorem Level.closed (level : Level k d d') (shallow : k < maxLevels) {id : UInt32}
    {closed : Decoding} (entered : d'.enter id = (closed, none)) :
    (ofBytes 0 (d.scalar id .bytes []).1).Idle ∧
      ∀ inner : Decoding, inner.Idle → Level k ((d.scalar id .bytes []).2.absorb inner) closed := by
  unfold enter at entered
  unfold Decoding.scalar
  rw [level.table]
  cases found : d'.table.find? id with
  | none =>
    simp only [found, Prod.mk.injEq, and_true] at entered
    subst entered
    refine ⟨idle_ofBytes_nil 0, fun inner idle => ?_⟩
    rw [absorb_of_idle d idle]
    exact level
  | some p =>
    cases p with
    | delimited bs =>
      have open' : ¬ maxLevels ≤ d'.depth + 1 := by
        rw [level.depth]
        exact Nat.not_le.2 shallow
      simp [found, open'] at entered
    | _ =>
      simp only [found, Prod.mk.injEq, and_true] at entered
      subst entered
      refine ⟨idle_ofBytes_nil 0, fun inner idle => ?_⟩
      simp only [fit?, absorb_of_idle _ idle]
      exact (level.ask id).noteMismatch

theorem Level.opened (level : Level k d d') {id : UInt32} {around opened : Decoding}
    (entered : d'.enter id = (around, some opened)) :
    Level (k + 1) (ofBytes 0 (d.scalar id .bytes []).1) opened ∧
      ∀ inner inner' : Decoding, Level (k + 1) inner inner' →
        Level k ((d.scalar id .bytes []).2.absorb inner) (around.absorb inner') := by
  unfold enter at entered
  unfold Decoding.scalar
  rw [level.table]
  cases found : d'.table.find? id with
  | none => simp [found] at entered
  | some p =>
    cases p with
    | delimited bs =>
      simp only [found] at entered
      split at entered
      · simp at entered
      · simp only [Prod.mk.injEq, Option.some.injEq] at entered
        obtain ⟨rfl, rfl⟩ := entered
        rw [← level.depth]
        exact ⟨level_ofBytes bs _, fun inner inner' same =>
          level.depth ▸ (level.ask id).absorb same.diagnostics⟩
    | _ => simp [found] at entered

end Decoding

open Decoding

theorem decoder_rests : decoder.Rests Idle where
  prime := idle_ofBytes_nil 0
  start _ idle := idle
  scalar {d} tag t v idle := by
    have absent : d.scalar tag.id t v = (v, d) := by rw [Decoding.scalar, idle.1]; rfl
    change (d.scalar tag.id t v).1 = v ∧ (d.scalar tag.id t v).2.Idle
    rw [absent]
    exact ⟨rfl, idle⟩
  absorb {inner d} idleInner idle := by
    change (d.absorb inner).Idle
    rwa [absorb_of_idle d idleInner]
  finish idle := idle

theorem decoder_mirrors : decoder.Mirrors Idle Level where
  start _ level := level
  scalar tag t v level := level.scalar tag.id t v
  closed _ _ level shallow entered := level.closed shallow entered
  opened _ _ _ level _ entered := level.opened entered
  finish level := level

/-- What a walk reads depends on identifiers and values only. -/
theorem walk_of_matches {a b : Fields} (same : a.Matches b) (d : Decoding) :
    (a.walk decoder.toPass d).1.Matches (b.walk decoder.toPass d).1 ∧
      (a.walk decoder.toPass d).2 = (b.walk decoder.toPass d).2 := by
  induction a generalizing b d with
  | nil =>
    cases b with
    | nil => exact ⟨trivial, rfl⟩
    | _ => cases same
  | scalar tag s rest ih =>
    cases b with
    | scalar tag' s' rest' =>
      obtain ⟨id, rfl, same⟩ := same
      have step : decoder.scalar tag s.type s.value d = decoder.scalar tag' s.type s.value d :=
        congrArg (fun i => d.scalar i s.type s.value) id
      obtain ⟨fields, state⟩ := ih same (decoder.scalar tag' s.type s.value d).2
      rw [Fields.walk, Fields.walk, step]
      exact ⟨⟨id, rfl, fields⟩, state⟩
    | _ => cases same
  | nested tag header inner rest ihInner ih =>
    cases b with
    | nested tag' header' inner' rest' =>
      obtain ⟨id, sameInner, same⟩ := same
      have step : decoder.enter tag d = decoder.enter tag' d := congrArg d.enter id
      rw [Fields.walk, Fields.walk]
      rcases entered : decoder.enter tag' d with ⟨around, _ | opened⟩
      · rw [Pass.descend_of_closed (step.trans entered), Pass.descend_of_closed entered]
        obtain ⟨fields, state⟩ := ih same around
        exact ⟨⟨id, sameInner, fields⟩, state⟩
      · obtain ⟨content, left⟩ := ihInner sameInner opened
        have leaves : decoder.leave tag (inner.walk decoder.toPass opened).2 around =
            decoder.leave tag' (inner'.walk decoder.toPass opened).2 around :=
          congrArg (around.absorb ·) left
        obtain ⟨fields, state⟩ := ih same
          (decoder.leave tag (inner.walk decoder.toPass opened).2 around)
        rw [Pass.descend_of_opened (step.trans entered), Pass.descend_of_opened entered]
        change Fields.Matches _ (.nested tag' header' (inner'.walk decoder.toPass opened).1
            (rest'.walk decoder.toPass
              (decoder.leave tag' (inner'.walk decoder.toPass opened).2 around)).1) ∧
          _ = (rest'.walk decoder.toPass
            (decoder.leave tag' (inner'.walk decoder.toPass opened).2 around)).2
        rw [← leaves]
        exact ⟨⟨id, content, fields⟩, state⟩
    | _ => cases same

section Decode

variable {c : Schema.Catalogue} {m : Schema.Message}

/-- A record is read as the default record is filled. -/
theorem decode_of_unambiguous (clean : Schema.Unambiguous c) (mem : m ∈ c)
    (nests : c.NestsWithin maxLevels m) (bs : Bytes) :
    (Record.decode decoder m c bs).1 =
        ((Record.ofSchema m c).walk decoder.toPass (decoder.prime bs)).1 ∧
      (Record.decode decoder m c bs).2.diagnostics =
        ((Record.ofSchema m c).walk decoder.toPass (decoder.prime bs)).2.diagnostics := by
  obtain ⟨record, level⟩ : (Record.decode decoder m c bs).1 =
        ((Record.ofSchema m c).walk decoder.toPass (decoder.prime bs)).1 ∧
      Level 1 (Record.decode decoder m c bs).2
        ((Record.ofSchema m c).walk decoder.toPass (decoder.prime bs)).2 :=
    Record.ofDecoder_eq_walk decoder_rests decoder_mirrors clean.names clean.fieldIds mem nests
      (level_ofBytes bs 0)
  exact ⟨record, level.diagnostics⟩

/-- Fields that match those of the default record are filled as a record is read. -/
theorem decode_of_matches (clean : Schema.Unambiguous c) (mem : m ∈ c)
    (nests : c.NestsWithin maxLevels m) (bs : Bytes) {fs : Fields}
    (same : fs.Matches (Record.ofSchema m c).view.fields) :
    (fs.walk decoder.toPass (decoder.prime bs)).1.Matches
        (Record.decode decoder m c bs).1.view.fields ∧
      (fs.walk decoder.toPass (decoder.prime bs)).2.diagnostics =
        (Record.decode decoder m c bs).2.diagnostics := by
  obtain ⟨record, counts⟩ := decode_of_unambiguous clean mem nests bs
  have distinct : (Record.ofSchema m c).Distinct :=
    ⟨clean.fieldIds m mem, Record.distinct_addDefaults clean.fieldIds m.fields trivial⟩
  have shown := Record.walk_view decoder.toPass distinct (decoder.prime bs)
  obtain ⟨fields, state⟩ := walk_of_matches same (decoder.prime bs)
  have view := congrArg Prod.fst shown
  have left := congrArg Prod.snd shown
  dsimp only at view left
  rw [record, counts, ← view, ← left]
  exact ⟨fields, congrArg Decoding.diagnostics state⟩

end Decode

/-- For a message of an accepted specification whose types do not contain themselves and nest at
most 64 levels, building a record from bytes gives what filling the default record does: the same
values in the same fields, and the same counts of what was passed over. A message of any other
make with the same identifiers and zero values is filled with the same values, too. -/
theorem decode_eq_walk {text : String} {c : Schema.Catalogue} {m : Schema.Message}
    (accepted : Schema.parse text = .ok c) (mem : m ∈ c) (nests : c.NestsWithin maxLevels m)
    (bs : Bytes) :
    (Record.decode decoder m c bs).1 =
        ((Record.ofSchema m c).walk decoder.toPass (decoder.prime bs)).1 ∧
      (Record.decode decoder m c bs).2.diagnostics =
        ((Record.ofSchema m c).walk decoder.toPass (decoder.prime bs)).2.diagnostics ∧
      ∀ typed : Message, typed.fields.Matches (Record.ofSchema m c).view.fields →
        (decoder.decodeInto bs typed).1.fields.Matches
            (Record.decode decoder m c bs).1.view.fields ∧
          (decoder.decodeInto bs typed).2.diagnostics =
            (Record.decode decoder m c bs).2.diagnostics := by
  have clean := Schema.unambiguous_of_parse accepted
  obtain ⟨record, counts⟩ := decode_of_unambiguous clean mem nests bs
  exact ⟨record, counts, fun typed same => decode_of_matches clean mem nests bs same⟩

def nestedText : String :=
  "message Inner { int32 v [ id = 1 ]; } message Outer { Inner n [ id = 3 ]; string s; }"

def nestedInner : Schema.Message :=
  ⟨"", "Inner", 0, [⟨.scalar (.int .w32), "int32", "v", 1, none⟩]⟩

def nestedOuter : Schema.Message :=
  ⟨"", "Outer", 0,
    [⟨.message, "Inner", "n", 3, none⟩, ⟨.scalar .string, "string", "s", 1, none⟩]⟩

theorem parse_nestedText : Schema.parse nestedText = .ok [nestedInner, nestedOuter] :=
  Schema.parse_of_toOption (by decide +kernel)

theorem resolve?_nestedInner :
    Schema.Catalogue.resolve? [nestedInner, nestedOuter] "Inner" "" = some nestedInner := by rfl

theorem default?_nestedInner : Record.default? [nestedInner, nestedOuter] ["Outer"] ""
    ⟨.message, "Inner", "n", 3, none⟩ = some (.record
      ⟨nestedInner, [nestedInner, nestedOuter], .scalar 1 ⟨.int .w32, 0⟩ .nil⟩) := by
  have fresh : nestedInner.longName ∉ ["Outer"] := by decide
  have fields : nestedInner.fields = [⟨.scalar (.int .w32), "int32", "v", 1, none⟩] := rfl
  rw [Record.default?]
  dsimp only
  rw [resolve?_nestedInner, Option.bind_some, if_neg fresh, fields, Record.addDefaults_cons,
    Record.addDefaults_nil]
  rfl

theorem holdsIn_nestedOuter {f : Schema.Field} {inner : Schema.Message}
    (holds : Schema.Catalogue.HoldsIn [nestedInner, nestedOuter] f nestedOuter inner) :
    f = ⟨.message, "Inner", "n", 3, none⟩ ∧ inner = nestedInner := by
  obtain ⟨declared, type, resolved⟩ := holds
  simp only [nestedOuter, List.mem_cons, List.not_mem_nil, or_false] at declared
  obtain rfl | rfl := declared
  · exact ⟨rfl, (Option.some.inj (resolve?_nestedInner.symm.trans resolved)).symm⟩
  · cases type

theorem not_holdsIn_nestedInner {f : Schema.Field} {inner : Schema.Message} :
    ¬ Schema.Catalogue.HoldsIn [nestedInner, nestedOuter] f nestedInner inner := by
  rintro ⟨declared, type, -⟩
  simp only [nestedInner, List.mem_singleton] at declared
  subst declared
  cases type

theorem nestsWithin_nestedOuter :
    Schema.Catalogue.NestsWithin [nestedInner, nestedOuter] maxLevels nestedOuter := by
  refine Schema.Catalogue.nestsWithin_succ fun inner ⟨f, holds⟩ => ?_
  obtain ⟨-, rfl⟩ := holdsIn_nestedOuter holds
  exact Schema.Catalogue.nestsWithin_succ fun inner ⟨f, holds⟩ =>
    absurd holds not_holdsIn_nestedInner

/-- A nested payload that breaks off is filled as far as it goes. -/
theorem decode_eq_walk_nestedOuter :
    Schema.parse nestedText = .ok [nestedInner, nestedOuter] ∧
      nestedOuter ∈ [nestedInner, nestedOuter] ∧
      Schema.Catalogue.NestsWithin [nestedInner, nestedOuter] maxLevels nestedOuter ∧
      (Record.decode decoder nestedOuter [nestedInner, nestedOuter]
          [0x1A, 0x03, 0x08, 0x05, 0x10]).1 =
        ((Record.ofSchema nestedOuter [nestedInner, nestedOuter]).walk decoder.toPass
          (decoder.prime [0x1A, 0x03, 0x08, 0x05, 0x10])).1 := by
  have mem : nestedOuter ∈ [nestedInner, nestedOuter] := by simp
  have agree := decode_eq_walk parse_nestedText mem nestsWithin_nestedOuter
    [0x1A, 0x03, 0x08, 0x05, 0x10]
  exact ⟨parse_nestedText, mem, nestsWithin_nestedOuter, agree.1⟩

end MessageCodec.Wire
