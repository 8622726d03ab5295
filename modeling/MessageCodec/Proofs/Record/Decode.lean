import MessageCodec.Proofs.Record.Default
import MessageCodec.Proofs.Record.Walk
import MessageCodec.Record.Decode

/-! Building records against filling them. A decoder that builds a record field by field
gives what the same decoder gives on a walk over the default record, provided that its two
ways into a nested message, reading bytes to prime a state with and being opened, lead to
states that belong together. -/

namespace MessageCodec

open Schema (Catalogue)

variable {σ : Type}

/-- States in which a decoder has no value to give. -/
structure Decoder.Rests (d : Decoder σ) (Idle : σ → Prop) : Prop where
  prime : Idle (d.prime [])
  start {s} (h : Header) : Idle s → Idle (d.start h s)
  scalar {s} (tag : FieldTag) (t : ScalarType) (v : t.Value) :
    Idle s → (d.scalar tag t v s).1 = v ∧ Idle (d.scalar tag t v s).2
  absorb {inner s} : Idle inner → Idle s → Idle (d.absorb inner s)
  finish {s} : Idle s → Idle (d.finish s)

/-- States `s` of a decoder that builds a record belong together with states `s'` of one that
walks over it, so many levels down. -/
structure Decoder.Mirrors (d : Decoder σ) (Idle : σ → Prop) (R : Nat → σ → σ → Prop) : Prop where
  start {k s s'} (h : Header) : R k s s' → R k (d.start h s) (d.start h s')
  scalar {k s s'} (tag : FieldTag) (t : ScalarType) (v : t.Value) : R k s s' →
    (d.scalar tag t v s).1 = (d.scalar tag t v s').1 ∧
      R k (d.scalar tag t v s).2 (d.scalar tag t v s').2
  /-- Where the walk does not go into a nested message, its bytes give nothing. -/
  closed {k s s'} (tag : FieldTag) {t'} : R k s s' → k < maxLevels → d.enter tag s' = (t', none) →
    Idle (d.prime (d.scalar tag .bytes [] s).1) ∧
      ∀ inner, Idle inner → R k (d.absorb inner (d.scalar tag .bytes [] s).2) t'
  /-- Where it does, the bytes prime a state that belongs to the one it goes on with. -/
  opened {k s s'} (tag : FieldTag) {t' opened} : R k s s' → k < maxLevels →
    d.enter tag s' = (t', some opened) →
    R (k + 1) (d.prime (d.scalar tag .bytes [] s).1) opened ∧
      ∀ inner inner', R (k + 1) inner inner' →
        R k (d.absorb inner (d.scalar tag .bytes [] s).2) (d.leave tag inner' t')
  finish {k s s'} : R k s s' → R k (d.finish s) (d.finish s')

/-- The same for states that belong together while the fields of some message are filled. -/
structure Decoder.MirrorsIn (d : Decoder σ) (c : Catalogue) (Idle : σ → Prop)
    (R : Nat → Schema.Message → σ → σ → Prop) : Prop where
  start {k m s s'} (h : Header) : R k m s s' → R k m (d.start h s) (d.start h s')
  scalar {k m s s'} (tag : FieldTag) (t : ScalarType) (v : t.Value) : R k m s s' →
    (d.scalar tag t v s).1 = (d.scalar tag t v s').1 ∧
      R k m (d.scalar tag t v s).2 (d.scalar tag t v s').2
  closed {k m inner s s'} {f : Schema.Field} {t'} : c.HoldsIn f m inner → R k m s s' →
    k < maxLevels → d.enter f.tag s' = (t', none) →
    Idle (d.prime (d.scalar f.tag .bytes [] s).1) ∧
      ∀ inner, Idle inner → R k m (d.absorb inner (d.scalar f.tag .bytes [] s).2) t'
  opened {k m inner s s'} {f : Schema.Field} {t' opened} : c.HoldsIn f m inner → R k m s s' →
    k < maxLevels → d.enter f.tag s' = (t', some opened) →
    R (k + 1) inner (d.prime (d.scalar f.tag .bytes [] s).1) opened ∧
      ∀ left left', R (k + 1) inner left left' →
        R k m (d.absorb left (d.scalar f.tag .bytes [] s).2) (d.leave f.tag left' t')
  finish {k m s s'} : R k m s s' → R k m (d.finish s) (d.finish s')

theorem Decoder.Mirrors.mirrorsIn {d : Decoder σ} {Idle : σ → Prop} {R : Nat → σ → σ → Prop}
    (mirrors : d.Mirrors Idle R) (c : Catalogue) : d.MirrorsIn c Idle fun k _ => R k where
  start := mirrors.start
  scalar := mirrors.scalar
  closed _ := mirrors.closed _
  opened _ := mirrors.opened _
  finish := mirrors.finish

namespace Record

variable {d : Decoder σ} {c : Catalogue} {path : List String} {package : String}
variable {m : Schema.Message} {n : Nat}

/-- A nested record that is built from the bytes of a field, if it is built. -/
def decodedInner? (d : Decoder σ) (c : Catalogue) (path : List String) (tag : FieldTag)
    (m : Schema.Message) (s : σ) : Option Value × σ :=
  let read := d.scalar tag .bytes [] s
  if read.1.isEmpty && m.longName ∈ path then (none, read.2)
  else if maxLevels ≤ path.length then
    (none, if read.1.isEmpty then read.2 else d.limitReached read.2)
  else
    let inner := addDecoded d c (m.longName :: path) m.package m.fields .nil
      (d.start m.header (d.prime read.1))
    (some (.record ⟨m, c, inner.1⟩), d.absorb (d.finish inner.2) read.2)

/-- The value that a decoder gives to one field, if it gives one. -/
def decoded? (d : Decoder σ) (c : Catalogue) (path : List String) (package : String)
    (f : Schema.Field) (s : σ) : Option Value × σ :=
  match f.type with
  | .undefined => (none, s)
  | .scalar t =>
    (some (.scalar ⟨t, (d.scalar f.tag t t.zero s).1⟩), (d.scalar f.tag t t.zero s).2)
  | .message =>
    match c.resolve? f.label package with
    | none => (none, s)
    | some m => decodedInner? d c path f.tag m s

@[simp]
theorem addDecoded_nil (d : Decoder σ) (c : Catalogue) (path : List String) (package : String)
    (entries : Entries) (s : σ) :
    addDecoded d c path package [] entries s = (entries, s) := by
  rw [addDecoded]

theorem addDecoded_cons (d : Decoder σ) (c : Catalogue) (path : List String) (package : String)
    (f : Schema.Field) (fs : List Schema.Field) (entries : Entries) (s : σ) :
    addDecoded d c path package (f :: fs) entries s =
      addDecoded d c path package fs (entries.put f.id (decoded? d c path package f s).1)
        (decoded? d c path package f s).2 := by
  rw [addDecoded, decoded?]
  cases f.type with
  | undefined => rfl
  | scalar t => rfl
  | message =>
    cases c.resolve? f.label package with
    | none => rfl
    | some m =>
      simp only [decodedInner?]
      split
      · rfl
      · split <;> rfl

theorem decoded?_of_scalar {f : Schema.Field} {t : ScalarType} (type : f.type = .scalar t) (s : σ) :
    decoded? d c path package f s =
      (some (.scalar ⟨t, (d.scalar f.tag t t.zero s).1⟩), (d.scalar f.tag t t.zero s).2) := by
  rw [decoded?, type]

theorem decoded?_of_resolved {f : Schema.Field} (type : f.type = .message)
    (resolved : c.resolve? f.label package = some m) (s : σ) :
    decoded? d c path package f s = decodedInner? d c path f.tag m s := by
  rw [decoded?, type]
  simp only [resolved]

section Step

variable {f : Schema.Field} {fs : List Schema.Field} {t : ScalarType} {s : σ}

theorem addDecoded_scalar (type : f.type = .scalar t) (entries : Entries) :
    addDecoded d c path package (f :: fs) entries s =
      addDecoded d c path package fs
        (entries.insert f.id (.scalar ⟨t, (d.scalar f.tag t t.zero s).1⟩))
        (d.scalar f.tag t t.zero s).2 := by
  rw [addDecoded_cons, decoded?_of_scalar type]
  rfl

/-- A field without bytes adds nothing where its type is being built further out. -/
theorem addDecoded_closed (type : f.type = .message)
    (resolved : c.resolve? f.label package = some m) (around : m.longName ∈ path)
    (given : (d.scalar f.tag .bytes [] s).1 = []) (entries : Entries) :
    addDecoded d c path package (f :: fs) entries s =
      addDecoded d c path package fs entries (d.scalar f.tag .bytes [] s).2 := by
  rw [addDecoded_cons, decoded?_of_resolved type resolved, decodedInner?]
  simp only [given, around, List.isEmpty_nil, decide_true, Bool.and_self, ↓reduceIte]
  rfl

/-- A field with bytes adds the record that is built from them. -/
theorem addDecoded_built (bs : Bytes) (type : f.type = .message)
    (resolved : c.resolve? f.label package = some m) (shallow : path.length < maxLevels)
    (given : (d.scalar f.tag .bytes [] s).1 = bs) (filled : bs ≠ []) (entries : Entries) :
    addDecoded d c path package (f :: fs) entries s =
      let inner := addDecoded d c (m.longName :: path) m.package m.fields .nil
        (d.start m.header (d.prime bs))
      addDecoded d c path package fs (entries.insert f.id (.record ⟨m, c, inner.1⟩))
        (d.absorb (d.finish inner.2) (d.scalar f.tag .bytes [] s).2) := by
  have something : bs.isEmpty = false := List.isEmpty_eq_false_iff.2 filled
  rw [addDecoded_cons, decoded?_of_resolved type resolved, decodedInner?]
  simp only [given, something, Nat.not_le.2 shallow, Bool.false_and, Bool.false_eq_true,
    ↓reduceIte]
  rfl

theorem ofDecoder_of_scalar (fields : m.fields = [f]) (type : f.type = .scalar t) :
    (ofDecoder d m c s).1 =
      ⟨m, c, .scalar f.id ⟨t, (d.scalar f.tag t t.zero (d.start m.header s)).1⟩ .nil⟩ := by
  rw [ofDecoder, fields, addDecoded_scalar type, addDecoded_nil]
  rfl

end Step

theorem get?_addDecoded_of_ne {fs : List Schema.Field} {i : UInt32} (other : i ∉ fs.map (·.id))
    (entries : Entries) (s : σ) :
    (addDecoded d c path package fs entries s).1.get? i = entries.get? i := by
  induction fs generalizing entries s with
  | nil => rw [addDecoded_nil]
  | cons f fs ih =>
    simp only [List.map_cons, List.mem_cons, not_or] at other
    rw [addDecoded_cons, ih other.2, Entries.get?_put_of_ne (Ne.symm other.1)]

/-- Two decoders build the same entries if they give the same value to each field, from states that
go on to belong together. -/
theorem addDecoded_congr {σ' : Type} {d' : Decoder σ'} {R : σ → σ' → Prop}
    {fs : List Schema.Field}
    (field : ∀ f ∈ fs, ∀ s s', R s s' →
      (decoded? d c path package f s).1 = (decoded? d' c path package f s').1 ∧
        R (decoded? d c path package f s).2 (decoded? d' c path package f s').2)
    (entries : Entries) {s : σ} {s' : σ'} (related : R s s') :
    (addDecoded d c path package fs entries s).1 =
      (addDecoded d' c path package fs entries s').1 := by
  induction fs generalizing entries s s' with
  | nil => rw [addDecoded_nil, addDecoded_nil]
  | cons f fs ih =>
    rw [List.forall_mem_cons] at field
    obtain ⟨same, related⟩ := field.1 s s' related
    rw [addDecoded_cons, addDecoded_cons, same]
    exact ih field.2 _ related

theorem distinct_addDecoded (ids : ∀ m ∈ c, (m.fields.map (·.id)).Nodup)
    (fs : List Schema.Field) {entries : Entries} (distinct : entries.Distinct) (s : σ) :
    (addDecoded d c path package fs entries s).1.Distinct := by
  fun_induction addDecoded d c path package fs entries s with
  | case1 => exact distinct
  | case2 _ _ _ _ _ _ _ ih => exact ih distinct
  | case3 _ _ _ _ _ _ _ _ _ _ _ ih => exact ih (distinct.insert _ trivial)
  | case4 _ _ _ _ _ _ _ _ ih => exact ih distinct
  | case5 _ _ _ _ _ _ _ _ _ _ _ _ _ ih => exact ih distinct
  | case6 _ _ _ _ _ _ _ _ _ _ _ _ _ _ ih => exact ih distinct
  | case7 _ _ _ _ _ _ _ m resolved _ _ _ _ _ inner _ built ihInner ih =>
    rw [built] at ihInner
    have fields := ids m (Schema.Catalogue.mem_of_resolve? resolved)
    exact ih (distinct.insert _ ⟨fields, ihInner trivial⟩)

theorem distinct_ofDecoder (ids : ∀ m ∈ c, (m.fields.map (·.id)).Nodup) (mem : m ∈ c) (s : σ) :
    (ofDecoder d m c s).1.Distinct := by
  have start : Entries.nil.Distinct := trivial
  exact ⟨ids m mem, distinct_addDecoded ids m.fields start _⟩

/-- A nested record is built when its type is not around it, or there are bytes for it. -/
theorem decodedInner?_of_fresh {tag : FieldTag} {s : σ} (fresh : m.longName ∉ path)
    (shallow : path.length < maxLevels) :
    decodedInner? d c path tag m s =
      let inner := addDecoded d c (m.longName :: path) m.package m.fields .nil
        (d.start m.header (d.prime (d.scalar tag .bytes [] s).1))
      (some (.record ⟨m, c, inner.1⟩),
        d.absorb (d.finish inner.2) (d.scalar tag .bytes [] s).2) := by
  simp only [decodedInner?, fresh, Nat.not_le.2 shallow, decide_false, Bool.and_false,
    Bool.false_eq_true, ↓reduceIte]

section Rests

variable {Idle : σ → Prop}

theorem addDecoded_of_idle_fields {fs : List Schema.Field}
    (field : ∀ f ∈ fs, ∀ s, Idle s → (decoded? d c path package f s).1 = default? c path package f ∧
      Idle (decoded? d c path package f s).2)
    (entries : Entries) {s : σ} (idle : Idle s) :
    (addDecoded d c path package fs entries s).1 = addDefaults c path package fs entries ∧
      Idle (addDecoded d c path package fs entries s).2 := by
  induction fs generalizing entries s with
  | nil =>
    rw [addDecoded_nil, addDefaults_nil]
    exact ⟨rfl, idle⟩
  | cons f fs ih =>
    rw [List.forall_mem_cons] at field
    obtain ⟨value, idle⟩ := field.1 s idle
    rw [addDecoded_cons, addDefaults_cons, value]
    exact ih field.2 _ idle

/-- Without values to give, a decoder builds the default record, as long as that is not too
deep for it. -/
theorem addDecoded_of_idle (rests : d.Rests Idle) (expands : c.ExpandsWithin n path m)
    (shallow : path.length + n ≤ maxLevels + 1) (entries : Entries) {s : σ} (idle : Idle s) :
    (addDecoded d c path m.package m.fields entries s).1 =
        addDefaults c path m.package m.fields entries ∧
      Idle (addDecoded d c path m.package m.fields entries s).2 := by
  induction n generalizing path m entries s with
  | zero => exact expands.elim
  | succ n ih =>
    refine addDecoded_of_idle_fields (fun f mem s idle => ?_) entries idle
    rw [decoded?, default?]
    cases type : f.type with
    | undefined => exact ⟨rfl, idle⟩
    | scalar t =>
      obtain ⟨value, idle⟩ := rests.scalar f.tag t t.zero idle
      exact ⟨congrArg (fun v => some (Value.scalar ⟨t, v⟩)) value, idle⟩
    | message =>
      dsimp only
      cases resolved : c.resolve? f.label m.package with
      | none => exact ⟨rfl, idle⟩
      | some inner =>
        obtain ⟨bytes, idle⟩ := rests.scalar f.tag .bytes [] idle
        rw [Option.bind_some]
        by_cases around : inner.longName ∈ path
        · simp only [decodedInner?, bytes, around, List.isEmpty_nil, decide_true, Bool.and_self,
            ↓reduceIte]
          exact ⟨trivial, idle⟩
        · have expandsInner := expands inner ⟨f, mem, type, resolved⟩ around
          have room : 0 < n := by
            cases n with
            | zero => exact expandsInner.elim
            | succ n => exact Nat.succ_pos n
          obtain ⟨entries, idleInner⟩ := ih expandsInner
            (by rw [List.length_cons]; omega) .nil (rests.start inner.header rests.prime)
          simp only
          rw [decodedInner?_of_fresh around (by omega), if_neg around, bytes]
          dsimp only
          rw [entries]
          exact ⟨rfl, rests.absorb (rests.finish idleInner) idle⟩

end Rests

section Mirrors

variable {Idle : σ → Prop} {R : Nat → σ → σ → Prop} {k : Nat}

/-- A field is built as the walk over its default leaves it. -/
def FieldMirrors (d : Decoder σ) (R : Nat → σ → σ → Prop) (k : Nat) (c : Catalogue)
    (path : List String) (package : String) (f : Schema.Field) : Prop :=
  ∀ s s', R k s s' →
    match default? c path package f with
    | none => (decoded? d c path package f s).1 = none ∧ R k (decoded? d c path package f s).2 s'
    | some v =>
      (decoded? d c path package f s).1 = some (v.walk d.toPass (walk d.toPass) f.tag s').1 ∧
        R k (decoded? d c path package f s).2 (v.walk d.toPass (walk d.toPass) f.tag s').2

theorem walkFields_addDefaults {fs : List Schema.Field} (distinct : (fs.map (·.id)).Nodup)
    (field : ∀ f ∈ fs, FieldMirrors d R k c path package f) {entries : Entries}
    (fresh : ∀ f ∈ fs, entries.get? f.id = none) {s s' : σ} (related : R k s s') :
    (addDecoded d c path package fs entries s).1 =
        (walkFields d.toPass fs (addDefaults c path package fs entries, s')).1 ∧
      R k (addDecoded d c path package fs entries s).2
        (walkFields d.toPass fs (addDefaults c path package fs entries, s')).2 := by
  induction fs generalizing entries s s' with
  | nil =>
    rw [addDecoded_nil, addDefaults_nil]
    exact ⟨rfl, related⟩
  | cons f fs ih =>
    rw [List.map_cons, List.nodup_cons] at distinct
    rw [List.forall_mem_cons] at field fresh
    have built := field.1 s s' related
    rw [addDecoded_cons, addDefaults_cons, walkFields_cons]
    cases default : default? c path package f with
    | none =>
      simp only [default] at built
      have absent : (addDefaults c path package fs entries).get? f.id = none := by
        rw [get?_addDefaults distinct.1, fresh.1]
      rw [Entries.put, walkField_of_absent absent, built.1]
      exact ih distinct.2 field.2 fresh.2 built.2
    | some v =>
      simp only [default] at built
      have held (w : Value) :
          (addDefaults c path package fs (entries.insert f.id w)).get? f.id = some w := by
        rw [get?_addDefaults distinct.1, Entries.get?_insert_self]
      have replaced (w : Value) :
          (addDefaults c path package fs (entries.insert f.id v)).insert f.id w =
            addDefaults c path package fs (entries.insert f.id w) := by
        rw [insert_addDefaults distinct.1 (by rw [Entries.get?_insert_self]; rfl),
          Entries.insert_insert]
      rw [Entries.put, walkField_of_held (held v), replaced, built.1]
      refine ih distinct.2 field.2 (fun g mem => ?_) built.2
      have other := ne_of_mem_of_not_mem (List.mem_map_of_mem mem) distinct.1
      rw [Entries.put, Entries.get?_insert_of_ne other.symm, fresh.2 g mem]

end Mirrors

section MirrorsIn

variable {Idle : σ → Prop} {R : Nat → Schema.Message → σ → σ → Prop}

/-- Where message types do not contain themselves, a record is built as the walk over the default
record leaves it. -/
theorem addDecoded_eq_walkFields (rests : d.Rests Idle) (mirrors : d.MirrorsIn c Idle R)
    (names : (c.map (·.longName)).Nodup) (ids : ∀ m ∈ c, (m.fields.map (·.id)).Nodup)
    (mem : m ∈ c) (nests : c.NestsWithin n m) (around : c.Encloses path m)
    (shallow : path.length + n ≤ maxLevels + 1) {s s' : σ} (related : R path.length m s s') :
    (addDecoded d c path m.package m.fields .nil s).1 =
        (walkFields d.toPass m.fields (addDefaults c path m.package m.fields .nil, s')).1 ∧
      R path.length m (addDecoded d c path m.package m.fields .nil s).2
        (walkFields d.toPass m.fields (addDefaults c path m.package m.fields .nil, s')).2 := by
  induction n generalizing path m s s' with
  | zero => exact absurd nests.pos (Nat.lt_irrefl 0)
  | succ n ih =>
    refine walkFields_addDefaults (R := fun k => R k m) (ids m mem)
      (fun f declared s s' related => ?_) (fun _ _ => rfl) related
    rw [decoded?, default?]
    cases type : f.type with
    | undefined => exact ⟨rfl, related⟩
    | scalar t =>
      obtain ⟨value, related⟩ := mirrors.scalar f.tag t t.zero related
      exact ⟨congrArg (fun v => some (Value.scalar ⟨t, v⟩)) value, related⟩
    | message =>
      dsimp only
      cases resolved : c.resolve? f.label m.package with
      | none => exact ⟨rfl, related⟩
      | some inner =>
        have nested : c.HoldsIn f m inner := ⟨declared, type, resolved⟩
        have nestsInner := nests.of_holds nested.holds
        have fresh := around.fresh names nests nested.holds
        have room := nestsInner.pos
        have shallowInner : (inner.longName :: path).length + n ≤ maxLevels + 1 := by
          rw [List.length_cons]
          omega
        have shallowHere : path.length < maxLevels := by omega
        simp only [Option.bind_some, if_neg fresh, decodedInner?_of_fresh fresh shallowHere,
          Value.walk]
        rcases entered : d.enter f.tag s' with ⟨t', _ | opened⟩
        · obtain ⟨idle, absorbed⟩ := mirrors.closed nested related shallowHere entered
          obtain ⟨entries, idle⟩ := addDecoded_of_idle rests
            (nestsInner.expandsWithin (inner.longName :: path)) shallowInner .nil
            (rests.start inner.header idle)
          rw [Pass.descend_of_closed entered, entries]
          exact ⟨rfl, absorbed _ (rests.finish idle)⟩
        · obtain ⟨relatedInner, absorbed⟩ := mirrors.opened nested related shallowHere entered
          have memInner := Schema.Catalogue.mem_of_holds nested.holds
          obtain ⟨entries, relatedInner⟩ := ih memInner nestsInner
            (around.of_holds nested.holds memInner) shallowInner
            (mirrors.start inner.header relatedInner)
          rw [Pass.descend_of_opened entered, walk_eq, entries]
          exact ⟨rfl, absorbed _ _ (mirrors.finish relatedInner)⟩

/-- A record that is built by a decoder is the default record after a walk of that decoder. -/
theorem ofDecoder_eq_walk_of_mirrorsIn (rests : d.Rests Idle) (mirrors : d.MirrorsIn c Idle R)
    (names : (c.map (·.longName)).Nodup) (ids : ∀ m ∈ c, (m.fields.map (·.id)).Nodup)
    (mem : m ∈ c) (nests : c.NestsWithin maxLevels m) {s s' : σ} (related : R 1 m s s') :
    (ofDecoder d m c s).1 = ((ofSchema m c).walk d.toPass s').1 ∧
      R 1 m (ofDecoder d m c s).2 ((ofSchema m c).walk d.toPass s').2 := by
  obtain ⟨entries, related⟩ := addDecoded_eq_walkFields rests mirrors names ids mem nests
    (Schema.Catalogue.encloses_self mem) (Nat.le_of_eq (Nat.add_comm 1 maxLevels))
    (mirrors.start m.header related)
  rw [walk_eq]
  exact ⟨congrArg (Record.mk m c) entries, mirrors.finish related⟩

theorem ofDecoder_eq_walk {R : Nat → σ → σ → Prop} (rests : d.Rests Idle)
    (mirrors : d.Mirrors Idle R) (names : (c.map (·.longName)).Nodup)
    (ids : ∀ m ∈ c, (m.fields.map (·.id)).Nodup) (mem : m ∈ c) (nests : c.NestsWithin maxLevels m)
    {s s' : σ} (related : R 1 s s') :
    (ofDecoder d m c s).1 = ((ofSchema m c).walk d.toPass s').1 ∧
      R 1 (ofDecoder d m c s).2 ((ofSchema m c).walk d.toPass s').2 :=
  ofDecoder_eq_walk_of_mirrorsIn (R := fun k _ => R k) rests (mirrors.mirrorsIn c) names ids mem
    nests related

end MirrorsIn

end Record

end MessageCodec
