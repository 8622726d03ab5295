import MessageCodec.Proofs.Record.Capture
import MessageCodec.Proofs.Record.Copy

/-! Values at paths of identifiers. Copying a record into a message of any shape gives the scalar at
a path the value that the record holds at the same path, if that value has its type, and changes
nothing else. A message that has been captured is therefore restored from its capture. -/

namespace MessageCodec

/-- The scalar itself, or the given one in its place if that has the same type. -/
def Scalar.replacedBy (s : Scalar) : Option Scalar → Scalar
  | some given => if given.type = s.type then given else s
  | none => s

theorem Scalar.copyOnto_eq (given : Scalar) (t : ScalarType) (v : t.Value) :
    ⟨t, given.copyOnto t v⟩ = Scalar.replacedBy ⟨t, v⟩ (some given) := by
  obtain ⟨t', w⟩ := given
  rw [replacedBy, copyOnto]
  by_cases same : t' = t
  · subst same
    simp
  · simp [same]

/-- The scalar at the end of a path of identifiers; all but the last are those of nested
messages. -/
def Content.scalarAt? : Content → List UInt32 → Option Scalar
  | scalar s, [] => some s
  | message m, i :: path => (m.fields.content? i).bind (·.scalarAt? path)
  | _, _ => none

def Message.scalarAt? (m : Message) (path : List UInt32) : Option Scalar :=
  (Content.message m).scalarAt? path

def Value.scalarAt? : Value → List UInt32 → Option Scalar
  | scalar s, [] => some s
  | record r, i :: path => (r.value? i).bind (·.scalarAt? path)
  | _, _ => none

def Record.scalarAt? (r : Record) (path : List UInt32) : Option Scalar :=
  (Value.record r).scalarAt? path

/-- Does each identifier of a path belong to a field that the schema of its record declares? -/
def Value.declares : Value → List UInt32 → Bool
  | record r, i :: path => r.schema.fields.any (·.id == i) && (r.value? i).all (·.declares path)
  | _, _ => true

def Record.declares (r : Record) (path : List UInt32) : Bool := (Value.record r).declares path

section Shape

/-! What no walk changes: identifiers, types and schemas, at every depth. -/

variable {σ : Type}

namespace Fields

theorem ids_zeroed (fs : Fields) : fs.zeroed.ids = fs.ids := by
  induction fs with
  | nil => rfl
  | scalar tag s rest ih => exact congrArg (tag.id :: ·) ih
  | nested tag header inner rest _ ih => exact congrArg (tag.id :: ·) ih

@[simp]
theorem distinct_zeroed {fs : Fields} : fs.zeroed.Distinct ↔ fs.Distinct := by
  induction fs with
  | nil => rfl
  | scalar tag s rest ih => rw [zeroed, Distinct, Distinct, ids_zeroed, ih]
  | nested tag header inner rest ihInner ih =>
    rw [zeroed, Distinct, Distinct, ids_zeroed, ihInner, ih]

theorem content?_of_not_mem {fs : Fields} {i : UInt32} (other : i ∉ fs.ids) :
    fs.content? i = none :=
  Option.eq_none_iff_forall_ne_some.2 fun _ held => other (mem_ids_of_content? held)

theorem zeroed_walk (p : Pass σ) (fs : Fields) (s : σ) : (fs.walk p s).1.zeroed = fs.zeroed := by
  induction fs generalizing s with
  | nil => rfl
  | scalar tag x rest ih => exact congrArg (Fields.scalar tag _) (ih _)
  | nested tag header inner rest ihInner ih =>
    rw [Fields.walk]
    rcases entered : p.enter tag s with ⟨s', _ | opened⟩
    · rw [Pass.descend_of_closed entered]
      exact congrArg (Fields.nested tag header inner.zeroed) (ih _)
    · rw [Pass.descend_of_opened entered]
      simp only [zeroed, ihInner, ih]

/-- Fields that agree on all paths agree behind their first ones, as no identifier comes twice. -/
theorem agree_behind {rest rest' : Fields} {id : UInt32} {x x' : Content} (fresh : id ∉ rest.ids)
    (shape : rest'.zeroed = rest.zeroed)
    (same : ∀ i path, (if id = i then some x' else rest'.content? i).bind (·.scalarAt? path) =
      (if id = i then some x else rest.content? i).bind (·.scalarAt? path))
    (i : UInt32) (path : List UInt32) :
    (rest'.content? i).bind (·.scalarAt? path) = (rest.content? i).bind (·.scalarAt? path) := by
  by_cases first : id = i
  · subst first
    have other : id ∉ rest'.ids := by
      rw [← ids_zeroed, shape, ids_zeroed]
      exact fresh
    rw [content?_of_not_mem other, content?_of_not_mem fresh]
  · have behind := same i path
    rwa [if_neg first, if_neg first] at behind

/-- Fields of one shape that have the same scalars at the end of all paths are the same. -/
theorem eq_of_scalarAt? {a b : Fields} (distinct : a.Distinct) (shape : b.zeroed = a.zeroed)
    (same : ∀ i path, (b.content? i).bind (·.scalarAt? path) =
      (a.content? i).bind (·.scalarAt? path)) : b = a := by
  induction a generalizing b with
  | nil =>
    cases b with
    | nil => rfl
    | _ => cases shape
  | scalar tag s rest ih =>
    cases b with
    | scalar tag' s' rest' =>
      simp only [zeroed, Fields.scalar.injEq] at shape
      obtain ⟨rfl, -, shape⟩ := shape
      have own : s' = s := by simpa [content?, Content.scalarAt?] using same tag'.id []
      rw [own, ih distinct.2 shape (agree_behind distinct.1 shape same)]
    | _ => cases shape
  | nested tag header inner rest ihInner ih =>
    cases b with
    | nested tag' header' inner' rest' =>
      simp only [zeroed, Fields.nested.injEq] at shape
      obtain ⟨rfl, rfl, shapeInner, shape⟩ := shape
      have own : inner' = inner := ihInner distinct.2.1 shapeInner fun i path => by
        simpa [content?, Content.scalarAt?] using same tag'.id (i :: path)
      rw [own, ih distinct.2.2 shape (agree_behind distinct.1 shape same)]
    | _ => cases shape

end Fields

theorem Message.zeroed_walk (p : Pass σ) (m : Message) (s : σ) :
    (m.walk p s).1.zeroed = m.zeroed :=
  congrArg (Message.mk m.header) (m.fields.zeroed_walk p _)

/-- Messages of one shape that have the same scalars at the end of all paths are the same. -/
theorem Message.eq_of_scalarAt? {a b : Message} (distinct : a.fields.Distinct)
    (shape : b.zeroed = a.zeroed) (same : ∀ path, b.scalarAt? path = a.scalarAt? path) : b = a := by
  obtain ⟨header, fields⟩ := a
  obtain ⟨header', fields'⟩ := b
  simp only [zeroed, Message.mk.injEq] at shape
  obtain ⟨rfl, shape⟩ := shape
  rw [Fields.eq_of_scalarAt? distinct shape fun i path => same (i :: path)]

def Entries.zeroed : Entries → Entries
  | nil => nil
  | scalar id s rest => scalar id ⟨s.type, s.type.zero⟩ rest.zeroed
  | record id schema catalogue inner rest =>
    record id schema catalogue inner.zeroed rest.zeroed

def Record.zeroed (r : Record) : Record := { r with entries := r.entries.zeroed }

def Value.zeroed : Value → Value
  | scalar s => scalar ⟨s.type, s.type.zero⟩
  | record r => record r.zeroed

namespace Entries

@[simp]
theorem zeroed_cons (id : UInt32) (v : Value) (rest : Entries) :
    (cons id v rest).zeroed = cons id v.zeroed rest.zeroed := by
  cases v <;> rfl

theorem zeroed_insert {entries : Entries} {i : UInt32} {v w : Value}
    (held : entries.get? i = some v) (same : w.zeroed = v.zeroed) :
    (entries.insert i w).zeroed = entries.zeroed := by
  induction entries using cons_induction with
  | nil => cases held
  | cons id u rest ih =>
    rw [get?_cons] at held
    rw [insert_cons]
    split at held
    · cases held
      simp_all
    · simp_all

end Entries

namespace Record

theorem zeroed_walkField {p : Pass σ} {walkInner : Record → σ → Record × σ}
    (keeps : ∀ r s, (walkInner r s).1.zeroed = r.zeroed) (state : Entries × σ) (f : Schema.Field) :
    (walkField p walkInner state f).1.zeroed = state.1.zeroed := by
  obtain ⟨entries, s⟩ := state
  cases held : entries.get? f.id with
  | none => rw [walkField_of_absent held]
  | some v =>
    rw [walkField_of_held held]
    refine Entries.zeroed_insert held ?_
    cases v with
    | scalar x => rfl
    | record r =>
      rcases entered : p.enter f.tag s with ⟨s', _ | inner⟩
      · rw [Value.walk, Pass.descend_of_closed entered]
      · rw [Value.walk, Pass.descend_of_opened entered]
        exact congrArg Value.record (keeps r inner)

theorem zeroed_foldl_walkField {p : Pass σ} {walkInner : Record → σ → Record × σ}
    (keeps : ∀ r s, (walkInner r s).1.zeroed = r.zeroed) (fs : List Schema.Field)
    (state : Entries × σ) :
    (fs.foldl (walkField p walkInner) state).1.zeroed = state.1.zeroed := by
  induction fs generalizing state with
  | nil => rfl
  | cons f fs ih => rw [List.foldl_cons, ih, zeroed_walkField keeps]

theorem zeroed_walkWithin (p : Pass σ) (n : Nat) (r : Record) (s : σ) :
    (r.walkWithin p n s).1.zeroed = r.zeroed := by
  induction n generalizing r s with
  | zero => rfl
  | succ n ih => exact congrArg (Record.mk r.schema r.catalogue) (zeroed_foldl_walkField ih _ _)

end Record

end Shape

section Copy

/-! One level of a copy, and from it the whole. The state of the walk is the record that is copied.
Each nested record is back in its place as it was when its message is done, so the state stays. -/

/-- The content with what it takes of a value that a record holds for its field. -/
def Content.taking (given : Option Value) : Content → Content
  | scalar s => .scalar (s.replacedBy (given.bind (·.scalarAt? [])))
  | message m =>
    match given with
    | some (.record r) => .message (r.copyInto m)
    | _ => .message m

def Value.taking (given : Option Value) : Value → Value
  | scalar s => .scalar (s.replacedBy (given.bind (·.scalarAt? [])))
  | record target =>
    match given with
    | some (.record r) => .record (r.copyIntoRecord target)
    | _ => .record target

namespace Record

variable (r : Record)

theorem scalar_copying (tag : FieldTag) (s : Scalar) :
    (⟨s.type, (copying.scalar tag s.type s.value r).1⟩ : Scalar) =
        s.replacedBy ((r.value? tag.id).bind (·.scalarAt? [])) ∧
      (copying.scalar tag s.type s.value r).2 = r := by
  rcases held : r.value? tag.id with _ | (given | inner)
  · simp only [copying, held, and_true]
    rfl
  · simp only [copying, held, and_true]
    exact given.copyOnto_eq s.type s.value
  · simp only [copying, held, and_true]
    rfl

theorem descend_copying {μ : Type} {walk : Record → μ × Record}
    (keeps : ∀ inner, (walk inner).2 = inner) (tag : FieldTag) (m : μ) :
    copying.descend walk tag m r =
      (match r.value? tag.id with
        | some (.record inner) => (walk inner).1
        | _ => m, r) := by
  rcases held : r.value? tag.id with _ | (s | inner)
  · have closed : copying.enter tag r = (r, none) := by simp only [copying, held]
    rw [Pass.descend_of_closed closed]
  · have closed : copying.enter tag r = (r, none) := by simp only [copying, held]
    rw [Pass.descend_of_closed closed]
  · have opened : copying.enter tag r = (r, some inner) := by simp only [copying, held]
    rw [Pass.descend_of_opened opened, keeps, leave_copying held]

theorem snd_walk_copying_fields (fs : Fields) : (fs.walk copying r).2 = r := by
  induction fs generalizing r with
  | nil => rfl
  | scalar tag s rest ih =>
    rw [Fields.walk]
    dsimp only
    rw [(scalar_copying r tag s).2]
    exact ih r
  | nested tag header inner rest ihInner ih =>
    rw [Fields.walk]
    dsimp only
    rw [descend_copying]
    · exact ih r
    · exact fun r' => ihInner r'

theorem content?_walk_copying (fs : Fields) (i : UInt32) :
    (fs.walk copying r).1.content? i = (fs.content? i).map (·.taking (r.value? i)) := by
  induction fs with
  | nil => rfl
  | scalar tag s rest ih =>
    obtain ⟨taken, same⟩ := scalar_copying r tag s
    have step : (Fields.scalar tag s rest).walk copying r =
        (.scalar tag (s.replacedBy ((r.value? tag.id).bind (·.scalarAt? [])))
          (rest.walk copying r).1, (rest.walk copying r).2) := by
      rw [Fields.walk]
      dsimp only
      rw [same, taken]
    rw [step]
    by_cases own : tag.id = i
    · subst own
      simp only [Fields.content?, ↓reduceIte, Option.map_some, Content.taking]
    · simp only [Fields.content?, if_neg own, ih]
  | nested tag header inner rest _ ih =>
    rw [Fields.walk]
    dsimp only
    rw [descend_copying]
    · by_cases own : tag.id = i
      · subst own
        rcases held : r.value? tag.id with _ | (s | inner') <;>
          simp only [Fields.content?, ↓reduceIte, Option.map_some, Content.taking]
        rfl
      · simp only [Fields.content?, if_neg own, ih]
    · exact fun r' => snd_walk_copying_fields r' inner

section Nested

variable {walkInner : Record → Record → Record × Record}

theorem snd_walk_value (keeps : ∀ target r, (walkInner target r).2 = r) (v : Value)
    (tag : FieldTag) : (v.walk copying walkInner tag r).2 = r := by
  cases v with
  | scalar s => exact (scalar_copying r tag s).2
  | record target =>
    rw [Value.walk]
    exact congrArg Prod.snd (descend_copying r (keeps target) tag target)

theorem snd_walkField_copying (keeps : ∀ target r, (walkInner target r).2 = r)
    (state : Entries × Record) (f : Schema.Field) :
    (walkField copying walkInner state f).2 = state.2 := by
  obtain ⟨entries, r⟩ := state
  cases held : entries.get? f.id with
  | none => rw [walkField_of_absent held]
  | some v =>
    rw [walkField_of_held held]
    exact snd_walk_value r keeps v f.tag

theorem snd_foldl_walkField_copying (keeps : ∀ target r, (walkInner target r).2 = r)
    (fs : List Schema.Field) (state : Entries × Record) :
    (fs.foldl (walkField copying walkInner) state).2 = state.2 := by
  induction fs generalizing state with
  | nil => rfl
  | cons f fs ih => rw [List.foldl_cons, ih, snd_walkField_copying keeps]

end Nested

/-- A copy into a record leaves the one that is copied as it was. -/
theorem snd_walkWithin_copying (n : Nat) (target : Record) :
    (target.walkWithin copying n r).2 = r := by
  induction n generalizing target r with
  | zero => rfl
  | succ n ih =>
    exact snd_foldl_walkField_copying (fun target r => ih r target) target.schema.fields
      (target.entries, r)

theorem snd_walk_copying (target : Record) : (target.walk copying r).2 = r :=
  snd_walkWithin_copying r _ target

theorem walk_value (v : Value) (tag : FieldTag) :
    v.walk copying (walk copying) tag r = (v.taking (r.value? tag.id), r) := by
  cases v with
  | scalar s =>
    obtain ⟨taken, same⟩ := scalar_copying r tag s
    exact Prod.ext (congrArg Value.scalar taken) same
  | record target =>
    rw [Value.walk, descend_copying r fun inner => snd_walk_copying inner target]
    rcases held : r.value? tag.id with _ | (s | inner) <;> rfl

theorem get?_walkField_copying (entries : Entries) (f : Schema.Field) :
    (walkField copying (walk copying) (entries, r) f).1.get? f.id =
      (entries.get? f.id).map (·.taking (r.value? f.id)) := by
  cases held : entries.get? f.id with
  | none => rw [walkField_of_absent held, held, Option.map_none]
  | some v =>
    rw [walkField_of_held held, walk_value]
    exact Entries.get?_insert_self ..

theorem walkField_copying (entries : Entries) (f : Schema.Field) :
    walkField copying (walk copying) (entries, r) f =
      ((walkField copying (walk copying) (entries, r) f).1, r) :=
  Prod.ext rfl (snd_walkField_copying (fun target r => snd_walk_copying r target) (entries, r) f)

/-- Each declared value of a record takes what the copied record holds for its field. -/
theorem get?_walkFields_copying {fs : List Schema.Field} (distinct : (fs.map (·.id)).Nodup)
    (entries : Entries) (i : UInt32) :
    (walkFields copying fs (entries, r)).1.get? i =
      (entries.get? i).map fun v => if fs.any (·.id == i) then v.taking (r.value? i) else v := by
  induction fs generalizing entries with
  | nil => simp
  | cons f fs ih =>
    rw [List.map_cons, List.nodup_cons] at distinct
    by_cases own : f.id = i
    · subst own
      rw [walkFields_cons, get?_walkFields copying _ distinct.1, get?_walkField_copying]
      simp only [List.any_cons, beq_self_eq_true, Bool.true_or, ↓reduceIte]
    · rw [walkFields_cons, walkField_copying, ih distinct.2, get?_walkField copying _ own]
      simp only [List.any_cons, beq_false_of_ne own, Bool.false_or]

theorem content?_copyInto (m : Message) (i : UInt32) :
    (r.copyInto m).fields.content? i = (m.fields.content? i).map (·.taking (r.value? i)) :=
  content?_walk_copying r m.fields i

theorem value?_copyIntoRecord {target : Record} (distinct : target.Distinct) (i : UInt32) :
    (r.copyIntoRecord target).value? i =
      (target.value? i).map fun v =>
        if target.schema.fields.any (·.id == i) then v.taking (r.value? i) else v := by
  rw [copyIntoRecord, walk_eq]
  exact get?_walkFields_copying r distinct.1 target.entries i

end Record

/-- The scalar at a path takes what the value that is copied holds at the same path. -/
theorem Content.scalarAt?_taking (x : Content) (given : Option Value) (path : List UInt32) :
    (x.taking given).scalarAt? path =
      (x.scalarAt? path).map (·.replacedBy (given.bind (·.scalarAt? path))) := by
  induction path generalizing x given with
  | nil =>
    cases x with
    | scalar s => rfl
    | message m => rcases given with _ | (s | r) <;> rfl
  | cons i path ih =>
    cases x with
    | scalar s => rfl
    | message m =>
      rcases given with _ | (s | r)
      · exact Option.map_id'.symm
      · exact Option.map_id'.symm
      · simp only [taking, scalarAt?, Record.content?_copyInto, Option.bind_some, Value.scalarAt?]
        cases m.fields.content? i with
        | none => rfl
        | some y => exact ih y (r.value? i)

theorem Value.scalarAt?_taking {v : Value} (distinct : v.Distinct) (given : Option Value)
    (path : List UInt32) :
    (v.taking given).scalarAt? path =
      (v.scalarAt? path).map fun s =>
        if v.declares path then s.replacedBy (given.bind (·.scalarAt? path)) else s := by
  induction path generalizing v given with
  | nil =>
    cases v with
    | scalar s => rfl
    | record target => rcases given with _ | (s | r) <;> rfl
  | cons i path ih =>
    have kept (s : Scalar) (declared : Bool) :
        (if declared then s.replacedBy none else s) = s := by cases declared <;> rfl
    cases v with
    | scalar s => rfl
    | record target =>
      rcases given with _ | (s | r)
      · simp only [taking, Option.bind_none, kept, Option.map_id']
      · simp only [taking, Option.bind_some, scalarAt?, kept, Option.map_id']
      · have step : ((record target).taking (some (.record r))).scalarAt? (i :: path) =
            ((r.copyIntoRecord target).value? i).bind (·.scalarAt? path) := rfl
        rw [step, Record.value?_copyIntoRecord r distinct, scalarAt?]
        cases held : target.value? i with
        | none => rfl
        | some w =>
          cases declared : target.schema.fields.any (·.id == i) with
          | true =>
            simpa [declares, declared, held, scalarAt?] using
              ih (distinct.2.of_get? held) (r.value? i)
          | false => simp [declares, declared]

namespace Record

theorem scalarAt?_copyInto (r : Record) (m : Message) (path : List UInt32) :
    (r.copyInto m).scalarAt? path = (m.scalarAt? path).map (·.replacedBy (r.scalarAt? path)) :=
  Content.scalarAt?_taking (.message m) (some (.record r)) path

theorem scalarAt?_copyIntoRecord (r : Record) {target : Record} (distinct : target.Distinct)
    (path : List UInt32) :
    (r.copyIntoRecord target).scalarAt? path =
      (target.scalarAt? path).map fun s =>
        if target.declares path then s.replacedBy (r.scalarAt? path) else s :=
  Value.scalarAt?_taking (v := .record target) distinct (some (.record r)) path

theorem keptBy_capture {fs : Fields} (distinct : fs.Distinct) (c : Capture) :
    fs.KeptBy (fs.walk Capture.pass c).2.record := by
  induction fs generalizing c with
  | nil => trivial
  | scalar tag s rest ih =>
    refine ⟨?_, ih distinct.2 _⟩
    exact (Capture.get?_walk_pass distinct.1 _).trans (Entries.get?_insert_self ..)
  | nested tag header inner rest ihInner ih =>
    refine ⟨⟨(Capture.ofFields header inner).record, ?_, ihInner distinct.2.1 _⟩,
      ih distinct.2.2 _⟩
    exact (Capture.get?_walk_pass distinct.1 _).trans (Entries.get?_insert_self ..)

theorem copyInto_capture {m blank : Message} (distinct : m.fields.Distinct)
    (shape : blank.zeroed = m.zeroed) : m.capture.copyInto blank = m := by
  obtain ⟨header, fields⟩ := blank
  simp only [Message.zeroed, Message.mk.injEq] at shape
  obtain ⟨rfl, shape⟩ := shape
  have walked : fields.walk copying m.capture = (m.fields, m.capture) :=
    walk_copying (keptBy_capture distinct _) shape
  exact congrArg (fun walked => Message.mk m.header walked.1) walked

end Record

end Copy

/-- Copying a record into a message or into another record is exact. The scalar at the end of a path
becomes the one that the record holds at the same path if that has the same type; every other one
stays as it is, and so do the headers, the schemas, the identifiers and the types of the target, and
the record that is copied. Nothing is left open: no other message of the target's shape has these
scalars. In a record, what no schema declares is passed over. A message that has been captured is
restored from its capture, whatever the message of its shape held that the values are put into. -/
theorem Record.copying_exact :
    (∀ (r : Record) (t : Message),
      (t.walk copying r).2 = r ∧
        (t.fields.Distinct → ∀ t' : Message, t' = r.copyInto t ↔
          t'.zeroed = t.zeroed ∧
            ∀ path, t'.scalarAt? path =
              (t.scalarAt? path).map (·.replacedBy (r.scalarAt? path)))) ∧
      (∀ r t : Record,
        (t.walk copying r).2 = r ∧ (r.copyIntoRecord t).zeroed = t.zeroed ∧
          (t.Distinct → ∀ path, (r.copyIntoRecord t).scalarAt? path =
            (t.scalarAt? path).map fun s =>
              if t.declares path then s.replacedBy (r.scalarAt? path) else s)) ∧
      ∀ m blank : Message, m.fields.Distinct → blank.zeroed = m.zeroed →
        m.capture.copyInto blank = m := by
  refine ⟨fun r t => ⟨snd_walk_copying_fields r t.fields, fun distinct t' => ⟨?_, ?_⟩⟩,
    fun r t => ⟨snd_walk_copying r t, zeroed_walkWithin copying _ t r,
      scalarAt?_copyIntoRecord r⟩,
    fun m blank => copyInto_capture⟩
  · rintro rfl
    exact ⟨t.zeroed_walk copying r, scalarAt?_copyInto r t⟩
  · rintro ⟨shape, scalars⟩
    have kept : (r.copyInto t).zeroed = t.zeroed := t.zeroed_walk copying r
    have still : (r.copyInto t).fields.Distinct := by
      have same : (r.copyInto t).fields.zeroed = t.fields.zeroed := congrArg Message.fields kept
      rwa [← Fields.distinct_zeroed, same, Fields.distinct_zeroed]
    refine Message.eq_of_scalarAt? still (shape.trans kept.symm) fun path => ?_
    rw [scalars, scalarAt?_copyInto]

/-- A message that shares a number, a nested message with a character, and the identifier of a text
with `Capture.reading`, and has a negative zero and a text of its own. -/
def Capture.sketch : Message :=
  ⟨⟨8, "Sketch", "Sketch"⟩,
    .scalar ⟨2, "bool", "note"⟩ ⟨.bool, true⟩ <|
      .scalar ⟨3, "float", "x"⟩ ⟨.float, 0⟩ <|
      .nested ⟨1, "Spot", "at"⟩ ⟨0, "Spot", "Spot"⟩
        (.scalar ⟨3, "char", "row"⟩ ⟨.char, 'a'⟩ <|
          .scalar ⟨4, "double", "z"⟩ ⟨.double, 0x8000000000000000⟩ .nil) .nil⟩

theorem Record.copying_exact_sketch :
    Capture.sketch.fields.Distinct ∧ Capture.reading.fields.Distinct ∧
      (Capture.reading.capture.copyInto Capture.sketch).scalarAt? [3] =
        some ⟨.float, 0x7FC00001⟩ ∧
      (Capture.reading.capture.copyInto Capture.sketch).scalarAt? [1, 3] = some ⟨.char, 'Ā'⟩ ∧
      (Capture.reading.capture.copyInto Capture.sketch).scalarAt? [1, 4] =
        some ⟨.double, 0x8000000000000000⟩ ∧
      (Capture.reading.capture.copyInto Capture.sketch).scalarAt? [2] = some ⟨.bool, true⟩ ∧
      (Capture.reading.capture.copyIntoRecord Capture.sketch.capture).scalarAt? [1, 3] =
        some ⟨.char, 'Ā'⟩ ∧
      Capture.reading.capture.copyInto Capture.reading.zeroed = Capture.reading := by
  have sketched : Capture.sketch.fields.Distinct := by
    simp [Fields.Distinct, Fields.ids, Capture.sketch]
  have read : Capture.reading.fields.Distinct := by
    simp [Fields.Distinct, Fields.ids, Capture.reading]
  obtain ⟨messages, records, restored⟩ := copying_exact
  obtain ⟨-, scalars⟩ := ((messages Capture.reading.capture Capture.sketch).2 sketched _).1 rfl
  obtain ⟨-, -, held⟩ := records Capture.reading.capture Capture.sketch.capture
  exact ⟨sketched, read, scalars [3], scalars [1, 3], scalars [1, 4], scalars [2],
    held (Capture.distinct_capture sketched) [1, 3], restored _ _ read rfl⟩

end MessageCodec
