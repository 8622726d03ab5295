import MessageCodec.Json.Decoder
import MessageCodec.Proofs.Record.Conforming
import MessageCodec.Proofs.Wire.Records

/-! Runs of actions on records. A run starts with a default or decoded record; values are offered to
its fields, and passes walk over it. Nested records that are offered come from runs of their own.
Whatever is done, the record conforms to its schema. -/

namespace MessageCodec

open Schema (Catalogue Suiting)

namespace Record

/-- What is done to a record: a value is offered to a field, or a pass walks over the record. -/
inductive Action where
  | setById (id : UInt32) (v : Value)
  | set (name : String) (v : Value)
  | walk {σ : Type} (p : Pass σ) (s : σ)

namespace Action

/-- What an action does to a record in place. -/
def run : Action → Access Unit
  | setById id v => Record.setById id v
  | set name v => Record.set name v
  | walk p s => modify fun r => (r.walk p s).1

/-- The value that is offered, and the identifier of the field that it is offered to. -/
def offer? (r : Record) : Action → Option (UInt32 × Value)
  | setById id v => some (id, v)
  | set name v => (r.schema.fieldByName? name).map fun f => (f.id, v)
  | walk _ _ => none

end Action

/-- The record after an action, whether it has failed or not. -/
def after (r : Record) (a : Action) : Record :=
  match a.run r with
  | .ok () r => r
  | .error _ r => r

/-- Records that runs lead to. A nested record that is offered has been reached by a run of its
own, and suits the field that it is offered to. -/
inductive Reached (First : Record → Prop) (suits : Suiting) : Record → Prop
  | first {r : Record} (first : First r) : Reached First suits r
  | nested {r inner : Record} {id : UInt32} (reached : Reached First suits r)
    (held : r.value? id = some (.record inner)) : Reached First suits inner
  | after {r : Record} {a : Action} (reached : Reached First suits r)
    (given : ∀ id inner, a.offer? r = some (id, .record inner) → Reached First suits inner)
    (suited : ∀ id inner, a.offer? r = some (id, .record inner) →
      ∀ f ∈ r.schema.fields, f.id = id → suits r.schema f inner.schema inner.catalogue) :
    Reached First suits (r.after a)

/-- Records of the messages of a specification as they are made, with the messages in which nested
ones are looked up. -/
inductive MadeFrom (c visible : Catalogue) : Record → Prop
  | default {m : Schema.Message} (mem : m ∈ c) : MadeFrom c visible (ofSchema m visible)
  | decoded {m : Schema.Message} (mem : m ∈ c) {σ : Type} (d : Decoder σ) (s : σ) :
    MadeFrom c visible (ofDecoder d m visible s).1

variable {r : Record} {id : UInt32} {v : Value} {c visible : Catalogue} {suits : Suiting}

theorem getThe_bind {α : Type} (next : Record → Access α) (r : Record) :
    (getThe Record >>= next) r = next r r :=
  rfl

/-- A value is kept if the field with the identifier has its type. Otherwise it is refused, and the
record is left as it was. -/
theorem setById_cases (r : Record) (id : UInt32) (v : Value) :
    (∃ f, r.schema.fieldById? id = some f ∧ f.type = v.type ∧
        setById id v r = .ok () { r with entries := r.entries.insert id v }) ∨
      (∃ e, setById id v r = .error e r) ∧ ¬ ∃ f, r.schema.Declares id f ∧ f.type = v.type := by
  rw [setById, getThe_bind]
  cases found : r.schema.fieldById? id with
  | none =>
    refine .inr ⟨⟨_, rfl⟩, fun ⟨f, only, _⟩ => ?_⟩
    cases found.symm.trans only.fieldById?
  | some f =>
    dsimp only
    by_cases type : v.type = f.type
    · rw [if_pos type]
      exact .inl ⟨f, rfl, type.symm, rfl⟩
    · rw [if_neg type]
      refine .inr ⟨⟨_, rfl⟩, fun ⟨g, only, same⟩ => ?_⟩
      cases found.symm.trans only.fieldById?
      exact type same.symm

/-- A value is refused if and only if the field with the identifier does not have its type. -/
theorem setById_eq_error_iff (ids : (r.schema.fields.map (·.id)).Nodup) :
    (∃ e left, setById id v r = .error e left) ↔
      ¬ ∃ f, r.schema.Declares id f ∧ f.type = v.type := by
  obtain ⟨f, found, type, stored⟩ | ⟨⟨e, refused⟩, foreign⟩ := setById_cases r id v
  · have declared := Schema.Message.declares_of_fieldById? ids found
    refine ⟨fun ⟨e, left, refused⟩ => ?_, fun foreign => absurd ⟨f, declared, type⟩ foreign⟩
    cases stored.symm.trans refused
  · exact ⟨fun _ => foreign, fun _ => ⟨e, r, refused⟩⟩

theorem run_of_offer {a : Action} (offered : a.offer? r = some (id, v)) :
    a.run r = setById id v r := by
  cases a with
  | walk p s => cases offered
  | setById id v =>
    cases offered
    rfl
  | set name v =>
    obtain ⟨f, named, same⟩ := Option.map_eq_some_iff.1 offered
    cases same
    rw [Action.run, set, getThe_bind, named]

/-- An action that offers nothing is a walk, or fails for want of a field with the name. -/
theorem run_of_no_offer {a : Action} (offered : a.offer? r = none) :
    (∃ (σ : Type) (p : Pass σ) (s : σ), a.run r = .ok () (r.walk p s).1) ∨
      ∃ e, a.run r = .error e r := by
  cases a with
  | walk p s => exact .inl ⟨_, p, s, rfl⟩
  | setById id v => cases offered
  | set name v =>
    have unknown := Option.map_eq_none_iff.1 offered
    rw [Action.run, set, getThe_bind, unknown]
    exact .inr ⟨_, rfl⟩

/-- What is offered under a name is offered to the field with the name. -/
theorem Action.offer?_set {name : String} {w : Value}
    (offered : (Action.set name w).offer? r = some (id, v)) :
    v = w ∧ ∃ f, r.schema.fieldByName? name = some f ∧ f.id = id := by
  obtain ⟨f, named, same⟩ := Option.map_eq_some_iff.1 offered
  cases same
  exact ⟨rfl, f, named, rfl⟩

/-- What an action does to a record: it walks over it, keeps a value of the type that is declared
for it, or fails and leaves the record alone. -/
theorem run_cases (r : Record) (a : Action) :
    (∃ (σ : Type) (p : Pass σ) (s : σ), a.run r = .ok () (r.walk p s).1) ∨
      (∃ id v f, a.offer? r = some (id, v) ∧ r.schema.fieldById? id = some f ∧
        f.type = v.type ∧ a.run r = .ok () { r with entries := r.entries.insert id v }) ∨
      ∃ e, a.run r = .error e r := by
  cases offered : a.offer? r with
  | some offer =>
    obtain ⟨id, v⟩ := offer
    rw [run_of_offer offered]
    obtain ⟨f, found, type, stored⟩ | ⟨refused, -⟩ := setById_cases r id v
    · exact .inr (.inl ⟨id, v, f, rfl, found, type, stored⟩)
    · exact .inr (.inr refused)
  | none => exact (run_of_no_offer offered).imp_right .inr

theorem eq_of_run_error {a : Action} {e : AccessError} {left : Record}
    (failed : a.run r = .error e left) : left = r := by
  obtain ⟨σ, p, s, walked⟩ | ⟨id, v, f, -, -, -, stored⟩ | ⟨e', refused⟩ := run_cases r a
  · cases walked.symm.trans failed
  · cases stored.symm.trans failed
  · cases refused.symm.trans failed
    rfl

theorem after_of_run_ok {a : Action} {left : Record} (done : a.run r = .ok () left) :
    r.after a = left := by
  rw [after, done]

theorem after_of_run_error {a : Action} {e : AccessError} {left : Record}
    (failed : a.run r = .error e left) : r.after a = left := by
  rw [after, failed]

/-- An action leaves a record conforming when the records that are offered conform and suit. -/
theorem ConformsWith.after (conforms : r.ConformsWith suits) {a : Action}
    (given : ∀ id inner, a.offer? r = some (id, .record inner) → inner.ConformsWith suits)
    (suited : ∀ id inner, a.offer? r = some (id, .record inner) →
      ∀ f ∈ r.schema.fields, f.id = id → suits r.schema f inner.schema inner.catalogue) :
    (r.after a).ConformsWith suits := by
  obtain ⟨σ, p, s, walked⟩ | ⟨id, v, f, offered, found, type, stored⟩ | ⟨e, failed⟩ :=
    run_cases r a
  · rw [after_of_run_ok walked]
    exact (follows_walk suits p r s).conforms conforms
  · have only := Schema.Message.declares_of_fieldById? conforms.1 found
    rw [after_of_run_ok stored]
    refine ⟨conforms.1, ?_⟩
    cases v with
    | scalar x => exact conforms.2.insert_scalar only type _
    | record inner =>
      have stays := suited id inner offered f only.mem.1 only.mem.2
      exact conforms.2.insert_record only type stays (given id inner offered)
  · rwa [after_of_run_error failed]

theorem Reached.conforms {First : Record → Prop} (start : ∀ r, First r → r.ConformsWith suits)
    (reached : Reached First suits r) : r.ConformsWith suits := by
  induction reached with
  | first first => exact start _ first
  | nested reached held ih => exact (ih.2.of_get? held).2
  | after reached given suited ih ihGiven => exact ih.after ihGiven suited

theorem conforms_of_madeFrom (ids : ∀ m ∈ c, (m.fields.map (·.id)).Nodup)
    (part : ∀ m ∈ visible, m ∈ c)
    (suited : ∀ {f m inner}, visible.HoldsIn f m inner → suits m f inner visible)
    (made : MadeFrom c visible r) : r.ConformsWith suits := by
  have inside : ∀ m ∈ visible, (m.fields.map (·.id)).Nodup := fun m mem => ids m (part m mem)
  cases made with
  | default mem => exact conforms_ofSchema inside suited (ids _ mem)
  | decoded mem d s => exact conforms_ofDecoder inside suited (ids _ mem) s

/-- A record that is made from a specification, or captured from a message with distinct
identifiers. -/
def IsFirst (r : Record) : Prop :=
  (∃ text c visible, Schema.parse text = .ok c ∧ (∀ m ∈ visible, m ∈ c) ∧ MadeFrom c visible r) ∨
    ∃ m : Message, m.fields.Distinct ∧ r = m.capture

theorem conforms_of_isFirst (first : r.IsFirst) : r.Conforms := by
  obtain ⟨text, c, visible, accepted, part, made⟩ | ⟨m, distinct, rfl⟩ := first
  · have ids := (Schema.unambiguous_of_parse accepted).fieldIds
    exact conforms_of_madeFrom ids part (fun _ => trivial) made
  · exact Capture.conforms_capture distinct

/-- Whatever is done to records, in any order, each value of a record is kept under the identifier
of exactly one declared field and has its type, at every depth. The fields that have a value come in
the order of the schema and list every value once. A value is refused exactly when the field with
the identifier does not have its type, and an action that fails leaves the record as it was. -/
theorem conforms_of_reached (reached : Reached IsFirst (fun _ _ _ _ => True) r) :
    r.Conforms ∧ (r.fields.map Prod.fst).Sublist r.schema.fields ∧
      (r.fields.map fun x => (x.1.id, x.2)).Perm r.entries.pairs ∧
      (∀ id v, (∃ e left, setById id v r = .error e left) ↔
        ¬ ∃ f, r.schema.Declares id f ∧ f.type = v.type) ∧
      ∀ (a : Action) e left, a.run r = .error e left → left = r ∧ r.after a = r := by
  have conforms := reached.conforms fun _ => conforms_of_isFirst
  refine ⟨conforms, r.fields_sublist, fields_perm conforms, fun id v =>
    setById_eq_error_iff conforms.1, fun a e left failed => ?_⟩
  obtain rfl := eq_of_run_error failed
  exact ⟨rfl, after_of_run_error failed⟩

/-- A default record that is given a nested one, read from JSON, and is then filled from bytes that
break off. -/
def filledOuter : Record :=
  ((ofSchema Wire.nestedOuter [Wire.nestedInner, Wire.nestedOuter]).after
      (.set "n" (.record (ofDecoder Json.decoder Wire.nestedInner
        [Wire.nestedInner, Wire.nestedOuter] [("v", .number (.integer 5))]).1))).after
    (.walk Wire.decoder.toPass (Wire.decoder.prime [0x1A, 0x03, 0x08, 0x0A, 0x10]))

theorem conforms_of_reached_filledOuter :
    Reached IsFirst (fun _ _ _ _ => True) filledOuter ∧ filledOuter.Conforms ∧
      (filledOuter.fields.map fun x => (x.1.id, x.2)).Perm filledOuter.entries.pairs := by
  have first {r : Record} (made : MadeFrom [Wire.nestedInner, Wire.nestedOuter]
      [Wire.nestedInner, Wire.nestedOuter] r) : IsFirst r :=
    .inl ⟨_, _, _, Wire.parse_nestedText, fun _ mem => mem, made⟩
  have reached : Reached IsFirst (fun _ _ _ _ => True) filledOuter := by
    have start : Reached IsFirst (fun _ _ _ _ => True)
        (ofSchema Wire.nestedOuter [Wire.nestedInner, Wire.nestedOuter]) :=
      .first (first (.default (.tail _ (.head _))))
    refine .after (.after start ?_ fun _ _ _ _ _ _ => trivial) nofun fun _ _ _ _ _ _ => trivial
    intro id inner offered
    cases (Action.offer?_set offered).1
    exact .first (first (.decoded (List.mem_cons_self ..) _ _))
  obtain ⟨conforms, -, listed, -⟩ := conforms_of_reached reached
  exact ⟨reached, conforms, listed⟩

end Record

end MessageCodec
