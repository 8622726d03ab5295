import MessageCodec.Proofs.Fields
import MessageCodec.Proofs.Record.Walk

/-! Messages that are filled by the names of their fields. Namesakes have the same names and types
in the same order at every depth. A pass that gives each field the value of its namesake puts
every value of one message in place in the other. -/

namespace MessageCodec

namespace Fields

def names : Fields → List String
  | nil => []
  | scalar tag _ rest => tag.name :: rest.names
  | nested tag _ _ rest => tag.name :: rest.names

/-- No message in the tree has two fields of one name. -/
def DistinctNames : Fields → Prop
  | nil => True
  | scalar tag _ rest => tag.name ∉ rest.names ∧ rest.DistinctNames
  | nested tag _ inner rest => tag.name ∉ rest.names ∧ inner.DistinctNames ∧ rest.DistinctNames

theorem DistinctNames.nodup_names {fs : Fields} (named : fs.DistinctNames) : fs.names.Nodup := by
  induction fs with
  | nil => exact List.nodup_nil
  | scalar tag s rest ih => exact List.nodup_cons.2 ⟨named.1, ih named.2⟩
  | nested tag header inner rest _ ih => exact List.nodup_cons.2 ⟨named.1, ih named.2.2⟩

/-- The same names and types in the same order, at every depth. -/
def Namesakes : Fields → Fields → Prop
  | nil, nil => True
  | scalar tag s rest, scalar tag' s' rest' =>
    tag.name = tag'.name ∧ s.type = s'.type ∧ rest.Namesakes rest'
  | nested tag _ inner rest, nested tag' _ inner' rest' =>
    tag.name = tag'.name ∧ inner.Namesakes inner' ∧ rest.Namesakes rest'
  | _, _ => False

/-- The first fields with the values of the second ones. -/
def withValues : Fields → Fields → Fields
  | scalar tag _ rest, scalar _ s rest' => scalar tag s (rest.withValues rest')
  | nested tag header inner rest, nested _ _ inner' rest' =>
    nested tag header (inner.withValues inner') (rest.withValues rest')
  | fs, _ => fs

/-- Fields that differ in nothing but values are the same once they have the same values. -/
theorem withValues_of_zeroed {a b : Fields} (same : b.zeroed = a.zeroed) : b.withValues a = a := by
  induction a generalizing b with
  | nil =>
    cases b with
    | nil => rfl
    | _ => cases same
  | scalar tag s rest ih =>
    cases b with
    | scalar tag' s' rest' =>
      simp only [zeroed, scalar.injEq] at same
      rw [withValues, same.1, ih same.2.2]
    | _ => cases same
  | nested tag header inner rest ihInner ih =>
    cases b with
    | nested tag' header' inner' rest' =>
      simp only [zeroed, nested.injEq] at same
      rw [withValues, same.1, same.2.1, ihInner same.2.2.1, ih same.2.2.2]
    | _ => cases same

end Fields

variable {σ : Type}

/-- A pass whose state stays as it is around the fields of a message. -/
structure Pass.IsSteady (p : Pass σ) : Prop where
  start (header : Header) (s : σ) : p.start header s = s
  leave (tag : FieldTag) (inner s : σ) : p.leave tag inner s = s
  finish (s : σ) : p.finish s = s

namespace Fields

/-- A pass in some state gives every namesake of a field the value of that field, whatever it had
before. -/
def GivenBy (p : Pass σ) : Fields → σ → Prop
  | nil, _ => True
  | scalar tag s rest, state =>
    (∀ tag' : FieldTag, tag.name = tag'.name → ∀ v,
      p.scalar tag' s.type v state = (s.value, state)) ∧ rest.GivenBy p state
  | nested tag _ inner rest, state =>
    (∃ inside, (∀ tag' : FieldTag, tag.name = tag'.name →
      p.enter tag' state = (state, some inside)) ∧ inner.GivenBy p inside) ∧ rest.GivenBy p state

theorem walk_of_givenBy {p : Pass σ} (steady : p.IsSteady) {a b : Fields}
    (namesakes : a.Namesakes b) {state : σ} (given : a.GivenBy p state) :
    b.walk p state = (b.withValues a, state) := by
  induction a generalizing b state with
  | nil =>
    cases b with
    | nil => rfl
    | _ => cases namesakes
  | scalar tag s rest ih =>
    cases b with
    | scalar tag' s' rest' =>
      obtain ⟨t, v⟩ := s
      obtain ⟨t', v'⟩ := s'
      obtain ⟨name, type, namesakes⟩ := namesakes
      dsimp only at type
      subst type
      have behind := ih namesakes given.2
      rw [walk, given.1 tag' name v', withValues]
      dsimp only
      rw [behind]
    | _ => cases namesakes
  | nested tag header inner rest ihInner ih =>
    cases b with
    | nested tag' header' inner' rest' =>
      obtain ⟨name, inside, namesakes⟩ := namesakes
      obtain ⟨⟨opened, entered, taken⟩, given⟩ := given
      have within := ihInner inside taken
      have behind := ih namesakes given
      rw [walk, Pass.descend_of_opened (entered tag' name), withValues]
      simp only [steady.start, steady.leave, steady.finish, within, behind]
    | _ => cases namesakes

end Fields

/-- Decoding into a message puts the values in place that are given to the namesakes of its fields;
a message that differs from the given one in nothing but values becomes that message. -/
theorem Decoder.decodeInto_of_givenBy {d : Decoder σ} (steady : d.IsSteady) {a b : Message}
    {bs : Bytes} (namesakes : a.fields.Namesakes b.fields)
    (given : a.fields.GivenBy d.toPass (d.prime bs)) :
    (d.decodeInto bs b).1 = ⟨b.header, b.fields.withValues a.fields⟩ ∧
      (b.zeroed = a.zeroed → (d.decodeInto bs b).1 = a) := by
  have filled : (d.decodeInto bs b).1 = ⟨b.header, b.fields.withValues a.fields⟩ := by
    rw [decodeInto, Message.walk, steady.start, Fields.walk_of_givenBy steady namesakes given]
  refine ⟨filled, fun same => ?_⟩
  obtain ⟨header, fields⟩ := Message.mk.inj same
  rw [filled, header, Fields.withValues_of_zeroed fields]

end MessageCodec
