import MessageCodec.Proofs.Record.View
import MessageCodec.Record.Capture

/-! Copying a record into a message of its shape. Each field of the message takes the value that
the record keeps under its identifier, so nothing of what the message held is left. -/

namespace MessageCodec

namespace Fields

/-- The record keeps the values of these fields under their identifiers, at every depth. -/
def KeptBy : Fields → Record → Prop
  | nil, _ => True
  | scalar tag s rest, r => r.value? tag.id = some (.scalar s) ∧ rest.KeptBy r
  | nested tag _ inner rest, r =>
    (∃ r', r.value? tag.id = some (.record r') ∧ inner.KeptBy r') ∧ rest.KeptBy r

variable {entries : Entries} {fs : List Schema.Field}

/-- The first field that is shown has its content from the entries, and so have those behind it. -/
theorem arrange_eq_scalar {tag : FieldTag} {s : Scalar} {rest : Fields}
    (shown : arrange entries.content? fs = scalar tag s rest) :
    entries.content? tag.id = some (.scalar s) ∧ ∃ fs', rest = arrange entries.content? fs' := by
  induction fs with
  | nil => cases shown
  | cons f fs ih =>
    rw [arrange] at shown
    split at shown
    · exact ih shown
    · rename_i held
      cases shown
      exact ⟨held, fs, rfl⟩
    · cases shown

theorem arrange_eq_nested {tag : FieldTag} {header : Header} {inner rest : Fields}
    (shown : arrange entries.content? fs = nested tag header inner rest) :
    entries.content? tag.id = some (.message ⟨header, inner⟩) ∧
      ∃ fs', rest = arrange entries.content? fs' := by
  induction fs with
  | nil => cases shown
  | cons f fs ih =>
    rw [arrange] at shown
    split at shown
    · exact ih shown
    · cases shown
    · rename_i held
      cases shown
      exact ⟨held, fs, rfl⟩

theorem keptBy_of_matches {values : Fields} {r : Record}
    (same : values.Matches (arrange r.entries.content? fs)) : values.KeptBy r := by
  induction values generalizing r fs with
  | nil => trivial
  | scalar tag s rest ih =>
    cases shown : arrange r.entries.content? fs with
    | scalar tag' s' rest' =>
      obtain ⟨held, fs', rfl⟩ := arrange_eq_scalar shown
      rw [shown] at same
      obtain ⟨id, rfl, same⟩ := same
      rw [Entries.content?_eq, ← id] at held
      obtain ⟨v, kept, content⟩ := Option.map_eq_some_iff.1 held
      cases v with
      | scalar s' =>
        cases content
        exact ⟨kept, ih same⟩
      | record r' => cases content
    | _ =>
      rw [shown] at same
      cases same
  | nested tag header inner rest ihInner ih =>
    cases shown : arrange r.entries.content? fs with
    | nested tag' header' inner' rest' =>
      obtain ⟨held, fs', rfl⟩ := arrange_eq_nested shown
      rw [shown] at same
      obtain ⟨id, sameInner, same⟩ := same
      rw [Entries.content?_eq, ← id] at held
      obtain ⟨v, kept, content⟩ := Option.map_eq_some_iff.1 held
      cases v with
      | scalar s' => cases content
      | record r' =>
        cases content
        exact ⟨⟨r', kept, ihInner sameInner⟩, ih same⟩
    | _ =>
      rw [shown] at same
      cases same

end Fields

namespace Record

/-- A nested record that is put back as it was changes nothing. -/
theorem leave_copying {r inner : Record} {tag : FieldTag}
    (held : r.value? tag.id = some (.record inner)) : copying.leave tag inner r = r := by
  obtain ⟨schema, catalogue, entries⟩ := r
  exact congrArg (Record.mk schema catalogue) (Entries.insert_of_get? held)

/-- Fields of the same shape take all values that a record keeps for them. -/
theorem walk_copying {values target : Fields} {r : Record} (kept : values.KeptBy r)
    (shape : target.zeroed = values.zeroed) : target.walk copying r = (values, r) := by
  induction values generalizing target r with
  | nil =>
    cases target with
    | nil => rfl
    | _ => cases shape
  | scalar tag s rest ih =>
    cases target with
    | scalar tag' s' rest' =>
      obtain ⟨t, v⟩ := s
      obtain ⟨t', v'⟩ := s'
      simp only [Fields.zeroed, Fields.scalar.injEq, Scalar.mk.injEq] at shape
      obtain ⟨rfl, ⟨rfl, -⟩, shape⟩ := shape
      have copied : copying.scalar tag' t' v' r = (v, r) := by
        simp only [copying, kept.1, Scalar.copyOnto, dite_true]
      rw [Fields.walk, copied]
      dsimp only
      rw [ih kept.2 shape]
    | _ => cases shape
  | nested tag header inner rest ihInner ih =>
    cases target with
    | nested tag' header' inner' rest' =>
      simp only [Fields.zeroed, Fields.nested.injEq] at shape
      obtain ⟨rfl, rfl, shapeInner, shape⟩ := shape
      obtain ⟨⟨r', held, keptInner⟩, kept⟩ := kept
      have entered : copying.enter tag' r = (r, some r') := by simp only [copying, held]
      rw [Fields.walk, Pass.descend_of_opened entered]
      have inside : inner'.walk copying (copying.start header' r') = (inner, r') :=
        ihInner keptInner shapeInner
      have back : copying.leave tag' (copying.finish r') r = r := leave_copying held
      have behind : rest'.walk copying r = (rest, r) := ih kept shape
      simp only [inside, back, behind]
    | _ => cases shape

theorem copyInto_of_matches {r : Record} {m target : Message}
    (same : m.fields.Matches r.view.fields) (shape : target.zeroed = m.zeroed) :
    r.copyInto target = m := by
  obtain ⟨header, fields⟩ := target
  simp only [Message.zeroed, Message.mk.injEq] at shape
  obtain ⟨rfl, shape⟩ := shape
  have walked : fields.walk copying (copying.start m.header r) = (m.fields, r) :=
    walk_copying (Fields.keptBy_of_matches same) shape
  rw [copyInto, Message.walk, walked]

end Record

end MessageCodec
