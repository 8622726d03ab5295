import MessageCodec.Proofs.Fields
import MessageCodec.Proofs.Record.Walk

/-! The message that a record shows. A walk over the record and one over that message
see the same and leave the same, as long as no two fields of a message have one
identifier. -/

namespace MessageCodec

def Value.content : Value → Content
  | scalar s => .scalar s
  | record r => .message r.view

theorem Entries.content?_eq (entries : Entries) (i : UInt32) :
    entries.content? i = (entries.get? i).map Value.content := by
  induction entries with
  | nil => rfl
  | scalar id s rest ih => by_cases same : id = i <;> simp [content?, get?, same, ih, Value.content]
  | record id schema catalogue inner rest _ ih =>
    by_cases same : id = i
    · simp only [content?, get?, same, ↓reduceIte, Option.map_some]
      rfl
    · simp [content?, get?, same, ih]

/-- In every record among entries the fields of its schema have distinct identifiers. -/
def Entries.Distinct : Entries → Prop
  | nil => True
  | scalar _ _ rest => rest.Distinct
  | record _ schema _ inner rest =>
    (schema.fields.map (·.id)).Nodup ∧ inner.Distinct ∧ rest.Distinct

/-- The fields of a record have distinct identifiers, and so have those of the records in it. -/
def Record.Distinct (r : Record) : Prop :=
  (r.schema.fields.map (·.id)).Nodup ∧ r.entries.Distinct

def Value.Distinct : Value → Prop
  | scalar _ => True
  | record r => r.Distinct

@[simp]
theorem Entries.distinct_cons {id : UInt32} {v : Value} {rest : Entries} :
    (cons id v rest).Distinct ↔ v.Distinct ∧ rest.Distinct := by
  cases v with
  | scalar s => exact (iff_of_eq (true_and _)).symm
  | record r => exact and_assoc.symm

theorem Entries.Distinct.insert {entries : Entries} (distinct : entries.Distinct) (i : UInt32)
    {v : Value} (inner : v.Distinct) : (entries.insert i v).Distinct := by
  induction entries using cons_induction with
  | nil => exact distinct_cons.2 ⟨inner, trivial⟩
  | cons id w rest ih =>
    rw [distinct_cons] at distinct
    rw [insert_cons]
    split
    · exact distinct_cons.2 ⟨inner, distinct.2⟩
    · exact distinct_cons.2 ⟨distinct.1, ih distinct.2⟩

theorem Entries.Distinct.of_get? {entries : Entries} (distinct : entries.Distinct) {i : UInt32}
    {v : Value} (held : entries.get? i = some v) : v.Distinct := by
  induction entries using cons_induction with
  | nil => cases held
  | cons id w rest ih =>
    rw [distinct_cons] at distinct
    rw [get?_cons] at held
    split at held
    · cases held
      exact distinct.1
    · exact ih distinct.2 held

namespace Record

variable {σ : Type}

/-- Does a walk over the record go like one over the message that it shows? -/
def ShowsWalk (p : Pass σ) (r : Record) : Prop :=
  ∀ s, r.view.walk p s = ((r.walk p s).1.view, (r.walk p s).2)

/-- What fields show depends on the values under their identifiers only. -/
theorem arrange_congr {entries entries' : Entries} {fs : List Schema.Field}
    (same : ∀ f ∈ fs, entries.get? f.id = entries'.get? f.id) :
    Fields.arrange entries.content? fs = Fields.arrange entries'.content? fs := by
  induction fs with
  | nil => rfl
  | cons f fs ih =>
    rw [List.forall_mem_cons] at same
    rw [Fields.arrange, Fields.arrange, Entries.content?_eq, Entries.content?_eq, same.1,
      ih same.2]

theorem arrange_insert {entries : Entries} {i : UInt32} {fs : List Schema.Field}
    (fresh : i ∉ fs.map (·.id)) (v : Value) :
    Fields.arrange (entries.insert i v).content? fs = Fields.arrange entries.content? fs := by
  refine arrange_congr fun f mem => Entries.get?_insert_of_ne ?_ _ _
  rintro rfl
  exact fresh (List.mem_map_of_mem mem)

theorem schema_descend (p : Pass σ) (r : Record) (tag : FieldTag) (s : σ) :
    (p.descend (r.walk p) tag r s).1.schema = r.schema := by
  rcases entered : p.enter tag s with ⟨s', _ | inner⟩
  · rw [Pass.descend_of_closed entered]
  · rw [Pass.descend_of_opened entered, walk_eq]

theorem descend_view {p : Pass σ} {r : Record} (shows : r.ShowsWalk p) (tag : FieldTag) (s : σ) :
    p.descend (fun state => ((r.view.fields.walk p (p.start r.view.header state)).1,
        p.finish (r.view.fields.walk p (p.start r.view.header state)).2)) tag r.view.fields s =
      ((p.descend (r.walk p) tag r s).1.view.fields, (p.descend (r.walk p) tag r s).2) := by
  rcases entered : p.enter tag s with ⟨s', _ | inner⟩
  · rw [Pass.descend_of_closed entered, Pass.descend_of_closed entered]
  · rw [Pass.descend_of_opened entered, Pass.descend_of_opened entered]
    have walked := shows inner
    rw [Message.walk, Prod.mk.injEq] at walked
    rw [← walked.1, ← walked.2]

theorem walkFields_view (p : Pass σ) {fs : List Schema.Field} (distinct : (fs.map (·.id)).Nodup)
    (entries : Entries) (s : σ)
    (shows : ∀ f ∈ fs, ∀ r, entries.get? f.id = some (.record r) → r.ShowsWalk p) :
    (Fields.arrange entries.content? fs).walk p s =
      (Fields.arrange (walkFields p fs (entries, s)).1.content? fs,
        (walkFields p fs (entries, s)).2) := by
  induction fs generalizing entries s with
  | nil => rfl
  | cons f fs ih =>
    rw [List.map_cons, List.nodup_cons] at distinct
    rw [List.forall_mem_cons] at shows
    have head (state : Entries × σ) :
        (walkFields p fs state).1.content? f.id = (state.1.get? f.id).map Value.content := by
      rw [Entries.content?_eq, get?_walkFields p state distinct.1]
    have tail (v : Value) : ∀ g ∈ fs, ∀ r, (entries.insert f.id v).get? g.id = some (.record r) →
        r.ShowsWalk p := by
      intro g mem r held
      have other := ne_of_mem_of_not_mem (List.mem_map_of_mem mem) distinct.1
      rw [Entries.get?_insert_of_ne other.symm] at held
      exact shows.2 g mem r held
    cases held : entries.get? f.id with
    | none =>
      rw [walkFields_cons, walkField_of_absent held]
      simp only [Fields.arrange, head, Entries.content?_eq, held, Option.map_none]
      exact ih distinct.2 entries s shows.2
    | some v =>
      cases v with
      | scalar x =>
        have rest := ih distinct.2 _ (p.scalar f.tag x.type x.value s).2
          (tail (.scalar ⟨x.type, (p.scalar f.tag x.type x.value s).1⟩))
        rw [arrange_insert distinct.1] at rest
        rw [walkFields_cons, walkField_of_held held]
        simp only [Fields.arrange, head, Entries.content?_eq entries f.id, held, Value.walk,
          Entries.get?_insert_self, Option.map_some, Value.content, Fields.walk, rest]
      | record r =>
        have rest := ih distinct.2 _ (p.descend (r.walk p) f.tag r s).2
          (tail (.record (p.descend (r.walk p) f.tag r s).1))
        rw [arrange_insert distinct.1] at rest
        rw [walkFields_cons, walkField_of_held held]
        simp only [Fields.arrange, head, Entries.content?_eq entries f.id, held, Value.walk,
          Entries.get?_insert_self, Option.map_some, Value.content, Fields.walk]
        have header : (p.descend (r.walk p) f.tag r s).1.view.header = r.view.header :=
          congrArg Schema.Message.header (schema_descend p r f.tag s)
        rw [header, descend_view (shows.1 r held)]
        dsimp only
        rw [rest]

/-- The walk over a record is the walk over the message that it shows. -/
theorem walk_view (p : Pass σ) {r : Record} (distinct : r.Distinct) (s : σ) :
    r.view.walk p s = ((r.walk p s).1.view, (r.walk p s).2) := by
  induction depth : r.entries.levels using Nat.strongRecOn generalizing r s with
  | ind n ih =>
    subst depth
    have fields := walkFields_view p distinct.1 r.entries (p.start r.schema.header s)
      fun f _ inner held state =>
        ih _ (Entries.levels_le_of_get? held) (distinct.2.of_get? held) state rfl
    rw [walk_eq, Message.walk]
    simp only [view, fields]

end Record

end MessageCodec
