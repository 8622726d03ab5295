import MessageCodec.Proofs.Record.Entries

/-! Walks over records. The bound on the levels of a walk never cuts it short, and the
walk over a record is the one over the message that it shows, as long as no two fields
of a message have one identifier. -/

namespace MessageCodec

namespace Pass

variable {σ μ : Type} {p : Pass σ} {tag : FieldTag} {s s' inner : σ}

theorem descend_of_closed (closed : p.enter tag s = (s', none)) (walk : σ → μ × σ) (m : μ) :
    p.descend walk tag m s = (m, s') := by
  rw [descend, closed]

theorem descend_of_opened (opened : p.enter tag s = (s', some inner)) (walk : σ → μ × σ) (m : μ) :
    p.descend walk tag m s = ((walk inner).1, p.leave tag (walk inner).2 s') := by
  rw [descend, opened]

end Pass

def Value.walk {σ : Type} (p : Pass σ) (walkInner : Record → σ → Record × σ) (tag : FieldTag) :
    Value → σ → Value × σ
  | scalar x, s =>
    (scalar ⟨x.type, (p.scalar tag x.type x.value s).1⟩, (p.scalar tag x.type x.value s).2)
  | record r, s => (record (p.descend (walkInner r) tag r s).1, (p.descend (walkInner r) tag r s).2)

namespace Record

variable {σ : Type} {p : Pass σ} {walkInner walkInner' : Record → σ → Record × σ}
variable {entries : Entries} {f : Schema.Field}

theorem walkField_of_absent (absent : entries.get? f.id = none) (s : σ) :
    walkField p walkInner (entries, s) f = (entries, s) := by
  simp only [walkField, absent]

theorem walkField_of_held {v : Value} (held : entries.get? f.id = some v) (s : σ) :
    walkField p walkInner (entries, s) f =
      (entries.insert f.id (v.walk p walkInner f.tag s).1, (v.walk p walkInner f.tag s).2) := by
  cases v <;> simp only [walkField, held, Value.walk]

theorem levels_walkField (keeps : ∀ r s, (walkInner r s).1.entries.levels = r.entries.levels)
    (state : Entries × σ) (f : Schema.Field) :
    (walkField p walkInner state f).1.levels = state.1.levels := by
  obtain ⟨entries, s⟩ := state
  cases held : entries.get? f.id with
  | none => rw [walkField_of_absent held]
  | some v =>
    rw [walkField_of_held held]
    refine Entries.levels_insert held ?_
    cases v with
    | scalar x => rfl
    | record r =>
      rcases entered : p.enter f.tag s with ⟨s', _ | inner⟩
      · rw [Value.walk, Pass.descend_of_closed entered]
      · rw [Value.walk, Pass.descend_of_opened entered]
        exact congrArg (· + 1) (keeps r inner)

theorem levels_foldl_walkField (keeps : ∀ r s, (walkInner r s).1.entries.levels = r.entries.levels)
    (fs : List Schema.Field) (state : Entries × σ) :
    (fs.foldl (walkField p walkInner) state).1.levels = state.1.levels := by
  induction fs generalizing state with
  | nil => rfl
  | cons f fs ih => rw [List.foldl_cons, ih, levels_walkField keeps]

theorem levels_walkWithin (p : Pass σ) (n : Nat) (r : Record) (s : σ) :
    (r.walkWithin p n s).1.entries.levels = r.entries.levels := by
  induction n generalizing r s with
  | zero => rfl
  | succ n ih => exact levels_foldl_walkField ih _ _

theorem walkField_congr (state : Entries × σ) (f : Schema.Field)
    (agree : ∀ r, r.entries.levels < state.1.levels → walkInner r = walkInner' r) :
    walkField p walkInner state f = walkField p walkInner' state f := by
  obtain ⟨entries, s⟩ := state
  cases held : entries.get? f.id with
  | none => rw [walkField_of_absent held, walkField_of_absent held]
  | some v =>
    rw [walkField_of_held held, walkField_of_held held]
    cases v with
    | scalar x => rfl
    | record r => rw [Value.walk, Value.walk, agree r (Entries.levels_le_of_get? held)]

theorem foldl_walkField_congr (keeps : ∀ r s, (walkInner r s).1.entries.levels = r.entries.levels)
    (fs : List Schema.Field) (state : Entries × σ)
    (agree : ∀ r, r.entries.levels < state.1.levels → walkInner r = walkInner' r) :
    fs.foldl (walkField p walkInner) state = fs.foldl (walkField p walkInner') state := by
  induction fs generalizing state with
  | nil => rfl
  | cons f fs ih =>
    rw [List.foldl_cons, List.foldl_cons, ← walkField_congr state f agree]
    refine ih _ fun r shallow => agree r ?_
    rwa [levels_walkField keeps] at shallow

/-- Any bound beyond the depth of a record gives the same walk. -/
theorem walkWithin_congr (p : Pass σ) {n m : Nat} {r : Record} (hn : r.entries.levels < n)
    (hm : r.entries.levels < m) : r.walkWithin p n = r.walkWithin p m := by
  induction n generalizing m r with
  | zero => exact absurd hn (Nat.not_lt_zero _)
  | succ n ih =>
    cases m with
    | zero => exact absurd hm (Nat.not_lt_zero _)
    | succ m =>
      funext s
      have fields := foldl_walkField_congr (p := p) (levels_walkWithin p n) r.schema.fields
        (r.entries, p.start r.schema.header s) fun inner shallow =>
          ih (Nat.lt_of_lt_of_le shallow (Nat.le_of_lt_succ hn))
            (Nat.lt_of_lt_of_le shallow (Nat.le_of_lt_succ hm))
      rw [walkWithin, walkWithin, fields]

def walkFields (p : Pass σ) (fs : List Schema.Field) (state : Entries × σ) : Entries × σ :=
  fs.foldl (walkField p (walk p)) state

@[simp]
theorem walkFields_nil (p : Pass σ) (state : Entries × σ) : walkFields p [] state = state := rfl

@[simp]
theorem walkFields_cons (p : Pass σ) (f : Schema.Field) (fs : List Schema.Field)
    (state : Entries × σ) :
    walkFields p (f :: fs) state = walkFields p fs (walkField p (walk p) state f) := rfl

/-- A walk over a record walks over its fields, whatever its depth. -/
theorem walk_eq (p : Pass σ) (r : Record) (s : σ) :
    r.walk p s =
      ({ r with entries :=
          (walkFields p r.schema.fields (r.entries, p.start r.schema.header s)).1 },
        p.finish (walkFields p r.schema.fields (r.entries, p.start r.schema.header s)).2) := by
  have fields := foldl_walkField_congr (p := p) (levels_walkWithin p r.entries.levels)
    r.schema.fields (r.entries, p.start r.schema.header s) fun inner shallow =>
      walkWithin_congr p shallow (Nat.lt_succ_self inner.entries.levels)
  rw [walk, walkWithin, fields]
  rfl

theorem get?_walkField (p : Pass σ) (state : Entries × σ) {f : Schema.Field} {i : UInt32}
    (other : f.id ≠ i) :
    (walkField p walkInner state f).1.get? i = state.1.get? i := by
  obtain ⟨entries, s⟩ := state
  cases held : entries.get? f.id with
  | none => rw [walkField_of_absent held]
  | some v =>
    rw [walkField_of_held held]
    exact Entries.get?_insert_of_ne other _ _

theorem get?_walkFields (p : Pass σ) {fs : List Schema.Field} (state : Entries × σ) {i : UInt32}
    (other : i ∉ fs.map (·.id)) : (walkFields p fs state).1.get? i = state.1.get? i := by
  induction fs generalizing state with
  | nil => rfl
  | cons f fs ih =>
    simp only [List.map_cons, List.mem_cons, not_or] at other
    rw [walkFields_cons, ih _ other.2, get?_walkField p state (Ne.symm other.1)]

/-- In a walk that never changes its state, a field keeps its value when the walk over that field
alone keeps it. -/
theorem get?_walkFields_of_steady {fs : List Schema.Field} {s : σ}
    (steady : ∀ f ∈ fs, ∀ entries, (walkField p (walk p) (entries, s) f).2 = s)
    (distinct : (fs.map (·.id)).Nodup) (mem : f ∈ fs) {v? : Option Value}
    (kept : ∀ entries : Entries, entries.get? f.id = v? →
      (walkField p (walk p) (entries, s) f).1.get? f.id = v?)
    (held : entries.get? f.id = v?) : (walkFields p fs (entries, s)).1.get? f.id = v? := by
  induction fs generalizing entries with
  | nil => cases mem
  | cons g fs ih =>
    rw [List.map_cons, List.nodup_cons] at distinct
    rw [List.forall_mem_cons] at steady
    have same : walkField p (walk p) (entries, s) g =
        ((walkField p (walk p) (entries, s) g).1, s) := Prod.ext rfl (steady.1 entries)
    rw [walkFields_cons, same]
    rcases List.mem_cons.1 mem with rfl | mem
    · rw [get?_walkFields p _ distinct.1]
      exact kept entries held
    · have other := ne_of_mem_of_not_mem (List.mem_map_of_mem mem) distinct.1
      exact ih steady.2 distinct.2 mem ((get?_walkField p _ other.symm).trans held)

end Record

end MessageCodec
