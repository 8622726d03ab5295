import Mathlib.Data.List.Nodup
import MessageCodec.Schema.Specification

/-! The check for names and identifiers that are used twice. It finds nothing exactly
when all of them are distinct, apart from the identifier zero of unnumbered messages. -/

namespace MessageCodec.Schema

/-- No message identifier but zero, no long name and, within a message, no field identifier and
no field name is used twice. -/
structure Unambiguous (ms : List Message) : Prop where
  ids : ((ms.map (·.id)).filter (· ≠ 0)).Nodup
  names : (ms.map (·.longName)).Nodup
  fieldIds : ∀ m ∈ ms, (m.fields.map (·.id)).Nodup
  fieldNames : ∀ m ∈ ms, (m.fields.map (·.name)).Nodup

theorem eq_of_id {ms : List Message} (ids : ((ms.map (·.id)).filter (· ≠ 0)).Nodup)
    {m m' : Message} (mem : m ∈ ms) (mem' : m' ∈ ms) (numbered : m.id ≠ 0) (same : m'.id = m.id) :
    m' = m := by
  have apart : ((ms.filter (·.id ≠ 0)).map (·.id)).Nodup := by
    rw [List.filter_map] at ids
    exact ids
  exact List.inj_on_of_nodup_map apart
    (List.mem_filter.2 ⟨mem', by simpa [same] using numbered⟩)
    (List.mem_filter.2 ⟨mem, by simpa using numbered⟩) same

theorem Unambiguous.perm {ms ms' : List Message} (clean : Unambiguous ms) (perm : ms.Perm ms') :
    Unambiguous ms' where
  ids := ((perm.map _).filter _).nodup_iff.1 clean.ids
  names := (perm.map _).nodup_iff.1 clean.names
  fieldIds m mem := clean.fieldIds m (perm.mem_iff.2 mem)
  fieldNames m mem := clean.fieldNames m (perm.mem_iff.2 mem)

theorem unambiguous_nil : Unambiguous [] := by constructor <;> simp

theorem unambiguous_cons {m : Message} {ms : List Message} :
    Unambiguous (m :: ms) ↔
      (m.fields.map (·.id)).Nodup ∧ (m.fields.map (·.name)).Nodup ∧ Unambiguous ms ∧
        (m.id ≠ 0 → m.id ∉ ms.map (·.id)) ∧ m.longName ∉ ms.map (·.longName) := by
  constructor
  · rintro ⟨ids, names, fieldIds, fieldNames⟩
    rw [List.map_cons, List.nodup_cons] at names
    rw [List.forall_mem_cons] at fieldIds fieldNames
    refine ⟨fieldIds.1, fieldNames.1, ⟨?_, names.2, fieldIds.2, fieldNames.2⟩, ?_, names.1⟩
    · rw [List.map_cons, List.filter_cons] at ids
      split at ids
      · exact (List.nodup_cons.1 ids).2
      · exact ids
    · intro numbered mem
      rw [List.map_cons, List.filter_cons_of_pos (by simpa using numbered)] at ids
      exact (List.nodup_cons.1 ids).1 (List.mem_filter.2 ⟨mem, by simpa using numbered⟩)
  · rintro ⟨fieldIds, fieldNames, rest, id, name⟩
    refine ⟨?_, List.nodup_cons.2 ⟨name, rest.names⟩, List.forall_mem_cons.2 ⟨fieldIds, rest.3⟩,
      List.forall_mem_cons.2 ⟨fieldNames, rest.4⟩⟩
    rw [List.map_cons, List.filter_cons]
    split
    · rename_i numbered
      exact List.nodup_cons.2 ⟨fun mem => id (by simpa using numbered) (List.mem_filter.1 mem).1,
        rest.ids⟩
    · exact rest.ids

theorem fieldConflict?_eq_none (message : String) (ids : List UInt32) (names : List String)
    (fs : List Field) :
    fieldConflict? message ids names fs = none ↔
      (fs.map (·.id)).Nodup ∧ (fs.map (·.name)).Nodup ∧
        (∀ f ∈ fs, f.id ∉ ids) ∧ ∀ f ∈ fs, f.name ∉ names := by
  induction fs generalizing ids names with
  | nil => simp [fieldConflict?]
  | cons f fs ih =>
    rw [fieldConflict?]
    by_cases id : f.id ∈ ids
    · simp [id]
    by_cases name : f.name ∈ names
    · simp [id, name]
    rw [if_neg id, if_neg name, ih, List.map_cons, List.map_cons, List.nodup_cons,
      List.nodup_cons, List.forall_mem_cons, List.forall_mem_cons]
    -- what the accumulators hold beyond those of `f :: fs` is what `f` itself adds
    grind

theorem conflict?_eq_none_of_seen (ids : List Int32) (names : List String) (ms : List Message) :
    conflict? ids names ms = none ↔
      Unambiguous ms ∧ (∀ m ∈ ms, m.id ≠ 0 → m.id ∉ ids) ∧ ∀ m ∈ ms, m.longName ∉ names := by
  induction ms generalizing ids names with
  | nil => simp [conflict?, unambiguous_nil]
  | cons m ms ih =>
    rw [conflict?]
    by_cases id : m.id ≠ 0 ∧ m.id ∈ ids
    · simp [id]
    by_cases name : m.longName ∈ names
    · rw [if_neg id, if_pos name]
      simp [name]
    rw [if_neg id, if_neg name, Option.or_eq_none_iff, fieldConflict?_eq_none, ih,
      unambiguous_cons, List.forall_mem_cons, List.forall_mem_cons]
    grind

theorem conflict?_eq_none (ms : List Message) : conflict? [] [] ms = none ↔ Unambiguous ms := by
  simp [conflict?_eq_none_of_seen]

theorem unambiguous_of_parse {text : String} {ms : List Message} (h : parse text = .ok ms) :
    Unambiguous ms := by
  rw [parse] at h
  split at h
  · cases h
  · split at h
    · cases h
    · rename_i clean
      cases h
      exact (conflict?_eq_none _).1 clean

/-- Messages can be compared and errors cannot, so what a fixed text is read as is decided without
the error. -/
theorem parse_of_toOption {text : String} {ms : List Message}
    (read : (parse text).toOption = some ms) : parse text = .ok ms := by
  cases parsed : parse text with
  | error e => simp [parsed, Except.toOption] at read
  | ok ms' => simpa [parsed, Except.toOption] using read

end MessageCodec.Schema
