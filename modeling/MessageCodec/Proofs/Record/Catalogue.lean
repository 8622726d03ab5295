import MessageCodec.Proofs.Declarations.Parts
import MessageCodec.Proofs.Record.Capture

/-! The catalogue of a captured message. Every nested capture brings the schemas of its own
catalogue, and of the schemas with one long name the first is kept. The catalogue has schemas of
the parts of the message only, and one for each long name among them. -/

namespace MessageCodec

open Schema (Catalogue)

namespace Message

def schema (m : Message) : Schema.Message :=
  { Capture.schemaOf m.header with fields := m.fields.declared }

end Message

namespace Capture

section Distinct

variable {c ms : Catalogue} {s : Schema.Message}

theorem mem_of_mem_distinct (mem : s ∈ distinct c ms) : s ∈ c ∨ s ∈ ms := by
  induction ms generalizing c with
  | nil => exact .inl mem
  | cons m ms ih =>
    have later := ih mem
    split at later <;> grind

theorem subset_distinct (c ms : Catalogue) : c ⊆ distinct c ms := by
  induction ms generalizing c with
  | nil => exact List.Subset.refl c
  | cons m ms ih =>
    refine List.Subset.trans ?_ (ih _)
    split
    · exact List.Subset.refl c
    · exact List.subset_append_left c [m]

/-- No long name is lost. -/
theorem exists_mem_distinct (mem : s ∈ ms) :
    ∃ t ∈ distinct c ms, t.longName = s.longName := by
  induction ms generalizing c with
  | nil => cases mem
  | cons m ms ih =>
    rcases List.mem_cons.1 mem with rfl | mem
    · rw [distinct]
      split
      · rename_i known
        obtain ⟨t, among, same⟩ := List.any_eq_true.1 known
        exact ⟨t, subset_distinct c ms among, by simpa using same⟩
      · exact ⟨s, subset_distinct _ ms (by simp), rfl⟩
    · exact ih mem

theorem nodup_distinct (nodup : (c.map (·.longName)).Nodup) (ms : Catalogue) :
    ((distinct c ms).map (·.longName)).Nodup := by
  induction ms generalizing c with
  | nil => exact nodup
  | cons m ms ih =>
    refine ih ?_
    split
    · exact nodup
    · rename_i fresh
      rw [List.map_append, List.map_singleton, ← List.concat_eq_append, List.nodup_concat]
      refine ⟨fun mem => fresh ?_, nodup⟩
      obtain ⟨t, among, same⟩ := List.mem_map.1 mem
      exact List.any_eq_true.2 ⟨t, among, by simpa using same⟩

end Distinct

/-- The captures of nested messages bring their catalogues in the order of the fields. -/
theorem nested_walk_pass (fs : Fields) (c : Capture) :
    (fs.walk pass c).2.nested = c.nested ++ fs.held.flatMap fun x => x.2.capture.catalogue := by
  induction fs generalizing c with
  | nil => exact (List.append_nil _).symm
  | scalar tag s rest ih => exact ih (pass.scalar tag s.type s.value c).2
  | nested tag header inner rest _ ih =>
    have brought : (pass.leave tag (ofFields header inner) c).nested =
        c.nested ++ (Message.mk header inner).capture.catalogue := rfl
    refine (ih (pass.leave tag (ofFields header inner) c)).trans ?_
    rw [brought, List.append_assoc, Fields.held, List.flatMap_cons]

theorem catalogue_capture (m : Message) :
    m.capture.catalogue =
      distinct [m.schema] (m.fields.held.flatMap fun x => x.2.capture.catalogue) := by
  have nested := nested_walk_pass m.fields (pass.start m.header empty)
  rw [capture_eq, record, schema_ofFields]
  exact congrArg (distinct [m.schema]) nested

variable {m p : Message} {s : Schema.Message}

theorem exists_part_of_mem (mem : s ∈ m.capture.catalogue) : ∃ p ∈ m.parts, p.schema = s := by
  induction m using Message.held_induction with
  | step m ih =>
    rw [catalogue_capture] at mem
    rcases mem_of_mem_distinct mem with own | mem
    · exact ⟨m, m.self_mem_parts, (List.mem_singleton.1 own).symm⟩
    · obtain ⟨x, held, mem⟩ := List.mem_flatMap.1 mem
      obtain ⟨p, part, same⟩ := ih x held mem
      exact ⟨p, List.mem_append_left _ (Fields.parts_subset_inner held part), same⟩

theorem exists_mem_of_part (part : p ∈ m.parts) :
    ∃ s ∈ m.capture.catalogue, s.longName = p.schema.longName := by
  induction m using Message.held_induction with
  | step m ih =>
    rw [catalogue_capture]
    rw [Message.parts, List.mem_append, List.mem_singleton] at part
    rcases part with inside | rfl
    · obtain ⟨x, held, part⟩ := Fields.exists_held_of_mem_inner inside
      obtain ⟨s, mem, same⟩ := ih x held part
      have brought : s ∈ m.fields.held.flatMap fun x => x.2.capture.catalogue :=
        List.mem_flatMap.2 ⟨x, held, mem⟩
      obtain ⟨t, kept, same'⟩ := exists_mem_distinct brought
      exact ⟨t, kept, same'.trans same⟩
    · exact ⟨p.schema, subset_distinct _ _ (by simp), rfl⟩

theorem names_catalogue_nodup (m : Message) : (m.capture.catalogue.map (·.longName)).Nodup := by
  rw [catalogue_capture]
  exact nodup_distinct (by simp) _

/-- Where parts of one long name have one schema, the catalogue has the schemas of all parts. -/
theorem mem_catalogue (alike : ∀ p ∈ m.parts, ∀ q ∈ m.parts,
    p.schema.longName = q.schema.longName → p.schema = q.schema) :
    s ∈ m.capture.catalogue ↔ ∃ p ∈ m.parts, p.schema = s := by
  refine ⟨exists_part_of_mem, ?_⟩
  rintro ⟨p, part, rfl⟩
  obtain ⟨s, mem, same⟩ := exists_mem_of_part part
  obtain ⟨q, part', rfl⟩ := exists_part_of_mem mem
  rwa [← alike q part' p part same]

end Capture

end MessageCodec
