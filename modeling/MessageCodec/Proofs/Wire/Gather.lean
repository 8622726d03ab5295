import MessageCodec.Proofs.Wire.Length
import MessageCodec.Record.Basic

/-! Payloads of declared fields. What a record leaves in its binary form is a table with
at most one payload for each field, in the order of the schema. When each of them stands
for a payload of some table and is no longer, the whole is no longer than that table. -/

namespace MessageCodec

namespace Wire

/-- What an entry leaves in the binary form. -/
def Payload.ofContent? : Content → Option Payload
  | .scalar s => ofField? s
  | .message m => m.fields.table.payload?

namespace Table

/-- The payloads of fields under their identifiers, in order. -/
def gather (p? : Schema.Field → Option Payload) : List Schema.Field → Table
  | [] => []
  | f :: fs => front f.id (p? f) (gather p? fs)

variable {p? : Schema.Field → Option Payload} {fs : List Schema.Field}

theorem gather_congr {p?' : Schema.Field → Option Payload} (same : ∀ f ∈ fs, p? f = p?' f) :
    gather p? fs = gather p?' fs := by
  induction fs with
  | nil => rfl
  | cons f fs ih =>
    rw [List.forall_mem_cons] at same
    rw [gather, gather, same.1, ih same.2]

theorem mem_ids_of_mem_gather {i : UInt32} (h : i ∈ (gather p? fs).map Prod.fst) :
    i ∈ fs.map (·.id) := by
  induction fs with
  | nil => exact h
  | cons f fs ih => exact List.mem_cons.2 ((mem_ids_front h).imp_right ih)

theorem nodup_gather (distinct : (fs.map (·.id)).Nodup) :
    ((gather p? fs).map Prod.fst).Nodup := by
  induction fs with
  | nil => exact List.nodup_nil
  | cons f fs ih =>
    rw [List.map_cons, List.nodup_cons] at distinct
    exact nodup_ids_front (fun mem => distinct.1 (mem_ids_of_mem_gather mem)) (ih distinct.2) _

theorem find?_gather (distinct : (fs.map (·.id)).Nodup) :
    ∀ f ∈ fs, (gather p? fs).find? f.id = p? f := by
  induction fs with
  | nil => simp
  | cons f fs ih =>
    rw [List.map_cons, List.nodup_cons] at distinct
    rw [List.forall_mem_cons]
    constructor
    · exact find?_front_self (fun mem => distinct.1 (mem_ids_of_mem_gather mem)) _
    · intro g mem
      have other := ne_of_mem_of_not_mem (List.mem_map_of_mem mem) distinct.1
      rw [gather, find?_front_of_ne other, ih distinct.2 g mem]

theorem mem_gather {entry : UInt32 × Payload} (h : entry ∈ gather p? fs) :
    ∃ f ∈ fs, p? f = some entry.2 := by
  induction fs with
  | nil => cases h
  | cons f fs ih =>
    rw [gather] at h
    cases held : p? f with
    | none =>
      rw [held] at h
      obtain ⟨g, mem, kept⟩ := ih h
      exact ⟨g, List.mem_cons_of_mem _ mem, kept⟩
    | some p =>
      rw [held] at h
      rcases List.mem_cons.1 h with rfl | h
      · exact ⟨f, List.mem_cons_self .., held⟩
      · obtain ⟨g, mem, kept⟩ := ih h
        exact ⟨g, List.mem_cons_of_mem _ mem, kept⟩

/-- Payloads in place of those of a table take no more room than the table. -/
theorem length_bytes_gather_le (distinct : (fs.map (·.id)).Nodup) (table : Table)
    (shorter : ∀ f ∈ fs, ∀ q, p? f = some q → ∃ p, table.find? f.id = some p ∧ q.Shortens p) :
    (gather p? fs).bytes.length ≤ table.bytes.length := by
  induction fs generalizing table with
  | nil => exact Nat.zero_le _
  | cons f fs ih =>
    rw [List.map_cons, List.nodup_cons] at distinct
    rw [List.forall_mem_cons] at shorter
    rw [gather]
    cases held : p? f with
    | none => exact ih distinct.2 table shorter.2
    | some q =>
      obtain ⟨p, found, shortens⟩ := shorter.1 q held
      obtain ⟨before, behind, rfl, others⟩ := split_of_find? found
      -- the other fields find their payloads in what is left of the table
      have rest := ih distinct.2 (before ++ behind) fun g mem r kept => by
        obtain ⟨p, found, shortens⟩ := shorter.2 g mem r kept
        have other := ne_of_mem_of_not_mem (List.mem_map_of_mem mem) distinct.1
        exact ⟨p, (others g.id other).trans found, shortens⟩
      have own := shortens.length
      rw [bytes_append, List.length_append] at rest
      rw [front, bytes_cons, bytes_append, bytes_cons, record, record, shortens.type]
      simp only [List.length_append]
      omega

theorem bytes_eq_nil {table : Table} : table.bytes = [] ↔ table = [] := by
  rw [← List.isEmpty_iff, isEmpty_bytes, List.isEmpty_iff]

theorem payload?_eq_ofField? (table : Table) :
    table.payload? = Payload.ofField? ⟨.bytes, table.bytes⟩ := by
  have empty : Scalar.isDefault ⟨.bytes, table.bytes⟩ = table.isEmpty := table.isEmpty_bytes
  rw [payload?, Payload.ofField?, empty]
  rfl

end Table

theorem table_arrange (content? : UInt32 → Option Content) (fs : List Schema.Field) :
    (Fields.arrange content? fs).table =
      .gather (fun f => (content? f.id).bind Payload.ofContent?) fs := by
  induction fs with
  | nil => rfl
  | cons f fs ih =>
    rw [Fields.arrange, Table.gather]
    cases content? f.id with
    | none => exact ih
    | some content =>
      cases content with
      | scalar s => rw [Fields.table, ih]; rfl
      | message m => rw [Fields.table, ih]; rfl

end Wire

end MessageCodec
