import MessageCodec.Proofs.Wire.Encoder

/-! Scanning a binary form. When the identifiers are distinct and the lengths can be
written, scanning the records of a table gives the table back and nothing is passed
over. -/

namespace MessageCodec

namespace Wire

namespace Table

theorem add_item {table : Table} {id : UInt32} {p : Payload} (fresh : id ∉ table.map Prod.fst) :
    table.add ⟨Key.encode id p.type, p⟩ = table ++ [(id, p)] := by
  have absent : table.any (·.1 == id) = false := by
    rw [List.any_eq_false]
    intro entry mem
    simp only [beq_iff_eq]
    rintro rfl
    exact fresh (List.mem_map_of_mem mem)
  simp only [add, Key.id?_encode, absent, Bool.false_eq_true, ↓reduceIte]

theorem foldl_add_items (before table : Table) (distinct : ((before ++ table).map Prod.fst).Nodup) :
    table.items.foldl add before = before ++ table := by
  induction table generalizing before with
  | nil => simp [items]
  | cons entry table ih =>
    obtain ⟨id, p⟩ := entry
    have fresh : id ∉ before.map Prod.fst := by
      rw [List.map_append, List.nodup_append] at distinct
      intro mem
      exact distinct.2.2 id mem id (by simp) rfl
    have assoc : before ++ (id, p) :: table = before ++ [(id, p)] ++ table := by simp
    rw [assoc] at distinct ⊢
    rw [← ih _ distinct, ← add_item fresh]
    rfl

/-- The first payloads of records with distinct identifiers are those of the records. -/
theorem ofItems_items {table : Table} (distinct : (table.map Prod.fst).Nodup) :
    ofItems table.items = table :=
  foldl_add_items [] table distinct

theorem wellFormed_items {table : Table} (fits : ∀ entry ∈ table, entry.2.Fits) :
    ∀ item ∈ table.items, item.WellFormed := by
  intro item mem
  obtain ⟨entry, found, rfl⟩ := List.mem_map.1 mem
  exact ⟨Key.typeNumber_encode _ _, fits entry found⟩

/-- A length in a binary form that is short enough can be written. -/
theorem fits_of_length_bytes {table : Table} (h : table.bytes.length < UInt64.size) :
    ∀ entry ∈ table, entry.2.Fits := by
  induction table with
  | nil => simp
  | cons entry table ih =>
    obtain ⟨id, p⟩ := entry
    rw [bytes_cons, record, List.length_append, List.length_append] at h
    rw [List.forall_mem_cons]
    refine ⟨?_, ih (by omega)⟩
    cases p with
    | delimited bs =>
      rw [Payload.bytes, delimit, List.length_append] at h
      simp only [Payload.Fits]
      omega
    | _ => trivial

theorem length_bytes_le_front (id : UInt32) (p? : Option Payload) (table : Table) :
    table.bytes.length ≤ (front id p? table).bytes.length := by
  cases p? with
  | none => exact Nat.le_refl _
  | some p => rw [front, bytes_cons, List.length_append]; omega

theorem payload?_eq_none {table : Table} : table.payload? = none ↔ table.isEmpty := by
  simp [payload?]

/-- The binary form of a nested message is no longer than that of the message around it. -/
theorem length_bytes_le_payload (id : UInt32) (inner table : Table) :
    inner.bytes.length ≤ (front id inner.payload? table).bytes.length := by
  cases h : inner.isEmpty with
  | true =>
    have : inner.bytes = [] := List.isEmpty_iff.1 (inner.isEmpty_bytes.trans h)
    simp [this]
  | false =>
    have present : inner.payload? = some (.delimited inner.bytes) := by simp [payload?, h]
    rw [present, front, bytes_cons, record, Payload.bytes, delimit]
    simp only [List.length_append]
    omega

theorem isEmpty_front {id : UInt32} {p? : Option Payload} {table : Table}
    (h : (front id p? table).isEmpty) : p? = none ∧ table.isEmpty := by
  cases p? with
  | none => exact ⟨rfl, h⟩
  | some p => cases h

theorem mem_ids_front {id wanted : UInt32} {p? : Option Payload} {table : Table}
    (h : wanted ∈ (front id p? table).map Prod.fst) : wanted = id ∨ wanted ∈ table.map Prod.fst := by
  cases p? with
  | none => exact .inr h
  | some p => exact List.mem_cons.1 h

theorem nodup_ids_front {id : UInt32} {table : Table} (fresh : id ∉ table.map Prod.fst)
    (distinct : (table.map Prod.fst).Nodup) (p? : Option Payload) :
    ((front id p? table).map Prod.fst).Nodup := by
  cases p? with
  | none => exact distinct
  | some p => exact List.nodup_cons.2 ⟨fresh, distinct⟩

theorem find?_eq_none {table : Table} {id : UInt32} (h : id ∉ table.map Prod.fst) :
    table.find? id = none := by
  rw [find?, List.lookup_eq_none_iff]
  intro entry mem
  simp only [bne_iff_ne]
  rintro rfl
  exact h (List.mem_map_of_mem mem)

theorem find?_front_self {id : UInt32} {table : Table} (fresh : id ∉ table.map Prod.fst)
    (p? : Option Payload) : (front id p? table).find? id = p? := by
  cases p? with
  | none => exact find?_eq_none fresh
  | some p => simp [front, find?]

theorem find?_front_of_ne {id wanted : UInt32} (h : wanted ≠ id) (p? : Option Payload)
    (table : Table) : (front id p? table).find? wanted = table.find? wanted := by
  cases p? with
  | none => rfl
  | some p => simp [front, find?, List.lookup_cons, beq_eq_false_iff_ne.2 h]

end Table

/-- Scanning the records of a table gives the table, and nothing is passed over. -/
theorem Decoding.ofBytes_bytes_of_fits (depth : Nat) {table : Table}
    (distinct : (table.map Prod.fst).Nodup) (fits : ∀ entry ∈ table, entry.2.Fits) :
    Decoding.ofBytes depth table.bytes = ⟨table, [], .none, depth⟩ := by
  have well := Table.wellFormed_items fits
  have scanned : Item.readAll (.ofBytes table.bytes) = (table.items, none) := by
    have read := Item.readAll_append table.bytes [] table.items well
    rw [Item.readAll_nil, List.append_nil, List.append_nil, ← Table.bytes_eq_flatMap] at read
    exact read
  have known : table.items.countP (fun item => (Key.id? item.key).isNone) = 0 := by
    rw [List.countP_eq_zero]
    intro item mem
    obtain ⟨entry, -, rfl⟩ := List.mem_map.1 mem
    simp [Key.id?_encode]
  simp only [Decoding.ofBytes, scanned, known, Table.ofItems_items distinct]
  rfl

/-- In a binary form that is short enough every length can be written. -/
theorem Decoding.ofBytes_bytes (depth : Nat) {table : Table}
    (distinct : (table.map Prod.fst).Nodup) (fits : table.bytes.length < UInt64.size) :
    Decoding.ofBytes depth table.bytes = ⟨table, [], .none, depth⟩ :=
  ofBytes_bytes_of_fits depth distinct (Table.fits_of_length_bytes fits)

end Wire

namespace Fields

theorem mem_ids_of_mem_table {fs : Fields} {id : UInt32} (h : id ∈ fs.table.map Prod.fst) :
    id ∈ fs.ids := by
  induction fs with
  | nil => exact h
  | scalar tag s rest ih => exact List.mem_cons.2 ((Wire.Table.mem_ids_front h).imp_right ih)
  | nested tag header inner rest _ ih =>
    exact List.mem_cons.2 ((Wire.Table.mem_ids_front h).imp_right ih)

theorem Distinct.nodup_table {fs : Fields} (h : fs.Distinct) :
    (fs.table.map Prod.fst).Nodup := by
  induction fs with
  | nil => exact List.nodup_nil
  | scalar tag s rest ih =>
    exact Wire.Table.nodup_ids_front (fun mem => h.1 (mem_ids_of_mem_table mem)) (ih h.2) _
  | nested tag header inner rest _ ih =>
    exact Wire.Table.nodup_ids_front (fun mem => h.1 (mem_ids_of_mem_table mem)) (ih h.2.2) _

end Fields

end MessageCodec
