import MessageCodec.Proofs.Wire.Scan
import MessageCodec.Proofs.Wire.Spelling

/-! Lengths of binary forms. The encoder writes every number and every record in its
shortest form, so what a scan finds never takes more room when it is written again than it
took in the buffer, and each length that was read can be written. -/

namespace MessageCodec.Wire

/-- What a read gives that is changed afterwards. -/
theorem ok_of_map_fst {ε α β γ : Type} {r : Except ε (α × γ)} {f : α → β} {b : β} {c : γ}
    (h : (r.map fun (a, c) => (f a, c)) = .ok (b, c)) : ∃ a, r = .ok (a, c) ∧ f a = b := by
  cases r with
  | error e => cases h
  | ok pair =>
    cases h
    exact ⟨pair.1, rfl, rfl⟩

namespace Varint

theorem length_numeral (n : Nat) :
    (numeral n).length = if n < 128 then 1 else (numeral (n / 128)).length + 1 := by
  rw [numeral]
  split <;> rfl

theorem length_numeral_le {n m : Nat} (h : n ≤ m) : (numeral n).length ≤ (numeral m).length := by
  induction m using Nat.strongRecOn generalizing n with
  | ind m ih =>
    rw [length_numeral n, length_numeral m]
    split
    · split <;> omega
    · rw [if_neg (by omega)]
      exact Nat.succ_le_succ (ih (m / 128) (by omega) (Nat.div_le_div_right h))

/-- No numeral of a number is shorter than the one that is written. -/
theorem length_readNumeral_le {limit n : Nat} {bs rest : Bytes}
    (h : readNumeral limit bs = .ok (n, rest)) : (numeral n).length + rest.length ≤ bs.length := by
  fun_induction readNumeral limit bs generalizing n rest with
  | case1 => cases h
  | case2 => cases h
  | case3 _ b bs small =>
    cases h
    have digit : b.toNat < 128 := UInt8.lt_iff_toNat_lt.1 small
    have one : (numeral b.toNat).length = 1 := by rw [length_numeral, if_pos digit]
    simp only [List.length_cons]
    omega
  | case4 limit b bs _ ih =>
    cases hr : readNumeral limit bs with
    | error e => simp [hr, Except.map] at h
    | ok pair =>
      simp only [hr, Except.map, Except.ok.injEq, Prod.mk.injEq] at h
      obtain ⟨rfl, rfl⟩ := h
      have behind := @ih pair.1 pair.2 (by rw [hr])
      have quotient : (b.toNat % 128 + 128 * pair.1) / 128 = pair.1 := by omega
      rw [length_numeral, quotient]
      simp only [List.length_cons]
      split <;> omega

theorem length_read_le {bs rest : Bytes} {value : UInt64} (h : read bs = .ok (value, rest)) :
    (write value).length + rest.length ≤ bs.length := by
  unfold read at h
  cases hr : readNumeral maxLength bs with
  | error e => simp [hr, Except.map] at h
  | ok pair =>
    simp only [hr, Except.map, Except.ok.injEq, Prod.mk.injEq] at h
    obtain ⟨rfl, rfl⟩ := h
    have whole := length_readNumeral_le (n := pair.1) hr
    have cut : (write (UInt64.ofNat pair.1)).length ≤ (numeral pair.1).length := by
      rw [write, UInt64.toNat_ofNat']
      exact length_numeral_le (Nat.mod_le ..)
    omega

end Varint

namespace Cursor

variable {c after : Cursor}

theorem length_varint_le {value : UInt64} (h : c.varint = .ok (value, after)) :
    (Varint.write value).length + after.rest.length ≤ c.rest.length := by
  unfold varint at h
  split at h
  · rename_i taken
    cases h
    exact Varint.length_read_le taken
  · cases h
  · cases h

theorem length_bytes_eq {n : Nat} {bs : Bytes} (h : c.bytes n = .ok (bs, after)) :
    n + after.rest.length = c.rest.length := by
  unfold bytes at h
  split at h
  · rename_i taken
    obtain ⟨whole, length⟩ := Bytes.append_of_split? taken
    cases h
    rw [← whole, List.length_append, length]
  · cases h

theorem length_u32_eq {value : UInt32} (h : c.u32 = .ok (value, after)) :
    4 + after.rest.length = c.rest.length := by
  obtain ⟨bs, taken, -⟩ := ok_of_map_fst (f := fun bs => UInt32.ofNat (Bytes.littleEndian bs)) h
  exact length_bytes_eq taken

theorem length_u64_eq {value : UInt64} (h : c.u64 = .ok (value, after)) :
    8 + after.rest.length = c.rest.length := by
  obtain ⟨bs, taken, -⟩ := ok_of_map_fst (f := fun bs => UInt64.ofNat (Bytes.littleEndian bs)) h
  exact length_bytes_eq taken

/-- The length that was read can be written, and takes no more room. -/
theorem length_delimited_le {bs : Bytes} (h : c.delimited = .ok (bs, after)) :
    bs.length < UInt64.size ∧ (delimit bs).length + after.rest.length ≤ c.rest.length := by
  unfold delimited at h
  split at h
  · cases h
  · rename_i length behind taken
    have front := length_varint_le taken
    split at h
    · rename_i split
      obtain ⟨whole, exact⟩ := Bytes.append_of_split? split
      cases h
      rw [exact]
      refine ⟨length.toNat_lt, ?_⟩
      rw [← whole, List.length_append] at front
      rw [delimit, List.length_append, exact, ← Varint.write]
      dsimp only
      omega
    · cases h

end Cursor

theorem WireType.number_of_ofNumber? {n : Nat} {type : WireType} (h : ofNumber? n = some type) :
    n = type.number := by
  unfold ofNumber? at h
  split at h <;> cases h <;> rfl

/-- A payload is read as one of the wire type that is asked for. -/
theorem Payload.read_le {c after : Cursor} {type : WireType} {p : Payload}
    (h : Payload.read c type = .ok (p, after)) :
    p.type = type ∧ p.Fits ∧ p.bytes.length + after.rest.length ≤ c.rest.length := by
  cases type with
  | varint =>
    obtain ⟨value, taken, rfl⟩ := ok_of_map_fst h
    exact ⟨rfl, trivial, Cursor.length_varint_le taken⟩
  | eightBytes =>
    obtain ⟨value, taken, rfl⟩ := ok_of_map_fst h
    refine ⟨rfl, trivial, ?_⟩
    exact Nat.le_of_eq (by rw [bytes, Bytes.length_ofLittleEndian, Cursor.length_u64_eq taken])
  | delimited =>
    obtain ⟨bs, taken, rfl⟩ := ok_of_map_fst h
    exact ⟨rfl, Cursor.length_delimited_le taken⟩
  | fourBytes =>
    obtain ⟨value, taken, rfl⟩ := ok_of_map_fst h
    refine ⟨rfl, trivial, ?_⟩
    exact Nat.le_of_eq (by rw [bytes, Bytes.length_ofLittleEndian, Cursor.length_u32_eq taken])

namespace Item

theorem read_le {c after : Cursor} {item : Item} (h : read c = .ok (item, after)) :
    item.WellFormed ∧ item.bytes.length + after.rest.length ≤ c.rest.length := by
  unfold read at h
  split at h
  · cases h
  · rename_i key behind taken
    split at h
    · cases h
    · rename_i type known
      cases hp : Payload.read behind type with
      | error e => simp [hp, Except.map] at h
      | ok pair =>
        obtain ⟨p, rest⟩ := pair
        simp only [hp, Except.map, Except.ok.injEq, Prod.mk.injEq] at h
        obtain ⟨rfl, rfl⟩ := h
        have front := Cursor.length_varint_le taken
        obtain ⟨rfl, fits, length⟩ := Payload.read_le hp
        refine ⟨⟨WireType.number_of_ofNumber? known, fits⟩, ?_⟩
        rw [bytes, List.length_append]
        dsimp only
        omega

/-- The records that a scan finds are well formed, and take no more room than the buffer. -/
theorem readAll_le (c : Cursor) :
    (∀ item ∈ (readAll c).1, item.WellFormed) ∧
      ((readAll c).1.flatMap bytes).length ≤ c.rest.length := by
  induction length : c.rest.length using Nat.strongRecOn generalizing c with
  | ind n ih =>
    subst length
    rw [readAll]
    split
    · simp
    · split
      · simp
      · rename_i item after taken
        obtain ⟨well, first⟩ := read_le taken
        obtain ⟨wells, behind⟩ := ih _ (length_read taken) after rfl
        refine ⟨List.forall_mem_cons.2 ⟨well, wells⟩, ?_⟩
        rw [List.flatMap_cons, List.length_append]
        omega

end Item

namespace Key

theorem encode_of_id? {key : UInt64} {id : UInt32} {type : WireType} (own : id? key = some id)
    (known : typeNumber key = type.number) : encode id type = key := by
  rw [id?, Option.ite_none_right_eq_some, Option.some.injEq] at own
  obtain ⟨within, rfl⟩ := own
  have number : (UInt32.ofNat (fieldNumber key)).toNat = fieldNumber key := by
    rw [UInt32.toNat_ofNat']
    exact Nat.mod_eq_of_lt within
  rw [← UInt64.toNat_inj, toNat_encode, number, ← known]
  exact Nat.div_add_mod key.toNat 8

end Key

namespace Table

theorem bytes_append (table table' : Table) :
    bytes (table ++ table') = table.bytes ++ table'.bytes := by
  rw [bytes, records, List.map_append, List.flatten_append]
  rfl

variable {table : Table}

theorem length_bytes_add (table : Table) {item : Item} (well : item.WellFormed) :
    (table.add item).bytes.length ≤ table.bytes.length + item.bytes.length := by
  rw [add]
  cases own : Key.id? item.key with
  | none => exact Nat.le_add_right ..
  | some id =>
    dsimp only
    split
    · exact Nat.le_add_right ..
    · have same : record id item.payload.type item.payload.bytes = item.bytes := by
        rw [record, Key.encode_of_id? own well.type]
        rfl
      rw [bytes_append, bytes_cons, same, List.length_append, List.length_append]
      exact Nat.le_refl _

/-- The first payloads of records take no more room than all records. -/
theorem length_bytes_foldl_add (table : Table) {items : List Item}
    (well : ∀ item ∈ items, item.WellFormed) : (items.foldl add table).bytes.length ≤
      table.bytes.length + (items.flatMap Item.bytes).length := by
  induction items generalizing table with
  | nil => exact Nat.le_refl _
  | cons item items ih =>
    rw [List.forall_mem_cons] at well
    have first := length_bytes_add table well.1
    have behind := ih (table.add item) well.2
    rw [List.foldl_cons, List.flatMap_cons, List.length_append]
    omega

theorem fits_add {item : Item} (well : item.WellFormed) (fits : ∀ entry ∈ table, entry.2.Fits) :
    ∀ entry ∈ table.add item, entry.2.Fits := by
  rw [add]
  cases Key.id? item.key with
  | none => exact fits
  | some id =>
    dsimp only
    split
    · exact fits
    · intro entry mem
      rcases List.mem_append.1 mem with mem | last
      · exact fits entry mem
      · obtain rfl := List.mem_singleton.1 last
        exact well.fits

theorem fits_foldl_add {items : List Item} (well : ∀ item ∈ items, item.WellFormed)
    (fits : ∀ entry ∈ table, entry.2.Fits) : ∀ entry ∈ items.foldl add table, entry.2.Fits := by
  induction items generalizing table with
  | nil => exact fits
  | cons item items ih =>
    rw [List.forall_mem_cons] at well
    exact ih well.2 (fits_add well.1 fits)

/-- The entry of an identifier and what stands around it. -/
theorem split_of_find? {id : UInt32} {p : Payload} (found : table.find? id = some p) :
    ∃ front back : Table, table = front ++ (id, p) :: back ∧
      ∀ i ≠ id, (front ++ back).find? i = table.find? i := by
  obtain ⟨front, back, rfl, -⟩ := List.lookup_eq_some_iff.1 found
  refine ⟨front, back, rfl, fun i other => ?_⟩
  simp [find?, List.lookup_append, List.lookup_cons, beq_eq_false_iff_ne.2 other]

end Table

namespace Payload

/-- A payload in place of another one: of the same wire type, no longer, and with a length that can
be written if the other one has. -/
structure Shortens (q p : Payload) : Prop where
  type : q.type = p.type
  length : q.bytes.length ≤ p.bytes.length
  fits : p.Fits → q.Fits

theorem Shortens.refl (p : Payload) : p.Shortens p :=
  ⟨rfl, Nat.le_refl _, id⟩

theorem Shortens.trans {p q r : Payload} (h : p.Shortens q) (h' : q.Shortens r) : p.Shortens r :=
  ⟨h.type.trans h'.type, Nat.le_trans h.length h'.length, fun fits => h.fits (h'.fits fits)⟩

theorem shortens_varint {n : Nat} {value : UInt64} (h : n ≤ value.toNat) :
    (varint (.ofNat n)).Shortens (varint value) := by
  refine ⟨rfl, ?_, id⟩
  rw [bytes_varint (Nat.lt_of_le_of_lt h value.toNat_lt)]
  exact Varint.length_numeral_le h

theorem shortens_delimited {bs bs' : Bytes} (h : bs.length ≤ bs'.length) :
    (delimited bs).Shortens (delimited bs') := by
  refine ⟨rfl, ?_, Nat.lt_of_le_of_lt h⟩
  rw [bytes, bytes, delimit, delimit, List.length_append, List.length_append]
  exact Nat.add_le_add (Varint.length_numeral_le h) h

/-- The payload of a value is no longer than the one that the value was read from. -/
theorem shortens_of_fit? {t : ScalarType} {v : t.Value} {p q : Payload} (fit : fit? t p = some v)
    (left : ofScalar? t v = some q) : q.Shortens p := by
  cases t with
  | bool =>
    cases p with
    | varint raw =>
      cases fit
      cases left
      refine shortens_varint ?_
      by_cases zero : raw = 0
      · simp [zero]
      · have pos : raw.toNat ≠ 0 := mt (fun h => UInt64.toNat_inj.1 h) zero
        exact Nat.le_trans (Bool.toNat_le _) (Nat.pos_of_ne_zero pos)
    | _ => cases fit
  | char =>
    cases p with
    | varint raw =>
      cases fit
      rw [ofScalar?, Option.ite_none_right_eq_some, Option.some.injEq] at left
      obtain ⟨-, rfl⟩ := left
      refine shortens_varint ?_
      rw [toNat_charOfNat (Nat.mod_lt _ (by decide))]
      exact Nat.mod_le ..
    | _ => cases fit
  | int w =>
    cases p with
    | varint raw =>
      cases fit
      cases left
      refine shortens_varint ?_
      rw [ZigZag.encode_decode, BitVec.toNat_ofNat]
      exact Nat.mod_le ..
    | _ => cases fit
  | uint w =>
    cases p with
    | varint raw =>
      cases fit
      cases left
      refine shortens_varint ?_
      rw [BitVec.toNat_ofNat]
      exact Nat.mod_le ..
    | _ => cases fit
  | string =>
    cases p with
    | delimited bs =>
      rw [fit?] at fit
      cases left
      rw [Utf8.encode_of_decode? fit]
      exact .refl _
    | _ => cases fit
  | _ =>
    -- floating-point numbers and bytes keep their payload as it is
    cases p <;> cases fit
    cases left
    exact .refl _

end Payload

/-- The first payloads of a buffer take no more room than the buffer. -/
theorem Decoding.length_table_ofBytes (depth : Nat) (bs : Bytes) :
    (ofBytes depth bs).table.bytes.length ≤ bs.length := by
  obtain ⟨well, length⟩ := Item.readAll_le (.ofBytes bs)
  have first := Table.length_bytes_foldl_add [] well
  exact Nat.le_trans first ((Nat.zero_add _).symm ▸ length)

theorem Decoding.fits_of_find? {depth : Nat} {bs : Bytes} {id : UInt32} {p : Payload}
    (found : (ofBytes depth bs).table.find? id = some p) : p.Fits := by
  have well := (Item.readAll_le (.ofBytes bs)).1
  have fits := @Table.fits_foldl_add [] _ well (by simp)
  obtain ⟨front, back, whole, -⟩ := Table.split_of_find? found
  have mem : (id, p) ∈ (ofBytes depth bs).table := by simp [whole]
  exact fits (id, p) mem

end MessageCodec.Wire
