import MessageCodec.Record.Basic

/-! Entries as a map. Keeping a value changes what is held under its identifier and
nothing else, and a value put in place of another one leaves the order as it was. -/

namespace MessageCodec

def Value.levels : Value → Nat
  | scalar _ => 0
  | record r => r.entries.levels + 1

namespace Entries

variable {id i j : UInt32} {v w : Value} {rest entries : Entries}

/-- Entries are a list of identifiers and values. -/
@[elab_as_elim]
theorem cons_induction {motive : Entries → Prop} (nil : motive nil)
    (cons : ∀ id v rest, motive rest → motive (cons id v rest)) (entries : Entries) :
    motive entries := by
  induction entries with
  | nil => exact nil
  | scalar id s rest ih => exact cons id (.scalar s) rest ih
  | record id schema catalogue inner rest _ ih =>
    exact cons id (.record ⟨schema, catalogue, inner⟩) rest ih

@[simp]
theorem get?_cons (id : UInt32) (v : Value) (rest : Entries) (i : UInt32) :
    (cons id v rest).get? i = if id = i then some v else rest.get? i := by
  cases v <;> rfl

@[simp]
theorem insert_cons (id : UInt32) (v : Value) (rest : Entries) (i : UInt32) (w : Value) :
    (cons id v rest).insert i w = if id = i then cons i w rest else cons id v (rest.insert i w) := by
  cases v <;> rfl

@[simp]
theorem levels_cons (id : UInt32) (v : Value) (rest : Entries) :
    (cons id v rest).levels = max v.levels rest.levels := by
  cases v with
  | scalar s => exact (Nat.zero_max _).symm
  | record r => rfl

theorem get?_insert_self (entries : Entries) (i : UInt32) (v : Value) :
    (entries.insert i v).get? i = some v := by
  induction entries using cons_induction with
  | nil => simp [insert]
  | cons id w rest ih => by_cases same : id = i <;> simp [same, ih]

theorem get?_insert_of_ne (other : i ≠ j) (entries : Entries) (v : Value) :
    (entries.insert i v).get? j = entries.get? j := by
  induction entries using cons_induction with
  | nil => simp [insert, get?, other]
  | cons id w rest ih =>
    by_cases same : id = i
    · subst same
      simp [other]
    · simp [same, ih]

theorem insert_insert (entries : Entries) (i : UInt32) (v w : Value) :
    (entries.insert i v).insert i w = entries.insert i w := by
  induction entries using cons_induction with
  | nil => simp [insert]
  | cons id u rest ih => by_cases same : id = i <;> simp [same, ih]

theorem insert_of_get? (held : entries.get? i = some v) : entries.insert i v = entries := by
  induction entries using cons_induction with
  | nil => cases held
  | cons id u rest ih =>
    rw [get?_cons] at held
    rw [insert_cons]
    split at held
    · rename_i own
      cases held
      rw [if_pos own, own]
    · rename_i other
      rw [if_neg other, ih held]

/-- A value can be put in place of another one before or after the other entries are made. -/
theorem insert_comm (other : i ≠ j) (held : (entries.get? i).isSome) (v w : Value) :
    (entries.insert i v).insert j w = (entries.insert j w).insert i v := by
  induction entries using cons_induction with
  | nil => cases held
  | cons id u rest ih =>
    by_cases first : id = i
    · subst first
      simp [other]
    · by_cases second : id = j
      · subst second
        simp [first]
      · simp_all

theorem levels_le_of_get? (held : entries.get? i = some v) : v.levels ≤ entries.levels := by
  induction entries using cons_induction with
  | nil => cases held
  | cons id w rest ih =>
    rw [get?_cons] at held
    rw [levels_cons]
    split at held
    · cases held
      exact Nat.le_max_left _ _
    · exact Nat.le_trans (ih held) (Nat.le_max_right _ _)

/-- A value as deep as the one it replaces leaves the depth as it was. -/
theorem levels_insert (held : entries.get? i = some v) (same : w.levels = v.levels) :
    (entries.insert i w).levels = entries.levels := by
  induction entries using cons_induction with
  | nil => cases held
  | cons id u rest ih =>
    rw [get?_cons] at held
    rw [insert_cons]
    split at held
    · cases held
      simp_all
    · simp_all

end Entries

end MessageCodec
