import MessageCodec.Proofs.Record.Entries
import MessageCodec.Proofs.Record.Nesting
import MessageCodec.Proofs.Record.View

/-! Defaults of fields, one at a time. The default of a field is kept under its identifier
and depends on no other field, so it can be replaced before or after the fields behind it
get theirs. -/

namespace MessageCodec

open Schema (Catalogue)

/-- Keeps a value under an identifier, if there is one. -/
def Entries.put (entries : Entries) (i : UInt32) : Option Value → Entries
  | none => entries
  | some v => entries.insert i v

theorem Entries.get?_put_of_ne {i j : UInt32} (other : i ≠ j) (entries : Entries)
    (v? : Option Value) : (entries.put i v?).get? j = entries.get? j := by
  cases v? with
  | none => rfl
  | some v => exact get?_insert_of_ne other entries v

theorem Entries.get?_put_self {entries : Entries} {i : UInt32} (fresh : entries.get? i = none)
    (v? : Option Value) : (entries.put i v?).get? i = v? := by
  cases v? with
  | none => exact fresh
  | some v => exact get?_insert_self entries i v

namespace Record

variable {c : Catalogue} {path : List String} {package : String} {f : Schema.Field}

def default? (c : Catalogue) (path : List String) (package : String) (f : Schema.Field) :
    Option Value :=
  match f.type with
  | .undefined => none
  | .scalar t => some (.scalar ⟨t, t.zero⟩)
  | .message => (c.resolve? f.label package).bind fun m =>
    if m.longName ∈ path then none
    else some (.record
      ⟨m, c, addDefaults c (m.longName :: path) m.package m.fields .nil⟩)

@[simp]
theorem addDefaults_nil (c : Catalogue) (path : List String) (package : String)
    (entries : Entries) : addDefaults c path package [] entries = entries := by
  rw [addDefaults]

theorem addDefaults_cons (c : Catalogue) (path : List String) (package : String)
    (f : Schema.Field) (fs : List Schema.Field) (entries : Entries) :
    addDefaults c path package (f :: fs) entries =
      addDefaults c path package fs (entries.put f.id (default? c path package f)) := by
  rw [addDefaults, default?]
  cases f.type with
  | undefined => rfl
  | scalar t => rfl
  | message =>
    simp only
    split
    · rename_i unresolved
      rw [unresolved]
      rfl
    · rename_i m resolved
      rw [resolved, Option.bind_some]
      split <;> rfl

theorem get?_addDefaults {fs : List Schema.Field} {i : UInt32} (other : i ∉ fs.map (·.id))
    (entries : Entries) : (addDefaults c path package fs entries).get? i = entries.get? i := by
  induction fs generalizing entries with
  | nil => rw [addDefaults_nil]
  | cons f fs ih =>
    simp only [List.map_cons, List.mem_cons, not_or] at other
    rw [addDefaults_cons, ih other.2, Entries.get?_put_of_ne (Ne.symm other.1)]

theorem get?_addDefaults_of_mem {fs : List Schema.Field} (distinct : (fs.map (·.id)).Nodup)
    (mem : f ∈ fs) {entries : Entries} (fresh : entries.get? f.id = none) :
    (addDefaults c path package fs entries).get? f.id = default? c path package f := by
  induction fs generalizing entries with
  | nil => cases mem
  | cons g fs ih =>
    rw [List.map_cons, List.nodup_cons] at distinct
    rw [addDefaults_cons]
    rcases List.mem_cons.1 mem with rfl | mem
    · rw [get?_addDefaults distinct.1, Entries.get?_put_self fresh]
    · have other := ne_of_mem_of_not_mem (List.mem_map_of_mem mem) distinct.1
      exact ih distinct.2 mem ((Entries.get?_put_of_ne other.symm _ _).trans fresh)

/-- A value can be replaced before or after other fields get their defaults. -/
theorem insert_addDefaults {fs : List Schema.Field} {i : UInt32} (other : i ∉ fs.map (·.id))
    {entries : Entries} (held : (entries.get? i).isSome) (v : Value) :
    (addDefaults c path package fs entries).insert i v =
      addDefaults c path package fs (entries.insert i v) := by
  induction fs generalizing entries with
  | nil => rw [addDefaults_nil, addDefaults_nil]
  | cons f fs ih =>
    simp only [List.map_cons, List.mem_cons, not_or] at other
    have kept : ((entries.put f.id (default? c path package f)).get? i).isSome := by
      rwa [Entries.get?_put_of_ne (Ne.symm other.1)]
    rw [addDefaults_cons, addDefaults_cons, ih other.2 kept]
    cases default? c path package f with
    | none => rfl
    | some w => rw [Entries.put, Entries.put, Entries.insert_comm other.1 held]

theorem distinct_addDefaults (ids : ∀ m ∈ c, (m.fields.map (·.id)).Nodup)
    (fs : List Schema.Field) {entries : Entries} (distinct : entries.Distinct) :
    (addDefaults c path package fs entries).Distinct := by
  fun_induction addDefaults c path package fs entries with
  | case1 => exact distinct
  | case2 _ _ _ _ _ _ ih => exact ih distinct
  | case3 _ _ _ _ _ _ _ ih => exact ih (distinct.insert _ trivial)
  | case4 _ _ _ _ _ _ _ ih => exact ih distinct
  | case5 _ _ _ _ _ _ _ _ _ ih => exact ih distinct
  | case6 _ _ _ _ _ _ m resolved _ _ _ ihInner ih =>
    have fields := ids m (Schema.Catalogue.mem_of_resolve? resolved)
    exact ih (distinct.insert _ ⟨fields, ihInner trivial⟩)

end Record

end MessageCodec
