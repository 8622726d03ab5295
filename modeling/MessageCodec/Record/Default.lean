import MessageCodec.Record.Basic

/-! The default record of a schema: every scalar field is zero, and every nested message whose type
resolves holds its default, unless that type is already being filled further out. Types that contain
themselves therefore have finite defaults. -/

namespace MessageCodec

open Schema (Catalogue FieldType)

namespace Schema.Catalogue

theorem mem_of_find? {c : Catalogue} {name : String} {m : Schema.Message}
    (h : c.find? name = some m) : m ∈ c := List.mem_of_find?_eq_some h

theorem mem_of_resolve? {c : Catalogue} {label package : String} {m : Schema.Message}
    (h : c.resolve? label package = some m) : m ∈ c := by
  unfold resolve? at h
  rw [Option.or_eq_some_iff] at h
  rcases h with h | ⟨-, h⟩
  · exact mem_of_find? h
  · rw [Option.or_eq_some_iff] at h
    rcases h with h | ⟨-, h⟩
    · split at h
      · cases h
      · exact mem_of_find? h
    · exact List.mem_of_find?_eq_some h

/-- The number of messages whose long name is not on a path. -/
def unvisited (c : Catalogue) (path : List String) : Nat :=
  c.countP fun m => m.longName ∉ path

theorem unvisited_cons_lt {c : Catalogue} {path : List String} {m : Schema.Message} (hm : m ∈ c)
    (fresh : m.longName ∉ path) : c.unvisited (m.longName :: path) < c.unvisited path := by
  have split : c.filter (fun x => x.longName ∉ m.longName :: path) =
      (c.filter fun x => x.longName ∉ path).filter fun x => x.longName ≠ m.longName := by
    rw [List.filter_filter]
    congr 1
    funext x
    simp
  simp only [unvisited, List.countP_eq_length_filter]
  rw [split]
  exact List.length_filter_lt_length_iff_exists.2 ⟨m, by simp [hm, fresh], by simp⟩

end Schema.Catalogue

namespace Record

/-- Adds the defaults of fields to entries. The path holds the long names of the messages around
the fields; the package is that of their own message. -/
def addDefaults (catalogue : Catalogue) (path : List String) (package : String) :
    List Schema.Field → Entries → Entries
  | [], entries => entries
  | f :: fs, entries =>
    match f.type with
    | .undefined => addDefaults catalogue path package fs entries
    | .scalar t =>
      addDefaults catalogue path package fs (entries.insert f.id (.scalar ⟨t, t.zero⟩))
    | .message =>
      match resolved : catalogue.resolve? f.label package with
      | none => addDefaults catalogue path package fs entries
      | some m =>
        if fresh : m.longName ∈ path then addDefaults catalogue path package fs entries
        else
          have := Schema.Catalogue.unvisited_cons_lt
            (Schema.Catalogue.mem_of_resolve? resolved) fresh
          let inner := addDefaults catalogue (m.longName :: path) m.package m.fields .nil
          addDefaults catalogue path package fs
            (entries.insert f.id (.record ⟨m, catalogue, inner⟩))
termination_by fs => (catalogue.unvisited path, fs.length)

def ofSchema (schema : Schema.Message) (catalogue : Catalogue) : Record :=
  ⟨schema, catalogue, addDefaults catalogue [schema.longName] schema.package schema.fields .nil⟩

end Record

end MessageCodec
