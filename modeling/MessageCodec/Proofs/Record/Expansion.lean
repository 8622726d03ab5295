import Mathlib.Data.List.Dedup
import Mathlib.Data.List.Perm.Subperm
import MessageCodec.Proofs.Record.Conforming
import MessageCodec.Proofs.Record.Default

/-! How far defaults expand. A nested message gets its default unless it is of a type around it, so
no long name comes twice on the way to a nested record, and the levels of a default are bounded by
the number of names there are, whatever messages contain each other. -/

namespace MessageCodec

open Schema (Catalogue)

namespace Schema.Catalogue

variable {c : Catalogue} {m inner : Message} {n k : Nat} {path : List String} {root : String}

def longNames (c : Catalogue) : List String := (c.map (·.longName)).dedup

theorem longName_mem_longNames (mem : m ∈ c) : m.longName ∈ c.longNames :=
  List.mem_dedup.2 (List.mem_map_of_mem mem)

/-- The long names on the way from a message inside a default out to the outermost one, which need
not be in the catalogue. -/
structure IsPath (c : Catalogue) (root : String) (path : List String) : Prop where
  nodup : path.Nodup
  subset : path ⊆ root :: c.longNames

theorem isPath_singleton (c : Catalogue) (root : String) : c.IsPath root [root] :=
  ⟨List.nodup_singleton root, List.cons_subset_cons root (List.nil_subset _)⟩

theorem IsPath.cons (isPath : c.IsPath root path) (mem : m ∈ c) (fresh : m.longName ∉ path) :
    c.IsPath root (m.longName :: path) :=
  ⟨List.nodup_cons.2 ⟨fresh, isPath.nodup⟩,
    List.cons_subset.2 ⟨List.mem_cons_of_mem _ (longName_mem_longNames mem), isPath.subset⟩⟩

theorem IsPath.length_le (isPath : c.IsPath root path) : path.length ≤ c.longNames.length + 1 :=
  (List.subperm_of_subset isPath.nodup isPath.subset).length_le

theorem ExpandsWithin.mono (expands : c.ExpandsWithin n path m) (le : n ≤ k) :
    c.ExpandsWithin k path m := by
  induction n generalizing k path m with
  | zero => exact expands.elim
  | succ n ih =>
    cases k with
    | zero => exact absurd le (Nat.not_succ_le_zero n)
    | succ k =>
      intro inner holds fresh
      exact ih (expands inner holds fresh) (Nat.le_of_succ_le_succ le)

/-- The names that are left bound the levels below a path. -/
theorem IsPath.expandsWithin (isPath : c.IsPath root path)
    (enough : c.longNames.length + 2 ≤ path.length + n) : c.ExpandsWithin n path m := by
  induction n generalizing path m with
  | zero =>
    have := isPath.length_le
    omega
  | succ n ih =>
    intro inner holds fresh
    refine ih (isPath.cons (mem_of_holds holds) fresh) ?_
    rw [List.length_cons]
    omega

theorem expandsWithin_longNames (c : Catalogue) (m : Message) :
    c.ExpandsWithin (c.longNames.length + 1) [m.longName] m := by
  refine (isPath_singleton c m.longName).expandsWithin ?_
  rw [List.length_singleton]
  omega

end Schema.Catalogue

theorem Entries.levels_insert_le (entries : Entries) (i : UInt32) (v : Value) :
    (entries.insert i v).levels ≤ max v.levels entries.levels := by
  induction entries using cons_induction with
  | nil => exact Nat.le_of_eq (levels_cons i v nil)
  | cons id w rest ih =>
    rw [insert_cons]
    split <;> rw [levels_cons, levels_cons] <;> omega

namespace Record

variable {c : Catalogue} {path : List String} {package : String} {f : Schema.Field} {n : Nat}
variable {m s : Schema.Message} {v : Value}

/-- The default of a message whose long name is the first on a path. -/
def defaultWithin (c : Catalogue) (path : List String) (m : Schema.Message) : Record :=
  ⟨m, c, addDefaults c path m.package m.fields .nil⟩

theorem ofSchema_eq (s : Schema.Message) (c : Catalogue) :
    ofSchema s c = defaultWithin c [s.longName] s := rfl

/-- Does the default of a message give this field a value, when the long names of the messages
around the field are on a path? -/
def HasDefault (c : Catalogue) (path : List String) (package : String) (f : Schema.Field) : Prop :=
  (∃ t, f.type = .scalar t) ∨
    f.type = .message ∧ ∃ m, c.resolve? f.label package = some m ∧ m.longName ∉ path

theorem default?_of_scalar {t : ScalarType} (type : f.type = .scalar t) :
    default? c path package f = some (.scalar ⟨t, t.zero⟩) := by
  rw [default?, type]

theorem default?_of_fresh (type : f.type = .message)
    (resolved : c.resolve? f.label package = some m) (fresh : m.longName ∉ path) :
    default? c path package f = some (.record (defaultWithin c (m.longName :: path) m)) := by
  rw [default?, type]
  simp only [resolved, Option.bind_some, if_neg fresh]
  rfl

/-- What a field gets is the zero of its type or the default of the message that its label resolves
to. -/
theorem default?_eq_some (given : default? c path package f = some v) :
    (∃ t, f.type = .scalar t ∧ v = .scalar ⟨t, t.zero⟩) ∨
      f.type = .message ∧ ∃ m, c.resolve? f.label package = some m ∧ m.longName ∉ path ∧
        v = .record (defaultWithin c (m.longName :: path) m) := by
  cases type : f.type with
  | undefined =>
    rw [default?, type] at given
    cases given
  | scalar t => exact .inl ⟨t, rfl, Option.some.inj (given.symm.trans (default?_of_scalar type))⟩
  | message =>
    rw [default?, type] at given
    obtain ⟨m, resolved, built⟩ := Option.bind_eq_some_iff.1 given
    rw [Option.ite_none_left_eq_some, Option.some.injEq] at built
    exact .inr ⟨rfl, m, resolved, built.1, built.2.symm⟩

theorem isSome_default?_iff :
    (default? c path package f).isSome ↔ HasDefault c path package f := by
  constructor
  · intro given
    obtain ⟨v, given⟩ := Option.isSome_iff_exists.1 given
    obtain ⟨t, type, -⟩ | ⟨type, m, resolved, fresh, -⟩ := default?_eq_some given
    · exact .inl ⟨t, type⟩
    · exact .inr ⟨type, m, resolved, fresh⟩
  · rintro (⟨t, type⟩ | ⟨type, m, resolved, fresh⟩)
    · rw [default?_of_scalar type]
      rfl
    · rw [default?_of_fresh type resolved fresh]
      rfl

/-- Under an identifier there is the default of the last field that has the identifier and gets a
default. -/
theorem get?_addDefaults_eq_last (fs : List Schema.Field) (entries : Entries) (i : UInt32) :
    (addDefaults c path package fs entries).get? i =
      ((fs.filter (·.id == i)).reverse.findSome? (default? c path package)).or
        (entries.get? i) := by
  induction fs generalizing entries with
  | nil => rw [addDefaults_nil]; rfl
  | cons f fs ih =>
    rw [addDefaults_cons, ih]
    by_cases own : f.id = i
    · subst own
      rw [List.filter_cons, if_pos (beq_self_eq_true _), List.reverse_cons, List.findSome?_append,
        Option.or_assoc]
      congr 1
      cases given : default? c path package f with
      | none => simp [given, Entries.put]
      | some v => simp [given, Entries.put, Entries.get?_insert_self]
    · rw [List.filter_cons_of_neg (by simpa using own), Entries.get?_put_of_ne own]

theorem value?_defaultWithin (c : Catalogue) (path : List String) (m : Schema.Message)
    (i : UInt32) :
    (defaultWithin c path m).value? i =
      (m.fields.filter (·.id == i)).reverse.findSome? (default? c path m.package) := by
  rw [value?, defaultWithin, get?_addDefaults_eq_last]
  exact Option.or_none

theorem value?_of_declares {i : UInt32} (only : m.Declares i f) :
    (defaultWithin c path m).value? i = default? c path m.package f := by
  rw [value?_defaultWithin, only]
  simp

theorem exists_default?_of_held {i : UInt32} (held : (defaultWithin c path m).value? i = some v) :
    ∃ f ∈ m.fields, default? c path m.package f = some v := by
  rw [value?_defaultWithin] at held
  obtain ⟨f, mem, given⟩ := List.exists_of_findSome?_eq_some held
  exact ⟨f, (List.mem_filter.1 (List.mem_reverse.1 mem)).1, given⟩

theorem levels_addDefaults_le {fs : List Schema.Field} {entries : Entries}
    (values : ∀ f ∈ fs, ∀ v, default? c path package f = some v → v.levels ≤ n)
    (start : entries.levels ≤ n) : (addDefaults c path package fs entries).levels ≤ n := by
  induction fs generalizing entries with
  | nil => rwa [addDefaults_nil]
  | cons f fs ih =>
    rw [List.forall_mem_cons] at values
    rw [addDefaults_cons]
    refine ih values.2 ?_
    cases given : default? c path package f with
    | none => exact start
    | some v =>
      exact Nat.le_trans (Entries.levels_insert_le entries f.id v)
        (Nat.max_le.2 ⟨values.1 v given, start⟩)

theorem levels_lt_of_expandsWithin (expands : c.ExpandsWithin n path m) :
    (defaultWithin c path m).entries.levels < n := by
  induction n generalizing path m with
  | zero => exact expands.elim
  | succ n ih =>
    refine Nat.lt_succ_of_le (levels_addDefaults_le (fun f mem v given => ?_) (Nat.zero_le n))
    obtain ⟨t, -, rfl⟩ | ⟨type, inner, resolved, fresh, rfl⟩ := default?_eq_some given
    · exact Nat.zero_le n
    · exact ih (expands inner ⟨f, mem, type, resolved⟩ fresh)

/-- The records inside a record, itself included, each with the long names of the messages from its
own out to the outermost one. -/
inductive Nested (r : Record) : List String → Record → Prop
  | self : Nested r [r.schema.longName] r
  | inside {path : List String} {outer inner : Record} {i : UInt32} (around : Nested r path outer)
    (held : outer.value? i = some (.record inner)) :
    Nested r (inner.schema.longName :: path) inner

/-- A record inside a default is the default of its own message within those around it. -/
theorem Nested.eq_defaultWithin {r : Record} (nested : (ofSchema s c).Nested path r) :
    c.IsPath s.longName path ∧ r = defaultWithin c path r.schema := by
  induction nested with
  | self => exact ⟨Schema.Catalogue.isPath_singleton c s.longName, ofSchema_eq s c⟩
  | inside around held ih =>
    obtain ⟨isPath, built⟩ := ih
    rw [built] at held
    obtain ⟨f, -, given⟩ := exists_default?_of_held held
    obtain ⟨t, -, other⟩ | ⟨-, m, resolved, fresh, same⟩ := default?_eq_some given
    · cases other
    · cases same
      exact ⟨isPath.cons (Schema.Catalogue.mem_of_resolve? resolved) fresh, rfl⟩

/-- The default record of any message, whatever the messages of the catalogue hold, has at most one
level more than there are long names in the catalogue. On the way to each record inside it no long
name comes twice. A field of such a record has a value if and only if it is a scalar, and the value
is then the zero of its type, or its label resolves to a message whose long name is not on the way,
and the value is then a record of that message. If several fields of a message have one identifier,
they share the value of the last of them that gets one. -/
theorem nested_ofSchema (s : Schema.Message) (c : Catalogue) :
    (ofSchema s c).entries.levels + 1 ≤ 1 + c.longNames.length ∧
      ∀ path r, (ofSchema s c).Nested path r →
        path.Nodup ∧ path.length ≤ 1 + c.longNames.length ∧
        (∀ i, r.value? i = (r.schema.fields.filter (·.id == i)).reverse.findSome?
          (default? c path r.schema.package)) ∧
        ∀ i f, r.schema.Declares i f →
          ((r.value? i).isSome ↔ HasDefault c path r.schema.package f) ∧
          (∀ t, f.type = .scalar t → r.value? i = some (.scalar ⟨t, t.zero⟩)) ∧
          ∀ m, f.type = .message → c.resolve? f.label r.schema.package = some m →
            m.longName ∉ path → ∃ inner, r.value? i = some (.record inner) ∧ inner.schema = m := by
  have levels := levels_lt_of_expandsWithin (c.expandsWithin_longNames s)
  refine ⟨?_, fun path r nested => ?_⟩
  · rw [ofSchema_eq]
    omega
  · obtain ⟨isPath, built⟩ := nested.eq_defaultWithin
    have length := isPath.length_le
    refine ⟨isPath.nodup, by omega, fun i => ?_, fun i f only => ?_⟩
    · rw [built]
      exact value?_defaultWithin c path r.schema i
    · have value : r.value? i = default? c path r.schema.package f := by
        rw [built]
        exact value?_of_declares only
      rw [value]
      refine ⟨isSome_default?_iff, fun t type => default?_of_scalar type,
        fun m type resolved fresh => ?_⟩
      exact ⟨_, default?_of_fresh type resolved fresh, rfl⟩

/-- A message that holds one which holds the first and itself, beside a field whose type is not
declared. -/
def folder : Schema.Message :=
  ⟨"", "Folder", 0, [⟨.message, "Entry", "first", 1, none⟩,
    ⟨.scalar .string, "string", "name", 2, none⟩, ⟨.message, "Missing", "owner", 3, none⟩]⟩

def folderEntry : Schema.Message :=
  ⟨"", "Entry", 0, [⟨.message, "Folder", "up", 1, none⟩, ⟨.message, "Entry", "next", 2, none⟩,
    ⟨.scalar (.uint .w8), "uint8", "size", 3, none⟩]⟩

theorem nested_ofSchema_folder :
    let r := ofSchema folder [folder, folderEntry]
    r.entries.levels + 1 ≤ 3 ∧ r.value? 2 = some (.scalar ⟨.string, ""⟩) ∧ r.value? 3 = none ∧
      ∃ inner, r.value? 1 = some (.record inner) ∧ inner.schema = folderEntry ∧
        inner.value? 1 = none ∧ inner.value? 2 = none ∧
        inner.value? 3 = some (.scalar ⟨.uint .w8, 0⟩) := by
  intro r
  have unset {path : List String} {package : String} {f : Schema.Field} {v? : Option Value}
      (given : v?.isSome ↔ HasDefault [folder, folderEntry] path package f)
      (type : f.type = .message)
      (around : ∀ m, Schema.Catalogue.resolve? [folder, folderEntry] f.label package = some m →
        m.longName ∈ path) : v? = none := by
    rw [← Option.not_isSome_iff_eq_none, given]
    rintro (⟨t, scalar⟩ | ⟨-, m, resolved, fresh⟩)
    · cases type.symm.trans scalar
    · exact fresh (around m resolved)
  obtain ⟨levels, nested⟩ := nested_ofSchema folder [folder, folderEntry]
  obtain ⟨-, -, -, fields⟩ := nested _ r .self
  obtain ⟨-, -, first⟩ := fields 1 ⟨.message, "Entry", "first", 1, none⟩ rfl
  obtain ⟨-, name, -⟩ := fields 2 ⟨.scalar .string, "string", "name", 2, none⟩ rfl
  obtain ⟨owner, -⟩ := fields 3 ⟨.message, "Missing", "owner", 3, none⟩ rfl
  obtain ⟨inner, held, schema⟩ := first folderEntry rfl rfl (by decide)
  obtain ⟨-, -, -, fields⟩ := nested _ inner (.inside .self held)
  rw [schema] at fields
  obtain ⟨up, -⟩ := fields 1 ⟨.message, "Folder", "up", 1, none⟩ rfl
  obtain ⟨next, -⟩ := fields 2 ⟨.message, "Entry", "next", 2, none⟩ rfl
  obtain ⟨-, size, -⟩ := fields 3 ⟨.scalar (.uint .w8), "uint8", "size", 3, none⟩ rfl
  refine ⟨levels, name _ rfl, unset owner rfl nofun, inner, held, schema, unset up rfl ?_,
    unset next rfl ?_, size _ rfl⟩
  · rintro _ ⟨⟩
    decide
  · rintro _ ⟨⟩
    decide

end Record

end MessageCodec
