import Mathlib.Data.List.Find
import MessageCodec.Proofs.Schema.Listing
import MessageCodec.Record.Default

/-! What labels stand for in a specification that was read. Its messages are all of one package and
have names of their own, so a label stands for the message with that long name, else for the one
with that name. Which one it is does not depend on the order of the messages. -/

namespace MessageCodec.Schema

theorem Message.longName_eq_append {m : Message} {package : String} (own : m.package = package)
    (stated : package ≠ "") : m.longName = package ++ "." ++ m.name := by
  rw [Message.longName, own, if_neg (by simpa using stated)]

theorem Message.isDotted_longName {m : Message} (named : m.package = "" ∨ IsDotted m.package)
    (dotted : IsDotted m.name) : IsDotted m.longName := by
  by_cases stated : m.package = ""
  · rwa [longName_of_package stated]
  · rw [Message.longName_eq_append rfl stated]
    exact (named.resolve_left stated).append dotted

/-- A message whose names can be written down. -/
structure Message.Spelled (m : Message) : Prop where
  name : IsDotted m.name
  fields : ∀ f ∈ m.fields, IsDotted f.label ∧ IsWord f.name.toList

namespace Grammar

variable {ts : List Token} {package : String} {ds : List FieldDeclaration} {m : Schema.Message}
  {ms : List Schema.Message}

theorem label_numbered (d : FieldDeclaration) (id : UInt32) : (d.numbered id).label = d.label :=
  congrArg FieldDeclaration.label (declaration_numbered d id)

theorem name_numbered (d : FieldDeclaration) (id : UInt32) : (d.numbered id).name = d.name :=
  congrArg FieldDeclaration.name (declaration_numbered d id)

theorem spelled_numbered (stated : ∀ d ∈ ds, d.Written) :
    ∀ f ∈ numbered ds, IsDotted f.label ∧ IsWord f.name.toList := by
  intro f mem
  simp only [numbered_eq, List.mem_mapIdx] at mem
  obtain ⟨i, within, rfl⟩ := mem
  have written := stated ds[i] (List.getElem_mem within)
  rw [label_numbered, name_numbered]
  exact ⟨written.label, written.name⟩

theorem Message.spelled (message : Message package ts m) (lexemes : ∀ t ∈ ts, t.IsLexeme) :
    m.package = package ∧ m.Spelled := by
  obtain ⟨named, -, fields⟩ := message
  simp only [List.forall_mem_cons, List.forall_mem_append] at lexemes
  obtain ⟨-, ⟨inName, -⟩, -, inFields, -⟩ := lexemes
  exact ⟨rfl, ⟨_, named, inName⟩, spelled_numbered (fields.written inFields)⟩

theorem Messages.spelled (messages : Messages package ts ms) (lexemes : ∀ t ∈ ts, t.IsLexeme) :
    ∀ m ∈ ms, m.package = package ∧ m.Spelled := by
  induction messages with
  | nil => nofun
  | cons first _ ih =>
    rw [List.forall_mem_append] at lexemes
    exact List.forall_mem_cons.2 ⟨first.spelled lexemes.1, ih lexemes.2⟩

theorem Specification.spelled (specification : Specification ts ms)
    (lexemes : ∀ t ∈ ts, t.IsLexeme) :
    ∃ package, (package = "" ∨ IsDotted package) ∧ ∀ m ∈ ms, m.package = package ∧ m.Spelled := by
  cases specification with
  | plain messages => exact ⟨"", .inl rfl, messages.spelled lexemes⟩
  | @packaged us vs package _ named messages =>
    simp only [List.forall_mem_cons, List.forall_mem_append] at lexemes
    exact ⟨package, .inr ⟨us, named, lexemes.2.1⟩, messages.spelled lexemes.2.2.2⟩

end Grammar

namespace Catalogue

/-- Messages of one package that each have a name of their own. -/
structure IsPackage (c : Catalogue) (package : String) : Prop where
  names : (c.map (·.longName)).Nodup
  same : ∀ m ∈ c, m.package = package

variable {c c' : Catalogue} {m m' : Message} {package label : String}

/-- The messages of a text that was read are of one package, and all names in them can be written
down. -/
theorem exists_package {text : String} (read : parse text = .ok c) :
    ∃ package, c.IsPackage package ∧ (package = "" ∨ IsDotted package) ∧ ∀ m ∈ c, m.Spelled := by
  obtain ⟨ts, splits, specification⟩ := declares_of_parse read
  obtain ⟨package, named, spelled⟩ := specification.spelled (isLexeme_of_splits splits)
  have names := (unambiguous_of_parse read).names
  exact ⟨package, ⟨names, fun m mem => (spelled m mem).1⟩, named, fun m mem => (spelled m mem).2⟩

theorem IsPackage.eq_of_name (within : c.IsPackage package) (mem : m ∈ c) (mem' : m' ∈ c)
    (same : m.name = m'.name) : m = m' := by
  refine List.inj_on_of_nodup_map within.names mem mem' ?_
  rw [Message.longName, Message.longName, within.same m mem, within.same m' mem', same]

/-- The long name is that of the package with a name behind it just when the message has that name
and the package is stated. -/
theorem IsPackage.longName_eq_iff (within : c.IsPackage package) (mem : m ∈ c)
    (stated : package ≠ "") : m.longName = package ++ "." ++ label ↔ m.name = label := by
  rw [Message.longName_eq_append (within.same m mem) stated, String.append_right_inj]

theorem find?_of_mem (names : (c.map (·.longName)).Nodup) (mem : m ∈ c) :
    c.find? m.longName = some m := by
  cases found : c.find? m.longName with
  | none =>
    have missed := List.find?_eq_none.1 found m mem
    simp at missed
  | some m' =>
    have same : m'.longName = m.longName := by simpa using List.find?_some found
    rw [List.inj_on_of_nodup_map names (List.mem_of_find?_eq_some found) mem same]

theorem resolve?_of_mem (names : (c.map (·.longName)).Nodup) (mem : m ∈ c) (package : String) :
    c.resolve? m.longName package = some m := by
  rw [resolve?, find?_of_mem names mem, Option.some_or]

/-- A label stands for the message that has it for its long name, and if there is none, for the one
that has it for its name. -/
theorem IsPackage.resolve?_eq_some_iff (within : c.IsPackage package) :
    c.resolve? label package = some m ↔
      m ∈ c ∧ (m.longName = label ∨ m.name = label ∧ ∀ m' ∈ c, m'.longName ≠ label) := by
  constructor
  · intro resolved
    refine ⟨mem_of_resolve? resolved, ?_⟩
    rw [resolve?, Option.or_eq_some_iff] at resolved
    rcases resolved with found | ⟨unnamed, resolved⟩
    · exact .inl (by simpa using List.find?_some found)
    · refine .inr ⟨?_, fun m' mem' => by simpa using List.find?_eq_none.1 unnamed m' mem'⟩
      rw [Option.or_eq_some_iff] at resolved
      rcases resolved with found | ⟨-, found⟩
      · split at found
        · cases found
        · rename_i stated
          have named : m.longName = package ++ "." ++ label := by simpa using List.find?_some found
          exact (within.longName_eq_iff (mem_of_find? found) (by simpa using stated)).1 named
      · simpa using List.find?_some found
  · rintro ⟨mem, rfl | ⟨rfl, unnamed⟩⟩
    · exact resolve?_of_mem within.names mem package
    · have stated : package ≠ "" := by
        intro empty
        exact unnamed m mem (longName_of_package ((within.same m mem).trans empty))
      have named := (within.longName_eq_iff mem stated).2 rfl
      have missed : c.find? m.name = none :=
        List.find?_eq_none.2 fun m' mem' => by simpa using unnamed m' mem'
      have found : c.find? (package ++ "." ++ m.name) = some m :=
        named ▸ find?_of_mem within.names mem
      rw [resolve?, missed, found, Option.none_or, if_neg (by simpa using stated), Option.some_or]

/-- What a label stands for does not depend on the order of the messages. -/
theorem IsPackage.resolve?_perm (within : c.IsPackage package) (perm : c.Perm c')
    (label package' : String) : c'.resolve? label package' = c.resolve? label package' := by
  have byLongName (name : String) : c.find? name = c'.find? name := by
    refine List.find?_eq_find?_of_perm perm fun m held m' held' => ?_
    have same : m.longName = m'.longName := by
      rw [eq_of_beq held.2, eq_of_beq held'.2]
    exact List.inj_on_of_nodup_map within.names held.1 held'.1 same
  have byName : List.find? (·.name == label) c = List.find? (·.name == label) c' := by
    refine List.find?_eq_find?_of_perm perm fun m held m' held' => ?_
    exact within.eq_of_name held.1 held'.1 ((eq_of_beq held.2).trans (eq_of_beq held'.2).symm)
  simp only [resolve?, byLongName, byName]

end Catalogue

end MessageCodec.Schema
