import MessageCodec.Proofs.Declarations.Reading
import MessageCodec.Proofs.Record.Decode

/-! Messages that records show, against the schemas that they were built from. Each part of such
a message goes back to a declared type, some of whose fields may be left out: nested messages of
types that are around them, those below the deepest level, and those that do not resolve. -/

namespace MessageCodec

open Record (addDecoded)
open Schema (Catalogue)

/-- Fields that are built for declared ones, in order, inside messages with the long names of a
path. -/
inductive Fields.Built (c : Catalogue) : List String → String → List Schema.Field → Fields → Prop
  | nil {path : List String} {package : String} : Built c path package [] nil
  | absent {path : List String} {package : String} {f : Schema.Field} {fs : List Schema.Field}
    {shown : Fields} (other : ∀ t, f.type ≠ .scalar t)
    (closed : ∀ m, f.type = .message → c.resolve? f.label package = some m →
      m.longName ∈ path ∨ maxLevels ≤ path.length)
    (rest : Built c path package fs shown) : Built c path package (f :: fs) shown
  | scalar {path : List String} {package : String} {f : Schema.Field} {fs : List Schema.Field}
    {shown : Fields} {s : Scalar} (type : f.type = .scalar s.type)
    (rest : Built c path package fs shown) : Built c path package (f :: fs) (scalar f.tag s shown)
  | nested {path : List String} {package : String} {f : Schema.Field} {fs : List Schema.Field}
    {shown inside : Fields} {m : Schema.Message} (type : f.type = .message)
    (resolved : c.resolve? f.label package = some m)
    (inner : Built c (m.longName :: path) m.package m.fields inside)
    (rest : Built c path package fs shown) :
    Built c path package (f :: fs) (nested f.tag m.header inside shown)

/-- A message that is built for a schema, inside messages with the long names of a path. -/
def Message.BuiltFor (c : Catalogue) (path : List String) (m : Schema.Message) (p : Message) :
    Prop :=
  p.header = m.header ∧ p.fields.Built c (m.longName :: path) m.package m.fields

variable {σ : Type} {d : Decoder σ} {c : Catalogue} {path : List String} {package : String}
variable {m : Schema.Message} {p v : Message}

/-- What a field may be given: a value of its type, or nothing where a nested message is left
out. -/
def Schema.Field.Takes (c : Catalogue) (path : List String) (package : String) (f : Schema.Field) :
    Option Value → Prop
  | none => (∀ t, f.type ≠ .scalar t) ∧ ∀ m, f.type = .message →
      c.resolve? f.label package = some m → m.longName ∈ path ∨ maxLevels ≤ path.length
  | some (.scalar s) => f.type = .scalar s.type
  | some (.record r) => f.type = .message ∧ c.resolve? f.label package = some r.schema ∧
      r.view.fields.Built c (r.schema.longName :: path) r.schema.package r.schema.fields

namespace Record

theorem built_of_takes {fs : List Schema.Field} (distinct : (fs.map (·.id)).Nodup)
    (takes : ∀ f ∈ fs, ∀ s, f.Takes c path package (decoded? d c path package f s).1)
    {entries : Entries} (fresh : ∀ f ∈ fs, entries.get? f.id = none) (s : σ) :
    (Fields.arrange (addDecoded d c path package fs entries s).1.content? fs).Built
      c path package fs := by
  induction fs generalizing entries s with
  | nil => exact .nil
  | cons f fs ih =>
    rw [List.map_cons, List.nodup_cons] at distinct
    rw [List.forall_mem_cons] at takes fresh
    have given := takes.1 s
    have behind : ∀ g ∈ fs,
        (entries.put f.id (decoded? d c path package f s).1).get? g.id = none := by
      intro g mem
      have other := ne_of_mem_of_not_mem (List.mem_map_of_mem mem) distinct.1
      rw [Entries.get?_put_of_ne other.symm, fresh.2 g mem]
    have rest := ih distinct.2 takes.2 behind (decoded? d c path package f s).2
    rw [addDecoded_cons, Fields.arrange, Entries.content?_eq, get?_addDecoded_of_ne distinct.1,
      Entries.get?_put_self fresh.1]
    cases value : (decoded? d c path package f s).1 with
    | none =>
      rw [value] at given rest
      exact .absent given.1 given.2 rest
    | some v =>
      rw [value] at given rest
      cases v with
      | scalar x => exact .scalar given rest
      | record r => exact .nested given.1 given.2.1 given.2.2 rest

/-- Whatever a decoder reads, it gives each field what the field may take. -/
theorem takes_decoded? (ids : ∀ m ∈ c, (m.fields.map (·.id)).Nodup) (path : List String)
    (package : String) (f : Schema.Field) (s : σ) :
    f.Takes c path package (decoded? d c path package f s).1 := by
  induction room : maxLevels - path.length using Nat.strongRecOn
    generalizing path package f s with
  | ind n ih =>
    subst room
    rw [decoded?]
    cases type : f.type with
    | undefined =>
      refine ⟨fun t scalar => ?_, fun m message => ?_⟩
      · cases type.symm.trans scalar
      · cases type.symm.trans message
    | scalar t => exact type
    | message =>
      have other : ∀ t, f.type ≠ .scalar t := by
        intro t scalar
        cases type.symm.trans scalar
      dsimp only
      cases resolved : c.resolve? f.label package with
      | none =>
        refine ⟨other, fun m _ found => ?_⟩
        cases resolved.symm.trans found
      | some m =>
        dsimp only
        rw [decodedInner?]
        split
        · rename_i around
          refine ⟨other, fun m' _ found => .inl ?_⟩
          obtain rfl := Option.some.inj (resolved.symm.trans found)
          simp only [Bool.and_eq_true, decide_eq_true_eq] at around
          exact around.2
        · split
          · rename_i deep
            exact ⟨other, fun _ _ _ => .inr deep⟩
          · rename_i shallow
            have fields := ids m (Schema.Catalogue.mem_of_resolve? resolved)
            refine ⟨type, resolved, built_of_takes fields (fun g _ s => ?_) (fun _ _ => rfl) _⟩
            refine ih _ ?_ _ _ g s rfl
            rw [List.length_cons]
            omega

theorem built_ofDecoder (ids : ∀ m ∈ c, (m.fields.map (·.id)).Nodup) (mem : m ∈ c) (s : σ) :
    Message.BuiltFor c [] m (ofDecoder d m c s).1.view :=
  ⟨rfl, built_of_takes (ids m mem) (fun f _ s => takes_decoded? ids _ _ f s) (fun _ _ => rfl) _⟩

end Record

namespace Fields.Built

variable {fs : List Schema.Field} {shown : Fields}

/-- Declared fields keep their identifiers, their names and their order. -/
theorem sublist_listed (built : shown.Built c path package fs) :
    (shown.listed.map fun f => (f.id, f.name)).Sublist (fs.map fun f => (f.id, f.name)) := by
  induction built with
  | nil => exact .slnil
  | absent _ _ _ ih => exact ih.cons _
  | scalar _ _ ih => exact ih.cons_cons _
  | nested _ _ _ _ _ ih => exact ih.cons_cons _

/-- A nested message is built for the type that the label of its field resolves to. -/
theorem exists_of_held (built : shown.Built c path package fs) {x : FieldTag × Message}
    (held : x ∈ shown.held) :
    ∃ f ∈ fs, ∃ m, f.type = .message ∧ c.resolve? f.label package = some m ∧ x.1 = f.tag ∧
      x.2.BuiltFor c path m := by
  induction built with
  | nil => cases held
  | absent _ _ _ ih =>
    obtain ⟨f, mem, found⟩ := ih held
    exact ⟨f, List.mem_cons_of_mem _ mem, found⟩
  | scalar _ _ ih =>
    obtain ⟨f, mem, found⟩ := ih held
    exact ⟨f, List.mem_cons_of_mem _ mem, found⟩
  | nested type resolved inner _ _ ih =>
    rcases List.mem_cons.1 held with rfl | held
    · exact ⟨_, List.mem_cons_self .., _, type, resolved, rfl, rfl, inner⟩
    · obtain ⟨f, mem, found⟩ := ih held
      exact ⟨f, List.mem_cons_of_mem _ mem, found⟩

end Fields.Built

end MessageCodec
