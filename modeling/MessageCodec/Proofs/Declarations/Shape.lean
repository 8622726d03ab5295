import MessageCodec.Proofs.Declarations.Reading
import MessageCodec.Proofs.Record.Default

/-! Records of a declared type. Where the nested fields of a message resolve to the declarations
of the messages in them, the default record of its declaration has the shape of the message. -/

namespace MessageCodec

open Declarations (dotted)
open Schema (Catalogue)

namespace Fields

/-- Each nested field, at every depth, resolves to the declaration of the message in it. -/
def ResolvedBy (c : Catalogue) : Fields → Prop
  | nil => True
  | scalar _ _ rest => rest.ResolvedBy c
  | nested tag header inner rest =>
    c.resolve? (dotted tag.label) "" = some (Message.declaration ⟨header, inner⟩) ∧
      inner.ResolvedBy c ∧ rest.ResolvedBy c

/-- No message in the tree is nested in one of its own name. -/
def Unrepeated : Fields → Prop
  | nil => True
  | scalar _ _ rest => rest.Unrepeated
  | nested _ header inner rest =>
    (∀ p ∈ inner.inner, p.header.longName ≠ header.longName) ∧ inner.Unrepeated ∧ rest.Unrepeated

variable {c : Catalogue} {m : Message} {fs : Fields}

theorem ResolvedBy.of_held (resolved : fs.ResolvedBy c) {x : FieldTag × Message}
    (held : x ∈ fs.held) :
    c.resolve? (dotted x.1.label) "" = some x.2.declaration ∧ x.2.fields.ResolvedBy c := by
  induction fs with
  | nil => cases held
  | scalar tag s rest ih => exact ih resolved held
  | nested tag header inner rest _ ih =>
    rcases List.mem_cons.1 held with rfl | held
    · exact ⟨resolved.1, resolved.2.1⟩
    · exact ih resolved.2.2 held

/-- What holds of the nested messages of each part holds at every depth. -/
theorem resolvedBy_of_parts
    (resolves : ∀ p ∈ m.parts, ∀ x ∈ p.fields.held,
      c.resolve? (dotted x.1.label) "" = some x.2.declaration)
    (here : ∀ x ∈ fs.held,
      x.2 ∈ m.parts ∧ c.resolve? (dotted x.1.label) "" = some x.2.declaration) :
    fs.ResolvedBy c := by
  induction fs with
  | nil => trivial
  | scalar tag s rest ih => exact ih here
  | nested tag header inner rest ihInner ih =>
    simp only [held, List.forall_mem_cons] at here
    refine ⟨here.1.2, ihInner fun x inside => ?_, ih here.2⟩
    exact ⟨Message.held_mem_parts here.1.1 inside, resolves _ here.1.1 x inside⟩

theorem unrepeated_of_inner
    (apart : ∀ p ∈ fs.inner, ∀ q ∈ p.fields.inner, q.header.longName ≠ p.header.longName) :
    fs.Unrepeated := by
  induction fs with
  | nil => trivial
  | scalar tag s rest ih => exact ih apart
  | nested tag header inner rest ihInner ih =>
    simp only [Fields.inner, List.forall_mem_append, List.forall_mem_cons] at apart
    exact ⟨apart.2.1, ihInner apart.1, ih apart.2.2⟩

theorem distinct_of_inner (here : fs.ids.Nodup) (inside : ∀ p ∈ fs.inner, p.fields.ids.Nodup) :
    fs.Distinct := by
  induction fs with
  | nil => trivial
  | scalar tag s rest ih =>
    rw [ids, List.nodup_cons] at here
    exact ⟨here.1, ih here.2 inside⟩
  | nested tag header inner rest ihInner ih =>
    rw [ids, List.nodup_cons] at here
    simp only [Fields.inner, List.forall_mem_append, List.forall_mem_cons] at inside
    exact ⟨here.1, ihInner inside.2.1 inside.1, ih here.2 inside.2.2⟩

end Fields

/-- The types held by a declaration are those nested in the message, so there are no more levels
of them. -/
theorem Message.nestsWithin_declaration {c : Catalogue} {m : Message}
    (resolved : m.fields.ResolvedBy c) : c.NestsWithin m.levels m.declaration := by
  induction m using Message.held_induction with
  | step m ih =>
    rw [levels]
    refine Catalogue.nestsWithin_succ fun s holds => ?_
    obtain ⟨f, declared, type, found⟩ := holds
    rcases Fields.mem_listed declared with ⟨t, eq⟩ | ⟨x, held, rfl⟩
    · rw [eq] at type
      cases type
    · obtain ⟨label, inside⟩ := resolved.of_held held
      obtain rfl : x.2.declaration = s := Option.some.inj (label.symm.trans found)
      exact (ih x held inside).mono (Fields.levels_lt_of_held held)

namespace Record

theorem matches_defaults {c : Catalogue} {fs : Fields} (resolved : fs.ResolvedBy c)
    (distinct : fs.Distinct) (unrepeated : fs.Unrepeated) (path : List String)
    (fresh : ∀ p ∈ fs.inner, p.header.longName ∉ path) {entries : Entries}
    (filled : ∀ f ∈ fs.listed, entries.get? f.id = default? c path "" f) :
    fs.zeroed.Matches (Fields.arrange entries.content? fs.listed) := by
  induction fs generalizing path entries with
  | nil => trivial
  | scalar tag s rest ih =>
    rw [Fields.listed, List.forall_mem_cons] at filled
    have here : entries.content? tag.id = some (.scalar ⟨s.type, s.type.zero⟩) := by
      rw [Entries.content?_eq, filled.1]
      rfl
    rw [Fields.listed, Fields.arrange, here]
    exact ⟨rfl, rfl, ih resolved distinct.2 unrepeated path fresh filled.2⟩
  | nested tag header inner rest ihInner ih =>
    rw [Fields.listed, List.forall_mem_cons] at filled
    simp only [Fields.inner, List.forall_mem_append, List.forall_mem_cons] at fresh
    obtain ⟨freshInner, new, freshRest⟩ := fresh
    let part : Message := ⟨header, inner⟩
    let built := addDefaults c (header.longName :: path) "" inner.listed .nil
    have here : entries.content? tag.id =
        some (.message ⟨part.declaration.header, Fields.arrange built.content? inner.listed⟩) := by
      have default : entries.get? tag.id =
          default? c path "" (.nested (dotted tag.label) tag.name tag.id) := filled.1
      rw [Entries.content?_eq, default, default?]
      simp only [Schema.Field.nested, resolved.1, Option.bind_some, Message.longName_declaration,
        new, ↓reduceIte]
      rfl
    have inside : inner.zeroed.Matches (Fields.arrange built.content? inner.listed) := by
      refine ihInner resolved.2.1 distinct.2.1 unrepeated.2.1 (header.longName :: path)
        (fun p mem => ?_) fun f mem => ?_
      · rw [List.mem_cons, not_or]
        exact ⟨unrepeated.1 p mem, freshInner p mem⟩
      · refine get?_addDefaults_of_mem ?_ mem rfl
        rw [Fields.ids_listed]
        exact distinct.2.1.nodup_ids
    have behind := ih resolved.2.2 distinct.2.2 unrepeated.2.2 path freshRest filled.2
    rw [Fields.listed, Fields.arrange]
    simp only [Schema.Field.nested, here]
    exact ⟨rfl, inside, behind⟩

/-- The default record of a declaration has the shape of the message that is declared. -/
theorem matches_ofSchema {c : Catalogue} {m : Message} (resolved : m.fields.ResolvedBy c)
    (distinct : m.fields.Distinct) (unrepeated : m.fields.Unrepeated)
    (fresh : ∀ p ∈ m.fields.inner, p.header.longName ≠ m.header.longName) :
    m.fields.zeroed.Matches (ofSchema m.declaration c).view.fields := by
  refine matches_defaults resolved distinct unrepeated [m.header.longName]
    (fun p mem => ?_) fun f mem => ?_
  · rw [List.mem_singleton]
    exact fresh p mem
  · rw [← Message.longName_declaration]
    refine get?_addDefaults_of_mem ?_ mem rfl
    rw [Fields.ids_listed]
    exact distinct.nodup_ids

end Record

end MessageCodec
