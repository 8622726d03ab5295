import MessageCodec.Declarations
import MessageCodec.Proofs.Fields
import MessageCodec.Proofs.Schema.Listing

/-! The parts of a message, and what a specification declares for each of them. The pass that
writes the specification collects the texts of the parts; a part that contributes the same text
as an earlier one adds nothing. -/

namespace MessageCodec

namespace Fields

/-- The nested messages among fields, each with the tag of its field. -/
def held : Fields → List (FieldTag × Message)
  | nil => []
  | scalar _ _ rest => rest.held
  | nested tag header inner rest => (tag, ⟨header, inner⟩) :: rest.held

/-- The messages that are nested in fields at any depth, each after those nested in it. -/
def inner : Fields → List Message
  | nil => []
  | scalar _ _ rest => rest.inner
  | nested _ header fs rest => fs.inner ++ ⟨header, fs⟩ :: rest.inner

/-- The fields as a specification declares them. -/
def listed : Fields → List Schema.Field
  | nil => []
  | scalar tag s rest =>
    ⟨.scalar s.type, s.type.token, tag.name, tag.id, some (Declarations.defaultLiteral s.type)⟩ ::
      rest.listed
  | nested tag _ _ rest => .nested (Declarations.dotted tag.label) tag.name tag.id :: rest.listed

end Fields

namespace Message

/-- A message after all messages that are nested in it. -/
def parts (m : Message) : List Message := m.fields.inner ++ [m]

/-- What a specification declares for a message. -/
def declaration (m : Message) : Schema.Message :=
  ⟨"", m.header.longName, m.header.id, m.fields.listed⟩

theorem self_mem_parts (m : Message) : m ∈ m.parts := by simp [parts]

end Message

namespace Fields

variable {fs : Fields} {m p : Message} {x : FieldTag × Message}

theorem ids_listed (fs : Fields) : fs.listed.map (·.id) = fs.ids := by
  induction fs with
  | nil => rfl
  | scalar tag s rest ih => exact congrArg (tag.id :: ·) ih
  | nested tag header inner rest _ ih => exact congrArg (tag.id :: ·) ih

theorem mem_listed {f : Schema.Field} (mem : f ∈ fs.listed) :
    (∃ t, f = ⟨.scalar t, t.token, f.name, f.id, some (Declarations.defaultLiteral t)⟩) ∨
      ∃ x ∈ fs.held, f = .nested (Declarations.dotted x.1.label) x.1.name x.1.id := by
  induction fs with
  | nil => cases mem
  | scalar tag s rest ih =>
    rcases List.mem_cons.1 mem with rfl | mem
    · exact .inl ⟨s.type, rfl⟩
    · exact ih mem
  | nested tag header inner rest _ ih =>
    rcases List.mem_cons.1 mem with rfl | mem
    · exact .inr ⟨_, List.mem_cons_self .., rfl⟩
    · exact (ih mem).imp_right fun ⟨x, held, eq⟩ => ⟨x, List.mem_cons_of_mem _ held, eq⟩

theorem parts_subset_inner (held : x ∈ fs.held) : x.2.parts ⊆ fs.inner := by
  induction fs with
  | nil => cases held
  | scalar tag s rest ih => exact ih held
  | nested tag header inner rest _ ih =>
    rcases List.mem_cons.1 held with rfl | held
    · intro p mem
      simp only [Message.parts, List.mem_append, List.mem_singleton] at mem
      rcases mem with mem | rfl <;> simp [Fields.inner, *]
    · exact fun p mem => List.mem_append_right _ (List.mem_cons_of_mem _ (ih held mem))

theorem mem_inner_of_held (held : x ∈ fs.held) : x.2 ∈ fs.inner :=
  parts_subset_inner held x.2.self_mem_parts

theorem exists_held_of_mem_inner (mem : p ∈ fs.inner) : ∃ x ∈ fs.held, p ∈ x.2.parts := by
  induction fs with
  | nil => cases mem
  | scalar tag s rest ih => exact ih mem
  | nested tag header inner rest _ ih =>
    rw [Fields.inner, List.append_cons, List.mem_append] at mem
    rcases mem with mem | mem
    · exact ⟨_, List.mem_cons_self .., mem⟩
    · obtain ⟨x, held, part⟩ := ih mem
      exact ⟨x, List.mem_cons_of_mem _ held, part⟩

theorem levels_lt_of_held (held : x ∈ fs.held) : x.2.fields.levels < fs.levels := by
  induction fs with
  | nil => cases held
  | scalar tag s rest ih => exact ih held
  | nested tag header inner rest _ ih =>
    rw [levels]
    rcases List.mem_cons.1 held with rfl | held
    · exact Nat.lt_of_succ_le (Nat.le_max_left ..)
    · exact Nat.lt_of_lt_of_le (ih held) (Nat.le_max_right ..)

/-- What holds of fields when it holds of the fields of the messages in them holds of all fields. -/
theorem held_induction {holds : Fields → Prop}
    (step : ∀ fs : Fields, (∀ x ∈ fs.held, holds x.2.fields) → holds fs) (fs : Fields) :
    holds fs := by
  induction depth : fs.levels using Nat.strongRecOn generalizing fs with
  | ind n ih =>
    subst depth
    exact step fs fun x held => ih _ (levels_lt_of_held held) x.2.fields rfl

theorem levels_lt_of_mem_inner (mem : p ∈ fs.inner) : p.fields.levels < fs.levels := by
  induction fs using held_induction generalizing p with
  | step fs ih =>
    obtain ⟨x, held, part⟩ := exists_held_of_mem_inner mem
    have lower := levels_lt_of_held held
    rw [Message.parts, List.mem_append, List.mem_singleton] at part
    rcases part with part | rfl
    · exact Nat.lt_trans (ih x held part) lower
    · exact lower

/-- The parts of a part of a message are parts of it. -/
theorem inner_subset_of_mem_inner (mem : p ∈ fs.inner) : p.fields.inner ⊆ fs.inner := by
  induction fs using held_induction generalizing p with
  | step fs ih =>
    obtain ⟨x, held, part⟩ := exists_held_of_mem_inner mem
    have whole : x.2.fields.inner ⊆ fs.inner := fun q mem =>
      parts_subset_inner held (List.mem_append_left _ mem)
    rw [Message.parts, List.mem_append, List.mem_singleton] at part
    rcases part with part | rfl
    · exact List.Subset.trans (ih x held part) whole
    · exact whole

end Fields

namespace Message

variable {m p : Message}

theorem inner_subset_parts (part : p ∈ m.parts) : p.fields.inner ⊆ m.parts := by
  rw [parts, List.mem_append, List.mem_singleton] at part
  rcases part with mem | rfl
  · exact fun q inside => List.mem_append_left _ (Fields.inner_subset_of_mem_inner mem inside)
  · exact List.subset_append_left ..

theorem held_mem_parts (part : p ∈ m.parts) {x : FieldTag × Message} (held : x ∈ p.fields.held) :
    x.2 ∈ m.parts :=
  inner_subset_parts part (Fields.mem_inner_of_held held)

/-- What holds of a message when it holds of the messages in its fields holds of all messages. -/
theorem held_induction {holds : Message → Prop}
    (step : ∀ m, (∀ x ∈ m.fields.held, holds x.2) → holds m) (m : Message) : holds m := by
  obtain ⟨header, fs⟩ := m
  induction fs using Fields.held_induction generalizing header with
  | step fs ih => exact step ⟨header, fs⟩ fun x held => ih x held x.2.header

/-- What holds of a message and goes on from each message to those in its fields holds of all
parts. -/
theorem parts_induction {holds : Message → Prop} (whole : holds m)
    (step : ∀ p, holds p → ∀ x ∈ p.fields.held, holds x.2) : ∀ p ∈ m.parts, holds p := by
  induction m using held_induction with
  | step m ih =>
    intro p part
    rw [parts, List.mem_append, List.mem_singleton] at part
    rcases part with inside | rfl
    · obtain ⟨x, held, part⟩ := Fields.exists_held_of_mem_inner inside
      exact ih x held (step m whole x held) p part
    · exact whole

end Message

namespace Declarations

section Adjoin

variable {α β : Type} [DecidableEq α] [DecidableEq β]

/-- A list with the elements of another one behind it that it does not have yet. -/
def adjoin (known new : List α) : List α :=
  new.foldl (fun known a => if known.contains a then known else known ++ [a]) known

theorem adjoin_nil (known : List α) : adjoin known [] = known := rfl

theorem adjoin_cons (known : List α) (a : α) (new : List α) :
    adjoin known (a :: new) = adjoin (if a ∈ known then known else known ++ [a]) new := by
  simp [adjoin]

theorem adjoin_append (known xs ys : List α) :
    adjoin known (xs ++ ys) = adjoin (adjoin known xs) ys := List.foldl_append

theorem adjoin_singleton (known : List α) (a : α) :
    adjoin known [a] = if a ∈ known then known else known ++ [a] := by
  simp [adjoin]

theorem mem_adjoin {known new : List α} {a : α} : a ∈ adjoin known new ↔ a ∈ known ∨ a ∈ new := by
  induction new generalizing known with
  | nil => simp [adjoin]
  | cons b new ih =>
    rw [adjoin_cons, ih]
    split <;> grind

theorem nodup_adjoin {known : List α} (nodup : known.Nodup) (new : List α) :
    (adjoin known new).Nodup := by
  induction new generalizing known with
  | nil => exact nodup
  | cons a new ih =>
    rw [adjoin_cons]
    split
    · exact ih nodup
    · rename_i fresh
      refine ih (List.nodup_append.2 ⟨nodup, by simp, fun b mem c single same => ?_⟩)
      obtain rfl := List.mem_singleton.1 single
      exact fresh (same ▸ mem)

/-- What a list leaves out because it has it already adds nothing to another list. -/
theorem adjoin_adjoin (known xs ys : List α) :
    adjoin known (adjoin xs ys) = adjoin (adjoin known xs) ys := by
  induction ys generalizing xs with
  | nil => rfl
  | cons y ys ih =>
    rw [adjoin_cons, ih, adjoin_cons]
    split
    · rename_i mem
      rw [if_pos (mem_adjoin.2 (.inr mem))]
    · rw [adjoin_append, adjoin_singleton]

/-- Elements may be told apart by what a function gives for them. -/
theorem adjoin_map {f : α → β} {known new : List α}
    (injective : ∀ a ∈ known ++ new, ∀ b ∈ known ++ new, f a = f b → a = b) :
    adjoin (known.map f) (new.map f) = (adjoin known new).map f := by
  induction new generalizing known with
  | nil => rfl
  | cons a new ih =>
    have same : f a ∈ known.map f ↔ a ∈ known := by
      refine ⟨fun mem => ?_, List.mem_map_of_mem⟩
      obtain ⟨b, mem, equal⟩ := List.mem_map.1 mem
      rwa [← injective b (by simp [mem]) a (by simp) equal]
    have shift : (if f a ∈ known.map f then known.map f else known.map f ++ [f a]) =
        (if a ∈ known then known else known ++ [a]).map f := by
      simp only [same]
      split <;> simp
    rw [List.map_cons, adjoin_cons, adjoin_cons, shift]
    refine ih fun x hx y hy => injective x ?_ y ?_
    · split at hx <;> grind
    · split at hy <;> grind

end Adjoin

theorem declare_eq (d inner : Declarations) :
    d.declare inner = { d with nested := adjoin d.nested (inner.nested ++ [inner.current]) } := rfl

def lines (fs : Fields) : String :=
  String.join (fs.listed.map fun f => Schema.fieldLine f.label f.name f.default? f.id)

/-- A walk over fields adds the texts of what is nested in them, and writes a line for each. -/
theorem walk_pass (fs : Fields) (d : Declarations) :
    (fs.walk pass d).2 =
      ⟨adjoin d.nested (fs.inner.map fun p => p.declaration.text), d.current ++ lines fs⟩ := by
  induction fs generalizing d with
  | nil => simp [Fields.walk, Fields.inner, lines, Fields.listed, adjoin]
  | scalar tag s rest ih =>
    refine (ih _).trans ?_
    simp [write, Fields.inner, lines, Fields.listed, String.append_assoc]
  | nested tag header fs rest ihInner ih =>
    have opened := ihInner (empty.write (Schema.openingLine header.longName header.id))
    have part : (fs.walk pass (pass.start header empty)).2.write "\x7d\n" =
        ⟨adjoin [] (fs.inner.map fun p => p.declaration.text),
          (Message.mk header fs).declaration.text⟩ := by
      refine (congrArg (write · "\x7d\n") opened).trans ?_
      simp [write, empty, lines, Schema.Message.text, Message.declaration]
    have step : ((Fields.nested tag header fs rest).walk pass d).2 =
        (rest.walk pass (pass.leave tag
          ((fs.walk pass (pass.start header empty)).2.write "\x7d\n") d)).2 := rfl
    rw [step, part, ih]
    simp [pass, write, declare_eq, adjoin_append, adjoin_adjoin, adjoin_cons, adjoin_nil,
      Fields.inner, lines, Fields.listed, Schema.Field.nested, String.append_assoc]

end Declarations

/-- The specification of a message has the text of each nested message, the first time it comes up,
and then its own. -/
theorem Message.specification_eq (m : Message) :
    m.specification =
      String.join (Declarations.adjoin [] (m.fields.inner.map fun p => p.declaration.text)) ++
        m.declaration.text := by
  have walked := Declarations.walk_pass m.fields
    (Declarations.empty.write (Schema.openingLine m.header.longName m.header.id))
  have whole : m.specification =
      ((m.fields.walk Declarations.pass (Declarations.pass.start m.header .empty)).2.write
        "\x7d\n").text := rfl
  refine whole.trans ((congrArg (fun d => (d.write "\x7d\n").text) walked).trans ?_)
  simp [Declarations.write, Declarations.empty, Declarations.text, Declarations.lines,
    Schema.Message.text, declaration, String.append_assoc]

end MessageCodec
