import MessageCodec.Message
import MessageCodec.Record.Basic

/-! Shapes of messages. Two lists of fields are alike when they have the same
identifiers and types in the same order at every depth; names, labels and values
may differ. They match when they have the same values, too. -/

namespace MessageCodec

namespace Fields

def ids : Fields → List UInt32
  | nil => []
  | scalar tag _ rest => tag.id :: rest.ids
  | nested tag _ _ rest => tag.id :: rest.ids

/-- No message in the tree has two fields of one identifier. -/
def Distinct : Fields → Prop
  | nil => True
  | scalar tag _ rest => tag.id ∉ rest.ids ∧ rest.Distinct
  | nested tag _ inner rest => tag.id ∉ rest.ids ∧ inner.Distinct ∧ rest.Distinct

theorem Distinct.nodup_ids {fs : Fields} (distinct : fs.Distinct) : fs.ids.Nodup := by
  induction fs with
  | nil => exact List.nodup_nil
  | scalar tag s rest ih => exact List.nodup_cons.2 ⟨distinct.1, ih distinct.2⟩
  | nested tag header inner rest _ ih => exact List.nodup_cons.2 ⟨distinct.1, ih distinct.2.2⟩

def content? : Fields → UInt32 → Option Content
  | nil, _ => none
  | scalar tag s rest, i => if tag.id = i then some (.scalar s) else rest.content? i
  | nested tag header inner rest, i =>
    if tag.id = i then some (.message ⟨header, inner⟩) else rest.content? i

theorem mem_ids_of_content? {fs : Fields} {i : UInt32} {x : Content}
    (held : fs.content? i = some x) : i ∈ fs.ids := by
  induction fs with
  | nil => cases held
  | scalar tag s rest ih =>
    rw [content?] at held
    split at held
    · rename_i own
      exact List.mem_cons.2 (.inl own.symm)
    · exact List.mem_cons_of_mem _ (ih held)
  | nested tag header inner rest _ ih =>
    rw [content?] at held
    split at held
    · rename_i own
      exact List.mem_cons.2 (.inl own.symm)
    · exact List.mem_cons_of_mem _ (ih held)

def levels : Fields → Nat
  | nil => 0
  | scalar _ _ rest => rest.levels
  | nested _ _ inner rest => max (inner.levels + 1) rest.levels

/-- The same identifiers and types in the same order, at every depth. -/
def Alike : Fields → Fields → Prop
  | nil, nil => True
  | scalar tag s rest, scalar tag' s' rest' =>
    tag.id = tag'.id ∧ s.type = s'.type ∧ Alike rest rest'
  | nested tag _ inner rest, nested tag' _ inner' rest' =>
    tag.id = tag'.id ∧ Alike inner inner' ∧ Alike rest rest'
  | _, _ => False

/-- The same identifiers and values in the same order, at every depth. -/
def Matches : Fields → Fields → Prop
  | nil, nil => True
  | scalar tag s rest, scalar tag' s' rest' => tag.id = tag'.id ∧ s = s' ∧ Matches rest rest'
  | nested tag _ inner rest, nested tag' _ inner' rest' =>
    tag.id = tag'.id ∧ Matches inner inner' ∧ Matches rest rest'
  | _, _ => False

/-- The same fields before anything is stored in them. -/
def zeroed : Fields → Fields
  | nil => nil
  | scalar tag s rest => scalar tag ⟨s.type, s.type.zero⟩ rest.zeroed
  | nested tag header inner rest => nested tag header inner.zeroed rest.zeroed

theorem alike_zeroed (fs : Fields) : fs.Alike fs.zeroed := by
  induction fs with
  | nil => trivial
  | scalar tag s rest ih => exact ⟨rfl, rfl, ih⟩
  | nested tag header inner rest ihInner ih => exact ⟨rfl, ihInner, ih⟩

end Fields

def Message.levels (m : Message) : Nat := m.fields.levels + 1

def Message.zeroed (m : Message) : Message := ⟨m.header, m.fields.zeroed⟩

end MessageCodec
