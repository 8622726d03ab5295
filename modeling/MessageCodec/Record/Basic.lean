import MessageCodec.Message
import MessageCodec.Schema.Basic

/-! Records: messages whose shape is given by a schema at run time. The values are kept by field
identifier. A field of the schema that has no entry is passed over, and the catalogue of schemas
that the record was made with stays with it. -/

namespace MessageCodec

open Schema (Catalogue FieldType)

/-- The values of a record, each with the identifier it is kept under. -/
inductive Entries where
  | nil
  | scalar (id : UInt32) (s : Scalar) (rest : Entries)
  | record (id : UInt32) (schema : Schema.Message) (catalogue : Catalogue) (inner rest : Entries)

structure Record where
  schema : Schema.Message
  catalogue : Catalogue
  entries : Entries

inductive Value where
  | scalar (s : Scalar)
  | record (r : Record)

def Value.type : Value → FieldType
  | scalar s => .scalar s.type
  | record _ => .message

namespace Entries

def get? : Entries → UInt32 → Option Value
  | nil, _ => none
  | scalar id s rest, wanted => if id = wanted then some (.scalar s) else rest.get? wanted
  | record id schema catalogue inner rest, wanted =>
    if id = wanted then some (.record ⟨schema, catalogue, inner⟩) else rest.get? wanted

def cons (id : UInt32) (v : Value) (rest : Entries) : Entries :=
  match v with
  | .scalar s => scalar id s rest
  | .record r => record id r.schema r.catalogue r.entries rest

/-- Keeps a value under an identifier, in place of the one that is there or else after all. -/
def insert (id : UInt32) (v : Value) : Entries → Entries
  | nil => cons id v nil
  | scalar id' s rest => if id' = id then cons id v rest else scalar id' s (rest.insert id v)
  | record id' schema catalogue inner rest =>
    if id' = id then cons id v rest
    else record id' schema catalogue inner (rest.insert id v)

def size : Entries → Nat
  | nil => 0
  | scalar _ _ rest => rest.size + 1
  | record _ _ _ _ rest => rest.size + 1

/-- How deep records are nested in entries. -/
def levels : Entries → Nat
  | nil => 0
  | scalar _ _ rest => rest.levels
  | record _ _ _ inner rest => max (inner.levels + 1) rest.levels

/-- Does every entry have one with the same value among the others? -/
def within : Entries → Entries → Bool
  | nil, _ => true
  | scalar id s rest, others =>
    (match others.get? id with
      | some (.scalar s') => s.sameValue s'
      | _ => false) && rest.within others
  | record id schema _ inner rest, others =>
    (match others.get? id with
      | some (.record r) =>
        schema == r.schema && inner.size == r.entries.size && inner.within r.entries
      | _ => false) && rest.within others

end Entries

def Schema.Field.tag (f : Schema.Field) : FieldTag := ⟨f.id, f.label, f.name⟩

def Schema.Message.header (m : Schema.Message) : Header := ⟨m.id, m.shortName, m.longName⟩

/-- Why a value cannot be read or stored. -/
inductive AccessError where
  | fieldNotFound (field : String)
  | typeMismatch (expected got : FieldType)
  deriving DecidableEq

def AccessError.message : AccessError → String
  | fieldNotFound field => "Field not found: " ++ field
  | typeMismatch expected got =>
    "Type mismatch: expected " ++ expected.token ++ ", got " ++ got.token

namespace Record

/-- A change of a record. If it fails, the record stays as the change has left it. -/
abbrev Access := EStateM AccessError Record

def value? (r : Record) (id : UInt32) : Option Value := r.entries.get? id

def valueByName? (r : Record) (name : String) : Option Value := do
  let f ← r.schema.fieldByName? name
  r.value? f.id

/-- The value of a field, which must have the type that is asked for. -/
def get (r : Record) (name : String) (wanted : FieldType) : Except AccessError Value :=
  match r.schema.fieldByName? name with
  | none => .error (.fieldNotFound name)
  | some f =>
    match r.value? f.id with
    | none => .error (.fieldNotFound name)
    | some v => if v.type = wanted then .ok v else .error (.typeMismatch f.type v.type)

/-- Stores a value in the field with an identifier; the types must agree. -/
def setById (id : UInt32) (v : Value) : Access Unit := do
  let r ← getThe Record
  match r.schema.fieldById? id with
  | none => throw (.fieldNotFound (toString id.toNat))
  | some f =>
    if v.type = f.type then
      modify fun r => { r with entries := r.entries.insert id v }
    else
      throw (.typeMismatch f.type v.type)

/-- Stores a value in the field with a name; the types must agree. -/
def set (name : String) (v : Value) : Access Unit := do
  let r ← getThe Record
  match r.schema.fieldByName? name with
  | none => throw (.fieldNotFound name)
  | some f => setById f.id v

/-- Puts a value in the place of one that is there, whatever their types. -/
def replace? (r : Record) (id : UInt32) (v : Value) : Option Record :=
  (r.value? id).map fun _ => { r with entries := r.entries.insert id v }

/-- The fields that have a value, in the order of the schema. -/
def fields (r : Record) : List (Schema.Field × Value) :=
  r.schema.fields.filterMap fun f => (r.value? f.id).map (f, ·)

/-- Equality of records: the same schema, and the same values under the same identifiers. -/
def sameValue (a b : Record) : Bool :=
  a.schema == b.schema && a.entries.size == b.entries.size && a.entries.within b.entries

variable {σ : Type}

/-- Walks over one declared field; `walkInner` walks over a nested record. -/
def walkField (p : Pass σ) (walkInner : Record → σ → Record × σ) (state : Entries × σ)
    (f : Schema.Field) : Entries × σ :=
  let (entries, s) := state
  match entries.get? f.id with
  | none => (entries, s)
  | some (.scalar ⟨t, v⟩) =>
    let (v, s) := p.scalar f.tag t v s
    (entries.insert f.id (.scalar ⟨t, v⟩), s)
  | some (.record r) =>
    let (r, s) := p.descend (walkInner r) f.tag r s
    (entries.insert f.id (.record r), s)

/-- Walks over a record that is at most so many levels deep. -/
def walkWithin (p : Pass σ) : Nat → Record → σ → Record × σ
  | 0, r, s => (r, s)
  | levels + 1, r, s =>
    let (entries, s) := r.schema.fields.foldl (walkField p (walkWithin p levels))
      (r.entries, p.start r.schema.header s)
    ({ r with entries }, p.finish s)

/-- Walks over a record: the fields that have a value, in the order of the schema. -/
def walk (p : Pass σ) (r : Record) (s : σ) : Record × σ :=
  r.walkWithin p (r.entries.levels + 1) s

end Record

inductive Content where
  | scalar (s : Scalar)
  | message (m : Message)

/-- The fields of a schema with the contents they have, the others left out. -/
def Fields.arrange (content? : UInt32 → Option Content) : List Schema.Field → Fields
  | [] => nil
  | f :: fs =>
    match content? f.id with
    | none => arrange content? fs
    | some (.scalar s) => scalar f.tag s (arrange content? fs)
    | some (.message m) => nested f.tag m.header m.fields (arrange content? fs)

/-- What the entry under an identifier shows. -/
def Entries.content? : Entries → UInt32 → Option Content
  | nil, _ => none
  | scalar id s rest, wanted => if id = wanted then some (.scalar s) else rest.content? wanted
  | record id schema _ inner rest, wanted =>
    if id = wanted then
      some (.message ⟨schema.header, .arrange (fun i => inner.content? i) schema.fields⟩)
    else rest.content? wanted

/-- The message that a record shows. -/
def Record.view (r : Record) : Message :=
  ⟨r.schema.header, .arrange r.entries.content? r.schema.fields⟩

end MessageCodec
