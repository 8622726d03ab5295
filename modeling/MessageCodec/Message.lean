import MessageCodec.Scalar

/-! Messages as they show themselves: who they are, and their fields in order. A pass walks over a
message with a state, opening each nested message with a state of its own; encoders read the
values that they are shown and decoders put others in their place. A pass can neither add or
remove fields nor change their types. -/

namespace MessageCodec

/-- Who a field is: its identifier, the label of its type, and its name. -/
structure FieldTag where
  id : UInt32
  label : String
  name : String
  deriving DecidableEq

structure Header where
  id : Int32
  shortName : String
  longName : String
  deriving DecidableEq

/-- Fields in the order in which they are shown. -/
inductive Fields where
  | nil
  | scalar (tag : FieldTag) (s : Scalar) (rest : Fields)
  | nested (tag : FieldTag) (header : Header) (inner rest : Fields)

structure Message where
  header : Header
  fields : Fields

/-- What is done on a walk over a message, with a state of type `σ`. -/
structure Pass (σ : Type) where
  /-- Before the fields of a message. -/
  start : Header → σ → σ
  /-- At a scalar field: the value to leave in it. -/
  scalar : FieldTag → (t : ScalarType) → t.Value → σ → t.Value × σ
  /-- At a nested message: the state to walk it with, if it is to be walked. -/
  enter : FieldTag → σ → σ × Option σ
  /-- After a nested message, from the state it was walked with and the state around it. -/
  leave : FieldTag → σ → σ → σ
  /-- After the fields of a message. -/
  finish : σ → σ

namespace Pass

variable {σ : Type}

/-- Walks a nested message that `walk` knows how to walk. -/
def descend {μ : Type} (p : Pass σ) (walk : σ → μ × σ) (tag : FieldTag) (unchanged : μ) (s : σ) :
    μ × σ :=
  match p.enter tag s with
  | (s, none) => (unchanged, s)
  | (s, some inner) =>
    let (m, inner) := walk inner
    (m, p.leave tag inner s)

end Pass

def Fields.walk {σ : Type} (p : Pass σ) : Fields → σ → Fields × σ
  | nil, s => (nil, s)
  | scalar tag ⟨t, v⟩ rest, s =>
    let (v, s) := p.scalar tag t v s
    let (rest, s) := rest.walk p s
    (scalar tag ⟨t, v⟩ rest, s)
  | nested tag header inner rest, s =>
    let walkInner (state : σ) : Fields × σ :=
      let (fs, state) := inner.walk p (p.start header state)
      (fs, p.finish state)
    let (inner, s) := p.descend walkInner tag inner s
    let (rest, s) := rest.walk p s
    (nested tag header inner rest, s)

def Message.walk {σ : Type} (p : Pass σ) (m : Message) (s : σ) : Message × σ :=
  let (fields, s) := m.fields.walk p (p.start m.header s)
  (⟨m.header, fields⟩, p.finish s)

/-- What a pass sees on its way when it walks every nested message as a part of the outer one. -/
inductive Event where
  | opened (header : Header)
  | field (tag : FieldTag) (s : Scalar)
  | closed

/-- Notes the events of a walk, the latest first. -/
def Pass.trace : Pass (List Event) where
  start header events := .opened header :: events
  scalar tag t v events := (v, .field tag ⟨t, v⟩ :: events)
  enter _ events := (events, some events)
  leave _ inner _ := inner
  finish events := .closed :: events

def Message.events (m : Message) : List Event := (m.walk .trace []).2.reverse

/-- Most levels of messages that a decoder goes down to; what lies deeper stays unset. -/
def maxLevels : Nat := 64

/-- A pass that fills a message from bytes. It is primed once, and leaves alone what the bytes do not
give a fitting value for. -/
structure Decoder (σ : Type) extends Pass σ where
  /-- The state that is ready to fill a message from some bytes. -/
  prime : Bytes → σ
  /-- Folds what was noted about a nested message into the state around it. -/
  absorb : σ → σ → σ
  /-- Notes that a nested message lies too deep. -/
  limitReached : σ → σ

/-- Fills a message from bytes. -/
def Decoder.decodeInto {σ : Type} (d : Decoder σ) (bs : Bytes) (m : Message) : Message × σ :=
  m.walk d.toPass (d.prime bs)

end MessageCodec
