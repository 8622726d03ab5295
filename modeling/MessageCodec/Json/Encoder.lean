import MessageCodec.Json.Value
import MessageCodec.Message

/-! The JSON form of a message: an object with a member for each field, under the field's name. A
character is a string, bytes are Base64, and a nested message is an object of its own. -/

namespace MessageCodec.Json

/-- The JSON value of a scalar. Numbers in single precision are widened. -/
def ofScalar : (t : ScalarType) → t.Value → Json
  | .bool, v => bool v
  | .char, v => string v.toString
  | .int _, v => number (.integer v.toInt)
  | .uint _, v => number (.integer v.toNat)
  | .float, v => ofDouble (Binary.widen v)
  | .double, v => ofDouble v
  | .string, v => string v
  | .bytes, v => string (String.ofList (Text.Base64.encode v))

/-- Which fields of a message are written: all that are not mapped to `false`. Fields of nested
messages are always written. -/
abbrev Mask := List (UInt32 × Bool)

def Mask.includes (mask : Mask) (id : UInt32) : Bool := (List.lookup id mask).getD true

/-- The members written so far, and what is left out. -/
structure Encoding where
  members : Members
  mask : Mask

namespace Encoding

def empty (mask : Mask) : Encoding := ⟨[], mask⟩

def add (e : Encoding) (name : String) (value : Json) : Encoding :=
  { e with members := e.members.insert name value }

def value (e : Encoding) : Json := object e.members

def pass : Pass Encoding where
  start _ e := e
  scalar tag t v e := (v, if e.mask.includes tag.id then e.add tag.name (ofScalar t v) else e)
  enter tag e := (e, if e.mask.includes tag.id then some (empty []) else none)
  leave tag inner e := e.add tag.name inner.value
  finish e := e

end Encoding

/-- The JSON form of a message, without the fields that a mask leaves out. -/
def ofMessage (mask : Mask) (m : Message) : Json := (m.walk Encoding.pass (.empty mask)).2.value

end MessageCodec.Json
