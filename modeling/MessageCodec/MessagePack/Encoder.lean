import MessageCodec.Message
import MessageCodec.MessagePack.Value

/-! The MessagePack form of a message: a map from the names of all fields to their values. -/

namespace MessageCodec.MessagePack

def ofText (s : String) : MessagePack := string (Utf8.encode s)

def ofScalar : (t : ScalarType) → t.Value → MessagePack
  | .bool, v => bool v
  | .char, v => ofText v.toString
  | .int _, v => integer v.toInt
  | .uint _, v => integer v.toNat
  | .float, v => single v
  | .double, v => double v
  | .string, v => ofText v
  | .bytes, v => binary v

/-- The pairs written so far for a message; the next message starts anew. -/
abbrev Encoding := List (MessagePack × MessagePack)

namespace Encoding

def empty : Encoding := []

def value (e : Encoding) : MessagePack := map e

def bytes (e : Encoding) : Bytes := write e.value

def add (e : Encoding) (name : String) (value : MessagePack) : Encoding :=
  e ++ [(ofText name, value)]

def pass : Pass Encoding where
  start _ _ := empty
  scalar tag t v e := (v, e.add tag.name (ofScalar t v))
  enter _ e := (e, some empty)
  leave tag inner e := e.add tag.name inner.value
  finish e := e

end Encoding

def encode (m : Message) : Bytes := (m.walk Encoding.pass .empty).2.bytes

end MessageCodec.MessagePack
