import MessageCodec.Message
import MessageCodec.Wire.Key
import MessageCodec.Wire.Varint

/-! The binary form of a message: one record for each field, a key and a payload. A field that holds
its default is left out, and so is a nested message of which nothing is left. A character above
U+00FF has no form; it is left out and counted. -/

namespace MessageCodec.Wire

/-- The bytes with their number in front. -/
def delimit (bs : Bytes) : Bytes := Varint.numeral bs.length ++ bs

/-- The payload of a scalar value, if it has one. -/
def payload? : (t : ScalarType) → t.Value → Option Bytes
  | .bool, v => some (Varint.numeral v.toNat)
  | .char, v => if v.toNat < 256 then some (Varint.numeral v.toNat) else none
  | .int _, v => some (Varint.numeral (ZigZag.encode v).toNat)
  | .uint _, v => some (Varint.numeral v.toNat)
  | .float, v => some (Bytes.ofLittleEndian 4 v.toNat)
  | .double, v => some (Bytes.ofLittleEndian 8 v.toNat)
  | .string, v => some (delimit (Utf8.encode v))
  | .bytes, v => some (delimit v)

/-- A record: a payload behind the key of its field. -/
def record (id : UInt32) (type : WireType) (payload : Bytes) : Bytes :=
  Varint.write (Key.encode id type) ++ payload

/-- The records written so far, and the number of fields that have no form. -/
structure Encoding where
  records : List Bytes
  unencodable : Nat

namespace Encoding

def empty : Encoding := ⟨[], 0⟩

def bytes (e : Encoding) : Bytes := e.records.flatten

def add (e : Encoding) (record : Bytes) : Encoding := { e with records := e.records ++ [record] }

def scalar (e : Encoding) (id : UInt32) (t : ScalarType) (v : t.Value) : Encoding :=
  if t.isDefault v then e
  else
    match payload? t v with
    | some payload => e.add (record id (.ofScalar t) payload)
    | none => { e with unencodable := e.unencodable + 1 }

def message (e : Encoding) (id : UInt32) (inner : Encoding) : Encoding :=
  let e := { e with unencodable := e.unencodable + inner.unencodable }
  let bs := inner.bytes
  if bs.isEmpty then e else e.add (record id .delimited (delimit bs))

def pass : Pass Encoding where
  start _ e := e
  scalar tag t v e := (v, e.scalar tag.id t v)
  enter _ e := (e, some empty)
  leave tag inner e := e.message tag.id inner
  finish e := e

end Encoding

/-- The binary form of a message. -/
def encode (m : Message) : Bytes := (m.walk Encoding.pass .empty).2.bytes

end MessageCodec.Wire
