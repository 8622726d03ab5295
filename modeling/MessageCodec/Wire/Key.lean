import MessageCodec.Scalar
import MessageCodec.Schema.Basic

/-! The key in front of each record: the field's identifier and the wire type of what follows, which
takes the lowest three bits. The wire type decides how long the payload is. -/

namespace MessageCodec.Wire

inductive WireType where
  | varint | eightBytes | delimited | fourBytes
  deriving DecidableEq

namespace WireType

def number : WireType → Nat
  | varint => 0
  | eightBytes => 1
  | delimited => 2
  | fourBytes => 5

def ofNumber? : Nat → Option WireType
  | 0 => some varint
  | 1 => some eightBytes
  | 2 => some delimited
  | 5 => some fourBytes
  | _ => none

def ofScalar : ScalarType → WireType
  | .float => fourBytes
  | .double => eightBytes
  | .string | .bytes => delimited
  | _ => varint

/-- The wire type of a field; one of no known type is never written. -/
def ofField? : Schema.FieldType → Option WireType
  | .scalar t => some (ofScalar t)
  | .message => some delimited
  | .undefined => none

end WireType

namespace Key

def encode (id : UInt32) (type : WireType) : UInt64 := UInt64.ofNat (8 * id.toNat + type.number)

/-- The field number of a key, which may exceed every identifier. -/
def fieldNumber (key : UInt64) : Nat := key.toNat / 8

/-- The lowest three bits of a key; not every number there is a wire type. -/
def typeNumber (key : UInt64) : Nat := key.toNat % 8

/-- The identifier of a key, unless its field number exceeds every identifier. -/
def id? (key : UInt64) : Option UInt32 :=
  if fieldNumber key < UInt32.size then some (UInt32.ofNat (fieldNumber key)) else none

end Key

end MessageCodec.Wire
