import MessageCodec.Binary.Format
import MessageCodec.Bytes

/-! The scalar types of a field and their values. A value is typed by its scalar type, so nothing
that stores a new value in a field can change the field's type. Floating-point values are held as
their bit patterns, which keeps signed zeros and the payloads of NaN apart. -/

namespace MessageCodec

inductive Width where
  | w8 | w16 | w32 | w64
  deriving DecidableEq

@[reducible] def Width.bits : Width → Nat
  | .w8 => 8
  | .w16 => 16
  | .w32 => 32
  | .w64 => 64

def Width.size (w : Width) : Nat := Nat.pow 2 w.bits

inductive ScalarType where
  | bool | char
  | int (w : Width)
  | uint (w : Width)
  | float | double | string | bytes
  deriving DecidableEq

namespace ScalarType

@[reducible] def Value : ScalarType → Type
  | bool => Bool
  | char => Char
  | int w => BitVec w.bits
  | uint w => BitVec w.bits
  | float => UInt32
  | double => UInt64
  | string => String
  | bytes => Bytes

/-- The value a field of this type has before anything is stored in it. -/
def zero : (t : ScalarType) → t.Value
  | bool => false
  | char => '\x00'
  | int _ => 0
  | uint _ => 0
  | float => 0
  | double => 0
  | string => ""
  | bytes => []

/-- Both zeros of the floating-point types count as default, and so does empty content. -/
def isDefault : (t : ScalarType) → t.Value → Bool
  | bool, v => !v
  | char, v => v == '\x00'
  | int _, v => v == 0
  | uint _, v => v == 0
  | float, v => Binary.Format.single.magnitude v.toNat == 0
  | double, v => Binary.Format.double.magnitude v.toNat == 0
  | string, v => v.isEmpty
  | bytes, v => v.isEmpty

/-- Equality of values, by which a NaN differs from itself and the two zeros are equal. -/
def sameValue : (t : ScalarType) → t.Value → t.Value → Bool
  | bool, a, b => a == b
  | char, a, b => a == b
  | int _, a, b => a == b
  | uint _, a, b => a == b
  | float, a, b => Binary.Format.single.sameNumber a.toNat b.toNat
  | double, a, b => Binary.Format.double.sameNumber a.toNat b.toNat
  | string, a, b => a == b
  | bytes, a, b => a == b

/-- The word that names the type in a specification. -/
def token : ScalarType → String
  | bool => "bool"
  | char => "char"
  | int .w8 => "int8"
  | uint .w8 => "uint8"
  | int .w16 => "int16"
  | uint .w16 => "uint16"
  | int .w32 => "int32"
  | uint .w32 => "uint32"
  | int .w64 => "int64"
  | uint .w64 => "uint64"
  | float => "float"
  | double => "double"
  | string => "string"
  | bytes => "bytes"

def all : List ScalarType :=
  [bool, char, int .w8, uint .w8, int .w16, uint .w16, int .w32, uint .w32, int .w64, uint .w64,
   float, double, string, bytes]

def ofToken? (word : String) : Option ScalarType := all.find? fun t => t.token == word

/-- Is the number of a value zigzagged before it is written? -/
def isSigned : ScalarType → Bool
  | int _ => true
  | _ => false

end ScalarType

/-- A value with its type. -/
structure Scalar where
  type : ScalarType
  value : type.Value

namespace Scalar

def isDefault (s : Scalar) : Bool := s.type.isDefault s.value

/-- A value put in place of another one; it stays away when the types differ. -/
def copyOnto (source : Scalar) (t : ScalarType) (target : t.Value) : t.Value :=
  if h : source.type = t then h ▸ source.value else target

/-- Equality as values; values of different types differ. -/
def sameValue (a b : Scalar) : Bool :=
  if h : a.type = b.type then b.type.sameValue (h ▸ a.value) b.value else false

end Scalar

end MessageCodec
