import MessageCodec.Decimal
import MessageCodec.Json.Reader
import MessageCodec.Message
import MessageCodec.Text

/-! Filling messages from JSON objects, by field name. Numbers, strings that hold numbers, and truth
values stand in for each other where the result is in the range of the field; whatever does not fit
leaves the field alone. -/

namespace MessageCodec

/-- An integer as a value of a signed type, if it is in range. -/
def signedInRange? (w : Width) (i : Int) : Option (BitVec w.bits) :=
  let half : Int := w.size / 2
  if -half ≤ i ∧ i < half then some (BitVec.ofInt w.bits i) else none

def unsignedInRange? (w : Width) (i : Int) : Option (BitVec w.bits) :=
  if 0 ≤ i ∧ i < w.size then some (BitVec.ofInt w.bits i) else none

/-- The character with a code point of one byte. -/
def latinCharacter? (i : Int) : Option Char :=
  if 0 ≤ i ∧ i < 256 then some (Char.ofNat i.toNat) else none

namespace Json

/-- The integer in a text, within 128 bits, or else the integer part of the number in it. -/
def integerInText? (s : String) : Option Int :=
  let trimmed := Text.trim s.toList
  ((Decimal.readInt? trimmed).filter fun i => -Binary.wideLimit ≤ i && i < Binary.wideLimit).or
    ((Decimal.readDouble? trimmed).map Binary.truncateDouble)

/-- A value as an integer; fractions are cut off. -/
def integer? : Json → Option Int
  | number (.integer i) => some i
  | number (.double bits) => some (Binary.truncateDouble bits)
  | string s => integerInText? s
  | bool b => some b.toInt
  | _ => none

def double? : Json → Option UInt64
  | number (.integer i) => some (UInt64.ofNat (Binary.Format.double.ofInt i))
  | number (.double bits) => some bits
  | string s => Decimal.readDouble? (Text.trim s.toList)
  | _ => none

/-- The value of a scalar type that a JSON value stands for. An object read as bytes gives its
text, from which another decoder can be primed. -/
def fit? : (t : ScalarType) → Json → Option t.Value
  | .bool, bool b => some b
  | .bool, j => j.integer?.map (· != 0)
  | .char, string s => s.toList.head?
  | .char, j => j.integer?.bind latinCharacter?
  | .int w, j => j.integer?.bind (signedInRange? w)
  | .uint w, j => j.integer?.bind (unsignedInRange? w)
  | .float, j => j.double?.map Binary.narrow
  | .double, j => j.double?
  | .string, string s => some s
  | .string, number n => some (String.ofList n.render)
  | .string, bool b => some (Json.bool b).text
  | .string, _ => none
  | .bytes, string s => Text.Base64.decode? s.toList
  | .bytes, object members => some (Utf8.encode (Json.object members).text)
  | .bytes, _ => none

/-- The members of a value; anything but an object has none. -/
def members : Json → Members
  | object members => members
  | _ => []

/-- The members that a text gives, none if it is not the text of an object. -/
def membersOfText (s : String) : Members := ((parse? s.toList).map members).getD []

/-- The members that the UTF-8 form of a text gives. -/
def membersOfBytes (bs : Bytes) : Members := ((Utf8.decode? bs).map membersOfText).getD []

def fillScalar (members : Members) (name : String) (t : ScalarType) (v : t.Value) : t.Value :=
  ((members.find? name).bind (fit? t)).getD v

/-- The members of a nested message, if an object is there for it. -/
def nestedMembers? (members : Members) (name : String) : Option Members :=
  match members.find? name with
  | some (object inner) => some inner
  | _ => none

def decoder : Decoder Members where
  start _ members := members
  scalar tag t v members := (fillScalar members tag.name t v, members)
  enter tag members := (members, nestedMembers? members tag.name)
  leave _ _ members := members
  finish members := members
  prime := membersOfBytes
  absorb _ members := members
  limitReached members := members

end Json

end MessageCodec
