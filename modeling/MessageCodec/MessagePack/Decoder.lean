import MessageCodec.Json.Decoder
import MessageCodec.Message
import MessageCodec.MessagePack.Reader

/-! Filling messages from MessagePack maps, by field name. Only keys that are text count, and of
several values under one key the last. Numbers and truth values stand in for each other where the
result is in the range of the field; whatever does not fit leaves the field alone. -/

namespace MessageCodec.MessagePack

/-- A value as an integer; fractions are cut off. -/
def integer? : MessagePack → Option Int
  | integer i => some i
  | single bits => some (Binary.truncateSingle bits)
  | double bits => some (Binary.truncateDouble bits)
  | bool b => some b.toInt
  | _ => none

def double? : MessagePack → Option UInt64
  | integer i => some (UInt64.ofNat (Binary.Format.double.ofInt i))
  | single bits => some (Binary.widen bits)
  | double bits => some bits
  | bool b => some (UInt64.ofNat (Binary.Format.double.ofInt b.toInt))
  | _ => none

/-- The value of a scalar type that a MessagePack value stands for. A map read as bytes gives its
binary form, from which another decoder can be primed. -/
def fit? : (t : ScalarType) → MessagePack → Option t.Value
  | .bool, v => v.integer?.map (· != 0)
  | .char, v => (v.text?.bind fun s => s.toList.head?).or (v.integer?.bind latinCharacter?)
  | .int w, v => v.integer?.bind (signedInRange? w)
  | .uint w, v => v.integer?.bind (unsignedInRange? w)
  | .float, v => v.double?.map Binary.narrow
  | .double, v => v.double?
  | .string, v => v.text?
  | .bytes, binary bs => some bs
  | .bytes, string bs => some bs
  | .bytes, map pairs => some (write (map pairs))
  | .bytes, _ => none

/-- The values of a map by name, the last one of each name first. -/
abbrev Table := List (String × MessagePack)

namespace Table

def ofPairs (pairs : List (MessagePack × MessagePack)) : Table :=
  pairs.reverse.filterMap fun (key, value) => key.text?.map (·, value)

/-- The table of a value; anything but a map has nothing in it. -/
def ofValue : MessagePack → Table
  | map pairs => ofPairs pairs
  | _ => []

def ofBytes (bs : Bytes) : Table := ((parse? bs).map ofValue).getD []

def find? (table : Table) (name : String) : Option MessagePack := table.lookup name

def fillScalar (table : Table) (name : String) (t : ScalarType) (v : t.Value) : t.Value :=
  ((table.find? name).bind (fit? t)).getD v

/-- The table of a nested message, if a map is there for it. -/
def nested? (table : Table) (name : String) : Option Table :=
  match table.find? name with
  | some (map pairs) => some (ofPairs pairs)
  | _ => none

end Table

def decoder : Decoder Table where
  start _ table := table
  scalar tag t v table := (table.fillScalar tag.name t v, table)
  enter tag table := (table, table.nested? tag.name)
  leave _ _ table := table
  finish table := table
  prime := Table.ofBytes
  absorb _ table := table
  limitReached table := table

end MessageCodec.MessagePack
