import MessageCodec.Message
import MessageCodec.Wire.Item
import MessageCodec.Wire.Varint

/-! Filling messages from their binary form. The first record of each field counts; fields that are
walked over take the payloads that fit them. What was passed over is counted: records nobody asked
for, payloads that do not fit, and broken or too deeply nested input. -/

namespace MessageCodec.Wire

/-- What a decoder passed over. -/
structure Diagnostics where
  unknown : Nat
  mismatched : Nat
  malformed : Nat
  deriving DecidableEq

namespace Diagnostics

def none : Diagnostics := ⟨0, 0, 0⟩

def isClean (d : Diagnostics) : Bool := d == none

def merge (d e : Diagnostics) : Diagnostics :=
  ⟨d.unknown + e.unknown, d.mismatched + e.mismatched, d.malformed + e.malformed⟩

end Diagnostics

/-- The value of a scalar type that a payload stands for. A number is cut to the width of its
type before its zigzag is undone. -/
def fit? : (t : ScalarType) → Payload → Option t.Value
  | .bool, .varint raw => some (raw != 0)
  | .char, .varint raw => some (Char.ofNat (raw.toNat % 256))
  | .int w, .varint raw => some (ZigZag.decode (BitVec.ofNat w.bits raw.toNat))
  | .uint w, .varint raw => some (BitVec.ofNat w.bits raw.toNat)
  | .float, .fixed32 bits => some bits
  | .double, .fixed64 bits => some bits
  | .string, .delimited bs => Utf8.decode? bs
  | .bytes, .delimited bs => some bs
  | _, _ => none

/-- The first payload of each identifier. -/
abbrev Table := List (UInt32 × Payload)

namespace Table

/-- Adds an item after others unless its identifier is taken or out of range. -/
def add (table : Table) (item : Item) : Table :=
  match Key.id? item.key with
  | none => table
  | some id => if table.any (·.1 == id) then table else table ++ [(id, item.payload)]

def ofItems (items : List Item) : Table := items.foldl add []

def find? (table : Table) (id : UInt32) : Option Payload := table.lookup id

end Table

/-- A scanned buffer, the identifiers that were asked for, what was noted on the way, and the
number of messages around the one that is filled. -/
structure Decoding where
  table : Table
  asked : List UInt32
  noted : Diagnostics
  depth : Nat

namespace Decoding

/-- Scans a buffer. Records with field numbers beyond every identifier are unknown at once. -/
def ofBytes (depth : Nat) (bs : Bytes) : Decoding :=
  let (items, fault?) := Item.readAll (.ofBytes bs)
  { table := .ofItems items
    asked := []
    noted :=
      { unknown := items.countP fun item => (Key.id? item.key).isNone
        mismatched := 0
        malformed := if fault?.isSome then 1 else 0 }
    depth }

/-- Everything passed over so far; records nobody has asked for yet count as unknown. -/
def diagnostics (d : Decoding) : Diagnostics :=
  { d.noted with
    unknown := d.noted.unknown + d.table.countP fun (id, _) => !d.asked.contains id }

def ask (d : Decoding) (id : UInt32) : Decoding :=
  if d.asked.contains id then d else { d with asked := id :: d.asked }

def noteMismatch (d : Decoding) : Decoding :=
  { d with noted := { d.noted with mismatched := d.noted.mismatched + 1 } }

def noteMalformed (d : Decoding) : Decoding :=
  { d with noted := { d.noted with malformed := d.noted.malformed + 1 } }

def absorb (d inner : Decoding) : Decoding := { d with noted := d.noted.merge inner.diagnostics }

def scalar (d : Decoding) (id : UInt32) (t : ScalarType) (v : t.Value) : t.Value × Decoding :=
  match d.table.find? id with
  | none => (v, d)
  | some payload =>
    match fit? t payload with
    | some v => (v, d.ask id)
    | none => (v, (d.ask id).noteMismatch)

/-- Opens the record of a nested message, unless it lies too deep. -/
def enter (d : Decoding) (id : UInt32) : Decoding × Option Decoding :=
  match d.table.find? id with
  | none => (d, none)
  | some (.delimited bs) =>
    if maxLevels ≤ d.depth + 1 then ((d.ask id).noteMalformed, none)
    else (d.ask id, some (ofBytes (d.depth + 1) bs))
  | some _ => ((d.ask id).noteMismatch, none)

end Decoding

def decoder : Decoder Decoding where
  start _ d := d
  scalar tag t v d := d.scalar tag.id t v
  enter tag d := d.enter tag.id
  leave _ inner d := d.absorb inner
  finish d := d
  prime bs := .ofBytes 0 bs
  absorb inner d := d.absorb inner
  limitReached d := d.noteMalformed

end MessageCodec.Wire
