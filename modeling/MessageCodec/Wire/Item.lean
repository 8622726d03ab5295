import MessageCodec.Wire.Cursor
import MessageCodec.Wire.Key

/-! The records found in a buffer. They are read one after the other up to the end or to the first
one that is broken; what stands before a broken record is kept. -/

namespace MessageCodec.Wire

inductive Payload where
  | varint (value : UInt64)
  | fixed64 (value : UInt64)
  | delimited (bs : Bytes)
  | fixed32 (value : UInt32)
  deriving DecidableEq

namespace Payload

def type : Payload → WireType
  | varint _ => .varint
  | fixed64 _ => .eightBytes
  | delimited _ => .delimited
  | fixed32 _ => .fourBytes

def read (c : Cursor) : WireType → Except ReadError (Payload × Cursor)
  | .varint => c.varint.map fun (v, c) => (varint v, c)
  | .eightBytes => c.u64.map fun (v, c) => (fixed64 v, c)
  | .delimited => c.delimited.map fun (bs, c) => (delimited bs, c)
  | .fourBytes => c.u32.map fun (v, c) => (fixed32 v, c)

theorem length_read {c after : Cursor} {type : WireType} {p : Payload}
    (h : read c type = .ok (p, after)) : after.rest.length ≤ c.rest.length := by
  have map_ok {α β : Type} {r : Except ReadError (α × Cursor)} {f : α → β} {b : β}
      (h : (r.map fun (a, c) => (f a, c)) = .ok (b, after)) : ∃ a, r = .ok (a, after) := by
    cases r with
    | error e => cases h
    | ok pair => cases h; exact ⟨pair.1, rfl⟩
  cases type with
  | varint =>
    obtain ⟨_, h⟩ := map_ok h
    exact Nat.le_of_lt (Cursor.length_varint h)
  | eightBytes =>
    obtain ⟨_, h⟩ := map_ok h
    exact Cursor.length_u64 h
  | delimited =>
    obtain ⟨_, h⟩ := map_ok h
    exact Cursor.length_delimited h
  | fourBytes =>
    obtain ⟨_, h⟩ := map_ok h
    exact Cursor.length_u32 h

end Payload

/-- A record as it is read: its key and its payload. -/
structure Item where
  key : UInt64
  payload : Payload
  deriving DecidableEq

namespace Item

def read (c : Cursor) : Except ReadError (Item × Cursor) :=
  match c.varint with
  | .error e => .error e
  | .ok (key, afterKey) =>
    match WireType.ofNumber? (Key.typeNumber key) with
    | none => .error (.unknownType c.offset (Key.typeNumber key))
    | some type => (Payload.read afterKey type).map fun (p, after) => (⟨key, p⟩, after)

theorem length_read {c after : Cursor} {item : Item} (h : read c = .ok (item, after)) :
    after.rest.length < c.rest.length := by
  unfold read at h
  split at h
  · cases h
  · rename_i key afterKey hk
    split at h
    · cases h
    · rename_i type _
      cases hp : Payload.read afterKey type with
      | error e => simp [hp, Except.map] at h
      | ok pair =>
        simp only [hp, Except.map, Except.ok.injEq, Prod.mk.injEq] at h
        have lt := Cursor.length_varint hk
        have le := Payload.length_read (p := pair.1) hp
        rw [← h.2]
        omega

/-- The items that a cursor reads up to the end of its buffer or to a fault. -/
def readAll (c : Cursor) : List Item × Option ReadError :=
  if c.isEmpty then ([], none)
  else
    match h : read c with
    | .error e => ([], some e)
    | .ok (item, after) =>
      have := length_read h
      let (items, fault?) := readAll after
      (item :: items, fault?)
termination_by c.rest.length

end Item

end MessageCodec.Wire
