import MessageCodec.Wire.Varint

/-! Reading from a buffer with a cursor that knows its place. A read that fails leaves the cursor
where it was and reports that place. -/

namespace MessageCodec.Wire

/-- Why a read fails, with the offset it started at. -/
inductive ReadError where
  | short (offset wanted remaining : Nat)
  | truncatedVarint (offset : Nat)
  | longVarint (offset : Nat)
  | unknownType (offset type : Nat)
  | longLength (offset : Nat) (length : UInt64) (remaining : Nat)
  deriving DecidableEq

def ReadError.message : ReadError → String
  | short offset wanted remaining =>
    "read failed at offset " ++ toString offset ++ ": need " ++ toString wanted ++ " bytes, " ++
      toString remaining ++ " left"
  | truncatedVarint offset => "read failed at offset " ++ toString offset ++ ": truncated varint"
  | longVarint offset => "varint at offset " ++ toString offset ++ " exceeds 10 bytes"
  | unknownType offset type =>
    "unknown wire type " ++ toString type ++ " at offset " ++ toString offset
  | longLength offset length remaining =>
    "length prefix " ++ toString length.toNat ++ " at offset " ++ toString offset ++
      " exceeds remaining " ++ toString remaining ++ " bytes"

/-- A buffer and the part of it that is still to be read. -/
structure Cursor where
  buffer : Bytes
  rest : Bytes

namespace Cursor

def ofBytes (bs : Bytes) : Cursor := ⟨bs, bs⟩

def remaining (c : Cursor) : Nat := c.rest.length

def offset (c : Cursor) : Nat := c.buffer.length - c.rest.length

def isEmpty (c : Cursor) : Bool := c.rest.isEmpty

def bytes (n : Nat) (c : Cursor) : Except ReadError (Bytes × Cursor) :=
  match Bytes.split? n c.rest with
  | some (taken, rest) => .ok (taken, { c with rest })
  | none => .error (.short c.offset n c.remaining)

def u32 (c : Cursor) : Except ReadError (UInt32 × Cursor) :=
  (c.bytes 4).map fun (bs, c) => (UInt32.ofNat (Bytes.littleEndian bs), c)

def u64 (c : Cursor) : Except ReadError (UInt64 × Cursor) :=
  (c.bytes 8).map fun (bs, c) => (UInt64.ofNat (Bytes.littleEndian bs), c)

def varint (c : Cursor) : Except ReadError (UInt64 × Cursor) :=
  match Varint.read c.rest with
  | .ok (value, rest) => .ok (value, { c with rest })
  | .error .truncated => .error (.truncatedVarint c.offset)
  | .error .tooLong => .error (.longVarint c.offset)

def delimited (c : Cursor) : Except ReadError (Bytes × Cursor) :=
  match c.varint with
  | .error e => .error e
  | .ok (length, after) =>
    match Bytes.split? length.toNat after.rest with
    | some (taken, rest) => .ok (taken, { c with rest })
    | none => .error (.longLength c.offset length after.remaining)

theorem length_bytes {n : Nat} {c after : Cursor} {bs : Bytes} (h : c.bytes n = .ok (bs, after)) :
    after.rest.length ≤ c.rest.length := by
  unfold bytes at h
  split at h
  · rename_i hs
    cases h
    exact Bytes.length_split? hs
  · cases h

theorem length_u32 {c after : Cursor} {value : UInt32} (h : c.u32 = .ok (value, after)) :
    after.rest.length ≤ c.rest.length := by
  unfold u32 at h
  cases hb : c.bytes 4 with
  | error e => simp [hb, Except.map] at h
  | ok pair =>
    simp only [hb, Except.map, Except.ok.injEq, Prod.mk.injEq] at h
    exact h.2 ▸ @length_bytes _ c pair.2 pair.1 hb

theorem length_u64 {c after : Cursor} {value : UInt64} (h : c.u64 = .ok (value, after)) :
    after.rest.length ≤ c.rest.length := by
  unfold u64 at h
  cases hb : c.bytes 8 with
  | error e => simp [hb, Except.map] at h
  | ok pair =>
    simp only [hb, Except.map, Except.ok.injEq, Prod.mk.injEq] at h
    exact h.2 ▸ @length_bytes _ c pair.2 pair.1 hb

theorem length_varint {c after : Cursor} {value : UInt64} (h : c.varint = .ok (value, after)) :
    after.rest.length < c.rest.length := by
  unfold varint at h
  split at h
  · rename_i hr; cases h; exact Varint.length_read hr
  · cases h
  · cases h

theorem length_delimited {c after : Cursor} {bs : Bytes} (h : c.delimited = .ok (bs, after)) :
    after.rest.length ≤ c.rest.length := by
  unfold delimited at h
  split at h
  · cases h
  · rename_i hv
    have := length_varint hv
    split at h
    · rename_i hs
      cases h
      exact Nat.le_trans (Bytes.length_split? hs) (Nat.le_of_lt this)
    · cases h

end Cursor

end MessageCodec.Wire
