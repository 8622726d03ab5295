import MessageCodec.Wire.Cursor

/-! Reading with a head that is moved in place. A read of several parts moves the head before it is
known whether all of them are there. If they are not, the read itself has to put the head back. -/

namespace MessageCodec.Wire

/-- A buffer and how far it has been read. -/
structure Head where
  buffer : Bytes
  offset : Nat
  deriving DecidableEq

namespace Head

/-- A read of a head. If it fails, the head stays where the read has left it. -/
abbrev Read := EStateM ReadError Head

def ofBytes (bs : Bytes) : Head := ⟨bs, 0⟩

def remaining (h : Head) : Nat := h.buffer.length - h.offset

def isEmpty (h : Head) : Bool := h.remaining == 0

def advance (n : Nat) (h : Head) : Head := { h with offset := h.offset + n }

def putBack (start : Nat) (h : Head) : Head := { h with offset := start }

def bytes (n : Nat) : Read Bytes := do
  let head ← get
  if n ≤ head.remaining then
    set (head.advance n)
    return (head.buffer.drop head.offset).take n
  else
    throw (.short head.offset n head.remaining)

/-- A little-endian number of four bytes. -/
def u32 : Read UInt32 := do
  let raw ← bytes 4
  return .ofNat (Bytes.littleEndian raw)

/-- A little-endian number of eight bytes. -/
def u64 : Read UInt64 := do
  let raw ← bytes 8
  return .ofNat (Bytes.littleEndian raw)

/-- What is left of a numeral: at most `left` digits, and the first of them is shifted by so many
bits. The head passes each digit before the next one is looked for, so it is put back to the start
of the numeral when there is none, and when there are too many. -/
def digits (start : Nat) : (left shift : Nat) → (value : UInt64) → Read UInt64
  | 0, _, _ => do
    modify (putBack start)
    throw (.longVarint start)
  | left + 1, shift, value => do
    let head ← get
    match head.buffer[head.offset]? with
    | none =>
      modify (putBack start)
      throw (.truncatedVarint start)
    | some byte =>
      modify (advance 1)
      let value := value ||| ((byte &&& 0x7F).toUInt64 <<< .ofNat shift)
      if byte &&& 0x80 = 0 then
        return value
      else
        digits start left (shift + 7) value

def varint : Read UInt64 := do
  let head ← get
  digits head.offset Varint.maxLength 0 0

/-- As many bytes as the number in front of them says. -/
def delimited : Read Bytes := do
  let head ← get
  let length ← varint
  let behind ← get
  if length.toNat ≤ behind.remaining then
    bytes length.toNat
  else
    modify (putBack head.offset)
    throw (.longLength head.offset length behind.remaining)

/-- What a head can be asked for. -/
inductive Call where
  | bytes (n : Nat)
  | u32
  | u64
  | varint
  | delimited
  deriving DecidableEq

inductive Found where
  | bytes (bs : Bytes)
  | word32 (value : UInt32)
  | word64 (value : UInt64)
  deriving DecidableEq

namespace Call

def read : Call → Read Found
  | bytes n => .bytes <$> Head.bytes n
  | u32 => .word32 <$> Head.u32
  | u64 => .word64 <$> Head.u64
  | varint => .word64 <$> Head.varint
  | delimited => .bytes <$> Head.delimited

/-- What a call answers, and the head after it. -/
def turn (call : Call) (h : Head) : Except ReadError Found × Head :=
  match call.read h with
  | .ok found after => (.ok found, after)
  | .error fault after => (.error fault, after)

end Call

/-- The head after some calls, of which any may have failed. -/
def run (h : Head) (calls : List Call) : Head := calls.foldl (fun h call => (call.turn h).2) h

end Head

end MessageCodec.Wire
