import MessageCodec.MessagePack.Value

/-! Reading MessagePack values. Arrays and maps may be nested 512 deep, and strings and extensions
not quite as deep. A byte that marks nothing is read as nil. -/

namespace MessageCodec.MessagePack

/-- Most values that may be nested in each other. -/
def maxNesting : Nat := 512

def readNumber (width : Nat) (bs : Bytes) : Option (Nat × Bytes) :=
  (Bytes.split? width bs).map fun (number, rest) => (Bytes.bigEndian number, rest)

/-- A number of `width` bytes in two's complement. -/
def readSigned (width : Nat) (bs : Bytes) : Option (MessagePack × Bytes) :=
  (readNumber width bs).map fun (n, rest) =>
    (integer (if n < Nat.pow 2 (8 * width - 1) then n else n - Nat.pow 2 (8 * width)), rest)

def readUnsigned (width : Nat) (bs : Bytes) : Option (MessagePack × Bytes) :=
  (readNumber width bs).map fun (n, rest) => (integer n, rest)

/-- Reads a length of `width` bytes and goes on with it. -/
def withLength {α : Type} (width : Nat) (bs : Bytes) (next : Nat → Bytes → Option α) : Option α :=
  (readNumber width bs).bind fun (n, rest) => next n rest

def readBinary (n : Nat) (bs : Bytes) : Option (MessagePack × Bytes) :=
  (Bytes.split? n bs).map fun (data, rest) => (binary data, rest)

/-- A string may stand at the deepest level but one. -/
def readString (levels n : Nat) (bs : Bytes) : Option (MessagePack × Bytes) :=
  if levels = 0 then none else (Bytes.split? n bs).map fun (data, rest) => (string data, rest)

/-- An extension may stand at the deepest level but one. -/
def readExtension (levels n : Nat) (bs : Bytes) : Option (MessagePack × Bytes) :=
  match levels, bs with
  | _ + 1, type :: rest => (Bytes.split? n rest).map fun (data, rest) => (extension type data, rest)
  | _, _ => none

section

variable (value : Bytes → Option (MessagePack × Bytes))

def readItems : Nat → Bytes → Option (List MessagePack × Bytes)
  | 0, bs => some ([], bs)
  | n + 1, bs => do
    let (item, rest) ← value bs
    let (items, rest) ← readItems n rest
    return (item :: items, rest)

def readPairs : Nat → Bytes → Option (List (MessagePack × MessagePack) × Bytes)
  | 0, bs => some ([], bs)
  | n + 1, bs => do
    let (key, rest) ← value bs
    let (item, rest) ← value rest
    let (pairs, rest) ← readPairs n rest
    return ((key, item) :: pairs, rest)

def readArray (n : Nat) (bs : Bytes) : Option (MessagePack × Bytes) :=
  (readItems value n bs).map fun (items, rest) => (array items, rest)

def readMap (n : Nat) (bs : Bytes) : Option (MessagePack × Bytes) :=
  (readPairs value n bs).map fun (pairs, rest) => (map pairs, rest)

end

/-- Reads the value behind a marker; `value` reads the values inside it, which nest at most
`levels` more. -/
def readMarked (levels : Nat) (value : Bytes → Option (MessagePack × Bytes)) (marker : UInt8)
    (bs : Bytes) : Option (MessagePack × Bytes) :=
  let m := marker.toNat
  if m < 0x80 then some (integer m, bs)
  else if m < 0x90 then readMap value (m - 0x80) bs
  else if m < 0xa0 then readArray value (m - 0x90) bs
  else if m < 0xc0 then readString levels (m - 0xa0) bs
  else if 0xe0 ≤ m then some (integer (m - 256), bs)
  else
    match m with
    | 0xc2 => some (bool false, bs)
    | 0xc3 => some (bool true, bs)
    | 0xc4 => withLength 1 bs readBinary
    | 0xc5 => withLength 2 bs readBinary
    | 0xc6 => withLength 4 bs readBinary
    | 0xc7 => withLength 1 bs (readExtension levels)
    | 0xc8 => withLength 2 bs (readExtension levels)
    | 0xc9 => withLength 4 bs (readExtension levels)
    | 0xca => (readNumber 4 bs).map fun (n, rest) => (single (UInt32.ofNat n), rest)
    | 0xcb => (readNumber 8 bs).map fun (n, rest) => (double (UInt64.ofNat n), rest)
    | 0xcc => readUnsigned 1 bs
    | 0xcd => readUnsigned 2 bs
    | 0xce => readUnsigned 4 bs
    | 0xcf => readUnsigned 8 bs
    | 0xd0 => readSigned 1 bs
    | 0xd1 => readSigned 2 bs
    | 0xd2 => readSigned 4 bs
    | 0xd3 => readSigned 8 bs
    | 0xd4 => readExtension levels 1 bs
    | 0xd5 => readExtension levels 2 bs
    | 0xd6 => readExtension levels 4 bs
    | 0xd7 => readExtension levels 8 bs
    | 0xd8 => readExtension levels 16 bs
    | 0xd9 => withLength 1 bs (readString levels)
    | 0xda => withLength 2 bs (readString levels)
    | 0xdb => withLength 4 bs (readString levels)
    | 0xdc => withLength 2 bs (readArray value)
    | 0xdd => withLength 4 bs (readArray value)
    | 0xde => withLength 2 bs (readMap value)
    | 0xdf => withLength 4 bs (readMap value)
    | _ => some (nil, bs)

/-- Reads a value with at most so many values nested in each other, itself included. -/
def read : Nat → Bytes → Option (MessagePack × Bytes)
  | levels + 1, marker :: bs => readMarked levels (read levels) marker bs
  | _, _ => none

/-- The value at the start of some bytes; what follows it is left alone. -/
def parse? (bs : Bytes) : Option MessagePack := (read maxNesting bs).map (·.1)

end MessageCodec.MessagePack
