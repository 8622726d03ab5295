import MessageCodec.Bytes

/-! MessagePack values and their most compact binary form. A string is kept as its bytes, which need
not be text; one that is no text is written as binary data. -/

namespace MessageCodec

inductive MessagePack where
  | nil
  | bool (b : Bool)
  | integer (i : Int)
  | single (bits : UInt32)
  | double (bits : UInt64)
  | string (bs : Bytes)
  | binary (bs : Bytes)
  | array (items : List MessagePack)
  | map (pairs : List (MessagePack × MessagePack))
  | extension (type : UInt8) (data : Bytes)

namespace MessagePack

def text? : MessagePack → Option String
  | string bs => Utf8.decode? bs
  | _ => none

/-- A number of `width` bytes behind a marker. -/
def marked (marker : UInt8) (width value : Nat) : Bytes := marker :: Bytes.ofBigEndian width value

/-- An integer in the fewest bytes. Negative ones are in two's complement. -/
def writeInteger (i : Int) : Bytes :=
  if 0 ≤ i then
    let n := i.toNat
    if n < 0x80 then [UInt8.ofNat n]
    else if n < 0x100 then marked 0xcc 1 n
    else if n < 0x10000 then marked 0xcd 2 n
    else if n < 0x100000000 then marked 0xce 4 n
    else marked 0xcf 8 n
  else if -32 ≤ i then [UInt8.ofNat (256 + i).toNat]
  else if -0x80 ≤ i then marked 0xd0 1 (0x100 + i).toNat
  else if -0x8000 ≤ i then marked 0xd1 2 (0x10000 + i).toNat
  else if -0x80000000 ≤ i then marked 0xd2 4 (0x100000000 + i).toNat
  else marked 0xd3 8 (0x10000000000000000 + i).toNat

def stringHead (n : Nat) : Bytes :=
  if n < 32 then [UInt8.ofNat (0xa0 + n)]
  else if n < 0x100 then marked 0xd9 1 n
  else if n < 0x10000 then marked 0xda 2 n
  else marked 0xdb 4 n

def binaryHead (n : Nat) : Bytes :=
  if n < 0x100 then marked 0xc4 1 n
  else if n < 0x10000 then marked 0xc5 2 n
  else marked 0xc6 4 n

def arrayHead (n : Nat) : Bytes :=
  if n < 16 then [UInt8.ofNat (0x90 + n)]
  else if n < 0x10000 then marked 0xdc 2 n
  else marked 0xdd 4 n

def mapHead (n : Nat) : Bytes :=
  if n < 16 then [UInt8.ofNat (0x80 + n)]
  else if n < 0x10000 then marked 0xde 2 n
  else marked 0xdf 4 n

/-- The head of an extension of so many bytes, without its type. -/
def extensionHead (n : Nat) : Bytes :=
  if n = 1 then [0xd4]
  else if n = 2 then [0xd5]
  else if n = 4 then [0xd6]
  else if n = 8 then [0xd7]
  else if n = 16 then [0xd8]
  else if n < 0x100 then marked 0xc7 1 n
  else if n < 0x10000 then marked 0xc8 2 n
  else marked 0xc9 4 n

mutual

def write : MessagePack → Bytes
  | nil => [0xc0]
  | bool b => if b then [0xc3] else [0xc2]
  | integer i => writeInteger i
  | single bits => marked 0xca 4 bits.toNat
  | double bits => marked 0xcb 8 bits.toNat
  | string bs =>
    (if (Utf8.decode? bs).isSome then stringHead bs.length else binaryHead bs.length) ++ bs
  | binary bs => binaryHead bs.length ++ bs
  | array items => arrayHead items.length ++ writeItems items
  | map pairs => mapHead pairs.length ++ writePairs pairs
  | extension type data => extensionHead data.length ++ type :: data

def writeItems : List MessagePack → Bytes
  | [] => []
  | item :: rest => write item ++ writeItems rest

def writePairs : List (MessagePack × MessagePack) → Bytes
  | [] => []
  | (key, value) :: rest => write key ++ write value ++ writePairs rest

end

end MessagePack

end MessageCodec
