import MessageCodec.Envelope.Basic
import MessageCodec.Wire.Decoder
import MessageCodec.Wire.Encoder

/-! Frames: an envelope in binary form behind two fixed bytes and its length in three bytes, the
lowest first. Several frames can follow one another in a stream. -/

namespace MessageCodec.Envelope

/-- The bytes that open a frame. -/
def frameMark : Bytes := [0x0D, 0xA4]

def frameHeaderSize : Nat := 5

/-- Most bytes that the length of a frame can state. -/
def maxFrameLength : Nat := 0xFFFFFF

inductive FrameError where
  | incompleteHeader (available : Nat)
  | invalidHeader (first second : UInt8)
  | truncated (expected available : Nat)
  | payloadTooLarge (length : Nat)
  deriving DecidableEq

/-- A byte as two hexadecimal digits. -/
def hexByte (b : UInt8) : String :=
  String.ofList ['0', 'x', Nat.digitChar (b.toNat / 16), Nat.digitChar (b.toNat % 16)]

def FrameError.message : FrameError → String
  | incompleteHeader available => "Incomplete header: " ++ toString available ++ " of 5 bytes"
  | invalidHeader first second => "Invalid header: " ++ hexByte first ++ " " ++ hexByte second
  | truncated expected available =>
    "Truncated payload: expected " ++ toString expected ++ " bytes, got " ++ toString available
  | payloadTooLarge length =>
    "Payload too large: " ++ toString length ++ " bytes, at most 16777215 fit the header"

/-- The binary form of an envelope, without a frame. -/
def encode (e : Envelope) : Bytes := (e.walk Wire.Encoding.pass .empty).2.bytes

def decodeInto (bs : Bytes) (e : Envelope) : Envelope :=
  (e.walk Wire.decoder.toPass (Wire.decoder.prime bs)).1

def frame (e : Envelope) : Except FrameError Bytes :=
  let body := e.encode
  if body.length ≤ maxFrameLength then
    .ok (frameMark ++ Bytes.ofLittleEndian 3 body.length ++ body)
  else .error (.payloadTooLarge body.length)

/-- The envelope whose frame some bytes start with, and the number of bytes of the frame. -/
def extract : Bytes → Except FrameError (Envelope × Nat)
  | first :: second :: l₀ :: l₁ :: l₂ :: rest =>
    if [first, second] = frameMark then
      let length := Bytes.littleEndian [l₀, l₁, l₂]
      match Bytes.split? length rest with
      | some (body, _) => .ok (decodeInto body empty, frameHeaderSize + length)
      | none => .error (.truncated length rest.length)
    else .error (.invalidHeader first second)
  | short => .error (.incompleteHeader short.length)

/-- The envelope that some bytes hold. It is a frame, if the bytes are exactly one; where that
gives no data type, the bytes are read once more as a binary form without a frame. -/
def ofBytes (bs : Bytes) : Envelope :=
  let framed :=
    match extract bs with
    | .ok (e, used) => if used = bs.length then e else empty
    | .error _ => empty
  if framed.dataType = 0 then decodeInto bs framed else framed

end MessageCodec.Envelope
