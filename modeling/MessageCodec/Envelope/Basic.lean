import MessageCodec.Message

/-! Envelopes carry one encoded message each, with the identifier of its type, its sender, and the
times at which it was sent, received and sampled. Both envelopes and time stamps are messages of
fixed shape, so every pass walks over them as it does over other messages. -/

namespace MessageCodec

/-- Seconds and microseconds since the epoch. -/
structure TimeStamp where
  seconds : Int32
  microseconds : Int32
  deriving DecidableEq

/-- An envelope; the payload is a message in binary form. -/
structure Envelope where
  dataType : Int32
  payload : Bytes
  sent : TimeStamp
  received : TimeStamp
  sampled : TimeStamp
  sender : UInt32
  deriving DecidableEq

variable {σ : Type}

namespace TimeStamp

def zero : TimeStamp := ⟨0, 0⟩

def header : Header := ⟨12, "TimeStamp", "cluon.data.TimeStamp"⟩

def secondsTag : FieldTag := ⟨1, "int32", "seconds"⟩

def microsecondsTag : FieldTag := ⟨2, "int32", "microseconds"⟩

def toMessage (t : TimeStamp) : Message :=
  ⟨header, .scalar secondsTag ⟨.int .w32, t.seconds.toBitVec⟩ <|
    .scalar microsecondsTag ⟨.int .w32, t.microseconds.toBitVec⟩ .nil⟩

def walk (p : Pass σ) (t : TimeStamp) (s : σ) : TimeStamp × σ :=
  let (seconds, s) := p.scalar secondsTag (.int .w32) t.seconds.toBitVec (p.start header s)
  let (microseconds, s) := p.scalar microsecondsTag (.int .w32) t.microseconds.toBitVec s
  (⟨.ofBitVec seconds, .ofBitVec microseconds⟩, p.finish s)

end TimeStamp

namespace Envelope

def empty : Envelope := ⟨0, [], .zero, .zero, .zero, 0⟩

def header : Header := ⟨1, "Envelope", "cluon.data.Envelope"⟩

def dataTypeTag : FieldTag := ⟨1, "int32", "dataType"⟩

def payloadTag : FieldTag := ⟨2, "bytes", "serializedData"⟩

def sentTag : FieldTag := ⟨3, "cluon.data.TimeStamp", "sent"⟩

def receivedTag : FieldTag := ⟨4, "cluon.data.TimeStamp", "received"⟩

def sampledTag : FieldTag := ⟨5, "cluon.data.TimeStamp", "sampleTimeStamp"⟩

def senderTag : FieldTag := ⟨6, "uint32", "senderStamp"⟩

def toMessage (e : Envelope) : Message :=
  ⟨header, .scalar dataTypeTag ⟨.int .w32, e.dataType.toBitVec⟩ <|
    .scalar payloadTag ⟨.bytes, e.payload⟩ <|
    .nested sentTag TimeStamp.header e.sent.toMessage.fields <|
    .nested receivedTag TimeStamp.header e.received.toMessage.fields <|
    .nested sampledTag TimeStamp.header e.sampled.toMessage.fields <|
    .scalar senderTag ⟨.uint .w32, e.sender.toBitVec⟩ .nil⟩

def walk (p : Pass σ) (e : Envelope) (s : σ) : Envelope × σ :=
  let (dataType, s) := p.scalar dataTypeTag (.int .w32) e.dataType.toBitVec (p.start header s)
  let (payload, s) := p.scalar payloadTag .bytes e.payload s
  let (sent, s) := p.descend (e.sent.walk p) sentTag e.sent s
  let (received, s) := p.descend (e.received.walk p) receivedTag e.received s
  let (sampled, s) := p.descend (e.sampled.walk p) sampledTag e.sampled s
  let (sender, s) := p.scalar senderTag (.uint .w32) e.sender.toBitVec s
  (⟨.ofBitVec dataType, payload, sent, received, sampled, .ofBitVec sender⟩, p.finish s)

end Envelope

end MessageCodec
