import MessageCodec.Envelope.Frame
import MessageCodec.Json.Decoder
import MessageCodec.Json.Encoder
import MessageCodec.Record.Decode
import MessageCodec.Schema.Specification

/-! Envelopes in JSON and back, for the messages of a specification. The payload stands beside the
fields of the envelope, in a member named after its message. -/

namespace MessageCodec

open Schema (SpecificationError)

/-- The messages that payloads are read and written with. -/
structure Converter where
  messages : Schema.Catalogue

namespace Converter

def empty : Converter := ⟨[]⟩

/-- The converter for a specification and the number of its messages. A specification that is
refused leaves no messages. -/
def load (text : String) : Converter × Except SpecificationError Nat :=
  match Schema.parse text with
  | .ok messages => (⟨messages⟩, .ok messages.length)
  | .error e => (empty, .error e)

/-- The message with an identifier; of unnumbered ones the last. -/
def schema? (c : Converter) (id : Int32) : Option Schema.Message :=
  c.messages.reverse.find? (·.id == id)

def payloadJson (c : Converter) (schema : Schema.Message) (payload : Bytes) : Json :=
  let (r, _) := Record.decode Wire.decoder schema c.messages payload
  (r.walk Json.Encoding.pass (.empty [])).2.value

/-- The name of the member that holds a payload: that of the message, with underscores for dots. -/
def memberName (schema : Schema.Message) : String := Schema.underscored schema.name

/-- The members for the fields of an envelope; its payload is left out. -/
def envelopeMembers (e : Envelope) : Json.Members :=
  (e.walk Json.Encoding.pass (.empty [(Envelope.payloadTag.id, false)])).2.members

/-- An envelope as a JSON object, which is empty if its data type is not known. -/
def jsonOfEnvelope (c : Converter) (e : Envelope) : Json :=
  match c.schema? e.dataType with
  | none => .object []
  | some schema =>
    .object ((envelopeMembers e).insert (memberName schema) (c.payloadJson schema e.payload))

/-- The envelope in some bytes as a JSON object, which is empty if no messages are known. -/
def jsonOfBytes (c : Converter) (bs : Bytes) : Json :=
  if c.messages.isEmpty then .object [] else c.jsonOfEnvelope (.ofBytes bs)

/-- A message read from JSON, in binary form. -/
def payloadOfJson (c : Converter) (schema : Schema.Message) (json : String) : Bytes :=
  let (r, _) := Record.ofDecoder Json.decoder schema c.messages (Json.membersOfText json)
  (r.walk Wire.Encoding.pass .empty).2.bytes

/-- The frame of an envelope around a message read from JSON. There are no bytes if the message is
not known or does not fit in a frame. -/
def frameOfJson (c : Converter) (json : String) (id : Int32) (sender : UInt32)
    (sampled : TimeStamp) : Bytes :=
  match c.schema? id with
  | none => []
  | some schema =>
    let e : Envelope :=
      { Envelope.empty with
        dataType := id, payload := c.payloadOfJson schema json, sampled, sender }
    match e.frame with
    | .ok bs => bs
    | .error _ => []

end Converter

end MessageCodec
