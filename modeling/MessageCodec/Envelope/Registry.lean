import MessageCodec.Envelope.Converter

/-! A converter that is given one specification after another. It finds messages through a table of
where they stand, which is made anew with every specification. -/

namespace MessageCodec

open Schema (SpecificationError)

namespace Converter

/-- An envelope as a JSON object with its payload read as a message. -/
def objectOf (c : Converter) (schema : Schema.Message) (e : Envelope) : Json :=
  .object ((envelopeMembers e).insert (memberName schema) (c.payloadJson schema e.payload))

/-- The frame of an envelope around JSON read as a message; no bytes if it does not fit. -/
def frameOf (c : Converter) (schema : Schema.Message) (json : String) (id : Int32)
    (sender : UInt32) (sampled : TimeStamp) : Bytes :=
  let e : Envelope :=
    { Envelope.empty with dataType := id, payload := c.payloadOfJson schema json, sampled, sender }
  match e.frame with
  | .ok bs => bs
  | .error _ => []

end Converter

structure Registry where
  messages : Schema.Catalogue
  /-- Where the message with an identifier stands; of several entries the first one counts. -/
  positions : List (Int32 × Nat)

namespace Registry

def empty : Registry := ⟨[], []⟩

/-- Where messages stand; a later one takes the place of an earlier one. -/
def index (messages : Schema.Catalogue) : List (Int32 × Nat) :=
  messages.zipIdx.foldl (fun positions (m, i) => (m.id, i) :: positions) []

/-- Takes the messages of a specification in place of those that are there, and gives their number.
A specification that is refused leaves no messages. -/
def load (r : Registry) (text : String) : Registry × Except SpecificationError Nat :=
  let cleared : Registry := { r with messages := [], positions := [] }
  match Schema.parse text with
  | .error e => (cleared, .error e)
  | .ok messages => ({ cleared with messages, positions := index messages }, .ok messages.length)

def run (r : Registry) (texts : List String) : Registry :=
  texts.foldl (fun r text => (r.load text).1) r

def schema? (r : Registry) (id : Int32) : Option Schema.Message :=
  (r.positions.lookup id).bind (r.messages[·]?)

def converter (r : Registry) : Converter := ⟨r.messages⟩

def jsonOfEnvelope (r : Registry) (e : Envelope) : Json :=
  match r.schema? e.dataType with
  | none => .object []
  | some schema => r.converter.objectOf schema e

def jsonOfBytes (r : Registry) (bs : Bytes) : Json :=
  if r.messages.isEmpty then .object [] else r.jsonOfEnvelope (.ofBytes bs)

def frameOfJson (r : Registry) (json : String) (id : Int32) (sender : UInt32)
    (sampled : TimeStamp) : Bytes :=
  match r.schema? id with
  | none => []
  | some schema => r.converter.frameOf schema json id sender sampled

end Registry

end MessageCodec
