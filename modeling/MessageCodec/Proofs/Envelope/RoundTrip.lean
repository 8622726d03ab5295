import MessageCodec.Envelope.Frame
import MessageCodec.Proofs.Record.Walk
import MessageCodec.Proofs.Wire.RoundTrip

/-! Envelopes as messages. A pass walks over an envelope as over the message that it
shows. None of its fields can hold a negative zero or a character, so the binary form
of an envelope is read back as that envelope. -/

namespace MessageCodec

variable {σ : Type}

namespace Envelope

theorem descend_toMessage (p : Pass σ) (t : TimeStamp) (tag : FieldTag) (s : σ) :
    p.descend (fun state => ((t.toMessage.fields.walk p (p.start TimeStamp.header state)).1,
        p.finish (t.toMessage.fields.walk p (p.start TimeStamp.header state)).2))
        tag t.toMessage.fields s =
      ((p.descend (t.walk p) tag t s).1.toMessage.fields, (p.descend (t.walk p) tag t s).2) := by
  rcases entered : p.enter tag s with ⟨around, _ | inner⟩
  · rw [Pass.descend_of_closed entered, Pass.descend_of_closed entered]
  · rw [Pass.descend_of_opened entered, Pass.descend_of_opened entered]
    rfl

theorem walk_toMessage (p : Pass σ) (e : Envelope) (s : σ) :
    e.toMessage.walk p s = ((e.walk p s).1.toMessage, (e.walk p s).2) := by
  simp only [Message.walk, toMessage, Fields.walk, descend_toMessage, walk]
  rfl

theorem encode_eq (e : Envelope) : e.encode = Wire.encode e.toMessage := by
  rw [encode, Wire.encode, walk_toMessage]

theorem toMessage_decodeInto (bs : Bytes) (e : Envelope) :
    (decodeInto bs e).toMessage = (Wire.decoder.decodeInto bs e.toMessage).1 := by
  rw [decodeInto, Decoder.decodeInto, walk_toMessage]

theorem toMessage_injective {e e' : Envelope} (same : e.toMessage = e'.toMessage) : e = e' := by
  obtain ⟨_, _, ⟨_, _⟩, ⟨_, _⟩, ⟨_, _⟩, _⟩ := e
  obtain ⟨_, _, ⟨_, _⟩, ⟨_, _⟩, ⟨_, _⟩, _⟩ := e'
  simpa [toMessage, TimeStamp.toMessage, Int32.toBitVec_inj, UInt32.toBitVec_inj] using same

theorem distinct_toMessage (e : Envelope) : e.toMessage.fields.Distinct := by
  simp [toMessage, TimeStamp.toMessage, Fields.Distinct, Fields.ids, dataTypeTag, payloadTag,
    sentTag, receivedTag, sampledTag, senderTag, TimeStamp.secondsTag, TimeStamp.microsecondsTag]

theorem levels_toMessage (e : Envelope) : e.toMessage.levels = 2 := rfl

theorem zeroed_toMessage (e : Envelope) : e.toMessage.zeroed = empty.toMessage := rfl

theorem narrowed_toMessage (e : Envelope) : e.toMessage.fields.narrowed = e.toMessage.fields := rfl

theorem decodeInto_encode_empty {e : Envelope} (fits : e.encode.length < UInt64.size) :
    decodeInto e.encode empty = e := by
  apply toMessage_injective
  have shallow : e.toMessage.levels ≤ maxLevels := by
    rw [levels_toMessage]
    decide
  rw [encode_eq] at fits ⊢
  rw [toMessage_decodeInto, ← zeroed_toMessage e,
    Wire.decodeInto_zeroed e.distinct_toMessage shallow fits, narrowed_toMessage]

end Envelope

end MessageCodec
