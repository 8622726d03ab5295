import MessageCodec.Csv
import MessageCodec.Declarations
import MessageCodec.Envelope.Converter
import MessageCodec.Envelope.Registry
import MessageCodec.Json.Decoder
import MessageCodec.Json.Encoder
import MessageCodec.Main
import MessageCodec.MessagePack.Decoder
import MessageCodec.MessagePack.Encoder
import MessageCodec.Proofs.Binary.Widening
import MessageCodec.Proofs.Csv.Lines
import MessageCodec.Proofs.Declarations.Built
import MessageCodec.Proofs.Declarations.Instance
import MessageCodec.Proofs.Declarations.Introspection
import MessageCodec.Proofs.Declarations.Parts
import MessageCodec.Proofs.Declarations.Reading
import MessageCodec.Proofs.Declarations.Shape
import MessageCodec.Proofs.Declarations.Typed
import MessageCodec.Proofs.Envelope.Converter
import MessageCodec.Proofs.Envelope.Members
import MessageCodec.Proofs.Envelope.Rebuild
import MessageCodec.Proofs.Envelope.Registry
import MessageCodec.Proofs.Envelope.RoundTrip
import MessageCodec.Proofs.Envelope.Stream
import MessageCodec.Proofs.Json.Agreement
import MessageCodec.Proofs.Json.Messages
import MessageCodec.Proofs.Json.Readable
import MessageCodec.Proofs.Leniency
import MessageCodec.Proofs.MessagePack.Encoder
import MessageCodec.Proofs.MessagePack.Records
import MessageCodec.Proofs.MessagePack.RoundTrip
import MessageCodec.Proofs.Record.Blank
import MessageCodec.Proofs.Record.Capture
import MessageCodec.Proofs.Record.Copy
import MessageCodec.Proofs.Record.Expansion
import MessageCodec.Proofs.Record.Paths
import MessageCodec.Proofs.Record.Reordering
import MessageCodec.Proofs.Schema.Insertion
import MessageCodec.Proofs.Schema.Listing
import MessageCodec.Proofs.Schema.Numbering
import MessageCodec.Proofs.Schema.Proto
import MessageCodec.Proofs.Schema.Removal
import MessageCodec.Proofs.Wire.Depth
import MessageCodec.Proofs.Wire.FirstRecord
import MessageCodec.Proofs.Wire.Framing
import MessageCodec.Proofs.Wire.Gather
import MessageCodec.Proofs.Wire.Head
import MessageCodec.Proofs.Wire.Length
import MessageCodec.Proofs.Wire.Narrowing
import MessageCodec.Proofs.Wire.Normal
import MessageCodec.Proofs.Wire.Overflow
import MessageCodec.Proofs.Wire.Proto2
import MessageCodec.Proofs.Wire.Records
import MessageCodec.Proofs.Wire.RoundTrip
import MessageCodec.Proofs.Wire.Shortest
import MessageCodec.Proofs.Wire.Sparse
import MessageCodec.Proofs.Wire.Stored
import MessageCodec.Record.Capture
import MessageCodec.Schema.Compiler
