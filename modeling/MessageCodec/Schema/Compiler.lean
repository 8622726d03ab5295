import MessageCodec.Schema.Listing
import MessageCodec.Schema.Proto
import MessageCodec.Schema.Specification

/-! The specification compiler: reads a specification from a file and writes another text for it. -/

namespace MessageCodec.Schema

/-- What the compiler writes: a line for each message, proto2 declarations, or the normalised
specification. -/
inductive Target where
  | summary | proto | listing
  deriving DecidableEq

def Target.render : Target → List Message → String
  | summary, messages => Schema.summary messages
  | proto, messages => Proto.renderAll messages
  | listing, messages => Schema.listing messages

inductive CompileError where
  | unreadable (reason : String)
  | refused (e : SpecificationError)

def CompileError.message (path : String) : CompileError → String
  | unreadable reason => "Could not find '" ++ path ++ "': " ++ reason
  | refused e => "Failed to parse '" ++ path ++ "': " ++ e.message

/-- The text for a specification that is given in UTF-8. -/
def compile (target : Target) (content : Bytes) : Except CompileError String :=
  match Utf8.decode? content with
  | none => .error (.unreadable "stream did not contain valid UTF-8")
  | some text =>
    match parse text with
    | .error e => .error (.refused e)
    | .ok messages => .ok (target.render messages)

/-- What a run of the compiler leaves behind. -/
structure Outcome where
  exitCode : UInt32
  output : String
  complaint : String
  deriving DecidableEq

/-- The outcome for a file: the text, or a line that says what went wrong. -/
def Outcome.ofResult (path : String) : Except CompileError String → Outcome
  | .ok text => ⟨0, text, ""⟩
  | .error e => ⟨1, "", "[cluon-msc] " ++ e.message path ++ "\n"⟩

end MessageCodec.Schema
