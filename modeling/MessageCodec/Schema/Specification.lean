import MessageCodec.Schema.Comment
import MessageCodec.Schema.Parser

/-! A specification is read in three steps: comments are removed, the rest is parsed, and the
messages are checked for identifiers and names that are used twice. The identifier zero stands for
an unnumbered message and may be used by many. -/

namespace MessageCodec.Schema

/-- What two declarations have in common and must not. -/
inductive Conflict where
  | messageId (id : Int32)
  | messageName (longName : String)
  | fieldId (id : UInt32) (message : String)
  | fieldName (name message : String)
  deriving DecidableEq

def Conflict.message : Conflict → String
  | messageId id => "message identifier " ++ toString id.toInt ++ " used more than once"
  | messageName name => "message name '" ++ name ++ "' declared more than once"
  | fieldId id message =>
    "field identifier " ++ toString id.toNat ++ " used more than once in '" ++ message ++ "'"
  | fieldName name message =>
    "field name '" ++ name ++ "' used more than once in '" ++ message ++ "'"

/-- The first field of a message that repeats an identifier or a name of the fields before it. -/
def fieldConflict? (message : String) (ids : List UInt32) (names : List String) :
    List Field → Option Conflict
  | [] => none
  | f :: fs =>
    if f.id ∈ ids then some (.fieldId f.id message)
    else if f.name ∈ names then some (.fieldName f.name message)
    else fieldConflict? message (f.id :: ids) (f.name :: names) fs

/-- The first conflict of a message with the messages before it, or within a message. -/
def conflict? (ids : List Int32) (names : List String) : List Message → Option Conflict
  | [] => none
  | m :: ms =>
    if m.id ≠ 0 ∧ m.id ∈ ids then some (.messageId m.id)
    else if m.longName ∈ names then some (.messageName m.longName)
    else (fieldConflict? m.longName [] [] m.fields).or
      (conflict? (if m.id = 0 then ids else m.id :: ids) (m.longName :: names) ms)

inductive SpecificationError where
  | malformed (e : SyntaxError)
  | ambiguous (c : Conflict)
  deriving DecidableEq

namespace SpecificationError

def code : SpecificationError → String
  | malformed _ => "SYNTAX_ERROR"
  | ambiguous _ => "DUPLICATE_IDENTIFIERS"

/-- What is wrong, and for a text off the grammar where. -/
def detail : SpecificationError → String
  | malformed e => e.message
  | ambiguous c => c.message

def message (e : SpecificationError) : String := e.code ++ ": " ++ e.detail

end SpecificationError

/-- The messages that a specification declares, in order. -/
def parse (text : String) : Except SpecificationError (List Message) :=
  match Parser.specification (Tokens.ofText (Comment.strip text.toList)) with
  | .error e => .error (.malformed e)
  | .ok messages =>
    match conflict? [] [] messages with
    | some c => .error (.ambiguous c)
    | none => .ok messages

end MessageCodec.Schema
