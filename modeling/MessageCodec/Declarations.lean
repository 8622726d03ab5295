import MessageCodec.Message
import MessageCodec.Schema.Listing

/-! The specification of a message at hand, made from what the message shows. The types of nested
messages are declared before the types that they occur in, each text once. -/

namespace MessageCodec

/-- The declarations of nested types, and the one that is being written. -/
structure Declarations where
  nested : List String
  current : String

namespace Declarations

def empty : Declarations := ⟨[], ""⟩

def defaultLiteral : ScalarType → String
  | .bool => "false"
  | .char => "'0'"
  | .float | .double => "0.0"
  | .string | .bytes => "\"\""
  | .int _ | .uint _ => "0"

/-- A dot in the place of each double colon. -/
def dottedChars : List Char → List Char
  | ':' :: ':' :: rest => '.' :: dottedChars rest
  | c :: rest => c :: dottedChars rest
  | [] => []

/-- A label with dots between its segments. -/
def dotted (label : String) : String := String.ofList (dottedChars label.toList)

def text (d : Declarations) : String := String.join d.nested ++ d.current

def write (d : Declarations) (line : String) : Declarations :=
  { d with current := d.current ++ line }

/-- Adds the declarations of a nested message that are not there yet. -/
def declare (d inner : Declarations) : Declarations :=
  { d with
    nested := (inner.nested ++ [inner.current]).foldl
      (fun known text => if known.contains text then known else known ++ [text]) d.nested }

def pass : Pass Declarations where
  start h d := d.write (Schema.openingLine h.longName h.id)
  scalar tag t v d :=
    (v, d.write (Schema.fieldLine t.token tag.name (some (defaultLiteral t)) tag.id))
  enter _ d := (d, some empty)
  leave tag inner d :=
    (d.declare inner).write (Schema.fieldLine (dotted tag.label) tag.name none tag.id)
  finish d := d.write "\x7d\n"

end Declarations

/-- The specification of a message and of the types nested in it. -/
def Message.specification (m : Message) : String := (m.walk Declarations.pass .empty).2.text

end MessageCodec
