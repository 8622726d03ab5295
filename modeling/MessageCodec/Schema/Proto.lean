import MessageCodec.Schema.Basic

/-! Messages declared in the proto2 language, so that other readers can decode what the binary codec
writes. The dots of names become underscores, since messages are declared without packages. -/

namespace MessageCodec.Schema.Proto

/-- The proto2 type that a scalar field is written as. -/
def scalarType : ScalarType → String
  | .bool => "bool"
  | .char => "sint32"
  | .int .w64 => "sint64"
  | .int _ => "sint32"
  | .uint .w64 => "uint64"
  | .uint _ => "uint32"
  | .float => "float"
  | .double => "double"
  | .string => "string"
  | .bytes => "bytes"

def messageName (m : Message) : String := underscored m.longName

/-- The type of a field. A nested message is looked for in the package of the field's message. -/
def fieldType (package : String) (f : Field) : String :=
  match f.type with
  | .scalar t => scalarType t
  | _ =>
    if package.isEmpty then underscored f.label
    else underscored package ++ "_" ++ underscored f.label

def field (package : String) (f : Field) : String :=
  "    optional " ++ fieldType package f ++ " " ++ underscored f.name ++ " = " ++
    toString f.id.toNat ++ ";\n"

def banner : String :=
  "//\n// THIS IS AN AUTO-GENERATED FILE. DO NOT MODIFY AS CHANGES MIGHT BE OVERWRITTEN!\n//\n"

def versionStatement : String :=
  "\n// This line is only needed when using Google Protobuf 3.\nsyntax = \"proto2\";\n"

/-- One message, with or without the statement of the language's version before it. -/
def render (withVersion : Bool) (m : Message) : String :=
  banner ++ (if withVersion then versionStatement else "") ++
    "\n// Message identifier: " ++ toString m.id.toInt ++ ".\nmessage " ++ messageName m ++
    " \x7b\n" ++ String.join (m.fields.map (field m.package)) ++ "\x7d\n"

/-- All messages, the version being stated before the first. -/
def renderAll : List Message → String
  | [] => ""
  | m :: ms => render true m ++ "\n" ++ String.join (ms.map fun m => render false m ++ "\n")

end MessageCodec.Schema.Proto
