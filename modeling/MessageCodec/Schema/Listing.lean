import MessageCodec.Schema.Basic

/-! The normalised text of a specification. A package that all messages share is stated once, else
each message carries its long name; every field states its identifier, and its default as it was
declared. -/

namespace MessageCodec.Schema

/-- The line that opens a message; an identifier is stated when it is positive. -/
def openingLine (name : String) (id : Int32) : String :=
  if 0 < id then "message " ++ name ++ " [ id = " ++ toString id.toInt ++ " ] \x7b\n"
  else "message " ++ name ++ " \x7b\n"

def fieldLine (label name : String) (default? : Option String) (id : UInt32) : String :=
  let default := default?.elim "" fun literal => "default = " ++ literal ++ ", "
  "    " ++ label ++ " " ++ name ++ " [ " ++ default ++ "id = " ++ toString id.toNat ++ " ];\n"

/-- The package of all messages, when they share one that has a name. -/
def sharedPackage? (messages : List Message) : Option String :=
  match messages with
  | [] => none
  | m :: ms =>
    if !m.package.isEmpty && ms.all (·.package == m.package) then some m.package else none

def listMessage (name : String) (m : Message) : String :=
  openingLine name m.id ++
    String.join (m.fields.map fun f => fieldLine f.label f.name f.default? f.id) ++ "\x7d\n\n"

/-- The normalised text of some messages. -/
def listing (messages : List Message) : String :=
  match sharedPackage? messages with
  | some package =>
    "package " ++ package ++ ";\n\n" ++ String.join (messages.map fun m => listMessage m.name m)
  | none => String.join (messages.map fun m => listMessage m.longName m)

/-- One line for each message: identifier, long name and number of fields. -/
def summary (messages : List Message) : String :=
  String.join <| messages.map fun m =>
    let id := toString m.id.toInt
    String.ofList (List.replicate (6 - id.length) ' ') ++ id ++ "  " ++ m.longName ++ " (" ++
      toString m.fields.length ++ " fields)\n"

end MessageCodec.Schema
