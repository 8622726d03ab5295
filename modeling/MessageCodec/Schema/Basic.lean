import MessageCodec.Scalar

/-! Schemas: what a specification says about the messages it declares. A message belongs to a
package, has a name that may itself be dotted, an identifier, and fields in order. -/

namespace MessageCodec.Schema

inductive FieldType where
  | scalar (t : ScalarType)
  | message
  | undefined
  deriving DecidableEq

def FieldType.token : FieldType → String
  | scalar t => t.token
  | message => "message"
  | undefined => "undefined"

/-- One declared field. The label is the type as written: for a nested message, its name. The
default literal is kept as written. -/
structure Field where
  type : FieldType
  label : String
  name : String
  id : UInt32
  default? : Option String
  deriving DecidableEq

/-- A field of a type other than a named message; its label is the type's own token. -/
def Field.plain (type : FieldType) (name : String) (id : UInt32) : Field :=
  ⟨type, type.token, name, id, none⟩

/-- A field that holds a message of the type called `label`. -/
def Field.nested (label name : String) (id : UInt32) : Field := ⟨.message, label, name, id, none⟩

structure Message where
  package : String
  name : String
  id : Int32
  fields : List Field
  deriving DecidableEq

/-- The part of a name after its last dot. -/
def lastSegment (name : String) : String :=
  String.ofList (name.toList.reverse.takeWhile (· != '.')).reverse

def underscored (name : String) : String :=
  String.ofList (name.toList.map fun c => if c = '.' then '_' else c)

namespace Message

/-- The name with the package in front. -/
def longName (m : Message) : String :=
  if m.package.isEmpty then m.name else m.package ++ "." ++ m.name

def shortName (m : Message) : String := lastSegment m.name

def fieldById? (m : Message) (id : UInt32) : Option Field := m.fields.find? (·.id == id)

def fieldByName? (m : Message) (name : String) : Option Field := m.fields.find? (·.name == name)

end Message

/-- The messages that names are looked up in, in order of declaration. -/
abbrev Catalogue := List Message

namespace Catalogue

def find? (c : Catalogue) (longName : String) : Option Message :=
  List.find? (·.longName == longName) c

/-- The message that a type label stands for inside a package: the one with that long name, else
the one with that name in the package, else the first one with that name in any package. -/
def resolve? (c : Catalogue) (label package : String) : Option Message :=
  (c.find? label).or <|
    (if package.isEmpty then none else c.find? (package ++ "." ++ label)).or <|
      List.find? (·.name == label) c

end Catalogue

end MessageCodec.Schema
