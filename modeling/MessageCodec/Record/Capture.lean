import MessageCodec.Record.Basic

/-! Capturing a message as a record, and copying the values of a record into other messages. The
schema of a capture is made from what the message shows, and nested messages are captured with
theirs; all of these schemas form the record's catalogue. Values are copied by identifier: a scalar
when the types agree, and a nested message is gone into when the record holds one under its
identifier. -/

namespace MessageCodec

open Schema (Catalogue)

/-- What has been captured of a message. -/
structure Capture where
  schema : Schema.Message
  entries : Entries
  nested : List Schema.Message

namespace Capture

def empty : Capture := ⟨⟨"", "", 0, []⟩, .nil, []⟩

/-- A schema without fields that has the long name of a message. What stands before the short
name and a dot is the package; without such a part the whole name is the message's. -/
def schemaOf (h : Header) : Schema.Message :=
  let long := h.longName.toList
  let short := h.shortName.toList
  let ending := '.' :: short
  let package := long.take (long.length - ending.length)
  if ending.isSuffixOf long && !package.isEmpty then ⟨String.ofList package, h.shortName, h.id, []⟩
  else ⟨"", h.longName, h.id, []⟩

def add (c : Capture) (f : Schema.Field) (v : Value) : Capture :=
  { c with
    schema := { c.schema with fields := c.schema.fields ++ [f] }
    entries := c.entries.insert f.id v }

/-- The messages with the later ones of each long name left out. -/
def distinct (catalogue : Catalogue) : List Schema.Message → Catalogue
  | [] => catalogue
  | m :: ms =>
    distinct (if catalogue.any (·.longName == m.longName) then catalogue else catalogue ++ [m]) ms

def record (c : Capture) : Record := ⟨c.schema, distinct [c.schema] c.nested, c.entries⟩

def pass : Pass Capture where
  start h c := { c with schema := schemaOf h }
  scalar tag t v c := (v, c.add ⟨.scalar t, tag.label, tag.name, tag.id, none⟩ (.scalar ⟨t, v⟩))
  enter _ c := (c, some empty)
  leave tag inner c :=
    let r := inner.record
    { c.add (.nested tag.label tag.name tag.id) (.record r) with nested := c.nested ++ r.catalogue }
  finish c := c

end Capture

/-- A message as a record with a schema of its own. -/
def Message.capture (m : Message) : Record := (m.walk Capture.pass .empty).2.record

/-- A record as one whose schema lists only the fields that have values. -/
def Record.capture (r : Record) : Record := (r.walk Capture.pass .empty).2.record

namespace Record

/-- Fills the messages that are walked over with the values of a record. A nested record is walked
with on its own, and put back behind its message. -/
def copying : Pass Record where
  start _ r := r
  scalar tag t v r :=
    match r.value? tag.id with
    | some (.scalar s) => (s.copyOnto t v, r)
    | _ => (v, r)
  enter tag r :=
    match r.value? tag.id with
    | some (.record inner) => (r, some inner)
    | _ => (r, none)
  leave tag inner r := { r with entries := r.entries.insert tag.id (.record inner) }
  finish r := r

/-- A message with the values of a record in the fields that they fit. -/
def copyInto (r : Record) (m : Message) : Message := (m.walk copying r).1

/-- A record with the values of another one in the fields that they fit. -/
def copyIntoRecord (r target : Record) : Record := (target.walk copying r).1

end Record

end MessageCodec
