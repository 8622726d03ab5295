import MessageCodec.Message
import MessageCodec.Record.Basic

/-! Records built by a decoder. Each scalar field starts at zero and is shown to the decoder. A
nested message is first read as bytes, which prime a state for the nested record; without bytes it
is built only if its type is not being built further out, so the recursion ends. -/

namespace MessageCodec.Record

open Schema (Catalogue)

variable {σ : Type}

/-- Adds fields to entries, with the values that the decoder gives them. -/
def addDecoded (d : Decoder σ) (catalogue : Catalogue) (path : List String) (package : String) :
    List Schema.Field → Entries → σ → Entries × σ
  | [], entries, s => (entries, s)
  | f :: fs, entries, s =>
    match f.type with
    | .undefined => addDecoded d catalogue path package fs entries s
    | .scalar t =>
      let (v, s) := d.scalar f.tag t t.zero s
      addDecoded d catalogue path package fs (entries.insert f.id (.scalar ⟨t, v⟩)) s
    | .message =>
      match catalogue.resolve? f.label package with
      | none => addDecoded d catalogue path package fs entries s
      | some m =>
        let (bs, s) := d.scalar f.tag .bytes [] s
        if bs.isEmpty && m.longName ∈ path then addDecoded d catalogue path package fs entries s
        else if maxLevels ≤ path.length then
          addDecoded d catalogue path package fs entries
            (if bs.isEmpty then s else d.limitReached s)
        else
          let (inner, nested) := addDecoded d catalogue (m.longName :: path) m.package m.fields .nil
            (d.start m.header (d.prime bs))
          addDecoded d catalogue path package fs
            (entries.insert f.id (.record ⟨m, catalogue, inner⟩)) (d.absorb (d.finish nested) s)
termination_by fs => (maxLevels - path.length, fs.length)

/-- A record of a schema, read by a decoder from the state that it is in. -/
def ofDecoder (d : Decoder σ) (schema : Schema.Message) (catalogue : Catalogue) (s : σ) :
    Record × σ :=
  let (entries, s) := addDecoded d catalogue [schema.longName] schema.package schema.fields .nil
    (d.start schema.header s)
  (⟨schema, catalogue, entries⟩, d.finish s)

def decode (d : Decoder σ) (schema : Schema.Message) (catalogue : Catalogue) (bs : Bytes) :
    Record × σ :=
  ofDecoder d schema catalogue (d.prime bs)

end MessageCodec.Record
