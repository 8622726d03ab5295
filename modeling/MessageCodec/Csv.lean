import MessageCodec.Decimal
import MessageCodec.Json.Encoder
import MessageCodec.Text

/-! Tables of messages: a line of column names and one line for each message. The fields of nested
messages become columns with dotted names. Texts and bytes are written as quoted Base64, so that no
cell holds a delimiter or a line break. -/

namespace MessageCodec.Csv

/-- Numbers are written without an exponent, and whole numbers without a point. -/
def layout : Decimal.Layout := ⟨fun _ => false, false⟩

/-- The text of a floating-point number. Of two shortest decimals that are equally near, the
greater one is written. -/
def renderNumber (f : Binary.Format) (bits : Nat) : List Char :=
  match f.decode bits with
  | .nan _ _ => "NaN".toList
  | .infinite negative => if negative then "-inf".toList else "inf".toList
  | .finite negative mantissa exponent =>
    let sign := if negative then ['-'] else []
    if mantissa = 0 then sign ++ ['0']
    else sign ++ layout.render (Decimal.shortest true f mantissa exponent)

def quoted (bs : Bytes) : List Char := '"' :: Text.Base64.encode bs ++ ['"']

def cell : (t : ScalarType) → t.Value → List Char
  | .bool, v => if v then ['1'] else ['0']
  | .char, v => [v]
  | .int _, v => Decimal.ofInt v.toInt
  | .uint _, v => Decimal.digits v.toNat
  | .float, v => renderNumber .single v.toNat
  | .double, v => renderNumber .double v.toNat
  | .string, v => quoted (Utf8.encode v)
  | .bytes, v => quoted v

/-- A table that is being written. The header is filled by the first message only; a table for the
columns of a nested message has the path to it in front of its column names. -/
structure Table where
  delimiter : Char
  withHeader : Bool
  mask : Json.Mask
  path? : Option String
  fillsHeader : Bool
  header : String
  rows : String

namespace Table

def new (delimiter : Char) (withHeader : Bool) (mask : Json.Mask) : Table :=
  ⟨delimiter, withHeader, mask, none, true, "", ""⟩

/-- A table with semicolons and a header. -/
def standard : Table := new ';' true []

def text (t : Table) : String := if t.withHeader then t.header ++ t.rows else t.rows

/-- Drops all lines; the next message fills the header again. -/
def clear (t : Table) : Table := { t with header := "", rows := "", fillsHeader := true }

/-- The name of the column of a field. An empty path counts as none. -/
def column (t : Table) (name : String) : String :=
  let path := t.path?.getD ""
  if path.isEmpty then name else path ++ "." ++ name

def nested (t : Table) (name : String) : Table :=
  { new t.delimiter t.withHeader [] with path? := some (t.column name) }

/-- Adds the column name of a field, when the header is being filled, and its cell. -/
def add (t : Table) (name : String) (cell : List Char) : Table :=
  { t with
    header := if t.fillsHeader then (t.header ++ t.column name).push t.delimiter else t.header
    rows := (t.rows ++ String.ofList cell).push t.delimiter }

def join (t inner : Table) : Table :=
  { t with
    header := if t.fillsHeader then t.header ++ inner.header else t.header
    rows := t.rows ++ inner.rows }

def endLine (t : Table) : Table :=
  if t.path?.isSome then t
  else
    { t with
      header := if t.fillsHeader then t.header ++ "\n" else t.header
      fillsHeader := false
      rows := t.rows ++ "\n" }

def pass : Pass Table where
  start _ table := table
  scalar tag t v table :=
    (v, if table.mask.includes tag.id then table.add tag.name (cell t v) else table)
  enter tag table :=
    (table, if table.mask.includes tag.id then some (table.nested tag.name) else none)
  leave _ inner table := table.join inner
  finish table := table.endLine

end Table

end MessageCodec.Csv
