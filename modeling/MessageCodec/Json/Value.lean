import MessageCodec.Decimal
import MessageCodec.Text

/-! JSON values and their compact text. An object keeps its members in the order in which their
names first came, each name once. -/

namespace MessageCodec

/-- A number as JSON text gives it: a 64-bit integer, signed or not, or a finite number in double
precision, as its bit pattern. -/
inductive Json.Number where
  | integer (i : Int)
  | double (bits : UInt64)
  deriving DecidableEq

inductive Json where
  | null
  | bool (b : Bool)
  | number (n : Json.Number)
  | string (s : String)
  | array (items : List Json)
  | object (members : List (String × Json))

namespace Json

/-- The members of an object. -/
abbrev Members := List (String × Json)

/-- Adds a member, or gives a new value to the one that has the name. -/
def Members.insert (name : String) (value : Json) : Members → Members
  | [] => [(name, value)]
  | (name', value') :: rest =>
    if name' = name then (name, value) :: rest
    else (name', value') :: Members.insert name value rest

def Members.find? (members : Members) (name : String) : Option Json := members.lookup name

/-- Numbers are written out while their leading digit stands between the fifth place after the
point and the sixteenth before it; whole numbers keep their point. -/
def layout : Decimal.Layout := ⟨fun exponent => exponent < -5 || 16 ≤ exponent, true⟩

/-- The text of a finite number. Of two shortest decimals that are equally near, the even one is
written. -/
def renderDouble (bits : UInt64) : List Char :=
  match Binary.Format.double.decode bits.toNat with
  | .finite negative mantissa exponent =>
    let sign := if negative then ['-'] else []
    if mantissa = 0 then sign ++ ['0', '.', '0']
    else sign ++ layout.render (Decimal.shortest false .double mantissa exponent)
  | _ => "null".toList

def Number.render : Number → List Char
  | integer i => Decimal.ofInt i
  | double bits => renderDouble bits

/-- The number in a member or item; what is not finite has no number. -/
def ofDouble (bits : UInt64) : Json :=
  match Binary.Format.double.decode bits.toNat with
  | .finite _ _ _ => number (.double bits)
  | _ => null

def escape (c : Char) : List Char :=
  match c with
  | '"' => ['\\', '"']
  | '\\' => ['\\', '\\']
  | '\n' => ['\\', 'n']
  | '\r' => ['\\', 'r']
  | '\t' => ['\\', 't']
  | '\x08' => ['\\', 'b']
  | '\x0c' => ['\\', 'f']
  | c =>
    if c.toNat < 32 then
      ['\\', 'u', '0', '0', Nat.digitChar (c.toNat / 16), Nat.digitChar (c.toNat % 16)]
    else [c]

def renderString (s : String) : List Char := '"' :: s.toList.flatMap escape ++ ['"']

mutual

/-- The text of a value, without any blanks. -/
def render : Json → List Char
  | null => ['n', 'u', 'l', 'l']
  | bool true => ['t', 'r', 'u', 'e']
  | bool false => ['f', 'a', 'l', 's', 'e']
  | number n => n.render
  | string s => renderString s
  | array items => '[' :: renderItems items
  | object members => '\x7b' :: renderMembers members

/-- Items with commas between them, and the closing bracket. -/
def renderItems : List Json → List Char
  | [] => [']']
  | [item] => render item ++ [']']
  | item :: rest => render item ++ ',' :: renderItems rest

/-- Members with commas between them, and the closing brace. -/
def renderMembers : List (String × Json) → List Char
  | [] => ['\x7d']
  | [(name, value)] => renderString name ++ ':' :: render value ++ ['\x7d']
  | (name, value) :: rest => renderString name ++ ':' :: render value ++ ',' :: renderMembers rest

end

def text (j : Json) : String := String.ofList j.render

end Json

end MessageCodec
