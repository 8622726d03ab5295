import MessageCodec.Json.Number

/-! Reading JSON text. A text is one value with blanks around it; blanks are spaces, tabs, line
feeds and carriage returns. Arrays and objects may be nested 127 deep. -/

namespace MessageCodec.Json

/-- Most arrays and objects that may be nested in each other. -/
def maxNesting : Nat := 127

def isBlank (c : Char) : Bool := c = ' ' || c = '\n' || c = '\t' || c = '\r'

def skipBlanks (cs : List Char) : List Char := cs.dropWhile isBlank

/-- What follows a word at the start of a text. -/
def after? : List Char → List Char → Option (List Char)
  | [], cs => some cs
  | w :: ws, c :: cs => if w = c then after? ws cs else none
  | _ :: _, [] => none

def hexDigit? (c : Char) : Option Nat :=
  if c.isDigit then some (c.toNat - '0'.toNat)
  else if 'a' ≤ c && c ≤ 'f' then some (c.toNat - 'a'.toNat + 10)
  else if 'A' ≤ c && c ≤ 'F' then some (c.toNat - 'A'.toNat + 10)
  else none

/-- The number of four hexadecimal digits. -/
def unit? (a b c d : Char) : Option Nat := do
  return 4096 * (← hexDigit? a) + 256 * (← hexDigit? b) + 16 * (← hexDigit? c) + (← hexDigit? d)

def isLeadingSurrogate (n : Nat) : Bool := 0xD800 ≤ n && n < 0xDC00

def isTrailingSurrogate (n : Nat) : Bool := 0xDC00 ≤ n && n < 0xE000

/-- The character that a leading and a trailing surrogate stand for. -/
def pairedChar (leading trailing : Nat) : Char :=
  Char.ofNat (0x10000 + (leading - 0xD800) * 1024 + (trailing - 0xDC00))

/-- The character of a letter after a backslash. -/
def unescape? : Char → Option Char
  | '"' => some '"'
  | '\\' => some '\\'
  | '/' => some '/'
  | 'b' => some '\x08'
  | 'f' => some '\x0c'
  | 'n' => some '\n'
  | 'r' => some '\r'
  | 't' => some '\t'
  | _ => none

/-- Reads a string up to its closing quote; what was read before is kept in reverse. Escaped
surrogates stand for a character only in pairs. -/
def readString (sofar : List Char) : List Char → Option (String × List Char)
  | '"' :: rest => some (String.ofList sofar.reverse, rest)
  | '\\' :: 'u' :: a :: b :: c :: d :: rest =>
    match unit? a b c d with
    | none => none
    | some unit =>
      if isTrailingSurrogate unit then none
      else if isLeadingSurrogate unit then
        match rest with
        | '\\' :: 'u' :: a :: b :: c :: d :: rest =>
          match unit? a b c d with
          | none => none
          | some unit' =>
            if isTrailingSurrogate unit' then readString (pairedChar unit unit' :: sofar) rest
            else none
        | _ => none
      else readString (Char.ofNat unit :: sofar) rest
  | '\\' :: e :: rest =>
    match unescape? e with
    | none => none
    | some c => readString (c :: sofar) rest
  | c :: rest => if c = '\\' || c.toNat < 32 then none else readString (c :: sofar) rest
  | [] => none
termination_by structural cs => cs

variable (value : List Char → Option (Json × List Char))

/-- Reads the items of an array from the first one on; there are at most `bound` of them. -/
def readItems : Nat → List Char → Option (List Json × List Char)
  | 0, _ => none
  | bound + 1, cs => do
    let (item, rest) ← value cs
    match skipBlanks rest with
    | ',' :: rest =>
      let (items, rest) ← readItems bound rest
      return (item :: items, rest)
    | ']' :: rest => return ([item], rest)
    | _ => none

/-- Reads the members of an object from the first one on, into those read before; there are at
most `bound` of them. -/
def readMembers (members : Members) : Nat → List Char → Option (Members × List Char)
  | 0, _ => none
  | bound + 1, cs => do
    let quoted ← after? ['"'] (skipBlanks cs)
    let (name, rest) ← readString [] quoted
    let rest ← after? [':'] (skipBlanks rest)
    let (item, rest) ← value rest
    let members := members.insert name item
    match skipBlanks rest with
    | ',' :: rest => readMembers members bound rest
    | '\x7d' :: rest => return (members, rest)
    | _ => none

/-- Reads a value that nests at most `levels` arrays and objects, after blanks. -/
def readValue (levels : Nat) (cs : List Char) : Option (Json × List Char) :=
  match skipBlanks cs, levels with
  | '[' :: rest, levels + 1 =>
    match skipBlanks rest with
    | ']' :: rest => some (array [], rest)
    | rest => (readItems (readValue levels) rest.length rest).map fun (items, rest) =>
        (array items, rest)
  | '\x7b' :: rest, levels + 1 =>
    match skipBlanks rest with
    | '\x7d' :: rest => some (object [], rest)
    | rest => (readMembers (readValue levels) [] rest.length rest).map fun (members, rest) =>
        (object members, rest)
  | '"' :: rest, _ => (readString [] rest).map fun (s, rest) => (string s, rest)
  | 'n' :: rest, _ => (after? ['u', 'l', 'l'] rest).map (null, ·)
  | 't' :: rest, _ => (after? ['r', 'u', 'e'] rest).map (bool true, ·)
  | 'f' :: rest, _ => (after? ['a', 'l', 's', 'e'] rest).map (bool false, ·)
  | cs, _ => (readNumber cs).map fun (n, rest) => (number n, rest)

def parse? (cs : List Char) : Option Json :=
  match readValue maxNesting cs with
  | some (j, rest) => if (skipBlanks rest).isEmpty then some j else none
  | none => none

end MessageCodec.Json
