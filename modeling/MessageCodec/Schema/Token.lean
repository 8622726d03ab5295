import MessageCodec.Text

/-! The tokens of a specification and where they stand. A text is cut from left to right: blanks are
skipped, and each token takes as many characters as it can. The cut ends at the end of the text or
at the first place where no token starts. -/

namespace MessageCodec.Schema

/-- A place in a text; lines and columns count from one, columns in characters. -/
structure Position where
  line : Nat
  column : Nat
  deriving DecidableEq

namespace Position

def start : Position := ⟨1, 1⟩

/-- The place after some characters; only a line feed starts a line. -/
def after (p : Position) (cs : List Char) : Position :=
  cs.foldl (fun p c => if c = '\n' then ⟨p.line + 1, 1⟩ else ⟨p.line, p.column + 1⟩) p

end Position

inductive Token where
  | identifier (name : String)
  | number (text : String)
  | string (content : String)
  | character (c : Char)
  | leftBrace | rightBrace | leftBracket | rightBracket
  | semicolon | comma | equals | dot
  deriving DecidableEq

/-- Why no token starts at a place. -/
inductive LexicalFault where
  | unterminatedString
  | malformedCharacter
  | unexpected (c : Char)
  deriving DecidableEq

def LexicalFault.message : LexicalFault → String
  | unterminatedString => "unterminated string"
  | malformedCharacter => "character literal must hold exactly one character"
  | unexpected c => "unexpected character '" ++ c.toString ++ "'"

namespace Token

def spelling : Token → List Char
  | identifier name => name.toList
  | number text => text.toList
  | string content => '"' :: content.toList ++ ['"']
  | character c => ['\'', c, '\'']
  | leftBrace => ['{']
  | rightBrace => ['}']
  | leftBracket => ['[']
  | rightBracket => [']']
  | semicolon => [';']
  | comma => [',']
  | equals => ['=']
  | dot => ['.']

def describe : Token → String
  | identifier name => "identifier '" ++ name ++ "'"
  | number text => "number '" ++ text ++ "'"
  | string content => "string \"" ++ content ++ "\""
  | character c => "character '" ++ c.toString ++ "'"
  | mark => "'" ++ String.ofList mark.spelling ++ "'"

/-- The tokens of a single character. -/
def mark? : Char → Option Token
  | '{' => some leftBrace
  | '}' => some rightBrace
  | '[' => some leftBracket
  | ']' => some rightBracket
  | ';' => some semicolon
  | ',' => some comma
  | '=' => some equals
  | '.' => some dot
  | _ => none

def isIdentifierChar (c : Char) : Bool := c.isAlphanum || c == '_'

/-- The digits at the start of a text, with at most one point among or after them. -/
def digitsAndPoint (cs : List Char) : List Char × List Char :=
  let whole := cs.takeWhile Char.isDigit
  match cs.dropWhile Char.isDigit with
  | '.' :: rest => (whole ++ '.' :: rest.takeWhile Char.isDigit, rest.dropWhile Char.isDigit)
  | rest => (whole, rest)

/-- Does a sign directly before these characters start a number? -/
def startsWithDigit : List Char → Bool
  | c :: _ => c.isDigit
  | [] => false

/-- The token that a character starts, and what follows the token. -/
def first (c : Char) (cs : List Char) : Except LexicalFault (Token × List Char) :=
  match mark? c with
  | some mark => .ok (mark, cs)
  | none =>
    if c = '"' then
      match cs.dropWhile (· != '"') with
      | [] => .error .unterminatedString
      | _ :: rest => .ok (string (String.ofList (cs.takeWhile (· != '"'))), rest)
    else if c = '\'' then
      match cs with
      | d :: '\'' :: rest =>
        if d = '\'' then .error .malformedCharacter else .ok (character d, rest)
      | _ => .error .malformedCharacter
    else if c.isDigit then
      let (text, rest) := digitsAndPoint (c :: cs)
      .ok (number (String.ofList text), rest)
    else if (c = '-' || c = '+') && startsWithDigit cs then
      let (text, rest) := digitsAndPoint cs
      .ok (number (String.ofList (c :: text)), rest)
    else if c.isAlpha then
      .ok (identifier (String.ofList (c :: cs.takeWhile isIdentifierChar)),
        cs.dropWhile isIdentifierChar)
    else .error (.unexpected c)

end Token

/-- The tokens of a text with their places, up to its end or to a fault. -/
inductive Tokens where
  | cons (place : Position) (token : Token) (rest : Tokens)
  | done (place : Position)
  | fault (place : Position) (cause : LexicalFault)

def Tokens.length : Tokens → Nat
  | cons _ _ rest => rest.length + 1
  | _ => 0

namespace Token

theorem length_dropWhile (p : Char → Bool) (cs : List Char) :
    (cs.dropWhile p).length ≤ cs.length := (List.dropWhile_sublist p).length_le

theorem length_digitsAndPoint (cs : List Char) : (digitsAndPoint cs).2.length ≤ cs.length := by
  have whole := length_dropWhile Char.isDigit cs
  unfold digitsAndPoint
  split
  · rename_i rest h
    have fraction := length_dropWhile Char.isDigit rest
    simp only [h, List.length_cons] at whole
    simp only
    omega
  · exact whole

theorem length_digitsAndPoint_cons {c : Char} (digit : c.isDigit) (cs : List Char) :
    (digitsAndPoint (c :: cs)).2.length ≤ cs.length := by
  have whole := length_dropWhile Char.isDigit cs
  unfold digitsAndPoint
  simp only [List.dropWhile_cons, digit, ↓reduceIte]
  split
  · rename_i rest h
    have fraction := length_dropWhile Char.isDigit rest
    simp only [h, List.length_cons] at whole
    simp only
    omega
  · exact whole

/-- A token takes at least the character that starts it. -/
theorem length_first {c : Char} {cs rest : List Char} {t : Token}
    (h : first c cs = .ok (t, rest)) : rest.length ≤ cs.length := by
  unfold first at h
  split at h
  · cases h; exact Nat.le_refl _
  · split at h
    · split at h
      · cases h
      · rename_i closing
        have := length_dropWhile (· != '"') cs
        cases h
        simp only [closing, List.length_cons] at this
        omega
    · split at h
      · split at h
        · split at h
          · cases h
          · cases h; simp only [List.length_cons]; omega
        · cases h
      · split at h
        · rename_i digit
          cases h
          exact length_digitsAndPoint_cons digit cs
        · split at h
          · cases h; exact length_digitsAndPoint cs
          · split at h
            · cases h; exact length_dropWhile _ cs
            · cases h

end Token

/-- The tokens of a text whose first character stands at a given place. -/
def Tokens.scan (place : Position) (cs : List Char) : Tokens :=
  let start := place.after (cs.takeWhile Text.isBlank)
  match h : cs.dropWhile Text.isBlank with
  | [] => .done start
  | c :: rest =>
    match taken : Token.first c rest with
    | .error cause => .fault start cause
    | .ok (token, rest') =>
      have : rest'.length < cs.length := by
        have blanks := Token.length_dropWhile Text.isBlank cs
        have := Token.length_first taken
        simp only [h, List.length_cons] at blanks
        omega
      .cons start token (scan (start.after token.spelling) rest')
termination_by cs.length

def Tokens.ofText (cs : List Char) : Tokens := Tokens.scan .start cs

end MessageCodec.Schema
