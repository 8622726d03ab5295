import MessageCodec.Decimal
import MessageCodec.Schema.Basic
import MessageCodec.Schema.Token

/-! The grammar of a specification: an optional package, then messages with their fields. A parser
takes tokens from the front, one of them in sight at a time: a place where no token starts is
reported as soon as it comes into sight, whatever was expected there. -/

namespace MessageCodec.Schema

/-- What may stand at a place. -/
inductive Expectation where
  | token (t : Token)
  | keyword (word : String)
  | identifier | natural | literal
  deriving DecidableEq

def Expectation.describe : Expectation → String
  | token t => t.describe
  | keyword word => "'" ++ word ++ "'"
  | identifier => "identifier"
  | natural => "positive integer"
  | literal => "default value"

/-- Why a text does not follow the grammar; an absent token is the end of the text. -/
inductive SyntaxFault where
  | lexical (cause : LexicalFault)
  | unexpected (wanted : Expectation) (found? : Option Token)
  deriving DecidableEq

def SyntaxFault.message : SyntaxFault → String
  | lexical cause => cause.message
  | unexpected wanted found? =>
    "expected " ++ wanted.describe ++ ", found " ++ found?.elim "end of input" Token.describe

structure SyntaxError where
  place : Position
  fault : SyntaxFault
  deriving DecidableEq

def SyntaxError.message (e : SyntaxError) : String :=
  "line " ++ toString e.place.line ++ ", column " ++ toString e.place.column ++ ": " ++
    e.fault.message

/-- Brings the next token into sight. -/
def Tokens.settle : Tokens → Except SyntaxError Tokens
  | fault place cause => .error ⟨place, .lexical cause⟩
  | tokens => .ok tokens

theorem Tokens.eq_of_settle {tokens settled : Tokens} (h : tokens.settle = .ok settled) :
    settled = tokens := by
  cases tokens <;> simp_all [settle]

abbrev Parser := StateT Tokens (Except SyntaxError)

namespace Parser

variable {α β : Type}

/-- Takes the next token if `pick` accepts it. -/
def take (wanted : Expectation) (pick : Token → Option α) : Parser α
  | .cons place token rest =>
    match pick token with
    | some a => rest.settle.map (a, ·)
    | none => .error ⟨place, .unexpected wanted (some token)⟩
  | .done place => .error ⟨place, .unexpected wanted none⟩
  | .fault place cause => .error ⟨place, .lexical cause⟩

def token (t : Token) : Parser Unit :=
  take (.token t) fun u => if u = t then some () else none

def keyword (word : String) : Parser Unit :=
  take (.keyword word) fun u => if u = .identifier word then some () else none

def identifier : Parser String :=
  take .identifier fun
    | .identifier name => some name
    | _ => none

/-- A positive integer below a bound: digits of which the first is not zero. -/
def naturalBelow? (bound : Nat) (text : List Char) : Option Nat :=
  if text.head?.any (· != '0') && text.all Char.isDigit then
    let value := Decimal.ofDigits 0 text
    if value < bound then some value else none
  else none

def natural (bound : Nat) : Parser Nat :=
  take .natural fun
    | .number text => naturalBelow? bound text.toList
    | _ => none

/-- A default literal, as it is written. -/
def literal : Parser String :=
  take .literal fun
    | .number text => some text
    | .identifier word => if word = "true" || word = "false" then some word else none
    | .string content => some (String.ofList (Token.string content).spelling)
    | .character c => some (String.ofList (Token.character c).spelling)
    | _ => none

def sees (t : Token) : Parser Bool := fun tokens =>
  match tokens with
  | .cons _ u _ => .ok (u == t, tokens)
  | _ => .ok (false, tokens)

/-- A parser that runs if a token is next. -/
def whenSees (t : Token) (p : Parser α) : Parser (Option α) := do
  if ← sees t then return some (← p) else return none

/-- A parser that never gives tokens back. -/
def Shrinks (p : Parser α) : Prop :=
  ∀ ⦃tokens rest : Tokens⦄ ⦃a : α⦄, p tokens = .ok (a, rest) → rest.length ≤ tokens.length

/-- A parser that takes at least one token. -/
def Advances (p : Parser α) : Prop :=
  ∀ ⦃tokens rest : Tokens⦄ ⦃a : α⦄, p tokens = .ok (a, rest) → rest.length < tokens.length

theorem Advances.shrinks {p : Parser α} (h : Advances p) : Shrinks p :=
  fun _ _ _ e => Nat.le_of_lt (h e)

theorem advances_take (wanted : Expectation) (pick : Token → Option α) :
    Advances (take wanted pick) := by
  intro tokens rest a h
  unfold take at h
  split at h
  · rename_i place token tail
    cases hp : pick token with
    | none => simp [hp] at h
    | some b =>
      simp only [hp] at h
      cases hs : tail.settle with
      | error e => simp [hs, Except.map] at h
      | ok settled =>
        simp only [hs, Except.map, Except.ok.injEq, Prod.mk.injEq] at h
        obtain ⟨-, rfl⟩ := h
        rw [Tokens.eq_of_settle hs]
        exact Nat.lt_succ_self _
  · cases h
  · cases h

theorem shrinks_take (wanted : Expectation) (pick : Token → Option α) :
    Shrinks (take wanted pick) := (advances_take wanted pick).shrinks

theorem shrinks_pure (a : α) : Shrinks (pure a : Parser α) := by
  intro tokens rest b h
  cases h
  exact Nat.le_refl _

theorem bind_eq_ok {p : Parser α} {f : α → Parser β} {tokens rest : Tokens} {b : β}
    (h : (p >>= f) tokens = .ok (b, rest)) :
    ∃ a between, p tokens = .ok (a, between) ∧ f a between = .ok (b, rest) := by
  simp only [bind, StateT.bind, Except.bind] at h
  split at h
  · cases h
  · rename_i pair hp
    exact ⟨pair.1, pair.2, hp, h⟩

theorem Shrinks.bind {p : Parser α} {f : α → Parser β} (hp : Shrinks p) (hf : ∀ a, Shrinks (f a)) :
    Shrinks (p >>= f) := by
  intro tokens rest b h
  obtain ⟨a, between, h₁, h₂⟩ := bind_eq_ok h
  exact Nat.le_trans (hf a h₂) (hp h₁)

theorem Advances.bind {p : Parser α} {f : α → Parser β} (hp : Advances p)
    (hf : ∀ a, Shrinks (f a)) : Advances (p >>= f) := by
  intro tokens rest b h
  obtain ⟨a, between, h₁, h₂⟩ := bind_eq_ok h
  exact Nat.lt_of_le_of_lt (hf a h₂) (hp h₁)

theorem shrinks_sees (t : Token) : Shrinks (sees t) := by
  intro tokens rest b h
  unfold sees at h
  split at h <;> (cases h; exact Nat.le_refl _)

theorem Shrinks.whenSees {p : Parser α} (hp : Shrinks p) (t : Token) :
    Shrinks (whenSees t p) := by
  refine (shrinks_sees t).bind fun seen => ?_
  cases seen
  · exact shrinks_pure _
  · exact hp.bind fun a => shrinks_pure _

/-- The segments of a dotted name after its first one, each with its dot. -/
def dottedTail (tokens : Tokens) : Except SyntaxError (String × Tokens) :=
  match h : (whenSees .dot do token .dot; identifier) tokens with
  | .error e => .error e
  | .ok (none, rest) => .ok ("", rest)
  | .ok (some name, rest) =>
    have : rest.length < tokens.length := by
      obtain ⟨seen, between, h₁, h₂⟩ := bind_eq_ok h
      have le := shrinks_sees .dot h₁
      cases seen
      · cases h₂
      · obtain ⟨name', rest', h₃, h₄⟩ := bind_eq_ok h₂
        have lt := (advances_take _ _).bind (fun _ => shrinks_take _ _) h₃
        cases h₄
        omega
    (dottedTail rest).map fun (tail, rest) => ("." ++ name ++ tail, rest)
termination_by tokens.length

def dottedName : Parser String := do
  let head ← identifier
  return head ++ (← dottedTail)

theorem shrinks_dottedTail : Shrinks (dottedTail : Parser String) := by
  intro tokens rest tail h
  fun_induction dottedTail tokens generalizing tail with
  | case1 => cases h
  | case2 tokens rest' h' =>
    cases h
    exact (((advances_take _ _).bind fun _ => shrinks_take _ _).shrinks.whenSees _) h'
  | case3 tokens name rest' h' shorter ih =>
    cases hd : dottedTail rest' with
    | error e => simp [hd, Except.map] at h
    | ok pair =>
      simp only [hd, Except.map, Except.ok.injEq, Prod.mk.injEq] at h
      have := @ih pair.1 (by rw [hd, ← h.2])
      omega

theorem advances_dottedName : Advances dottedName :=
  (advances_take _ _).bind fun _ => shrinks_dottedTail.bind fun _ => shrinks_pure _

end Parser

/-- A field as it is declared, before the fields without a number get one. -/
structure FieldDeclaration where
  label : String
  name : String
  default? : Option String
  id? : Option UInt32

namespace FieldDeclaration

/-- The field with a number. A label that is no scalar type names a message. -/
def numbered (d : FieldDeclaration) (id : UInt32) : Field :=
  match ScalarType.ofToken? d.label with
  | some t => ⟨.scalar t, d.label, d.name, id, d.default?⟩
  | none => ⟨.message, d.label, d.name, id, d.default?⟩

/-- Gives the fields without a number the next ones after `last`, in order. -/
def number (last : UInt32) : List FieldDeclaration → List Field
  | [] => []
  | d :: ds =>
    match d.id? with
    | some id => d.numbered id :: number last ds
    | none => d.numbered (last + 1) :: number (last + 1) ds

end FieldDeclaration

namespace Parser

def fieldDefault : Parser String := do
  keyword "default"
  token .equals
  literal

def fieldId : Parser UInt32 := do
  keyword "id"
  token .equals
  return UInt32.ofNat (← natural UInt32.size)

/-- The bracketed part of a field: a default, an identifier, either, both or neither. -/
def fieldOptions : Parser (Option String × Option UInt32) := do
  token .leftBracket
  let default? ← whenSees (.identifier "default") fieldDefault
  let _ ← whenSees .comma (token .comma)
  let id? ← whenSees (.identifier "id") fieldId
  token .rightBracket
  return (default?, id?)

def field : Parser FieldDeclaration := do
  let label ← dottedName
  let name ← identifier
  let options? ← whenSees .leftBracket fieldOptions
  token .semicolon
  return ⟨label, name, options?.bind (·.1), options?.bind (·.2)⟩

theorem shrinks_fieldDefault : Shrinks fieldDefault :=
  (shrinks_take _ _).bind fun _ => (shrinks_take _ _).bind fun _ =>
    shrinks_take _ _

theorem shrinks_fieldId : Shrinks fieldId :=
  (shrinks_take _ _).bind fun _ => (shrinks_take _ _).bind fun _ =>
    (shrinks_take _ _).bind fun _ => shrinks_pure _

theorem shrinks_fieldOptions : Shrinks fieldOptions :=
  (shrinks_take _ _).bind fun _ => (shrinks_fieldDefault.whenSees _).bind fun _ =>
    ((shrinks_take _ _).whenSees _).bind fun _ => (shrinks_fieldId.whenSees _).bind fun _ =>
      (shrinks_take _ _).bind fun _ => shrinks_pure _

theorem advances_field : Advances field :=
  advances_dottedName.bind fun _ => (shrinks_take _ _).bind fun _ =>
    (shrinks_fieldOptions.whenSees _).bind fun _ => (shrinks_take _ _).bind fun _ =>
      shrinks_pure _

/-- The fields up to the closing brace, which is left in place. -/
def fields (tokens : Tokens) : Except SyntaxError (List FieldDeclaration × Tokens) :=
  match sees .rightBrace tokens with
  | .ok (true, rest) => .ok ([], rest)
  | _ =>
    match h : field tokens with
    | .error e => .error e
    | .ok (f, rest) =>
      have := advances_field h
      (fields rest).map fun (fs, rest) => (f :: fs, rest)
termination_by tokens.length

theorem shrinks_fields : Shrinks (fields : Parser (List FieldDeclaration)) := by
  intro tokens rest fs h
  fun_induction fields tokens generalizing fs with
  | case1 tokens rest' h' =>
    cases h
    exact shrinks_sees _ h'
  | case2 => cases h
  | case3 tokens f rest' h' shorter _ ih =>
    cases hf : fields rest' with
    | error e => simp [hf, Except.map] at h
    | ok pair =>
      simp only [hf, Except.map, Except.ok.injEq, Prod.mk.injEq] at h
      have := @ih pair.1 (by rw [hf, ← h.2])
      omega

def messageId : Parser Int32 := do
  token .leftBracket
  keyword "id"
  token .equals
  let id ← natural 0x80000000
  let _ ← whenSees .comma (token .comma)
  token .rightBracket
  return Int32.ofNat id

/-- A message of a package. Without an identifier it has the identifier zero. -/
def message (package : String) : Parser Message := do
  keyword "message"
  let name ← dottedName
  let id? ← whenSees .leftBracket messageId
  token .leftBrace
  let declared ← fields
  token .rightBrace
  return ⟨package, name, id?.getD 0, FieldDeclaration.number 0 declared⟩

theorem shrinks_messageId : Shrinks messageId :=
  (shrinks_take _ _).bind fun _ => (shrinks_take _ _).bind fun _ =>
    (shrinks_take _ _).bind fun _ => (shrinks_take _ _).bind fun _ =>
      ((shrinks_take _ _).whenSees _).bind fun _ =>
        (shrinks_take _ _).bind fun _ => shrinks_pure _

theorem advances_message (package : String) : Advances (message package) :=
  (advances_take _ _).bind fun _ => advances_dottedName.shrinks.bind fun _ =>
    (shrinks_messageId.whenSees _).bind fun _ => (shrinks_take _ _).bind fun _ =>
      shrinks_fields.bind fun _ => (shrinks_take _ _).bind fun _ => shrinks_pure _

/-- The messages up to the end of the text. -/
def messages (package : String) (tokens : Tokens) : Except SyntaxError (List Message) :=
  match tokens with
  | .done _ => .ok []
  | tokens =>
    match h : message package tokens with
    | .error e => .error e
    | .ok (m, rest) =>
      have := advances_message package h
      (messages package rest).map (m :: ·)
termination_by tokens.length

def packageStatement : Parser String := do
  keyword "package"
  let name ← dottedName
  token .semicolon
  return name

def specification (tokens : Tokens) : Except SyntaxError (List Message) := do
  let tokens ← tokens.settle
  let (package?, rest) ← whenSees (.identifier "package") packageStatement tokens
  messages (package?.getD "") rest

end Parser

end MessageCodec.Schema
