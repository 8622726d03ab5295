import MessageCodec.Schema.Parser

/-! The grammar of a specification, as the token sequences that derive from each of its
rules and what they denote. The rules say nothing about how a parser goes about it. -/

namespace MessageCodec

theorem ScalarType.ofToken?_token (t : ScalarType) : ScalarType.ofToken? t.token = some t := by
  cases t with
  | int w => cases w <;> decide
  | uint w => cases w <;> decide
  | _ => decide

namespace Schema.Grammar

/-- A name: `identifier ('.' identifier)*`. -/
inductive Dotted : List Token → String → Prop where
  | last (name : String) : Dotted [.identifier name] name
  | more (name : String) {ts : List Token} {rest : String} (behind : Dotted ts rest) :
    Dotted (.identifier name :: .dot :: ts) (name ++ "." ++ rest)

/-- A default: `number | 'true' | 'false' | string | char`. -/
def IsLiteral : Token → Prop
  | .number _ | .string _ | .character _ => True
  | .identifier word => word = "true" ∨ word = "false"
  | _ => False

/-- The text of a number that has only digits, the first of them not zero, and is below a bound. -/
structure Natural (bound : Nat) (text : String) (n : Nat) : Prop where
  digits : ∀ c ∈ text.toList, c.isDigit
  leading : ∃ c, text.toList.head? = some c ∧ c ≠ '0'
  value : Decimal.ofDigits 0 text.toList = n
  fits : n < bound

/-- A comma that may be left out: `','?`. -/
inductive Comma : List Token → Prop where
  | absent : Comma []
  | present : Comma [.comma]

/-- The default of a field: `('default' '=' literal)?`. -/
inductive FieldDefault : List Token → Option String → Prop where
  | absent : FieldDefault [] none
  | stated {t : Token} (literal : IsLiteral t) :
    FieldDefault [.identifier "default", .equals, t] (some (String.ofList t.spelling))

/-- The identifier of a field: `('id' '=' natural)?`. -/
inductive FieldId : List Token → Option UInt32 → Prop where
  | absent : FieldId [] none
  | stated {text : String} {n : Nat} (natural : Natural UInt32.size text n) :
    FieldId [.identifier "id", .equals, .number text] (some (UInt32.ofNat n))

/-- The options of a field: `('[' default ','? identifier ']')?`. -/
inductive FieldOptions : List Token → Option String → Option UInt32 → Prop where
  | absent : FieldOptions [] none none
  | bracketed {ts us vs : List Token} {default? : Option String} {id? : Option UInt32}
    (default : FieldDefault ts default?) (comma : Comma us) (id : FieldId vs id?) :
    FieldOptions (.leftBracket :: (ts ++ us ++ vs ++ [.rightBracket])) default? id?

/-- A field: `dotted identifier options ';'`. -/
inductive Field : List Token → FieldDeclaration → Prop where
  | declared {ts us : List Token} {label name : String} {default? : Option String}
    {id? : Option UInt32} (type : Dotted ts label) (options : FieldOptions us default? id?) :
    Field (ts ++ .identifier name :: (us ++ [.semicolon])) ⟨label, name, default?, id?⟩

/-- The fields of a message: `field*`. -/
inductive Fields : List Token → List FieldDeclaration → Prop where
  | nil : Fields [] []
  | cons {ts us : List Token} {d : FieldDeclaration} {ds : List FieldDeclaration}
    (first : Field ts d) (rest : Fields us ds) : Fields (ts ++ us) (d :: ds)

/-- The identifier of a message, zero without one: `('[' 'id' '=' natural ','? ']')?`. -/
inductive MessageId : List Token → Int32 → Prop where
  | absent : MessageId [] 0
  | stated {text : String} {n : Nat} {ts : List Token} (natural : Natural 0x80000000 text n)
    (comma : Comma ts) :
    MessageId (.leftBracket :: .identifier "id" :: .equals :: .number text ::
      (ts ++ [.rightBracket])) (Int32.ofNat n)

/-- The type that a label stands for: a scalar type by its token, and a message by its name. -/
def typeOf (label : String) : FieldType := (ScalarType.ofToken? label).elim .message .scalar

/-- The fields that declarations stand for, with labels, names and defaults as they are written.
Those without an identifier are counted, and the `k`-th of them gets the identifier `k`. -/
def numbered (ds : List FieldDeclaration) : List Schema.Field :=
  ds.mapIdx fun i d =>
    { type := typeOf d.label
      label := d.label
      name := d.name
      id := d.id?.getD (UInt32.ofNat ((ds.take (i + 1)).countP (·.id?.isNone)))
      default? := d.default? }

/-- A message of a package: `'message' dotted identifier? '{' field* '}'`. -/
inductive Message (package : String) : List Token → Schema.Message → Prop where
  | declared {ts us vs : List Token} {name : String} {id : Int32} {ds : List FieldDeclaration}
    (named : Dotted ts name) (identified : MessageId us id) (fields : Fields vs ds) :
    Message package (.identifier "message" :: (ts ++ us ++ .leftBrace :: (vs ++ [.rightBrace])))
      ⟨package, name, id, numbered ds⟩

/-- The messages of a package: `message*`. -/
inductive Messages (package : String) : List Token → List Schema.Message → Prop where
  | nil : Messages package [] []
  | cons {ts us : List Token} {m : Schema.Message} {ms : List Schema.Message}
    (first : Message package ts m) (rest : Messages package us ms) :
    Messages package (ts ++ us) (m :: ms)

/-- A specification: `('package' dotted ';')? message*`. -/
inductive Specification : List Token → List Schema.Message → Prop where
  | plain {ts : List Token} {ms : List Schema.Message} (messages : Messages "" ts ms) :
    Specification ts ms
  | packaged {ts us : List Token} {package : String} {ms : List Schema.Message}
    (named : Dotted ts package) (messages : Messages package us ms) :
    Specification (.identifier "package" :: (ts ++ .semicolon :: us)) ms

/-- No word other than its token stands for a scalar type. -/
theorem typeOf_eq_scalar_iff {label : String} {t : ScalarType} :
    typeOf label = .scalar t ↔ label = t.token := by
  rw [typeOf]
  constructor
  · intro type
    cases named : ScalarType.ofToken? label with
    | none =>
      rw [named] at type
      cases type
    | some t' =>
      have found : ScalarType.all.find? (·.token == label) = some t' := named
      have called : t'.token == label := by simpa using List.find?_some found
      rw [named] at type
      cases type
      exact (beq_iff_eq.1 called).symm
  · rintro rfl
    rw [ScalarType.ofToken?_token]
    rfl

theorem numbered_eq (ds : List FieldDeclaration) :
    numbered ds = ds.mapIdx fun i d =>
      d.numbered (d.id?.getD (UInt32.ofNat ((ds.take (i + 1)).countP (·.id?.isNone)))) := by
  have same (d : FieldDeclaration) (id : UInt32) :
      (⟨typeOf d.label, d.label, d.name, id, d.default?⟩ : Schema.Field) = d.numbered id := by
    rw [typeOf, FieldDeclaration.numbered]
    cases ScalarType.ofToken? d.label <;> rfl
  simp only [numbered, same]

theorem number_eq (last : UInt32) (ds : List FieldDeclaration) :
    FieldDeclaration.number last ds = ds.mapIdx fun i d => d.numbered
      (d.id?.getD (last + UInt32.ofNat ((ds.take (i + 1)).countP (·.id?.isNone)))) := by
  induction ds generalizing last with
  | nil => rfl
  | cons d ds ih =>
    rw [FieldDeclaration.number, List.mapIdx_cons]
    cases explicit : d.id? with
    | some id => simp [ih, explicit]
    | none =>
      have next (n : Nat) : last + 1 + UInt32.ofNat n = last + UInt32.ofNat (n + 1) := by
        rw [UInt32.ofNat_add, UInt32.add_assoc, UInt32.add_comm 1]
        rfl
      simp [ih, explicit, next]

/-- The numbers that are given one after the other are those that the count gives. -/
theorem number_zero (ds : List FieldDeclaration) :
    FieldDeclaration.number 0 ds = numbered ds := by
  simp only [number_eq, UInt32.zero_add, numbered_eq]

end Schema.Grammar

end MessageCodec
