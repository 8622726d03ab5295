import MessageCodec.Proofs.Schema.Grammar
import MessageCodec.Proofs.Schema.Splits

/-! The parser against the grammar. Whatever a parser takes derives from its rule, and
whatever derives from the rule is taken, provided that what follows does not go on with
something optional. -/

namespace MessageCodec.Schema

namespace Tokens

variable {ts us : List Token} {t : Token} {tokens between rest : Tokens}

def next? : Tokens → Option Token
  | cons _ t _ => some t
  | _ => none

theorem Front.settled (front : Front ts tokens rest) : tokens.settle = .ok tokens := by
  cases front with
  | nil settled => exact settled
  | cons => rfl

theorem Front.settled_rest (front : Front ts tokens rest) : rest.settle = .ok rest := by
  induction front with
  | nil settled => exact settled
  | cons _ ih => exact ih

theorem Front.append (front : Front ts tokens between) (behind : Front us between rest) :
    Front (ts ++ us) tokens rest := by
  induction front with
  | nil => exact behind
  | cons _ ih => exact .cons (ih behind)

theorem Front.split (front : Front (ts ++ us) tokens rest) :
    ∃ between, Front ts tokens between ∧ Front us between rest := by
  induction ts generalizing tokens with
  | nil => exact ⟨tokens, .nil front.settled, front⟩
  | cons t ts ih =>
    cases front with
    | cons front =>
      obtain ⟨between, first, behind⟩ := ih front
      exact ⟨between, .cons first, behind⟩

theorem Front.next? (front : Front (t :: ts) tokens rest) : tokens.next? = some t := by
  cases front with
  | cons => rfl

theorem front_cons :
    Front (t :: ts) tokens rest ↔ ∃ between, Front [t] tokens between ∧ Front ts between rest :=
  ⟨fun front => Front.split (show Front ([t] ++ ts) tokens rest from front),
    fun ⟨_, first, behind⟩ => first.append behind⟩

end Tokens

open Tokens (Front)

namespace Parser

variable {α β : Type} {p : Parser α} {tokens rest : Tokens}

theorem bind_eq_ok_iff {f : α → Parser β} {b : β} :
    (p >>= f) tokens = .ok (b, rest) ↔
      ∃ a between, p tokens = .ok (a, between) ∧ f a between = .ok (b, rest) := by
  refine ⟨bind_eq_ok, ?_⟩
  rintro ⟨a, between, first, behind⟩
  simp only [bind, StateT.bind, Except.bind, first, behind]

theorem pure_eq_ok {a b : α} :
    (pure a : Parser α) tokens = .ok (b, rest) ↔ a = b ∧ tokens = rest := by
  change Except.ok (a, tokens) = Except.ok (b, rest) ↔ a = b ∧ tokens = rest
  rw [Except.ok.injEq, Prod.mk.injEq]

theorem take_eq_ok {wanted : Expectation} {pick : Token → Option α} {a : α} :
    take wanted pick tokens = .ok (a, rest) ↔
      ∃ t, pick t = some a ∧ Front [t] tokens rest := by
  constructor
  · intro h
    unfold take at h
    split at h
    · rename_i place t behind
      split at h
      · rename_i b picked
        cases settled : behind.settle with
        | error e => simp [settled, Except.map] at h
        | ok behind' =>
          obtain rfl := Tokens.eq_of_settle settled
          simp only [settled, Except.map, Except.ok.injEq, Prod.mk.injEq] at h
          obtain ⟨rfl, rfl⟩ := h
          exact ⟨t, picked, .cons (.nil settled)⟩
      · cases h
    · cases h
    · cases h
  · rintro ⟨t, picked, front⟩
    cases front with
    | cons front =>
      cases front with
      | nil settled => simp only [take, picked, settled, Except.map]

@[simp]
theorem token_eq_ok {t : Token} {a : Unit} :
    token t tokens = .ok (a, rest) ↔ Front [t] tokens rest := by
  simp [token, take_eq_ok]

@[simp]
theorem keyword_eq_ok {word : String} {a : Unit} :
    keyword word tokens = .ok (a, rest) ↔ Front [.identifier word] tokens rest := by
  simp [keyword, take_eq_ok]

@[simp]
theorem identifier_eq_ok {name : String} :
    identifier tokens = .ok (name, rest) ↔ Front [.identifier name] tokens rest := by
  rw [identifier, take_eq_ok]
  constructor
  · rintro ⟨t, picked, front⟩
    cases t <;> cases picked
    exact front
  · exact fun front => ⟨_, rfl, front⟩

theorem naturalBelow?_eq_some {bound n : Nat} {text : String} :
    naturalBelow? bound text.toList = some n ↔ Grammar.Natural bound text n := by
  rw [naturalBelow?]
  constructor
  · intro h
    split at h
    · rename_i shape
      simp only [Bool.and_eq_true, List.all_eq_true, Option.any_eq_true, bne_iff_ne] at shape
      dsimp only at h
      split at h
      · rename_i fits
        cases h
        exact ⟨shape.2, shape.1, rfl, fits⟩
      · cases h
    · cases h
  · rintro ⟨digits, leading, rfl, fits⟩
    have shape : (text.toList.head?.any (· != '0') && text.toList.all Char.isDigit) = true := by
      simp only [Bool.and_eq_true, List.all_eq_true, Option.any_eq_true, bne_iff_ne]
      exact ⟨leading, digits⟩
    simp only [shape, fits, ↓reduceIte]

theorem natural_eq_ok {bound n : Nat} :
    natural bound tokens = .ok (n, rest) ↔
      ∃ text, Grammar.Natural bound text n ∧ Front [.number text] tokens rest := by
  rw [natural, take_eq_ok]
  constructor
  · rintro ⟨t, picked, front⟩
    cases t with
    | number text => exact ⟨text, naturalBelow?_eq_some.1 picked, front⟩
    | _ => cases picked
  · rintro ⟨text, natural, front⟩
    exact ⟨.number text, naturalBelow?_eq_some.2 natural, front⟩

theorem literal_eq_ok {text : String} :
    literal tokens = .ok (text, rest) ↔
      ∃ t, Grammar.IsLiteral t ∧ String.ofList t.spelling = text ∧ Front [t] tokens rest := by
  rw [literal, take_eq_ok]
  refine exists_congr fun t => ?_
  rw [← and_assoc]
  refine and_congr_left fun _ => ?_
  cases t with
  | identifier word =>
    by_cases truth : word = "true" ∨ word = "false"
    · simp [Grammar.IsLiteral, truth, Token.spelling]
    · simp [Grammar.IsLiteral, truth]
  | _ => simp [Grammar.IsLiteral, Token.spelling]

theorem whenSees_eq_ok {t : Token} {x : Option α} :
    whenSees t p tokens = .ok (x, rest) ↔
      (tokens.next? = some t ∧ ∃ a, x = some a ∧ p tokens = .ok (a, rest)) ∨
        (tokens.next? ≠ some t ∧ x = none ∧ rest = tokens) := by
  have seen : sees t tokens = .ok (tokens.next? == some t, tokens) := by
    cases tokens <;> rfl
  have behind : whenSees t p tokens =
      (if tokens.next? == some t then do return some (← p) else return none : Parser (Option α))
        tokens := by
    simp only [whenSees, bind, StateT.bind, Except.bind, seen]
  rw [behind]
  by_cases next : tokens.next? = some t
  · simp only [next, beq_self_eq_true, ↓reduceIte, bind_eq_ok_iff, pure_eq_ok, true_and, ne_eq,
      not_true_eq_false, false_and, or_false]
    constructor
    · rintro ⟨a, _, parsed, rfl, rfl⟩
      exact ⟨a, rfl, parsed⟩
    · rintro ⟨a, rfl, parsed⟩
      exact ⟨a, rest, parsed, rfl, rfl⟩
  · simp only [next, beq_iff_eq, ↓reduceIte, pure_eq_ok, false_and, ne_eq, not_false_eq_true,
      true_and, false_or]
    exact and_congr eq_comm eq_comm

/-- A parser takes exactly the token sequences of a rule, whatever follows them. -/
def Reads (p : Parser α) (rule : List Token → α → Prop) : Prop :=
  ∀ tokens rest a, p tokens = .ok (a, rest) ↔ ∃ ts, rule ts a ∧ Front ts tokens rest

/-- An optional part is taken if it is there; if not, something else follows. -/
theorem whenSees_reads {rule : List Token → Option α → Prop} {t : Token}
    (absent : ∀ ts, rule ts none ↔ ts = []) (reads : Reads p fun ts a => rule ts (some a))
    (starts : ∀ ts a, rule ts (some a) → ts.head? = some t) (settled : tokens.settle = .ok tokens)
    {x : Option α} :
    whenSees t p tokens = .ok (x, rest) ↔
      ∃ ts, rule ts x ∧ Front ts tokens rest ∧ (x = none → rest.next? ≠ some t) := by
  rw [whenSees_eq_ok]
  constructor
  · rintro (⟨-, a, rfl, parsed⟩ | ⟨other, rfl, rfl⟩)
    · obtain ⟨ts, derived, front⟩ := (reads _ _ _).1 parsed
      exact ⟨ts, derived, front, nofun⟩
    · exact ⟨[], (absent []).2 rfl, .nil settled, fun _ => other⟩
  · rintro ⟨ts, derived, front, other⟩
    cases x with
    | none =>
      obtain rfl := (absent ts).1 derived
      cases front with
      | nil => exact .inr ⟨other rfl, rfl, rfl⟩
    | some a =>
      refine .inl ⟨?_, a, rfl, (reads _ _ _).2 ⟨ts, derived, front⟩⟩
      have head := starts ts a derived
      cases ts with
      | nil => cases head
      | cons u us =>
        cases head
        exact front.next?

theorem dotThenIdentifier_eq_ok {name : String} :
    (do token .dot; identifier : Parser String) tokens = .ok (name, rest) ↔
      Front [.dot, .identifier name] tokens rest := by
  simp only [bind_eq_ok_iff, token_eq_ok, identifier_eq_ok]
  rw [Tokens.front_cons]
  exact ⟨fun ⟨_, between, front⟩ => ⟨between, front⟩, fun ⟨between, front⟩ => ⟨(), between, front⟩⟩

theorem dottedTail_sound {tail : String} (h : dottedTail tokens = .ok (tail, rest)) {name : String}
    {start : Tokens} (front : Front [.identifier name] start tokens) :
    ∃ ts, Grammar.Dotted ts (name ++ tail) ∧ Front ts start rest ∧ rest.next? ≠ some .dot := by
  fun_induction dottedTail tokens generalizing tail name start with
  | case1 => cases h
  | case2 tokens rest' parsed =>
    cases h
    obtain ⟨-, a, none, -⟩ | ⟨other, -, rfl⟩ := whenSees_eq_ok.1 parsed
    · cases none
    · rw [String.append_empty]
      exact ⟨_, .last name, front, other⟩
  | case3 tokens name' rest' parsed shorter ih =>
    obtain ⟨-, a, some, parsed⟩ | ⟨-, some, -⟩ := whenSees_eq_ok.1 parsed
    · cases some
      cases tail' : dottedTail rest' with
      | error e => simp [tail', Except.map] at h
      | ok pair =>
        simp only [tail', Except.map, Except.ok.injEq, Prod.mk.injEq] at h
        obtain ⟨rfl, rfl⟩ := h
        obtain ⟨between, dot, next⟩ := Tokens.front_cons.1 (dotThenIdentifier_eq_ok.1 parsed)
        obtain ⟨ts, dotted, front', other⟩ := ih tail' next
        refine ⟨_, ?_, (front.append dot).append front', other⟩
        have segment := Grammar.Dotted.more name dotted
        simp only [String.append_assoc] at segment ⊢
        exact segment
    · cases some

/-- What the tail of a name gives is what was in front of it does not change. -/
theorem dotted_complete {ts : List Token} {name : String} (dotted : Grammar.Dotted ts name)
    (front : Front ts tokens rest) (other : rest.next? ≠ some .dot) :
    ∃ head tail between, name = head ++ tail ∧ Front [.identifier head] tokens between ∧
      dottedTail between = .ok (tail, rest) := by
  induction dotted generalizing tokens with
  | last name =>
    refine ⟨name, "", rest, String.append_empty.symm, front, ?_⟩
    have ended : whenSees .dot (do token .dot; identifier : Parser String) rest =
        .ok (none, rest) := whenSees_eq_ok.2 (.inr ⟨other, rfl, rfl⟩)
    rw [dottedTail]
    split <;> simp_all
  | @more name us s behind ih =>
    obtain ⟨between, first, dot⟩ := Tokens.front_cons.1 front
    obtain ⟨after, dot, behind⟩ := Tokens.front_cons.1 dot
    obtain ⟨head, tail, last, rfl, front', parsed⟩ := ih behind
    refine ⟨name, "." ++ head ++ tail, between, ?_, first, ?_⟩
    · simp only [String.append_assoc]
    · have segment : whenSees .dot (do token .dot; identifier : Parser String) between =
          .ok (some head, last) :=
        whenSees_eq_ok.2 (.inl ⟨dot.next?, head, rfl,
          dotThenIdentifier_eq_ok.2 (dot.append front')⟩)
      rw [dottedTail]
      split <;> simp_all [Except.map]

theorem dottedName_eq_ok {name : String} :
    dottedName tokens = .ok (name, rest) ↔
      ∃ ts, Grammar.Dotted ts name ∧ Front ts tokens rest ∧ rest.next? ≠ some .dot := by
  simp only [dottedName, bind_eq_ok_iff, identifier_eq_ok, pure_eq_ok]
  constructor
  · rintro ⟨head, between, front, tail, _, parsed, rfl, rfl⟩
    exact dottedTail_sound parsed front
  · rintro ⟨ts, dotted, front, other⟩
    obtain ⟨head, tail, between, rfl, first, parsed⟩ := dotted_complete dotted front other
    exact ⟨head, between, first, tail, rest, parsed, rfl, rfl⟩

theorem reads_fieldDefault :
    Reads fieldDefault fun ts text => Grammar.FieldDefault ts (some text) := by
  intro tokens rest text
  simp only [fieldDefault, bind_eq_ok_iff, keyword_eq_ok, token_eq_ok, literal_eq_ok]
  constructor
  · rintro ⟨_, _, keyword, _, _, equals, t, literal, rfl, front⟩
    exact ⟨_, .stated literal, keyword.append (equals.append front)⟩
  · rintro ⟨_, derived, front⟩
    cases derived with
    | stated allowed =>
      obtain ⟨_, keyword, front⟩ := Tokens.front_cons.1 front
      obtain ⟨_, equals, front⟩ := Tokens.front_cons.1 front
      exact ⟨(), _, keyword, (), _, equals, _, allowed, rfl, front⟩

theorem reads_fieldId : Reads fieldId fun ts id => Grammar.FieldId ts (some id) := by
  intro tokens rest id
  simp only [fieldId, bind_eq_ok_iff, keyword_eq_ok, token_eq_ok, natural_eq_ok, pure_eq_ok]
  constructor
  · rintro ⟨_, _, keyword, _, _, equals, n, _, ⟨text, natural, front⟩, rfl, rfl⟩
    exact ⟨_, .stated natural, keyword.append (equals.append front)⟩
  · rintro ⟨_, derived, front⟩
    cases derived with
    | stated number =>
      obtain ⟨_, keyword, front⟩ := Tokens.front_cons.1 front
      obtain ⟨_, equals, front⟩ := Tokens.front_cons.1 front
      exact ⟨(), _, keyword, (), _, equals, _, _, ⟨_, number, front⟩, rfl, rfl⟩

theorem whenSees_fieldDefault (settled : tokens.settle = .ok tokens) {default? : Option String} :
    whenSees (.identifier "default") fieldDefault tokens = .ok (default?, rest) ↔
      ∃ ts, Grammar.FieldDefault ts default? ∧ Front ts tokens rest ∧
        (default? = none → rest.next? ≠ some (.identifier "default")) := by
  refine whenSees_reads (fun ts => ⟨?_, ?_⟩) reads_fieldDefault (fun ts text derived => ?_) settled
  · rintro ⟨⟩
    rfl
  · rintro rfl
    exact .absent
  · cases derived
    rfl

theorem whenSees_fieldId (settled : tokens.settle = .ok tokens) {id? : Option UInt32} :
    whenSees (.identifier "id") fieldId tokens = .ok (id?, rest) ↔
      ∃ ts, Grammar.FieldId ts id? ∧ Front ts tokens rest ∧
        (id? = none → rest.next? ≠ some (.identifier "id")) := by
  refine whenSees_reads (fun ts => ⟨?_, ?_⟩) reads_fieldId (fun ts id derived => ?_) settled
  · rintro ⟨⟩
    rfl
  · rintro rfl
    exact .absent
  · cases derived
    rfl

theorem whenSees_comma (settled : tokens.settle = .ok tokens) :
    (∃ x, whenSees .comma (token .comma) tokens = .ok (x, rest)) ↔
      (∃ ts, Grammar.Comma ts ∧ Front ts tokens rest ∧ (ts = [] → rest.next? ≠ some .comma)) := by
  simp only [whenSees_eq_ok, token_eq_ok]
  constructor
  · rintro ⟨_, ⟨-, _, -, front⟩ | ⟨other, -, rfl⟩⟩
    · exact ⟨_, .present, front, nofun⟩
    · exact ⟨_, .absent, .nil settled, fun _ => other⟩
  · rintro ⟨_, derived, front, other⟩
    cases derived with
    | absent =>
      cases front with
      | nil => exact ⟨none, .inr ⟨other rfl, rfl, rfl⟩⟩
    | present => exact ⟨some (), .inl ⟨front.next?, (), rfl, front⟩⟩

theorem reads_fieldOptions :
    Reads fieldOptions fun ts options => ts ≠ [] ∧ Grammar.FieldOptions ts options.1 options.2 := by
  intro tokens rest ⟨default?, id?⟩
  simp only [fieldOptions, bind_eq_ok_iff, token_eq_ok, pure_eq_ok, Prod.mk.injEq]
  constructor
  · rintro ⟨_, t₁, opening, _, t₂, default, x, t₃, comma, _, t₄, id, _, _, closing, ⟨rfl, rfl⟩, rfl⟩
    obtain ⟨ts, default, front₁, -⟩ := (whenSees_fieldDefault opening.settled_rest).1 default
    obtain ⟨us, comma, front₂, -⟩ := (whenSees_comma front₁.settled_rest).1 ⟨x, comma⟩
    obtain ⟨vs, id, front₃, -⟩ := (whenSees_fieldId front₂.settled_rest).1 id
    have derived := Grammar.FieldOptions.bracketed default comma id
    exact ⟨_, ⟨List.cons_ne_nil _ _, derived⟩,
      opening.append (((front₁.append front₂).append front₃).append closing)⟩
  · rintro ⟨_, ⟨present, derived⟩, front⟩
    cases derived with
    | absent => exact absurd rfl present
    | @bracketed ts us vs _ _ default comma id =>
      obtain ⟨t₁, opening, front⟩ := Tokens.front_cons.1 front
      obtain ⟨t₄, front, closing⟩ := front.split
      obtain ⟨t₃, front, front₃⟩ := front.split
      obtain ⟨t₂, front₁, front₂⟩ := front.split
      have next₄ := closing.next?
      have next₃ : t₃.next? = if vs = [] then some .rightBracket else some (.identifier "id") := by
        cases id with
        | absent =>
          cases front₃
          exact next₄
        | stated => exact front₃.next?
      have next₂ : t₂.next? = if us = [] then t₃.next? else some .comma := by
        cases comma with
        | absent =>
          cases front₂
          rfl
        | present => exact front₂.next?
      obtain ⟨x, parsed⟩ := (whenSees_comma front₁.settled_rest).2
        ⟨us, comma, front₂, fun _ => by rw [next₃]; split <;> simp⟩
      refine ⟨(), t₁, opening, default?, t₂, ?_, x, t₃, parsed, id?, t₄, ?_, (), rest, closing,
        ⟨rfl, rfl⟩, rfl⟩
      · refine (whenSees_fieldDefault opening.settled_rest).2 ⟨ts, default, front₁, fun _ => ?_⟩
        rw [next₂, next₃]
        split <;> (try split) <;> simp
      · refine (whenSees_fieldId front₂.settled_rest).2 ⟨vs, id, front₃, fun _ => ?_⟩
        rw [next₄]
        simp

theorem whenSees_fieldOptions (settled : tokens.settle = .ok tokens) {default? : Option String}
    {id? : Option UInt32} :
    (∃ x, whenSees .leftBracket fieldOptions tokens = .ok (x, rest) ∧
        x.bind (·.1) = default? ∧ x.bind (·.2) = id?) ↔
      ∃ ts, Grammar.FieldOptions ts default? id? ∧ Front ts tokens rest ∧
        (ts = [] → rest.next? ≠ some .leftBracket) := by
  simp only [whenSees_eq_ok]
  constructor
  · rintro ⟨_, ⟨-, options, rfl, parsed⟩ | ⟨other, rfl, rfl⟩, rfl, rfl⟩
    · obtain ⟨ts, ⟨present, derived⟩, front⟩ := (reads_fieldOptions _ _ _).1 parsed
      exact ⟨ts, derived, front, fun none => absurd none present⟩
    · exact ⟨_, .absent, .nil settled, fun _ => other⟩
  · rintro ⟨ts, derived, front, other⟩
    cases derived with
    | absent =>
      cases front with
      | nil => exact ⟨none, .inr ⟨other rfl, rfl, rfl⟩, rfl, rfl⟩
    | bracketed default comma id =>
      have derived := Grammar.FieldOptions.bracketed default comma id
      exact ⟨some (default?, id?), .inl ⟨front.next?, _, rfl,
        (reads_fieldOptions _ _ _).2 ⟨_, ⟨List.cons_ne_nil _ _, derived⟩, front⟩⟩, rfl, rfl⟩

theorem reads_field : Reads field Grammar.Field := by
  intro tokens rest d
  simp only [field, bind_eq_ok_iff, token_eq_ok, identifier_eq_ok, dottedName_eq_ok, pure_eq_ok]
  constructor
  · rintro ⟨label, t₁, ⟨ts, dotted, front₁, -⟩, name, t₂, front₂, x, t₃, options, _, _, closing,
      rfl, rfl⟩
    obtain ⟨us, derived, front₃, -⟩ :=
      (whenSees_fieldOptions front₂.settled_rest).1 ⟨x, options, rfl, rfl⟩
    exact ⟨_, .declared dotted derived,
      front₁.append (front₂.append (front₃.append closing))⟩
  · rintro ⟨_, derived, front⟩
    cases derived with
    | @declared ts us label name default? id? dotted options =>
      obtain ⟨t₁, front₁, front⟩ := front.split
      obtain ⟨t₂, front₂, front⟩ := Tokens.front_cons.1 front
      obtain ⟨t₃, front₃, closing⟩ := front.split
      have next₁ := front₂.next?
      have next₃ := closing.next?
      obtain ⟨x, parsed, rfl, rfl⟩ := (whenSees_fieldOptions front₂.settled_rest).2
        ⟨us, options, front₃, fun _ => by rw [next₃]; simp⟩
      exact ⟨label, t₁, ⟨ts, dotted, front₁, by rw [next₁]; simp⟩, name, t₂, front₂, x, t₃, parsed,
        (), rest, closing, rfl, rfl⟩

theorem head?_field {ts : List Token} {d : FieldDeclaration} (derived : Grammar.Field ts d) :
    ∃ name us, ts = .identifier name :: us := by
  obtain ⟨dotted, -⟩ := derived
  cases dotted with
  | last => exact ⟨_, _, rfl⟩
  | more => exact ⟨_, _, rfl⟩

theorem sees_eq (t : Token) (tokens : Tokens) :
    sees t tokens = .ok (tokens.next? == some t, tokens) := by
  cases tokens <;> rfl

theorem fields_eq_ok {ds : List FieldDeclaration} :
    fields tokens = .ok (ds, rest) ↔
      ∃ ts, Grammar.Fields ts ds ∧ Front ts tokens rest ∧ rest.next? = some .rightBrace := by
  constructor
  · intro h
    fun_induction fields tokens generalizing ds with
    | case1 tokens rest' h' =>
      cases h
      simp only [sees_eq, Except.ok.injEq, Prod.mk.injEq, beq_iff_eq] at h'
      obtain ⟨next, rfl⟩ := h'
      refine ⟨_, .nil, .nil ?_, next⟩
      cases tokens <;> first | rfl | cases next
    | case2 => cases h
    | case3 tokens d rest' parsed shorter _ ih =>
      cases behind : fields rest' with
      | error e => simp [behind, Except.map] at h
      | ok pair =>
        simp only [behind, Except.map, Except.ok.injEq, Prod.mk.injEq] at h
        obtain ⟨rfl, rfl⟩ := h
        obtain ⟨ts, first, front⟩ := (reads_field _ _ _).1 parsed
        obtain ⟨us, more, front', next⟩ := ih behind
        exact ⟨_, .cons first more, front.append front', next⟩
  · rintro ⟨ts, derived, front, next⟩
    induction derived generalizing tokens with
    | nil =>
      cases front
      rw [fields, sees_eq, next]
      simp
    | @cons ts us d ds first _ ih =>
      obtain ⟨between, front, behind⟩ := front.split
      obtain ⟨name, vs, rfl⟩ := head?_field first
      have parsed : field tokens = .ok (d, between) := (reads_field _ _ _).2 ⟨_, first, front⟩
      have other : sees .rightBrace tokens = .ok (false, tokens) := by
        rw [sees_eq, front.next?]
        rfl
      rw [fields, other]
      simp only
      split <;> simp_all [Except.map]

theorem reads_messageId :
    Reads messageId fun ts id => ts ≠ [] ∧ Grammar.MessageId ts id := by
  intro tokens rest id
  simp only [messageId, bind_eq_ok_iff, token_eq_ok, keyword_eq_ok, natural_eq_ok, pure_eq_ok]
  constructor
  · rintro ⟨_, t₁, opening, _, t₂, keyword, _, t₃, equals, n, t₄, ⟨text, number, front⟩, x, t₅, comma,
      _, _, closing, rfl, rfl⟩
    obtain ⟨ts, comma, front₁, -⟩ := (whenSees_comma front.settled_rest).1 ⟨x, comma⟩
    exact ⟨_, ⟨List.cons_ne_nil _ _, .stated number comma⟩,
      opening.append (keyword.append (equals.append (front.append (front₁.append closing))))⟩
  · rintro ⟨_, ⟨present, derived⟩, front⟩
    cases derived with
    | absent => exact absurd rfl present
    | stated number comma =>
      obtain ⟨t₁, opening, front⟩ := Tokens.front_cons.1 front
      obtain ⟨t₂, keyword, front⟩ := Tokens.front_cons.1 front
      obtain ⟨t₃, equals, front⟩ := Tokens.front_cons.1 front
      obtain ⟨t₄, digits, front⟩ := Tokens.front_cons.1 front
      obtain ⟨t₅, front₁, closing⟩ := front.split
      have next := closing.next?
      obtain ⟨x, parsed⟩ := (whenSees_comma digits.settled_rest).2
        ⟨_, comma, front₁, fun _ => by rw [next]; simp⟩
      exact ⟨(), t₁, opening, (), t₂, keyword, (), t₃, equals, _, t₄, ⟨_, number, digits⟩, x, t₅,
        parsed, (), rest, closing, rfl, rfl⟩

theorem whenSees_messageId (settled : tokens.settle = .ok tokens) {id : Int32} :
    (∃ x, whenSees .leftBracket messageId tokens = .ok (x, rest) ∧ x.getD 0 = id) ↔
      ∃ ts, Grammar.MessageId ts id ∧ Front ts tokens rest ∧
        (ts = [] → rest.next? ≠ some .leftBracket) := by
  simp only [whenSees_eq_ok]
  constructor
  · rintro ⟨_, ⟨-, _, rfl, parsed⟩ | ⟨other, rfl, rfl⟩, rfl⟩
    · obtain ⟨ts, ⟨present, derived⟩, front⟩ := (reads_messageId _ _ _).1 parsed
      exact ⟨ts, derived, front, fun none => absurd none present⟩
    · exact ⟨_, .absent, .nil settled, fun _ => other⟩
  · rintro ⟨ts, derived, front, other⟩
    cases derived with
    | absent =>
      cases front with
      | nil => exact ⟨none, .inr ⟨other rfl, rfl, rfl⟩, rfl⟩
    | stated number comma =>
      have derived := Grammar.MessageId.stated number comma
      exact ⟨some _, .inl ⟨front.next?, _, rfl,
        (reads_messageId _ _ _).2 ⟨_, ⟨List.cons_ne_nil _ _, derived⟩, front⟩⟩, rfl⟩

theorem reads_message (package : String) : Reads (message package) (Grammar.Message package) := by
  intro tokens rest m
  simp only [message, bind_eq_ok_iff, token_eq_ok, keyword_eq_ok, dottedName_eq_ok, fields_eq_ok,
    pure_eq_ok]
  constructor
  · rintro ⟨_, t₁, keyword, name, t₂, ⟨ts, dotted, front₁, -⟩, x, t₃, id, _, t₄, opening, ds, t₅,
      ⟨us, derived, front₂, -⟩, _, _, closing, rfl, rfl⟩
    obtain ⟨vs, identified, front₃, -⟩ :=
      (whenSees_messageId front₁.settled_rest).1 ⟨x, id, rfl⟩
    rw [Grammar.number_zero]
    exact ⟨_, .declared dotted identified derived, keyword.append ((front₁.append front₃).append
      (opening.append (front₂.append closing)))⟩
  · rintro ⟨_, derived, front⟩
    cases derived with
    | @declared ts us vs name id ds dotted identified derived =>
      obtain ⟨t₁, keyword, front⟩ := Tokens.front_cons.1 front
      obtain ⟨t₃, front, behind⟩ := front.split
      obtain ⟨t₂, front₁, front₃⟩ := front.split
      obtain ⟨t₄, opening, front⟩ := Tokens.front_cons.1 behind
      obtain ⟨t₅, front₂, closing⟩ := front.split
      have next₃ := opening.next?
      have next₂ : t₂.next? = if us = [] then some .leftBrace else some .leftBracket := by
        cases identified with
        | absent =>
          cases front₃
          exact next₃
        | stated => exact front₃.next?
      obtain ⟨x, parsed, rfl⟩ := (whenSees_messageId front₁.settled_rest).2
        ⟨us, identified, front₃, fun _ => by rw [next₃]; simp⟩
      refine ⟨(), t₁, keyword, name, t₂, ⟨ts, dotted, front₁, ?_⟩, x, t₃, parsed, (), t₄, opening, ds,
        t₅, ⟨vs, derived, front₂, closing.next?⟩, (), rest, closing, ?_, rfl⟩
      · rw [next₂]
        split <;> simp
      · rw [Grammar.number_zero]

theorem messages_eq_ok {package : String} {ms : List Message} :
    messages package tokens = .ok ms ↔
      ∃ ts, tokens.Lists ts ∧ Grammar.Messages package ts ms := by
  constructor
  · intro h
    fun_induction messages package tokens generalizing ms with
    | case1 place =>
      cases h
      exact ⟨[], ⟨place, .nil rfl⟩, .nil⟩
    | case2 => cases h
    | case3 tokens _ m rest parsed shorter ih =>
      cases behind : messages package rest with
      | error e => simp [behind, Except.map] at h
      | ok ms' =>
        simp only [behind, Except.map, Except.ok.injEq] at h
        subst h
        obtain ⟨ts, first, front⟩ := (reads_message package _ _ _).1 parsed
        obtain ⟨us, ⟨place, front'⟩, more⟩ := ih behind
        exact ⟨_, ⟨place, front.append front'⟩, .cons first more⟩
  · rintro ⟨ts, ⟨place, front⟩, derived⟩
    induction derived generalizing tokens with
    | nil =>
      cases front
      rw [messages]
    | @cons ts us m ms first _ ih =>
      obtain ⟨between, front, behind⟩ := front.split
      have parsed : message package tokens = .ok (m, between) :=
        (reads_message package _ _ _).2 ⟨ts, first, front⟩
      cases first with
      | declared =>
        cases front with
        | cons front =>
          rw [messages]
          · split <;> simp_all [Except.map]
          · simp

theorem reads_packageStatement :
    Reads packageStatement fun ts name =>
      ∃ us, ts = .identifier "package" :: (us ++ [.semicolon]) ∧ Grammar.Dotted us name := by
  intro tokens rest name
  simp only [packageStatement, bind_eq_ok_iff, token_eq_ok, keyword_eq_ok, dottedName_eq_ok,
    pure_eq_ok]
  constructor
  · rintro ⟨_, t₁, keyword, _, t₂, ⟨ts, dotted, front, -⟩, _, _, closing, rfl, rfl⟩
    exact ⟨_, ⟨ts, rfl, dotted⟩, keyword.append (front.append closing)⟩
  · rintro ⟨_, ⟨ts, rfl, dotted⟩, front⟩
    obtain ⟨t₁, keyword, front⟩ := Tokens.front_cons.1 front
    obtain ⟨t₂, front, closing⟩ := front.split
    exact ⟨(), t₁, keyword, name, t₂, ⟨ts, dotted, front, by rw [closing.next?]; simp⟩, (), rest,
      closing, rfl, rfl⟩

theorem Lists.settled {ts : List Token} (lists : tokens.Lists ts) :
    tokens.settle = .ok tokens := by
  obtain ⟨place, front⟩ := lists
  exact front.settled

/-- What the messages of a specification start with is no package statement. -/
theorem next?_ne_package {package : String} {ts : List Token} {ms : List Message}
    (lists : tokens.Lists ts) (derived : Grammar.Messages package ts ms) :
    tokens.next? ≠ some (.identifier "package") := by
  obtain ⟨place, front⟩ := lists
  cases derived with
  | nil =>
    cases front
    nofun
  | cons first =>
    cases first with
    | declared =>
      rw [front.next?]
      simp

theorem specification_eq_ok {ms : List Message} :
    specification tokens = .ok ms ↔ ∃ ts, tokens.Lists ts ∧ Grammar.Specification ts ms := by
  constructor
  · intro h
    cases settled : tokens.settle with
    | error e => simp [specification, settled, bind, Except.bind] at h
    | ok tokens' =>
      obtain rfl := Tokens.eq_of_settle settled
      cases stated : whenSees (.identifier "package") packageStatement tokens' with
      | error e => simp [specification, settled, stated, bind, Except.bind] at h
      | ok pair =>
        simp only [specification, settled, stated, bind, Except.bind, messages_eq_ok] at h
        obtain ⟨ts, lists, derived⟩ := h
        obtain ⟨-, name, some, parsed⟩ | ⟨-, none, same⟩ := whenSees_eq_ok.1 stated
        · rw [some] at derived
          obtain ⟨_, ⟨us, rfl, dotted⟩, front⟩ := (reads_packageStatement _ _ _).1 parsed
          obtain ⟨place, behind⟩ := lists
          have front := front.append behind
          rw [List.cons_append, List.append_assoc] at front
          exact ⟨_, ⟨place, front⟩, .packaged dotted derived⟩
        · rw [none] at derived
          rw [same] at lists
          exact ⟨ts, lists, .plain derived⟩
  · rintro ⟨ts, lists, derived⟩
    have settled := Lists.settled lists
    cases derived with
    | plain derived =>
      have stated : whenSees (.identifier "package") packageStatement tokens = .ok (none, tokens) :=
        whenSees_eq_ok.2 (.inr ⟨next?_ne_package lists derived, rfl, rfl⟩)
      simp only [specification, settled, stated, bind, Except.bind]
      exact messages_eq_ok.2 ⟨ts, lists, derived⟩
    | @packaged us vs name _ dotted derived =>
      obtain ⟨place, front⟩ := lists
      have next := front.next?
      have whole : Token.identifier "package" :: (us ++ .semicolon :: vs) =
          (.identifier "package" :: (us ++ [.semicolon])) ++ vs := by simp
      rw [whole] at front
      obtain ⟨between, front, behind⟩ := front.split
      have parsed : packageStatement tokens = .ok (name, between) :=
        (reads_packageStatement _ _ _).2 ⟨_, ⟨us, rfl, dotted⟩, front⟩
      have stated : whenSees (.identifier "package") packageStatement tokens =
          .ok (some name, between) := whenSees_eq_ok.2 (.inl ⟨next, name, rfl, parsed⟩)
      simp only [specification, settled, stated, bind, Except.bind]
      exact messages_eq_ok.2 ⟨vs, ⟨place, behind⟩, derived⟩

end Parser

end MessageCodec.Schema
