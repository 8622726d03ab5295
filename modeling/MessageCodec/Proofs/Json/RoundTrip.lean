import MessageCodec.Proofs.Json.Literal
import MessageCodec.Proofs.Json.Members

/-! Compact JSON text, read back. A value is plain if its numbers are read back from their own
texts, as all integers of 64 bits are, no object in it has two members of one name, and no more
arrays and objects are nested in each other than a reader goes down to. Reading the text of a plain
value gives the value. -/

namespace MessageCodec.Json

/-- A number that its own text gives. -/
def Number.ReadsBack (n : Number) : Prop := readNumber n.render = some (n, [])

instance (n : Number) : Decidable n.ReadsBack := inferInstanceAs (Decidable (_ = _))

/-- A value of at most so many levels of arrays and objects, with numbers that are read back and a
name for each member. -/
inductive Plain : Nat → Json → Prop where
  | null {levels : Nat} : Plain levels .null
  | bool {levels : Nat} (b : Bool) : Plain levels (.bool b)
  | number {levels : Nat} {n : Number} (back : n.ReadsBack) : Plain levels (.number n)
  | string {levels : Nat} (s : String) : Plain levels (.string s)
  | array {levels : Nat} {items : List Json} (plain : ∀ item ∈ items, Plain levels item) :
    Plain (levels + 1) (.array items)
  | object {levels : Nat} {members : Members} (names : (members.map Prod.fst).Nodup)
    (plain : ∀ member ∈ members, Plain levels member.2) : Plain (levels + 1) (.object members)

theorem Plain.integer {levels : Nat} {i : Int} (low : -0x8000000000000000 ≤ i)
    (high : i < UInt64.size) : Plain levels (.number (.integer i)) :=
  .number (readNumber_ofInt low high)

theorem skipBlanks_cons {c : Char} (visible : isBlank c = false) (cs : List Char) :
    skipBlanks (c :: cs) = c :: cs :=
  List.dropWhile_cons_of_neg (by simp [visible])

theorem endsNumber_nil : EndsNumber [] := by
  rintro _ ⟨⟩

theorem endsNumber_cons {c : Char} (h : c ∈ [',', ']', '\x7d']) (rest : List Char) :
    EndsNumber (c :: rest) := by
  simp only [List.mem_cons, List.not_mem_nil, or_false] at h
  rintro _ ⟨⟩
  rcases h with rfl | rfl | rfl <;> decide

/-- Some reader reads a value from its text, whatever follows it but more of a number. -/
def ReadBy (value : List Char → Option (Json × List Char)) (j : Json) : Prop :=
  ∀ rest, EndsNumber rest → value (j.render ++ rest) = some (j, rest)

theorem renderItems_cons_cons (item next : Json) (items : List Json) :
    renderItems (item :: next :: items) = item.render ++ ',' :: renderItems (next :: items) := by
  rw [renderItems]
  rintro ⟨⟩

theorem renderMembers_cons_cons (name : String) (item : Json) (next : String × Json)
    (members : Members) :
    renderMembers ((name, item) :: next :: members) =
      renderString name ++ ':' :: item.render ++ ',' :: renderMembers (next :: members) := by
  rw [renderMembers]
  rintro ⟨⟩

section Items

variable {value : List Char → Option (Json × List Char)}

theorem length_le_renderItems (items : List Json) : items.length ≤ (renderItems items).length := by
  induction items with
  | nil => exact Nat.zero_le _
  | cons item items ih =>
    cases items with
    | nil => simp [renderItems]
    | cons next items =>
      simp only [renderItems_cons_cons, List.length_append, List.length_cons] at ih ⊢
      omega

theorem length_le_renderMembers (members : Members) :
    members.length ≤ (renderMembers members).length := by
  induction members with
  | nil => exact Nat.zero_le _
  | cons member members ih =>
    cases members with
    | nil => simp [renderMembers, renderString]
    | cons next members =>
      obtain ⟨name, item⟩ := member
      simp only [renderMembers_cons_cons, List.length_append, List.length_cons] at ih ⊢
      omega

theorem readItems_renderItems {items : List Json} (filled : items ≠ [])
    (read : ∀ item ∈ items, ReadBy value item) {bound : Nat} (enough : items.length ≤ bound)
    (rest : List Char) :
    readItems value bound (renderItems items ++ rest) = some (items, rest) := by
  induction items generalizing bound with
  | nil => exact absurd rfl filled
  | cons item items ih =>
    obtain ⟨bound, rfl⟩ := Nat.exists_eq_add_of_lt (Nat.lt_of_lt_of_le (Nat.succ_pos _) enough)
    rw [List.forall_mem_cons] at read
    rw [Nat.zero_add, List.length_cons, Nat.add_le_add_iff_right] at enough
    cases items with
    | nil =>
      have text : renderItems [item] ++ rest = item.render ++ ']' :: rest := by simp [renderItems]
      rw [text, readItems, read.1 _ (endsNumber_cons (by decide) _)]
      rfl
    | cons next items =>
      have others := ih (List.cons_ne_nil next _) read.2 enough
      rw [renderItems_cons_cons, List.append_assoc, List.cons_append, readItems,
        read.1 _ (endsNumber_cons (by decide) _)]
      simp only [Option.bind_eq_bind, Option.bind_some]
      rw [skipBlanks_cons (by decide)]
      simp only [others, Nat.zero_add]
      rfl

/-- One member is read, and what follows it tells whether another one comes. -/
theorem readMembers_member {item : Json} {rest : List Char}
    (read : value (item.render ++ rest) = some (item, rest)) (sofar : Members) (bound : Nat)
    (name : String) :
    readMembers value sofar (bound + 1) (renderString name ++ ':' :: (item.render ++ rest)) =
      match skipBlanks rest with
      | ',' :: rest => readMembers value (sofar.insert name item) bound rest
      | '\x7d' :: rest => some (sofar.insert name item, rest)
      | _ => none := by
  have text : renderString name ++ ':' :: (item.render ++ rest) =
      '"' :: (name.toList.flatMap escape ++ '"' :: ':' :: (item.render ++ rest)) := by
    simp [renderString]
  rw [text, readMembers, skipBlanks_cons (by decide)]
  simp only [after?, if_true, Option.bind_eq_bind, Option.bind_some, readString_of_string]
  rw [skipBlanks_cons (by decide)]
  simp only [after?, if_true, Option.bind_some, read]
  rfl

/-- Members are read up to the closing brace, each with a name that was not there before. -/
theorem readMembers_renderMembers {members sofar : Members} (filled : members ≠ [])
    (names : (sofar.map Prod.fst ++ members.map Prod.fst).Nodup)
    (read : ∀ member ∈ members, ReadBy value member.2) {bound : Nat}
    (enough : members.length ≤ bound) (rest : List Char) :
    readMembers value sofar bound (renderMembers members ++ rest) =
      some (sofar ++ members, rest) := by
  induction members generalizing bound sofar with
  | nil => exact absurd rfl filled
  | cons member members ih =>
    obtain ⟨name, item⟩ := member
    obtain ⟨bound, rfl⟩ := Nat.exists_eq_add_of_lt (Nat.lt_of_lt_of_le (Nat.succ_pos _) enough)
    rw [List.forall_mem_cons] at read
    rw [Nat.zero_add, List.length_cons, Nat.add_le_add_iff_right] at enough
    obtain ⟨added, names⟩ := Members.insert_of_nodup names item
    cases members with
    | nil =>
      have text : renderMembers [(name, item)] ++ rest =
          renderString name ++ ':' :: (item.render ++ '\x7d' :: rest) := by simp [renderMembers]
      rw [text, Nat.zero_add, readMembers_member (read.1 _ (endsNumber_cons (by decide) _)),
        skipBlanks_cons (by decide), added]
      rfl
    | cons next members =>
      have text : renderMembers ((name, item) :: next :: members) ++ rest =
          renderString name ++
            ':' :: (item.render ++ ',' :: (renderMembers (next :: members) ++ rest)) := by
        simp [renderMembers_cons_cons]
      rw [text, Nat.zero_add, readMembers_member (read.1 _ (endsNumber_cons (by decide) _)),
        skipBlanks_cons (by decide), added]
      change readMembers value _ _ _ = _
      rw [ih (List.cons_ne_nil next _) names read.2 enough, List.append_assoc]
      rfl

end Items

section Values

variable {levels : Nat}

/-- A digit or a minus sign is none of the characters that other values start with. -/
theorem ne_of_number {c d : Char} (first : c.isDigit ∨ c = '-') (other : ¬ d.isDigit ∧ d ≠ '-') :
    c ≠ d := by
  rintro rfl
  exact first.elim other.1 other.2

theorem isBlank_of_number {c : Char} (first : c.isDigit ∨ c = '-') : isBlank c = false := by
  simp only [isBlank, Bool.or_eq_false_iff, decide_eq_false_iff_not]
  exact ⟨⟨⟨ne_of_number first (by decide), ne_of_number first (by decide)⟩,
    ne_of_number first (by decide)⟩, ne_of_number first (by decide)⟩

/-- The text of a plain value starts with neither a blank nor a closing bracket. -/
theorem Plain.render_eq_cons {j : Json} (plain : Plain levels j) :
    ∃ c cs, j.render = c :: cs ∧ isBlank c = false ∧ c ≠ ']' := by
  cases plain with
  | null => exact ⟨_, _, rfl, by decide, by decide⟩
  | bool b => cases b <;> exact ⟨_, _, rfl, by decide, by decide⟩
  | number back =>
    obtain ⟨c, cs, text, first⟩ := head_of_readNumber back
    exact ⟨c, cs, text, isBlank_of_number first, ne_of_number first (by decide)⟩
  | string s => exact ⟨_, _, rfl, by decide, by decide⟩
  | @array _ items => exact ⟨'[', renderItems items, by rw [render], by decide, by decide⟩
  | @object _ members =>
    exact ⟨'\x7b', renderMembers members, by rw [render], by decide, by decide⟩

theorem readValue_number {c : Char} (first : c.isDigit ∨ c = '-') (cs : List Char) :
    readValue levels (c :: cs) =
      (readNumber (c :: cs)).map fun (n, rest) => (number n, rest) := by
  rw [readValue.eq_def, skipBlanks_cons (isBlank_of_number first)]
  split
  case h_7 => rfl
  all_goals
    rename_i shape
    obtain ⟨rfl, rfl⟩ := shape
    exact absurd first (by decide)

theorem readValue_quote (cs : List Char) :
    readValue levels ('"' :: cs) = (readString [] cs).map fun (s, rest) => (string s, rest) := by
  rw [readValue.eq_def, skipBlanks_cons (by decide)]
  rfl

theorem readValue_bracket (cs : List Char) :
    readValue (levels + 1) ('[' :: cs) =
      match skipBlanks cs with
      | ']' :: rest => some (array [], rest)
      | cs => (readItems (readValue levels) cs.length cs).map fun (items, rest) =>
          (array items, rest) := by
  rw [readValue.eq_def, skipBlanks_cons (by decide)]
  rfl

theorem readValue_brace (cs : List Char) :
    readValue (levels + 1) ('\x7b' :: cs) =
      match skipBlanks cs with
      | '\x7d' :: rest => some (object [], rest)
      | cs => (readMembers (readValue levels) [] cs.length cs).map fun (members, rest) =>
          (object members, rest) := by
  rw [readValue.eq_def, skipBlanks_cons (by decide)]
  rfl

theorem readBy_number {n : Number} (back : n.ReadsBack) :
    ReadBy (readValue levels) (.number n) := by
  intro rest ends
  have read := readNumber_append back ends
  obtain ⟨c, cs, text, first⟩ := head_of_readNumber back
  rw [text, List.cons_append, List.nil_append] at read
  rw [render, text, List.cons_append, readValue_number first, read]
  rfl

theorem readBy_string (s : String) : ReadBy (readValue levels) (.string s) := by
  intro rest _
  have text : (Json.string s).render ++ rest = '"' :: (s.toList.flatMap escape ++ '"' :: rest) := by
    simp [render, renderString]
  rw [text, readValue_quote, readString_of_string]
  rfl

theorem readBy_array {items : List Json} (plain : ∀ item ∈ items, Plain levels item)
    (read : ∀ item ∈ items, ReadBy (readValue levels) item) :
    ReadBy (readValue (levels + 1)) (.array items) := by
  intro rest _
  rw [render, List.cons_append, readValue_bracket]
  cases items with
  | nil => rfl
  | cons item items =>
    obtain ⟨c, cs, first, visible, other⟩ := (plain item (List.mem_cons_self ..)).render_eq_cons
    obtain ⟨ds, text⟩ : ∃ ds, renderItems (item :: items) ++ rest = c :: ds := by
      cases items with
      | nil => exact ⟨_, by rw [renderItems, first]; rfl⟩
      | cons next items => exact ⟨_, by rw [renderItems_cons_cons, first]; rfl⟩
    have enough : (item :: items).length ≤ (renderItems (item :: items) ++ rest).length := by
      rw [List.length_append]
      exact Nat.le_add_right_of_le (length_le_renderItems _)
    have whole := readItems_renderItems (List.cons_ne_nil item items) read enough rest
    rw [text] at whole ⊢
    rw [skipBlanks_cons visible]
    split
    · rename_i shape
      cases shape
      exact absurd rfl other
    · rw [whole]
      rfl

theorem readBy_object {members : Members} (names : (members.map Prod.fst).Nodup)
    (read : ∀ member ∈ members, ReadBy (readValue levels) member.2) :
    ReadBy (readValue (levels + 1)) (.object members) := by
  intro rest _
  rw [render, List.cons_append, readValue_brace]
  cases members with
  | nil => rfl
  | cons member members =>
    obtain ⟨ds, text⟩ : ∃ ds, renderMembers (member :: members) ++ rest = '"' :: ds := by
      cases members with
      | nil => exact ⟨_, rfl⟩
      | cons next members => exact ⟨_, by rw [renderMembers_cons_cons, renderString]; rfl⟩
    have enough :
        (member :: members).length ≤ (renderMembers (member :: members) ++ rest).length := by
      rw [List.length_append]
      exact Nat.le_add_right_of_le (length_le_renderMembers _)
    have apart : (([] : Members).map Prod.fst ++ (member :: members).map Prod.fst).Nodup := names
    have whole := readMembers_renderMembers (List.cons_ne_nil member members) apart read enough rest
    rw [text] at whole ⊢
    rw [skipBlanks_cons (by decide)]
    split
    · rename_i shape
      cases shape
    · rw [whole]
      rfl

/-- Reading the text of a plain value gives the value, and leaves what follows it. -/
theorem Plain.readBy {j : Json} (plain : Plain levels j) : ReadBy (readValue levels) j := by
  induction plain with
  | null =>
    intro rest _
    rw [readValue.eq_def]
    rfl
  | bool b =>
    intro rest _
    rw [readValue.eq_def]
    cases b <;> rfl
  | number back => exact readBy_number back
  | string s => exact readBy_string s
  | array plain ih => exact readBy_array plain ih
  | object names plain ih => exact readBy_object names ih

end Values

/-- A plain value that is nested no deeper than a reader goes is read back from its text. -/
theorem Plain.parse?_text {j : Json} (plain : Plain maxNesting j) :
    parse? j.text.toList = some j := by
  have read := plain.readBy [] endsNumber_nil
  rw [List.append_nil] at read
  rw [text, String.toList_ofList, parse?, read]
  rfl

end MessageCodec.Json
