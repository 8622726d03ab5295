import MessageCodec.Proofs.Json.RoundTrip

/-! What JSON values a reader comes across. Integers have 64 bits, no object has two members of one
name, and values are nested no deeper than the reader goes down. Such a value is read back from its
text as soon as its numbers in double precision are. -/

namespace MessageCodec.Json

/-- A value of at most so many levels of arrays and objects, with integers that have 64 bits and a
name for each member. -/
inductive Readable : Nat → Json → Prop where
  | null {levels : Nat} : Readable levels .null
  | bool {levels : Nat} (b : Bool) : Readable levels (.bool b)
  | integer {levels : Nat} {i : Int} (low : -0x8000000000000000 ≤ i) (high : i < UInt64.size) :
    Readable levels (.number (.integer i))
  | double {levels : Nat} (bits : UInt64) : Readable levels (.number (.double bits))
  | string {levels : Nat} (s : String) : Readable levels (.string s)
  | array {levels : Nat} {items : List Json} (inner : ∀ item ∈ items, Readable levels item) :
    Readable (levels + 1) (.array items)
  | object {levels : Nat} {members : Members} (names : (members.map Prod.fst).Nodup)
    (inner : ∀ member ∈ members, Readable levels member.2) : Readable (levels + 1) (.object members)

/-- A number in double precision stands in a value, at any depth. -/
inductive HasDouble (bits : UInt64) : Json → Prop where
  | number : HasDouble bits (.number (.double bits))
  | item {items : List Json} {item : Json} (mem : item ∈ items) (inner : HasDouble bits item) :
    HasDouble bits (.array items)
  | member {members : Members} {member : String × Json} (mem : member ∈ members)
    (inner : HasDouble bits member.2) : HasDouble bits (.object members)

/-- The numbers in double precision in a value are read back from their own texts. -/
def Reversible (j : Json) : Prop := ∀ bits, HasDouble bits j → (Number.double bits).ReadsBack

-- the text of this number, 8.699112524611613e-10, is read as its neighbour
example : ¬ (Number.double 0x3E0DE3D1FF07EDEF).ReadsBack := by decide +kernel

variable {levels : Nat} {j : Json} {members : Members}

theorem Readable.mono {levels' : Nat} (readable : Readable levels j) (le : levels ≤ levels') :
    Readable levels' j := by
  induction readable generalizing levels' with
  | null => exact .null
  | bool b => exact .bool b
  | integer low high => exact .integer low high
  | double bits => exact .double bits
  | string s => exact .string s
  | array _ ih =>
    obtain ⟨n, rfl⟩ := Nat.exists_eq_add_of_le' (Nat.le_of_add_left_le le)
    exact .array fun item mem => ih item mem (Nat.le_of_add_le_add_right le)
  | object names _ ih =>
    obtain ⟨n, rfl⟩ := Nat.exists_eq_add_of_le' (Nat.le_of_add_left_le le)
    exact .object names fun member mem => ih member mem (Nat.le_of_add_le_add_right le)

/-- Double precision is all that can keep a value from being read back. -/
theorem Readable.plain (readable : Readable levels j) (reversible : j.Reversible) :
    Plain levels j := by
  induction readable with
  | null => exact .null
  | bool b => exact .bool b
  | integer low high => exact .integer low high
  | double bits => exact .number (reversible bits .number)
  | string s => exact .string s
  | array _ ih =>
    exact .array fun item mem => ih item mem fun bits inner => reversible bits (.item mem inner)
  | object names _ ih =>
    exact .object names fun member mem =>
      ih member mem fun bits inner => reversible bits (.member mem inner)

theorem Readable.insert {item : Json} (readable : Readable (levels + 1) (.object members))
    (name : String) (readableItem : Readable levels item) :
    Readable (levels + 1) (.object (members.insert name item)) := by
  cases readable with
  | object names inner =>
    refine .object (Members.nodup_insert names name item) fun member mem => ?_
    obtain rfl | mem := Members.mem_insert mem
    · exact readableItem
    · exact inner member mem

section Read

variable {value : List Char → Option (Json × List Char)} {cs rest : List Char} {bound : Nat}
variable (inner : ∀ {cs rest : List Char} {j : Json}, value cs = some (j, rest) → Readable levels j)

include inner in
theorem readItems_sound {items : List Json} (h : readItems value bound cs = some (items, rest)) :
    ∀ item ∈ items, Readable levels item := by
  induction bound generalizing cs items with
  | zero => cases h
  | succ bound ih =>
    rw [readItems] at h
    obtain ⟨⟨item, behind⟩, first, h⟩ := Option.bind_eq_some_iff.1 h
    dsimp only at h
    split at h
    · obtain ⟨⟨items, behind⟩, others, h⟩ := Option.bind_eq_some_iff.1 h
      cases h
      exact List.forall_mem_cons.2 ⟨inner first, ih others⟩
    · cases h
      exact List.forall_mem_singleton.2 (inner first)
    · cases h

include inner in
theorem readMembers_sound {sofar : Members} (readable : Readable (levels + 1) (.object sofar))
    (h : readMembers value sofar bound cs = some (members, rest)) :
    Readable (levels + 1) (.object members) := by
  induction bound generalizing cs sofar with
  | zero => cases h
  | succ bound ih =>
    rw [readMembers] at h
    obtain ⟨quoted, -, h⟩ := Option.bind_eq_some_iff.1 h
    obtain ⟨⟨name, behind⟩, -, h⟩ := Option.bind_eq_some_iff.1 h
    obtain ⟨behind, -, h⟩ := Option.bind_eq_some_iff.1 h
    obtain ⟨⟨item, behind⟩, read, h⟩ := Option.bind_eq_some_iff.1 h
    have added := readable.insert name (inner read)
    dsimp only at h
    split at h
    · exact ih added h
    · cases h
      exact added
    · cases h

theorem readable_of_readNumber (h : (readNumber cs).map (fun (n, rest) => (number n, rest)) =
    some (j, rest)) : Readable levels j := by
  obtain ⟨⟨n, behind⟩, read, same⟩ := Option.map_eq_some_iff.1 h
  cases same
  cases n with
  | integer i =>
    obtain ⟨low, high⟩ := readNumber_sound read
    exact .integer low high
  | double bits => exact .double bits

theorem readable_of_readValue (h : readValue levels cs = some (j, rest)) : Readable levels j := by
  induction levels using Nat.strongRecOn generalizing cs rest j with
  | ind levels ih =>
    rw [readValue.eq_def] at h
    split at h
    · rename_i inner _
      split at h
      · cases h
        exact .array fun item mem => absurd mem List.not_mem_nil
      · obtain ⟨⟨items, behind⟩, read, same⟩ := Option.map_eq_some_iff.1 h
        cases same
        exact .array (readItems_sound (ih inner (Nat.lt_succ_self inner)) read)
    · rename_i inner _
      have empty : Readable (inner + 1) (.object []) :=
        .object List.nodup_nil fun member mem => absurd mem List.not_mem_nil
      split at h
      · cases h
        exact empty
      · obtain ⟨⟨members, behind⟩, read, same⟩ := Option.map_eq_some_iff.1 h
        cases same
        exact readMembers_sound (ih inner (Nat.lt_succ_self inner)) empty read
    · obtain ⟨⟨s, behind⟩, -, same⟩ := Option.map_eq_some_iff.1 h
      cases same
      exact .string s
    · obtain ⟨behind, -, same⟩ := Option.map_eq_some_iff.1 h
      cases same
      exact .null
    · obtain ⟨behind, -, same⟩ := Option.map_eq_some_iff.1 h
      cases same
      exact .bool true
    · obtain ⟨behind, -, same⟩ := Option.map_eq_some_iff.1 h
      cases same
      exact .bool false
    · exact readable_of_readNumber h

theorem readable_of_parse? (h : parse? cs = some j) : Readable maxNesting j := by
  unfold parse? at h
  split at h
  · rename_i read
    split at h
    · cases h
      exact readable_of_readValue read
    · cases h
  · cases h

end Read

end MessageCodec.Json
