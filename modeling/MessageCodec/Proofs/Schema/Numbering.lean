import Mathlib.Data.List.Nodup
import Mathlib.Order.Interval.Finset.Nat
import MessageCodec.Proofs.Schema.Insertion
import MessageCodec.Proofs.Schema.Resolution

/-! The identifiers of fields. A message keeps the identifiers that it states, and its other fields
get the numbers from one on, whatever stands between them and in other messages. So a text is
refused for them when one is stated twice, or is among as many numbers as there are fields without
one. -/

namespace MessageCodec.Schema

namespace FieldDeclaration

def stated (ds : List FieldDeclaration) : List UInt32 := ds.filterMap (·.id?)

def unnumbered (ds : List FieldDeclaration) : Nat := ds.countP (·.id?.isNone)

/-- The stated identifiers are distinct, and none of them is given to a field without one. -/
structure Apart (ds : List FieldDeclaration) : Prop where
  distinct : (stated ds).Nodup
  free : ∀ id ∈ stated ds, id.toNat ∉ Finset.Icc 1 (unnumbered ds)

variable {d : FieldDeclaration} {ds : List FieldDeclaration} {id : UInt32}

theorem stated_cons_some (explicit : d.id? = some id) : stated (d :: ds) = id :: stated ds := by
  rw [stated, List.filterMap_cons_some explicit, stated]

theorem stated_cons_none (unstated : d.id? = none) : stated (d :: ds) = stated ds := by
  rw [stated, List.filterMap_cons_none unstated, stated]

theorem unnumbered_cons_some (explicit : d.id? = some id) :
    unnumbered (d :: ds) = unnumbered ds := by
  rw [unnumbered, List.countP_cons_of_neg (by simp [explicit]), unnumbered]

theorem unnumbered_cons_none (unstated : d.id? = none) :
    unnumbered (d :: ds) = unnumbered ds + 1 := by
  rw [unnumbered, List.countP_cons_of_pos (by simp [unstated]), unnumbered]

theorem unnumbered_le (ds : List FieldDeclaration) : unnumbered ds ≤ ds.length :=
  List.countP_le_length

/-- The identifiers of the fields are those that are stated and the numbers that follow the last
one given. -/
theorem perm_number (last : UInt32) (ds : List FieldDeclaration)
    (few : last.toNat + unnumbered ds < UInt32.size) :
    ((number last ds).map (·.id.toNat)).Perm
      ((stated ds).map UInt32.toNat ++ List.range' (last.toNat + 1) (unnumbered ds)) := by
  induction ds generalizing last with
  | nil => exact .refl _
  | cons d ds ih =>
    cases explicit : d.id? with
    | some id =>
      rw [unnumbered_cons_some explicit] at few ⊢
      simp only [number, explicit, stated_cons_some explicit, List.map_cons, id_numbered,
        List.cons_append]
      exact (ih last few).cons _
    | none =>
      rw [unnumbered_cons_none explicit] at few ⊢
      -- there is a number left for this field, so the count does not start over
      have next : (last + 1).toNat = last.toNat + 1 := by
        have size : UInt32.size = 2 ^ 32 := rfl
        rw [UInt32.toNat_add, UInt32.toNat_one]
        exact Nat.mod_eq_of_lt (by omega)
      simp only [number, explicit, stated_cons_none explicit, List.map_cons, id_numbered, next,
        List.range'_succ]
      refine ((ih (last + 1) (by omega)).cons _).trans ?_
      rw [next]
      exact List.perm_middle.symm

/-- The identifiers of the fields are distinct exactly when those that are stated are, and keep
away from the numbers that are given. -/
theorem nodup_number_iff (few : unnumbered ds < UInt32.size) :
    ((number 0 ds).map (·.id)).Nodup ↔ Apart ds := by
  have inj : Function.Injective UInt32.toNat := fun _ _ => UInt32.toNat_inj.1
  have perm := perm_number 0 ds (by simpa using few)
  have numbers : ((number 0 ds).map (·.id)).Nodup ↔ ((number 0 ds).map (·.id.toNat)).Nodup := by
    rw [← List.nodup_map_iff inj, List.map_map]
    rfl
  rw [numbers, perm.nodup_iff, List.nodup_append', List.nodup_map_iff inj]
  constructor
  · rintro ⟨distinct, -, disjoint⟩
    refine ⟨distinct, fun id mem given => ?_⟩
    rw [Finset.mem_Icc] at given
    refine disjoint (List.mem_map_of_mem mem) (List.mem_range'_1.2 ?_)
    rw [UInt32.toNat_zero]
    omega
  · rintro ⟨distinct, free⟩
    refine ⟨distinct, List.nodup_range', fun n mem given => ?_⟩
    obtain ⟨id, stated, rfl⟩ := List.mem_map.1 mem
    rw [List.mem_range'_1, UInt32.toNat_zero] at given
    exact free id stated (Finset.mem_Icc.2 (by omega))

/-- A field keeps its identifier. The `k`-th field without one gets `k`. -/
theorem getElem?_number {i : Nat} (few : ds.length < UInt32.size) (held : ds[i]? = some d) :
    ∃ f, (number 0 ds)[i]? = some f ∧ f.declaration = { d with id? := some f.id } ∧
      (∀ id, d.id? = some id → f.id = id) ∧
        (d.id? = none → f.id.toNat = unnumbered (ds.take (i + 1))) := by
  refine ⟨d.numbered (d.id?.getD (UInt32.ofNat (unnumbered (ds.take (i + 1))))), ?_, ?_⟩
  · rw [Grammar.number_zero, Grammar.numbered_eq, List.getElem?_mapIdx, held, Option.map_some,
      unnumbered]
  · rw [id_numbered]
    refine ⟨declaration_numbered d _, fun id explicit => ?_, fun unstated => ?_⟩
    · rw [explicit, Option.getD_some]
    · have le : unnumbered (ds.take (i + 1)) ≤ ds.length :=
        (unnumbered_le _).trans (List.length_take_le' _ _)
      rw [unstated, Option.getD_none, UInt32.toNat_ofNat_of_lt' (Nat.lt_of_le_of_lt le few)]

theorem map_name_number (last : UInt32) (ds : List FieldDeclaration) :
    (number last ds).map (·.name) = ds.map (·.name) := by
  induction ds generalizing last with
  | nil => rfl
  | cons d ds ih => cases explicit : d.id? <;> simp [number, explicit, ih, Grammar.name_numbered]

end FieldDeclaration

/-- Among fields with distinct names, the first one that repeats anything repeats an identifier. -/
theorem exists_fieldId_of_conflict {message : String} {ids : List UInt32} {names : List String}
    {fs : List Field} (distinct : (fs.map (·.name)).Nodup) (fresh : ∀ f ∈ fs, f.name ∉ names)
    (conflict : fieldConflict? message ids names fs ≠ none) :
    ∃ id, fieldConflict? message ids names fs = some (.fieldId id message) := by
  induction fs generalizing ids names with
  | nil => exact absurd rfl conflict
  | cons f fs ih =>
    rw [List.map_cons, List.nodup_cons] at distinct
    rw [List.forall_mem_cons] at fresh
    rw [fieldConflict?] at conflict ⊢
    split
    · exact ⟨f.id, rfl⟩
    · rename_i new
      rw [if_neg new, if_neg fresh.1] at conflict
      rw [if_neg fresh.1]
      refine ih distinct.2 (fun g mem => ?_) conflict
      rw [List.mem_cons, not_or]
      exact ⟨fun same => distinct.1 (same ▸ List.mem_map_of_mem mem), fresh.2 g mem⟩

/-- A message as it is declared, before its fields are numbered. -/
structure MessageDeclaration where
  name : String
  id : Int32
  fields : List FieldDeclaration

def MessageDeclaration.message (package : String) (d : MessageDeclaration) : Message :=
  ⟨package, d.name, d.id, FieldDeclaration.number 0 d.fields⟩

theorem MessageDeclaration.fields_message (package : String) (d : MessageDeclaration) :
    (d.message package).fields = FieldDeclaration.number 0 d.fields := rfl

namespace Grammar

variable {ts : List Token} {package : String} {m : Schema.Message} {ms : List Schema.Message}
  {d : MessageDeclaration} {ds : List MessageDeclaration}

/-- A message with its fields as they are declared. -/
inductive Declaration : List Token → MessageDeclaration → Prop where
  | declared {ts us vs : List Token} {name : String} {id : Int32} {ds : List FieldDeclaration}
    (named : Dotted ts name) (identified : MessageId us id) (fields : Fields vs ds) :
    Declaration (.identifier "message" :: (ts ++ us ++ .leftBrace :: (vs ++ [.rightBrace])))
      ⟨name, id, ds⟩

/-- The messages of a package with their fields as they are declared. -/
inductive Declarations : List Token → List MessageDeclaration → Prop where
  | nil : Declarations [] []
  | cons {ts us : List Token} {d : MessageDeclaration} {ds : List MessageDeclaration}
    (first : Declaration ts d) (rest : Declarations us ds) : Declarations (ts ++ us) (d :: ds)

theorem message_iff :
    Message package ts m ↔ ∃ d, Declaration ts d ∧ m = d.message package := by
  constructor
  · rintro ⟨named, identified, fields⟩
    exact ⟨_, .declared named identified fields, by rw [MessageDeclaration.message, number_zero]⟩
  · rintro ⟨_, ⟨named, identified, fields⟩, rfl⟩
    rw [MessageDeclaration.message, number_zero]
    exact .declared named identified fields

theorem messages_iff :
    Messages package ts ms ↔ ∃ ds, Declarations ts ds ∧ ms = ds.map (·.message package) := by
  constructor
  · intro messages
    induction messages with
    | nil => exact ⟨[], .nil, rfl⟩
    | cons first _ ih =>
      obtain ⟨d, declaration, rfl⟩ := message_iff.1 first
      obtain ⟨ds, declarations, rfl⟩ := ih
      exact ⟨d :: ds, .cons declaration declarations, rfl⟩
  · rintro ⟨ds, declarations, rfl⟩
    induction declarations with
    | nil => exact .nil
    | cons first _ ih => exact .cons (message_iff.2 ⟨_, first, rfl⟩) ih

end Grammar

/-- The text, without its comments, splits into tokens that declare these messages in a package. -/
def DeclaresIn (text package : String) (ds : List MessageDeclaration) : Prop :=
  ∃ us vs, Splits (Comment.strip text.toList) (us ++ vs) ∧ Grammar.Opening us package ∧
    Grammar.Declarations vs ds

open FieldDeclaration (Apart unnumbered)

variable {text package : String} {ms : List Message} {ds : List MessageDeclaration}
  {d : MessageDeclaration}

/-- The messages that a text denotes are those that its declarations stand for. -/
theorem declares_iff :
    Declares text ms ↔ ∃ package ds, DeclaresIn text package ds ∧ ms = ds.map (·.message package) := by
  constructor
  · rintro ⟨ts, splits, specification⟩
    obtain ⟨us, vs, package, rfl, opening, messages⟩ := specification.exists_opening
    obtain ⟨ds, declarations, rfl⟩ := Grammar.messages_iff.1 messages
    exact ⟨package, ds, ⟨us, vs, splits, opening, declarations⟩, rfl⟩
  · rintro ⟨package, ds, ⟨us, vs, splits, opening, declarations⟩, rfl⟩
    exact ⟨us ++ vs, splits, opening.specification (Grammar.messages_iff.2 ⟨ds, declarations, rfl⟩)⟩

/-- What the fields of a declared message are numbered with depends on its own declaration only.
Those that state an identifier keep it, and the `k`-th of the others gets `k`. The check for
identifiers that are used twice in the message passes exactly when the stated ones are distinct
and none of them is among as many numbers, from one on, as there are fields without one; otherwise
the whole text is refused for its duplicates. -/
theorem numbering_of_declaresIn (declared : DeclaresIn text package ds) (mem : d ∈ ds)
    (few : d.fields.length < UInt32.size) (names : (d.fields.map (·.name)).Nodup) :
    (parse text = .ok (ds.map (·.message package)) ∨
      ∃ e, parse text = .error e ∧ e.code = "DUPLICATE_IDENTIFIERS") ∧
      (d.message package).fields.length = d.fields.length ∧
      (∀ (i : Nat) (f : FieldDeclaration), d.fields[i]? = some f →
        ∃ f', (d.message package).fields[i]? = some f' ∧
          f'.declaration = { f with id? := some f'.id } ∧ (∀ id, f.id? = some id → f'.id = id) ∧
          (f.id? = none → f'.id.toNat = unnumbered (d.fields.take (i + 1)))) ∧
      (fieldConflict? (d.message package).longName [] [] (d.message package).fields = none ↔
        Apart d.fields) ∧
      (¬ Apart d.fields →
        (∃ id, fieldConflict? (d.message package).longName [] [] (d.message package).fields =
          some (.fieldId id (d.message package).longName)) ∧
        ∃ e, parse text = .error e ∧ e.code = "DUPLICATE_IDENTIFIERS") := by
  have denoted : Declares text (ds.map (·.message package)) :=
    declares_iff.2 ⟨package, ds, declared, rfl⟩
  have refused (duplicates : ¬ Unambiguous (ds.map (·.message package))) :
      ∃ e, parse text = .error e ∧ e.code = "DUPLICATE_IDENTIFIERS" := by
    obtain ⟨c, ambiguous⟩ := parse_of_ambiguous denoted duplicates
    exact ⟨_, ambiguous, rfl⟩
  have kept := FieldDeclaration.map_name_number 0 d.fields
  have distinct : ((d.message package).fields.map (·.name)).Nodup := by
    rwa [d.fields_message, kept]
  have numbers : ((FieldDeclaration.number 0 d.fields).map (·.id)).Nodup ↔ Apart d.fields :=
    FieldDeclaration.nodup_number_iff
      (Nat.lt_of_le_of_lt (FieldDeclaration.unnumbered_le d.fields) few)
  -- the names are distinct, so the check for the message is one for its identifiers
  have check : fieldConflict? (d.message package).longName [] [] (d.message package).fields = none ↔
      Apart d.fields := by
    rw [fieldConflict?_eq_none, ← numbers, ← d.fields_message package]
    simp [distinct]
  refine ⟨?_, ?_, fun i f held => FieldDeclaration.getElem?_number few held, check,
    fun clash => ⟨?_, refused fun clean => ?_⟩⟩
  · by_cases clean : Unambiguous (ds.map (·.message package))
    · exact .inl (parse_of_unambiguous denoted clean)
    · exact .inr (refused clean)
  · simpa [d.fields_message] using congrArg List.length kept
  · exact exists_fieldId_of_conflict distinct (by simp) fun none => clash (check.1 none)
  · exact clash (numbers.1 (clean.fieldIds _ (List.mem_map_of_mem mem)))

/-- A message that states an identifier which the field behind it gets. -/
def mixedText : String :=
  "message M \x7b bool a [id = 7]; bool b; bool c [id = 2]; bool d; \x7d"

def mixedDeclaration : MessageDeclaration :=
  ⟨"M", 0, [⟨"bool", "a", none, some 7⟩, ⟨"bool", "b", none, none⟩, ⟨"bool", "c", none, some 2⟩,
    ⟨"bool", "d", none, none⟩]⟩

theorem declaresIn_mixedText : DeclaresIn mixedText "" [mixedDeclaration] := by
  have seven : Grammar.Natural UInt32.size "7" 7 :=
    natural_toString (n := 7) (by decide) (by decide)
  have two : Grammar.Natural UInt32.size "2" 2 :=
    natural_toString (n := 2) (by decide) (by decide)
  refine ⟨[], _, ?_, .plain, .cons (.declared (.last "M") .absent
    (.cons (.declared (.last "bool") (.bracketed .absent .absent (.stated seven)))
      (.cons (.declared (.last "bool") .absent)
        (.cons (.declared (.last "bool") (.bracketed .absent .absent (.stated two)))
          (.cons (.declared (.last "bool") .absent) .nil))))) .nil⟩
  decide +kernel

theorem numbering_of_declaresIn_mixed :
    (mixedDeclaration.message "").fields.map (·.id) = [7, 1, 2, 2] ∧
      ¬ Apart mixedDeclaration.fields ∧
      ∃ e, parse mixedText = .error e ∧ e.code = "DUPLICATE_IDENTIFIERS" := by
  have clash : ¬ Apart mixedDeclaration.fields :=
    fun apart => apart.free 2 (by decide) (by decide)
  have numbering := numbering_of_declaresIn declaresIn_mixedText (d := mixedDeclaration)
    (List.mem_singleton_self _) (by decide) (by decide)
  exact ⟨by decide, clash, (numbering.2.2.2.2 clash).2⟩

end MessageCodec.Schema
