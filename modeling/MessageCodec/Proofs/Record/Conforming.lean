import MessageCodec.Proofs.Record.Capture
import MessageCodec.Proofs.Record.Decode

/-! Records that conform to their schemas: each value is kept under the identifier of exactly one
declared field, has the type of that field, and suits it if it is a record, at every depth.
Defaults, what decoders build and captured messages conform. So does a conforming record in which a
value of the declared type is kept, or that some pass has walked over. -/

namespace MessageCodec

open Schema (Catalogue)

namespace Schema

/-- Exactly one field has the identifier. -/
def Message.Declares (m : Message) (id : UInt32) (f : Field) : Prop :=
  m.fields.filter (·.id == id) = [f]

theorem Message.declares_of_mem {m : Message} (ids : (m.fields.map (·.id)).Nodup) {f : Field}
    (mem : f ∈ m.fields) : m.Declares f.id f := by
  obtain ⟨front, behind, split⟩ := List.append_of_mem mem
  rw [split, List.map_append, List.map_cons, List.nodup_append, List.nodup_cons] at ids
  obtain ⟨-, ⟨after, -⟩, before⟩ := ids
  have none_before : front.filter (·.id == f.id) = [] := by
    refine List.filter_eq_nil_iff.2 fun g inside same => ?_
    exact before g.id (List.mem_map_of_mem inside) f.id (List.mem_cons_self ..) (eq_of_beq same)
  have none_after : behind.filter (·.id == f.id) = [] := by
    refine List.filter_eq_nil_iff.2 fun g inside same => after ?_
    exact eq_of_beq same ▸ List.mem_map_of_mem inside
  rw [Declares, split, List.filter_append, none_before, List.filter_cons, none_after,
    if_pos (beq_self_eq_true _)]
  rfl

theorem Message.Declares.fieldById? {m : Message} {id : UInt32} {f : Field}
    (only : m.Declares id f) : m.fieldById? id = some f := by
  rw [Message.fieldById?, ← List.head?_filter, only]
  rfl

theorem Message.Declares.mem {m : Message} {id : UInt32} {f : Field} (only : m.Declares id f) :
    f ∈ m.fields ∧ f.id = id := by
  obtain ⟨mem, same⟩ := List.mem_filter.1 (only ▸ List.mem_singleton_self f)
  exact ⟨mem, eq_of_beq same⟩

theorem Message.declares_of_fieldById? {m : Message} (ids : (m.fields.map (·.id)).Nodup)
    {id : UInt32} {f : Field} (found : m.fieldById? id = some f) : m.Declares id f := by
  rw [Message.fieldById?] at found
  have same := List.find?_some found
  exact eq_of_beq same ▸ declares_of_mem ids (List.mem_of_find?_eq_some found)

/-- Which messages, with which catalogues, records in a field of a message may be of. -/
abbrev Suiting := Message → Field → Message → Catalogue → Prop

end Schema

open Schema (Suiting)

/-- Exactly one field of a message has the identifier that a value is kept under; it has the type of
the value, which suits it if it is a record. -/
def Value.DeclaredIn (suits : Suiting) (m : Schema.Message) (id : UInt32) (v : Value) : Prop :=
  ∃ f, m.Declares id f ∧ f.type = v.type ∧ ∀ r, v = record r → suits m f r.schema r.catalogue

namespace Entries

def pairs : Entries → List (UInt32 × Value)
  | nil => []
  | scalar id s rest => (id, .scalar s) :: rest.pairs
  | record id schema catalogue inner rest => (id, .record ⟨schema, catalogue, inner⟩) :: rest.pairs

@[simp]
theorem pairs_cons (id : UInt32) (v : Value) (rest : Entries) :
    (cons id v rest).pairs = (id, v) :: rest.pairs := by
  cases v <;> rfl

/-- Each value is declared by the message, no two are kept under one identifier, and the records
among the values conform to schemas of their own. -/
def Conform (suits : Suiting) : Entries → Schema.Message → Prop
  | nil, _ => True
  | scalar id s rest, m =>
    (Value.scalar s).DeclaredIn suits m id ∧ rest.get? id = none ∧ rest.Conform suits m
  | record id schema catalogue inner rest, m =>
    (Value.record ⟨schema, catalogue, inner⟩).DeclaredIn suits m id ∧
      ((schema.fields.map (·.id)).Nodup ∧ inner.Conform suits schema) ∧
      rest.get? id = none ∧ rest.Conform suits m

end Entries

/-- The fields of a record have distinct identifiers, and its values are declared by them. -/
def Record.ConformsWith (suits : Suiting) (r : Record) : Prop :=
  (r.schema.fields.map (·.id)).Nodup ∧ r.entries.Conform suits r.schema

abbrev Record.Conforms (r : Record) : Prop := r.ConformsWith fun _ _ _ _ => True

def Value.ConformsWith (suits : Suiting) : Value → Prop
  | scalar _ => True
  | record r => r.ConformsWith suits

variable {suits : Suiting} {m : Schema.Message}

namespace Entries

variable {entries rest : Entries} {id i : UInt32} {v : Value}

@[simp]
theorem conform_cons : (cons id v rest).Conform suits m ↔
    v.DeclaredIn suits m id ∧ v.ConformsWith suits ∧ rest.get? id = none ∧
      rest.Conform suits m := by
  cases v with
  | scalar s => exact and_congr_right' (iff_of_eq (true_and _)).symm
  | record r => exact Iff.rfl

theorem Conform.insert (conform : entries.Conform suits m) (declared : v.DeclaredIn suits m i)
    (inner : v.ConformsWith suits) : (entries.insert i v).Conform suits m := by
  induction entries using cons_induction with
  | nil => exact conform_cons.2 ⟨declared, inner, rfl, trivial⟩
  | cons id w rest ih =>
    obtain ⟨own, held, alone, behind⟩ := conform_cons.1 conform
    rw [insert_cons]
    split
    · rename_i same
      subst same
      exact conform_cons.2 ⟨declared, inner, alone, behind⟩
    · rename_i other
      rw [conform_cons, get?_insert_of_ne (Ne.symm other)]
      exact ⟨own, held, alone, ih behind⟩

theorem Conform.insert_scalar (conform : entries.Conform suits m) {f : Schema.Field}
    (only : m.Declares i f) {t : ScalarType} (type : f.type = .scalar t) (v : t.Value) :
    (entries.insert i (.scalar ⟨t, v⟩)).Conform suits m :=
  conform.insert ⟨f, only, type, nofun⟩ trivial

theorem Conform.insert_record (conform : entries.Conform suits m) {f : Schema.Field}
    (only : m.Declares i f) (type : f.type = .message) {r : Record}
    (suited : suits m f r.schema r.catalogue) (conforms : r.ConformsWith suits) :
    (entries.insert i (.record r)).Conform suits m := by
  refine conform.insert ⟨f, only, type, ?_⟩ conforms
  rintro _ ⟨⟩
  exact suited

theorem Conform.of_get? (conform : entries.Conform suits m) (held : entries.get? i = some v) :
    v.DeclaredIn suits m i ∧ v.ConformsWith suits := by
  induction entries using cons_induction with
  | nil => cases held
  | cons id w rest ih =>
    obtain ⟨own, inner, -, behind⟩ := conform_cons.1 conform
    rw [get?_cons] at held
    split at held
    · rename_i same
      cases held
      exact same ▸ ⟨own, inner⟩
    · exact ih behind held

theorem Conform.distinct (conform : entries.Conform suits m) : entries.Distinct := by
  induction entries generalizing m with
  | nil => trivial
  | scalar id s rest ih => exact ih conform.2.2
  | record id schema catalogue inner rest ihInner ih =>
    obtain ⟨-, ⟨ids, inside⟩, -, behind⟩ := conform
    exact ⟨ids, ihInner inside, ih behind⟩

theorem Conform.mem_pairs (conform : entries.Conform suits m) :
    (i, v) ∈ entries.pairs ↔ entries.get? i = some v := by
  induction entries using cons_induction with
  | nil => simp [pairs, get?]
  | cons id w rest ih =>
    obtain ⟨-, -, alone, behind⟩ := conform_cons.1 conform
    rw [pairs_cons, List.mem_cons, get?_cons, ih behind, Prod.mk.injEq]
    by_cases same : id = i
    · subst same
      simp [alone, eq_comm]
    · simp [same, Ne.symm same]

theorem Conform.nodup_pairs (conform : entries.Conform suits m) : entries.pairs.Nodup := by
  induction entries using cons_induction with
  | nil => exact List.nodup_nil
  | cons id w rest ih =>
    obtain ⟨-, -, alone, behind⟩ := conform_cons.1 conform
    rw [pairs_cons, List.nodup_cons, behind.mem_pairs, alone]
    exact ⟨nofun, ih behind⟩

end Entries

namespace Record

variable {σ : Type} {c : Catalogue} {r : Record}

theorem ConformsWith.distinct (conforms : r.ConformsWith suits) : r.Distinct :=
  ⟨conforms.1, conforms.2.distinct⟩

section Building

variable {path : List String} {fs : List Schema.Field} {entries : Entries}
variable (ids : ∀ m ∈ c, (m.fields.map (·.id)).Nodup)
variable (suited : ∀ {f m inner}, c.HoldsIn f m inner → suits m f inner c)
include ids suited

theorem conform_addDefaults {package : String} (own : m.package = package)
    (distinct : (m.fields.map (·.id)).Nodup) (declared : ∀ f ∈ fs, f ∈ m.fields)
    (conform : entries.Conform suits m) :
    (addDefaults c path package fs entries).Conform suits m := by
  fun_induction addDefaults c path package fs entries generalizing m with
  | case1 => exact conform
  | case2 _ _ _ _ _ _ ih => exact ih own distinct (List.forall_mem_cons.1 declared).2 conform
  | case3 _ _ f fs _ t type ih =>
    rw [List.forall_mem_cons] at declared
    have only := Schema.Message.declares_of_mem distinct declared.1
    exact ih own distinct declared.2 (conform.insert_scalar only type _)
  | case4 _ _ _ _ _ _ _ ih => exact ih own distinct (List.forall_mem_cons.1 declared).2 conform
  | case5 _ _ _ _ _ _ _ _ _ ih =>
    exact ih own distinct (List.forall_mem_cons.1 declared).2 conform
  | case6 _ _ f fs _ type inner resolved =>
    rename_i ihInner ih
    subst own
    rw [List.forall_mem_cons] at declared
    have only := Schema.Message.declares_of_mem distinct declared.1
    have stays := suited ⟨declared.1, type, resolved⟩
    have fields := ids inner (Schema.Catalogue.mem_of_resolve? resolved)
    have inside := ihInner rfl fields (fun _ mem => mem) trivial
    exact ih rfl distinct declared.2 (conform.insert_record only type stays ⟨fields, inside⟩)

theorem conform_addDecoded {d : Decoder σ} {package : String} (own : m.package = package)
    (distinct : (m.fields.map (·.id)).Nodup) (declared : ∀ f ∈ fs, f ∈ m.fields)
    (conform : entries.Conform suits m) (s : σ) :
    (addDecoded d c path package fs entries s).1.Conform suits m := by
  fun_induction addDecoded d c path package fs entries s generalizing m with
  | case1 => exact conform
  | case2 _ _ _ _ _ _ _ ih => exact ih own distinct (List.forall_mem_cons.1 declared).2 conform
  | case3 _ _ f fs _ _ t type _ _ _ ih =>
    rw [List.forall_mem_cons] at declared
    have only := Schema.Message.declares_of_mem distinct declared.1
    exact ih own distinct declared.2 (conform.insert_scalar only type _)
  | case4 _ _ _ _ _ _ _ _ ih => exact ih own distinct (List.forall_mem_cons.1 declared).2 conform
  | case5 _ _ _ _ _ _ _ _ _ _ _ _ _ ih =>
    exact ih own distinct (List.forall_mem_cons.1 declared).2 conform
  | case6 _ _ _ _ _ _ _ _ _ _ _ _ _ _ ih =>
    exact ih own distinct (List.forall_mem_cons.1 declared).2 conform
  | case7 _ _ f fs _ _ type inner resolved _ _ _ _ _ _ _ built ihInner ih =>
    subst own
    rw [List.forall_mem_cons] at declared
    have only := Schema.Message.declares_of_mem distinct declared.1
    have stays := suited ⟨declared.1, type, resolved⟩
    have fields := ids inner (Schema.Catalogue.mem_of_resolve? resolved)
    have inside := ihInner rfl fields (fun _ mem => mem) trivial
    rw [built] at inside
    exact ih rfl distinct declared.2 (conform.insert_record only type stays ⟨fields, inside⟩)

theorem conforms_ofSchema (distinct : (m.fields.map (·.id)).Nodup) :
    (ofSchema m c).ConformsWith suits := by
  have start : Entries.nil.Conform suits m := trivial
  exact ⟨distinct, conform_addDefaults ids suited rfl distinct (fun _ mem => mem) start⟩

theorem conforms_ofDecoder {d : Decoder σ} (distinct : (m.fields.map (·.id)).Nodup) (s : σ) :
    (ofDecoder d m c s).1.ConformsWith suits := by
  have start : Entries.nil.Conform suits m := trivial
  exact ⟨distinct, conform_addDecoded ids suited rfl distinct (fun _ mem => mem) start _⟩

end Building

section Walking

variable {p : Pass σ} {walkInner : Record → σ → Record × σ}

/-- A record of the same message that conforms if the other one does. -/
structure Follows (suits : Suiting) (r r' : Record) : Prop where
  schema : r'.schema = r.schema
  catalogue : r'.catalogue = r.catalogue
  conforms : r.ConformsWith suits → r'.ConformsWith suits

theorem Follows.refl (suits : Suiting) (r : Record) : Follows suits r r := ⟨rfl, rfl, id⟩

theorem conform_walkField (keeps : ∀ r s, Follows suits r (walkInner r s).1) {state : Entries × σ}
    (conform : state.1.Conform suits m) (f : Schema.Field) :
    (walkField p walkInner state f).1.Conform suits m := by
  obtain ⟨entries, s⟩ := state
  cases held : entries.get? f.id with
  | none => rwa [walkField_of_absent held]
  | some v =>
    obtain ⟨⟨g, only, type, suited⟩, inside⟩ := conform.of_get? held
    rw [walkField_of_held held]
    cases v with
    | scalar x => exact conform.insert_scalar only type _
    | record inner =>
      have follows : Follows suits inner (p.descend (walkInner inner) f.tag inner s).1 := by
        rcases entered : p.enter f.tag s with ⟨s', _ | opened⟩
        · rw [Pass.descend_of_closed entered]
          exact .refl suits inner
        · rw [Pass.descend_of_opened entered]
          exact keeps inner opened
      have suited := suited inner rfl
      rw [← follows.schema, ← follows.catalogue] at suited
      exact conform.insert_record only type suited (follows.conforms inside)

theorem conform_foldl_walkField (keeps : ∀ r s, Follows suits r (walkInner r s).1)
    (walked : List Schema.Field) {state : Entries × σ} (conform : state.1.Conform suits m) :
    (walked.foldl (walkField p walkInner) state).1.Conform suits m := by
  induction walked generalizing state with
  | nil => exact conform
  | cons f walked ih => exact ih (conform_walkField keeps conform f)

theorem follows_walkWithin (suits : Suiting) (p : Pass σ) (n : Nat) (r : Record) (s : σ) :
    Follows suits r (r.walkWithin p n s).1 := by
  induction n generalizing r s with
  | zero => exact .refl suits r
  | succ n ih =>
    exact ⟨rfl, rfl, fun conforms =>
      ⟨conforms.1, conform_foldl_walkField ih r.schema.fields conforms.2⟩⟩

/-- A walk over a conforming record leaves a conforming one, whatever the pass does. -/
theorem follows_walk (suits : Suiting) (p : Pass σ) (r : Record) (s : σ) :
    Follows suits r (r.walk p s).1 :=
  follows_walkWithin suits p _ r s

end Walking

theorem fields_sublist (r : Record) : (r.fields.map Prod.fst).Sublist r.schema.fields := by
  rw [fields]
  induction r.schema.fields with
  | nil => exact .slnil
  | cons f fs ih =>
    rw [List.filterMap_cons]
    cases r.value? f.id with
    | none => exact ih.cons f
    | some v => exact ih.cons_cons f

/-- The fields that have a value list every value once. -/
theorem fields_perm (conforms : r.ConformsWith suits) :
    (r.fields.map fun x => (x.1.id, x.2)).Perm r.entries.pairs := by
  have ids : ((r.fields.map fun x => (x.1.id, x.2)).map Prod.fst).Nodup := by
    have listed := (r.fields_sublist.map (·.id)).nodup conforms.1
    rwa [List.map_map] at listed ⊢
  refine (List.perm_ext_iff_of_nodup ids.of_map conforms.2.nodup_pairs).2 fun x => ?_
  obtain ⟨i, v⟩ := x
  rw [conforms.2.mem_pairs]
  constructor
  · intro mem
    obtain ⟨x, listed, same⟩ := List.mem_map.1 mem
    obtain ⟨f, -, shown⟩ := List.mem_filterMap.1 listed
    obtain ⟨w, held, rfl⟩ := Option.map_eq_some_iff.1 shown
    cases same
    exact held
  · intro held
    obtain ⟨⟨f, only, -⟩, -⟩ := conforms.2.of_get? held
    obtain ⟨mem, rfl⟩ := only.mem
    refine List.mem_map.2 ⟨(f, v), List.mem_filterMap.2 ⟨f, mem, ?_⟩, rfl⟩
    rw [value?, held, Option.map_some]

end Record

namespace Capture

variable {fs : Fields}

theorem fields_ofFields (header : Header) (fs : Fields) :
    (ofFields header fs).schema.fields = fs.declared := by
  rw [schema_ofFields]

theorem nodup_ofFields (header : Header) (distinct : fs.Distinct) :
    ((ofFields header fs).schema.fields.map (·.id)).Nodup := by
  rw [fields_ofFields, Fields.ids_declared]
  exact distinct.nodup_ids

/-- What is captured of fields is declared by a message that lists them, if anything suits. -/
theorem conform_walk_pass (any : ∀ m f inner c, suits m f inner c) (distinct : fs.Distinct)
    (ids : (m.fields.map (·.id)).Nodup) (declared : ∀ f ∈ fs.declared, f ∈ m.fields) {c : Capture}
    (before : c.entries.Conform suits m) : (fs.walk pass c).2.entries.Conform suits m := by
  induction fs generalizing m c with
  | nil => exact before
  | scalar tag s rest ih =>
    rw [Fields.declared, List.forall_mem_cons] at declared
    have only := Schema.Message.declares_of_mem ids declared.1
    exact ih distinct.2 ids declared.2 (before.insert_scalar only rfl _)
  | nested tag header inner rest ihInner ih =>
    rw [Fields.declared, List.forall_mem_cons] at declared
    have only := Schema.Message.declares_of_mem ids declared.1
    have fields := nodup_ofFields header distinct.2.1
    have listed : ∀ f ∈ inner.declared, f ∈ (ofFields header inner).schema.fields := by
      rw [fields_ofFields]
      exact fun _ mem => mem
    have inside := ihInner distinct.2.1 fields listed (c := pass.start header empty) trivial
    exact ih distinct.2.2 ids declared.2
      (before.insert_record only rfl (any _ _ _ _) ⟨fields, inside⟩)

theorem conforms_capture {m : Message} (distinct : m.fields.Distinct) : m.capture.Conforms := by
  have fields := nodup_ofFields m.header distinct
  have listed : ∀ f ∈ m.fields.declared, f ∈ (ofFields m.header m.fields).schema.fields := by
    rw [fields_ofFields]
    exact fun _ mem => mem
  exact ⟨fields, conform_walk_pass (fun _ _ _ _ => trivial) distinct fields listed
    (c := pass.start m.header empty) trivial⟩

end Capture

end MessageCodec
