import MessageCodec.Proofs.Record.Run
import MessageCodec.Proofs.Wire.Normal

/-! Records whose nested records are of the messages that their fields name, written and read back
under their own schemas. Everything such a record leaves in its binary form is found and kept, so
nothing is passed over. A field takes nested records of other messages, too; what these leave is not
always kept. -/

namespace MessageCodec

open Schema (Catalogue Suiting)
open Record (Action MadeFrom Reached decoded?_of_resolved decoded?_of_scalar)

/-- A record in a field is of the message that the label of the field stands for. -/
def Schema.Catalogue.Suits (c : Catalogue) : Suiting := fun m f inner visible =>
  c.resolve? f.label m.package = some inner ∧ visible = c

namespace Wire

open Decoding

def Payload.ofValue? (v : Value) : Option Payload := ofContent? v.content

/-- The payloads that the entries of a record leave in the binary form. -/
def written (m : Schema.Message) (entries : Entries) : Table :=
  .gather (fun f => (entries.get? f.id).bind Payload.ofValue?) m.fields

theorem table_view (r : Record) : r.view.fields.table = written r.schema r.entries := by
  refine (table_arrange _ _).trans (Table.gather_congr fun f _ => ?_)
  rw [Entries.content?_eq]
  cases r.entries.get? f.id <;> rfl

theorem ofValue?_record (r : Record) :
    Payload.ofValue? (.record r) = (written r.schema r.entries).payload? :=
  congrArg Table.payload? (table_view r)

theorem bytes_walk_pass {r : Record} (distinct : r.Distinct) :
    (r.walk Encoding.pass .empty).2.bytes = (written r.schema r.entries).bytes := by
  have walked := congrArg Prod.snd (Record.walk_view Encoding.pass distinct .empty)
  rw [← table_view, ← walked]
  exact encode_eq r.view

variable {c : Catalogue} {path : List String} {m : Schema.Message} {f : Schema.Field}
variable {package : String} {d : Decoding} {entries : Entries}

theorem kept?_of_absent (ids : ∀ m ∈ c, (m.fields.map (·.id)).Nodup)
    (absent : d.table.find? f.id = none) : kept? c path package d f = none := by
  cases kept : kept? c path package d f with
  | none => rfl
  | some q =>
    obtain ⟨p, found, -⟩ := (fieldSettles ids path package f).shortens d q kept
    cases absent.symm.trans found

section Scalars

variable {t : ScalarType}

theorem kept?_of_zero (type : f.type = .scalar t) (zero : (d.scalar f.id t t.zero).1 = t.zero) :
    kept? c path package d f = none := by
  rw [kept?_of_scalar (decoded?_of_scalar type), zero, Payload.ofField?_zero]

end Scalars

theorem kept?_of_found_scalar {s : Scalar} (type : f.type = .scalar s.type)
    (found : d.table.find? f.id = Payload.ofField? s) :
    kept? c path package d f = Payload.ofField? s := by
  obtain ⟨value, -⟩ := scalar_of_find? s.type.zero found
  rw [kept?_of_scalar (decoded?_of_scalar type), value, Payload.ofField?_carried]

/-- A field that finds the payload of a record keeps it if a record of its message would. -/
theorem kept?_of_found_record {inner : Schema.Message} {table : Table}
    (ids : (inner.fields.map (·.id)).Nodup) (type : f.type = .message)
    (resolved : c.resolve? f.label package = some inner)
    (found : d.table.find? f.id = table.payload?) (shallow : path.length < maxLevels)
    (same : kept c (inner.longName :: path) inner table.bytes = table) :
    kept? c path package d f = table.payload? := by
  rw [Table.payload?_eq_ofField?] at found
  obtain ⟨value, -⟩ := scalar_of_find? [] found
  rw [Payload.carried_bytes] at value
  have given : (d.scalar f.id .bytes []).1 = table.bytes := value
  rw [kept?_of_message ids (decoded?_of_resolved type resolved), given, keptInner]
  split
  · rw [same]
  · rename_i closed
    have nothing : table = [] := by
      by_contra filled
      exact closed ⟨shallow, fun _ => mt Table.bytes_eq_nil.1 filled⟩
    rw [nothing]

/-- A nested binary form that is found was short enough for its length to be written. -/
theorem length_of_found {bs : Bytes} {id : UInt32} {table : Table}
    (found : (ofBytes 0 bs).table.find? id = table.payload?) :
    table.bytes.length < UInt64.size := by
  cases empty : table.isEmpty with
  | true =>
    have nothing : table.bytes = [] := Table.bytes_eq_nil.2 (List.isEmpty_iff.1 empty)
    rw [nothing]
    decide
  | false =>
    rw [Table.payload?, empty] at found
    exact fits_of_find? found

/-- What the entries of a record leave is kept, at most 64 levels down. -/
theorem kept_written (ids : ∀ m ∈ c, (m.fields.map (·.id)).Nodup) (mem : m ∈ c)
    (conform : entries.Conform c.Suits m) (shallow : path.length + entries.levels ≤ maxLevels)
    (fits : (written m entries).bytes.length < UInt64.size) :
    kept c path m (written m entries).bytes = written m entries := by
  induction levels : entries.levels using Nat.strongRecOn generalizing path m entries with
  | ind n ih =>
    subst levels
    have start : ofBytes 0 (written m entries).bytes = ⟨written m entries, [], .none, 0⟩ :=
      ofBytes_bytes 0 (Table.nodup_gather (ids m mem)) fits
    refine Table.gather_congr fun f declared => ?_
    have found : (ofBytes 0 (written m entries).bytes).table.find? f.id =
        (entries.get? f.id).bind Payload.ofValue? := by
      rw [start]
      exact Table.find?_gather (ids m mem) f declared
    cases held : entries.get? f.id with
    | none =>
      rw [held] at found
      exact kept?_of_absent ids found
    | some v =>
      rw [held, Option.bind_some] at found
      rw [Option.bind_some]
      obtain ⟨⟨g, only, type, suited⟩, conforms⟩ := conform.of_get? held
      have own := Schema.Message.declares_of_mem (ids m mem) declared
      obtain rfl : g = f := List.singleton_inj.1 (only.symm.trans own)
      cases v with
      | scalar s => exact kept?_of_found_scalar type found
      | record r =>
        obtain ⟨resolved, -⟩ := suited r rfl
        have memInner := Schema.Catalogue.mem_of_resolve? resolved
        have deeper := Entries.levels_le_of_get? held
        rw [ofValue?_record] at found ⊢
        have levels : r.entries.levels + 1 ≤ entries.levels := deeper
        have around : path.length < maxLevels := by omega
        have within : (r.schema.longName :: path).length + r.entries.levels ≤ maxLevels := by
          rw [List.length_cons]
          omega
        have same := ih r.entries.levels levels memInner conforms.2 within
          (length_of_found found) rfl
        exact kept?_of_found_record (ids _ memInner) type resolved found around same

end Wire

namespace Record

variable {c : Catalogue} {r : Record}

theorem schema_after (r : Record) (a : Action) :
    (r.after a).schema = r.schema ∧ (r.after a).catalogue = r.catalogue := by
  obtain ⟨σ, p, s, walked⟩ | ⟨id, v, f, -, -, -, stored⟩ | ⟨e, failed⟩ := run_cases r a
  · have follows := follows_walk (fun _ _ _ _ => True) p r s
    rw [after_of_run_ok walked]
    exact ⟨follows.schema, follows.catalogue⟩
  · rw [after_of_run_ok stored]
    exact ⟨rfl, rfl⟩
  · rw [after_of_run_error failed]
    exact ⟨rfl, rfl⟩

theorem conforms_of_reached_suits (ids : ∀ m ∈ c, (m.fields.map (·.id)).Nodup)
    (reached : Reached (MadeFrom c c) c.Suits r) : r.ConformsWith c.Suits :=
  reached.conforms fun _ =>
    conforms_of_madeFrom ids (fun _ mem => mem) fun ⟨_, _, resolved⟩ => ⟨resolved, rfl⟩

theorem schema_mem_of_reached (ids : ∀ m ∈ c, (m.fields.map (·.id)).Nodup)
    (reached : Reached (MadeFrom c c) c.Suits r) : r.schema ∈ c ∧ r.catalogue = c := by
  induction reached with
  | first made =>
    cases made with
    | default mem => exact ⟨mem, rfl⟩
    | decoded mem d s => exact ⟨mem, rfl⟩
  | nested reached held =>
    obtain ⟨⟨f, -, -, suited⟩, -⟩ := (conforms_of_reached_suits ids reached).2.of_get? held
    obtain ⟨resolved, same⟩ := suited _ rfl
    exact ⟨Schema.Catalogue.mem_of_resolve? resolved, same⟩
  | after reached given suited ih =>
    rw [(schema_after _ _).1, (schema_after _ _).2]
    exact ih

end Record

namespace Wire

/-- A record that runs lead to, in which every nested record is of the message that the label of
its field stands for, is decodable under its own schema: reading its binary form passes nothing over
and writing what was read gives the same bytes. A decoder goes down 64 levels, and a length prefix
has 64 bits. -/
theorem decode_stored {text : String} {c : Catalogue} (accepted : Schema.parse text = .ok c)
    {r : Record} (reached : Reached (MadeFrom c c) c.Suits r)
    (levels : r.entries.levels + 1 ≤ maxLevels)
    (fits : (r.walk Encoding.pass .empty).2.bytes.length < UInt64.size) :
    let bs := (r.walk Encoding.pass .empty).2.bytes
    let again := Record.decode decoder r.schema r.catalogue bs
    again.2.diagnostics.isClean ∧ (again.1.walk Encoding.pass .empty).2.bytes = bs := by
  have ids := (Schema.unambiguous_of_parse accepted).fieldIds
  have conforms := Record.conforms_of_reached_suits ids reached
  obtain ⟨mem, visible⟩ := Record.schema_mem_of_reached ids reached
  have form := bytes_walk_pass conforms.distinct
  have shallow : [r.schema.longName].length + r.entries.levels ≤ maxLevels := by
    rwa [List.length_singleton, Nat.add_comm]
  rw [form] at fits
  have same := kept_written ids mem conforms.2 shallow fits
  have clean := (settles ids mem [r.schema.longName]).clean (written r.schema r.entries).bytes
  rw [same] at clean
  have rewritten := walk_pass_decode ids mem (written r.schema r.entries).bytes
  rw [same] at rewritten
  dsimp only
  rw [form, visible]
  exact ⟨decide_eq_true clean, rewritten⟩

/-- An outer record whose text is `s`, with another record in it. -/
def outerHolding (r : Record) (s : String) : Record :=
  ⟨nestedOuter, [nestedInner, nestedOuter],
    .record 3 r.schema r.catalogue r.entries (.scalar 1 ⟨.string, s⟩ .nil)⟩

def innerHolding (v : BitVec 32) : Record :=
  ⟨nestedInner, [nestedInner, nestedOuter], .scalar 1 ⟨.int .w32, v⟩ .nil⟩

theorem ofSchema_nestedInner :
    Record.ofSchema nestedInner [nestedInner, nestedOuter] = innerHolding 0 := by
  have fields : nestedInner.fields = [⟨.scalar (.int .w32), "int32", "v", 1, none⟩] := rfl
  rw [Record.ofSchema, fields, Record.addDefaults_cons, Record.addDefaults_nil]
  rfl

theorem ofSchema_nestedOuter :
    Record.ofSchema nestedOuter [nestedInner, nestedOuter] = outerHolding (innerHolding 0) "" := by
  have fields : nestedOuter.fields = [⟨.message, "Inner", "n", 3, none⟩,
      ⟨.scalar .string, "string", "s", 1, none⟩] := rfl
  have inner : Record.default? [nestedInner, nestedOuter] [nestedOuter.longName]
      nestedOuter.package ⟨.message, "Inner", "n", 3, none⟩ = some (.record (innerHolding 0)) :=
    default?_nestedInner
  rw [Record.ofSchema, fields, Record.addDefaults_cons, inner, Record.addDefaults_cons,
    Record.addDefaults_nil]
  rfl

/-- A default record whose nested record is replaced by one that holds a 5. -/
def pairOfFive : Record :=
  (Record.ofSchema nestedOuter [nestedInner, nestedOuter]).after (.set "n" (.record
    ((Record.ofSchema nestedInner [nestedInner, nestedOuter]).after
      (.set "v" (.scalar ⟨.int .w32, 5⟩)))))

theorem pairOfFive_eq : pairOfFive = outerHolding (innerHolding 5) "" := by
  rw [pairOfFive, ofSchema_nestedOuter, ofSchema_nestedInner]
  rfl

theorem reached_pairOfFive :
    Reached (MadeFrom [nestedInner, nestedOuter] [nestedInner, nestedOuter])
      (Catalogue.Suits [nestedInner, nestedOuter]) pairOfFive := by
  refine .after (.first (.default (.tail _ (.head _)))) ?_ ?_
  · intro id inner offered
    cases (Action.offer?_set offered).1
    refine .after (.first (.default (.head _))) ?_ ?_
    · intro id inner offered
      cases (Action.offer?_set offered).1
    · intro id inner offered
      cases (Action.offer?_set offered).1
  · intro id inner offered f declared same
    obtain ⟨own, g, named, rfl⟩ := Action.offer?_set offered
    cases own
    obtain rfl : ⟨.message, "Inner", "n", 3, none⟩ = g := Option.some.inj named
    obtain rfl | rfl : f = ⟨.message, "Inner", "n", 3, none⟩ ∨
        f = ⟨.scalar .string, "string", "s", 1, none⟩ :=
      (List.mem_cons.1 declared).imp_right List.mem_singleton.1
    · exact ⟨resolve?_nestedInner, rfl⟩
    · exact absurd same (by decide)

theorem bytes_pairOfFive :
    (pairOfFive.walk Encoding.pass .empty).2.bytes = [0x1A, 0x02, 0x08, 0x0A] := by
  rw [pairOfFive_eq]
  decide +kernel

theorem decode_stored_pairOfFive :
    Schema.parse nestedText = .ok [nestedInner, nestedOuter] ∧
      Reached (MadeFrom [nestedInner, nestedOuter] [nestedInner, nestedOuter])
        (Catalogue.Suits [nestedInner, nestedOuter]) pairOfFive ∧
      pairOfFive.entries.levels + 1 ≤ maxLevels ∧
      (pairOfFive.walk Encoding.pass .empty).2.bytes.length < UInt64.size ∧
      let again := Record.decode decoder pairOfFive.schema pairOfFive.catalogue
        [0x1A, 0x02, 0x08, 0x0A]
      again.2.diagnostics.isClean ∧
        (again.1.walk Encoding.pass .empty).2.bytes = [0x1A, 0x02, 0x08, 0x0A] := by
  have levels : pairOfFive.entries.levels + 1 ≤ maxLevels := by
    rw [pairOfFive_eq]
    decide
  have fits : (pairOfFive.walk Encoding.pass .empty).2.bytes.length < UInt64.size := by
    rw [bytes_pairOfFive]
    decide
  have stored := decode_stored parse_nestedText reached_pairOfFive levels fits
  rw [bytes_pairOfFive] at stored
  exact ⟨parse_nestedText, reached_pairOfFive, levels, fits, stored⟩

/-- The text of an outer record is no number for an inner one, so nothing of it is kept. -/
theorem kept_stray :
    kept [nestedInner, nestedOuter] ["Outer"] nestedOuter [0x1A, 0x04, 0x0A, 0x02, 0x68, 0x69] =
      [] := by
  have number : kept? [nestedInner, nestedOuter] ["Inner", "Outer"] ""
      (.ofBytes 0 [0x0A, 0x02, 0x68, 0x69])
      ⟨.scalar (.int .w32), "int32", "v", 1, none⟩ = none :=
    kept?_of_zero rfl (by decide +kernel)
  have inner : kept [nestedInner, nestedOuter] ["Inner", "Outer"] nestedInner
      [0x0A, 0x02, 0x68, 0x69] = [] :=
    congrArg (Table.front 1 · []) number
  have bytes : ((Decoding.ofBytes 0 [0x1A, 0x04, 0x0A, 0x02, 0x68, 0x69]).scalar 3 .bytes []).1 =
      [0x0A, 0x02, 0x68, 0x69] := by decide +kernel
  have nested : kept? [nestedInner, nestedOuter] ["Outer"] ""
      (.ofBytes 0 [0x1A, 0x04, 0x0A, 0x02, 0x68, 0x69]) ⟨.message, "Inner", "n", 3, none⟩ =
        none := by
    have ids : (nestedInner.fields.map (·.id)).Nodup := by decide
    have builds : Builds ["Outer"] nestedInner [0x0A, 0x02, 0x68, 0x69] := by decide
    rw [kept?_of_message ids (decoded?_of_resolved rfl resolve?_nestedInner), bytes, keptInner,
      if_pos builds]
    exact congrArg Table.payload? inner
  have text : kept? [nestedInner, nestedOuter] ["Outer"] ""
      (.ofBytes 0 [0x1A, 0x04, 0x0A, 0x02, 0x68, 0x69])
      ⟨.scalar .string, "string", "s", 1, none⟩ = none :=
    kept?_of_zero rfl (by decide +kernel)
  exact congrArg₂ (fun n s => Table.front 3 n (.front 1 s [])) nested text

/-- An outer record can be put where an inner one is declared. What it leaves there is read as an
inner one, and nothing of it comes back. -/
theorem decode_stray :
    Schema.parse nestedText = .ok [nestedInner, nestedOuter] ∧
      ∃ named stray : Record,
        Record.set "s" (.scalar ⟨.string, "hi"⟩)
          (.ofSchema nestedOuter [nestedInner, nestedOuter]) = .ok () named ∧
        Record.set "n" (.record named)
          (.ofSchema nestedOuter [nestedInner, nestedOuter]) = .ok () stray ∧
        let bs := (stray.walk Encoding.pass .empty).2.bytes
        let again := Record.decode decoder stray.schema stray.catalogue bs
        bs = [0x1A, 0x04, 0x0A, 0x02, 0x68, 0x69] ∧
          (again.1.walk Encoding.pass .empty).2.bytes = [] := by
  have ids := (Schema.unambiguous_of_parse parse_nestedText).fieldIds
  have mem : nestedOuter ∈ [nestedInner, nestedOuter] := .tail _ (.head _)
  have bytes : ((outerHolding (outerHolding (innerHolding 0) "hi") "").walk
      Encoding.pass .empty).2.bytes = [0x1A, 0x04, 0x0A, 0x02, 0x68, 0x69] := by decide +kernel
  rw [ofSchema_nestedOuter]
  refine ⟨parse_nestedText, outerHolding (innerHolding 0) "hi",
    outerHolding (outerHolding (innerHolding 0) "hi") "", rfl, rfl, bytes, ?_⟩
  rw [bytes]
  refine (walk_pass_decode ids mem _).trans ?_
  exact congrArg Table.bytes kept_stray

end Wire

end MessageCodec
