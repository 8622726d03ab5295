import MessageCodec.Proofs.Record.Paths
import MessageCodec.Proofs.Wire.Levels

/-! What a decoder leaves in each field of a message, at any depth. The bytes have a payload for a
field at the end of the same path of identifiers, which leads through the bytes of nested messages.
A scalar takes a payload that fits and keeps its value otherwise; the fields with a payload that
does not fit are counted. Nothing is found more than 64 levels down. -/

namespace MessageCodec

open Schema (FieldType)

/-- The fields at every depth: the path of identifiers to each of them, and its type. -/
def Fields.layout : Fields → List (List UInt32 × FieldType)
  | nil => []
  | scalar tag s rest => ([tag.id], .scalar s.type) :: rest.layout
  | nested tag _ inner rest =>
    ([tag.id], .message) ::
      (inner.layout.map (fun (path, type) => (tag.id :: path, type)) ++ rest.layout)

theorem Fields.path_ne_nil {fs : Fields} {field : List UInt32 × FieldType}
    (mem : field ∈ fs.layout) : field.1 ≠ [] := by
  induction fs with
  | nil => cases mem
  | scalar tag s rest ih =>
    obtain rfl | mem := List.mem_cons.1 mem
    · exact List.cons_ne_nil _ _
    · exact ih mem
  | nested tag header inner rest _ ih =>
    rw [layout, List.mem_cons, List.mem_append, List.mem_map] at mem
    obtain rfl | ⟨field, -, rfl⟩ | mem := mem
    · exact List.cons_ne_nil _ _
    · exact List.cons_ne_nil _ _
    · exact ih mem

namespace Wire

/-- The payload inside another one at the end of a path. All but the last of the identifiers are
those of nested messages. -/
def Payload.at? : Payload → List UInt32 → Option Payload
  | p, [] => some p
  | delimited bs, i :: path => ((Decoding.ofBytes 0 bs).table.find? i).bind (·.at? path)
  | _, _ => none

/-- The payload that the bytes of a message have at the end of a path. -/
def found? (bs : Bytes) (path : List UInt32) : Option Payload := (Payload.delimited bs).at? path

/-- The same with so many messages around, if that is not too deep. -/
def reached? (depth : Nat) (bs : Bytes) (path : List UInt32) : Option Payload :=
  if depth + path.length ≤ maxLevels then found? bs path else none

def accepts : FieldType → Payload → Bool
  | .scalar t, p => (fit? t p).isSome
  | .message, .delimited _ => true
  | _, _ => false

/-- Is there a payload that the field does not take? -/
def isMisfit (depth : Nat) (bs : Bytes) (field : List UInt32 × FieldType) : Bool :=
  (reached? depth bs field.1).any fun p => !accepts field.2 p

/-- The scalar with the value of the payload in place of its own, if that fits. -/
def filled (p? : Option Payload) (s : Scalar) : Scalar :=
  ⟨s.type, (p?.bind (fit? s.type)).getD s.value⟩

theorem filled_none : filled none = id := rfl

theorem reached?_singleton {depth : Nat} (within : depth < maxLevels) (bs : Bytes) (id : UInt32) :
    reached? depth bs [id] = (Decoding.ofBytes 0 bs).table.find? id :=
  (if_pos (c := depth + 1 ≤ maxLevels) within).trans (Option.bind_fun_some _)

namespace Decoding

variable {d d' : Decoding} {depth : Nat} {bs : Bytes} {id : UInt32}

/-- The state holds the first payloads in some bytes, of a message with so many around it. -/
structure Scans (d : Decoding) (depth : Nat) (bs : Bytes) : Prop where
  table : d.table = (ofBytes 0 bs).table
  level : d.depth = depth
  within : depth < maxLevels

theorem scans_ofBytes (within : depth < maxLevels) (bs : Bytes) :
    (ofBytes depth bs).Scans depth bs := ⟨rfl, rfl, within⟩

theorem Scans.after {ids : List UInt32} {told : List Diagnostics} (scans : d.Scans depth bs)
    (fills : Fills d d' ids told) : d'.Scans depth bs :=
  ⟨fills.table.trans scans.table, fills.depth.trans scans.level, scans.within⟩

theorem Scans.find? (scans : d.Scans depth bs) (id : UInt32) :
    d.table.find? id = reached? depth bs [id] := by
  rw [scans.table, reached?_singleton scans.within]

theorem Scans.closed (scans : d.Scans depth bs) (closed : (d.enter id).2 = none) (i : UInt32)
    (path : List UInt32) : reached? depth bs (id :: i :: path) = none := by
  rw [reached?]
  split
  · rename_i near
    have inside : found? bs (id :: i :: path) = (d.table.find? id).bind (·.at? (i :: path)) := by
      rw [scans.table]
      rfl
    rw [snd_enter, scans.level] at closed
    rw [inside]
    cases found : d.table.find? id with
    | none => rfl
    | some p =>
      cases p with
      | delimited next =>
        -- the message lies too deep, and what is in it even deeper
        have limit : maxLevels ≤ depth + 1 := by
          by_contra room
          simp [found, room] at closed
        rw [List.length_cons, List.length_cons] at near
        omega
      | _ => rfl
  · rfl

/-- In a message that is opened, what is found is found one level down. -/
theorem Scans.opened {inner : Decoding} (scans : d.Scans depth bs)
    (opened : (d.enter id).2 = some inner) :
    ∃ next, inner = ofBytes (depth + 1) next ∧ depth + 1 < maxLevels ∧
      ∀ i path, reached? depth bs (id :: i :: path) = reached? (depth + 1) next (i :: path) := by
  rw [snd_enter, scans.level] at opened
  split at opened
  · rename_i next found
    rw [Option.ite_none_left_eq_some, Option.some.injEq] at opened
    refine ⟨next, opened.2.symm, Nat.not_le.1 opened.1, fun i path => ?_⟩
    have inside : found? bs (id :: i :: path) = found? next (i :: path) := by
      rw [scans.table] at found
      rw [found?, Payload.at?, found]
      rfl
    rw [reached?, reached?, inside, List.length_cons, Nat.add_assoc, Nat.add_comm 1]
  · cases opened

theorem mismatched_scalar (scans : d.Scans depth bs) (id : UInt32) (t : ScalarType)
    (v : t.Value) :
    (d.scalar id t v).2.noted.mismatched =
      d.noted.mismatched + if isMisfit depth bs ([id], .scalar t) then 1 else 0 := by
  have asked : (d.ask id).noted = d.noted := (asks_ask d id).noted
  rw [Decoding.scalar, isMisfit, ← scans.find?]
  cases d.table.find? id with
  | none => rfl
  | some p =>
    rw [Option.any_some, accepts]
    dsimp only
    cases fit? t p with
    | none => exact congrArg (·.mismatched + 1) asked
    | some w => exact congrArg (·.mismatched) asked

theorem mismatched_enter (scans : d.Scans depth bs) (id : UInt32) :
    (d.enter id).1.noted.mismatched =
      d.noted.mismatched + if isMisfit depth bs ([id], .message) then 1 else 0 := by
  have asked : (d.ask id).noted = d.noted := (asks_ask d id).noted
  rw [enter, isMisfit, ← scans.find?]
  cases d.table.find? id with
  | none => rfl
  | some p =>
    cases p with
    | delimited next =>
      dsimp only
      split <;> exact congrArg (·.mismatched) asked
    | _ => exact congrArg (·.mismatched + 1) asked

/-- A nested message is left as it is, and nothing is found in it; or it is walked over with its own
bytes, one level down. -/
theorem Scans.descend (scans : d.Scans depth bs) (tag : FieldTag) (inner : Fields) :
    let after := decoder.descend (inner.walk decoder.toPass) tag inner d
    let own := d.noted.mismatched + if isMisfit depth bs ([tag.id], .message) then 1 else 0
    after.2.Scans depth bs ∧
      ((after.1 = inner ∧ after.2.noted.mismatched = own ∧
          ∀ i path, reached? depth bs (tag.id :: i :: path) = none) ∨
        ∃ next, (ofBytes (depth + 1) next).Scans (depth + 1) next ∧
          let inside := inner.walk decoder.toPass (ofBytes (depth + 1) next)
          after.1 = inside.1 ∧ after.2.noted.mismatched = own + inside.2.noted.mismatched ∧
            ∀ i path, reached? depth bs (tag.id :: i :: path) =
              reached? (depth + 1) next (i :: path)) := by
  intro after own
  have first := fills_enter d tag.id
  have noted : (d.enter tag.id).1.noted.mismatched = own := mismatched_enter scans tag.id
  rcases entered : d.enter tag.id with ⟨around, _ | opened⟩
  · rw [entered] at first noted
    have same : after = (inner, around) := Pass.descend_of_closed entered ..
    rw [same]
    exact ⟨scans.after first, .inl ⟨rfl, noted, scans.closed (congrArg Prod.snd entered)⟩⟩
  · rw [entered] at first noted
    obtain ⟨next, rfl, within, inside⟩ := scans.opened (congrArg Prod.snd entered)
    have same : after = _ := Pass.descend_of_opened entered ..
    rw [same]
    refine ⟨scans.after (first.absorb _), .inr ⟨next, scans_ofBytes within next, rfl, ?_, inside⟩⟩
    exact congrArg (· + _) noted

theorem scalarAt?_walk (fs : Fields) (scans : d.Scans depth bs) (i : UInt32) (path : List UInt32) :
    ((fs.walk decoder.toPass d).1.content? i).bind (·.scalarAt? path) =
      ((fs.content? i).bind (·.scalarAt? path)).map (filled (reached? depth bs (i :: path))) := by
  induction fs generalizing d depth bs i path with
  | nil => rfl
  | scalar tag s rest ih =>
    have behind := ih (scans.after (fills_scalar d tag.id s.type s.value)) i path
    rw [walk_scalar, Fields.content?, Fields.content?]
    split
    · rename_i own
      subst own
      cases path with
      | nil =>
        rw [fst_scalar, scans.find?]
        rfl
      | cons j path => rfl
    · exact behind
  | nested tag header inner rest ihInner ih =>
    obtain ⟨after, found⟩ := scans.descend tag inner
    have behind := ih after i path
    rw [walk_nested, Fields.content?, Fields.content?]
    split
    · rename_i own
      subst own
      cases path with
      | nil => rfl
      | cons j path =>
        obtain ⟨kept, -, nothing⟩ | ⟨next, below, walked, -, inside⟩ := found
        · rw [nothing, filled_none, Option.map_id]
          exact congrArg (fun fs => (Fields.content? fs j).bind (·.scalarAt? path)) kept
        · rw [inside]
          refine Eq.trans ?_ (ihInner below j path)
          exact congrArg (fun fs => (Fields.content? fs j).bind (·.scalarAt? path)) walked
    · exact behind

/-- Each field with a payload that it does not take is noted once. -/
theorem mismatched_walk (fs : Fields) (scans : d.Scans depth bs) :
    (fs.walk decoder.toPass d).2.noted.mismatched =
      d.noted.mismatched + fs.layout.countP (isMisfit depth bs) := by
  induction fs generalizing d depth bs with
  | nil => rfl
  | scalar tag s rest ih =>
    have own := mismatched_scalar scans tag.id s.type s.value
    have behind := ih (scans.after (fills_scalar d tag.id s.type s.value))
    rw [walk_scalar, Fields.layout, List.countP_cons, behind, own]
    omega
  | nested tag header inner rest ihInner ih =>
    obtain ⟨after, found⟩ := scans.descend tag inner
    rw [walk_nested, Fields.layout, List.countP_cons, List.countP_append, List.countP_map, ih after]
    obtain ⟨-, noted, nothing⟩ | ⟨next, below, -, noted, inside⟩ := found
    · -- the fields of the nested message have no payloads, so none of them is a misfit
      have zero : inner.layout.countP
          (isMisfit depth bs ∘ fun (path, type) => (tag.id :: path, type)) = 0 := by
        refine List.countP_eq_zero.2 fun field mem => ?_
        obtain ⟨i, path, same⟩ := List.exists_cons_of_ne_nil (Fields.path_ne_nil mem)
        simp [isMisfit, same, nothing]
      rw [noted, zero]
      omega
    · have shifted : inner.layout.countP
          (isMisfit depth bs ∘ fun (path, type) => (tag.id :: path, type)) =
            inner.layout.countP (isMisfit (depth + 1) next) := by
        refine List.countP_congr fun field mem => ?_
        obtain ⟨i, path, same⟩ := List.exists_cons_of_ne_nil (Fields.path_ne_nil mem)
        simp only [Function.comp_apply, isMisfit, same, inside]
      have fresh : (ofBytes (depth + 1) next).noted.mismatched = 0 := rfl
      rw [noted, shifted, ihInner below, fresh]
      omega

end Decoding

/-- Decoding leaves in each scalar field what it finds for it, at every depth. -/
theorem scalarAt?_decodeInto (bs : Bytes) (m : Message) (path : List UInt32) :
    (decoder.decodeInto bs m).1.scalarAt? path =
      (m.scalarAt? path).map (filled (reached? 0 bs path)) := by
  cases path with
  | nil => rfl
  | cons i path =>
    have start : (decoder.prime bs).Scans 0 bs := Decoding.scans_ofBytes (by decide) bs
    exact Decoding.scalarAt?_walk m.fields start i path

/-- The fields with payloads that they do not take are counted, at every depth. -/
theorem mismatched_decodeInto (bs : Bytes) (m : Message) :
    (decoder.decodeInto bs m).2.diagnostics.mismatched =
      m.fields.layout.countP (isMisfit 0 bs) := by
  have start : (decoder.prime bs).Scans 0 bs := Decoding.scans_ofBytes (by decide) bs
  exact (Decoding.mismatched_walk m.fields start).trans (Nat.zero_add _)

end Wire

end MessageCodec
