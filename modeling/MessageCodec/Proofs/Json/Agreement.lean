import MessageCodec.Proofs.Json.Readable
import MessageCodec.Proofs.Json.Records
import MessageCodec.Proofs.Schema.Unambiguous
import MessageCodec.Proofs.Wire.Records

/-! Building records from JSON against filling them. The decoder that builds a record reads a nested
message as bytes, the text of an object or what a string holds in Base64, and reads those again; the
one that walks over a message takes an object as it is and nothing else. Both give the same record
where the two ways lead to the same members. -/

namespace MessageCodec.Json

open Schema (Catalogue)

variable {c : Catalogue} {m inner : Schema.Message} {f : Schema.Field} {members : Members}

/-- The members that a nested message is filled from. -/
def inside? : Json → Option Members
  | object members => some members
  | _ => none

theorem nestedMembers?_eq (members : Members) (name : String) :
    nestedMembers? members name = (members.find? name).bind inside? := by
  rw [nestedMembers?]
  cases members.find? name with
  | none => rfl
  | some v => cases v <;> rfl

/-- A value that gives a nested message the same members whether it is taken as it is or read as
bytes: an object whose numbers in double precision are read back from their texts, or a string that
is not an object with members in Base64, or anything else. -/
def Transparent : Json → Prop
  | object members => (object members).Reversible
  | string s => membersOfBytes ((Text.Base64.decode? s.toList).getD []) = []
  | _ => True

/-- Members in which all values for nested messages of `m`, at any depth, are transparent. -/
def Members.TransparentIn (c : Catalogue) (m : Schema.Message) (members : Members) : Prop :=
  ∀ v, c.Given Members.find? inside? m members v → v.Transparent

/-- The members that both ways lead to. -/
structure Level (c : Catalogue) (m : Schema.Message) (members members' : Members) : Prop where
  same : members = members'
  readable : Readable maxNesting (.object members')
  transparent : members'.TransparentIn c m

theorem readable_of_find? {name : String} {v : Json} {levels : Nat}
    (readable : Readable (levels + 1) (.object members)) (found : members.find? name = some v) :
    Readable levels v := by
  obtain ⟨front, behind, rfl, -⟩ := List.lookup_eq_some_iff.1 found
  cases readable with
  | object names inner => exact inner (name, v) (by simp)

theorem Level.opened {nested : Members} (level : Level c m members members)
    (holds : c.HoldsIn f m inner) (found : members.find? f.name = some (.object nested)) :
    Level c inner (membersOfBytes (fillScalar members f.name .bytes [])) nested := by
  have readable := (readable_of_find? level.readable found).mono (by decide : _ ≤ maxNesting)
  have bytes : fillScalar members f.name .bytes [] = Utf8.encode (Json.object nested).text := by
    rw [fillScalar, found]
    rfl
  refine ⟨?_, readable, fun v given => level.transparent v (.inside holds found rfl given)⟩
  rw [bytes]
  exact prime_of_plain (readable.plain (level.transparent _ (.here holds found)))

theorem Level.closed (level : Level c m members members) (holds : c.HoldsIn f m inner)
    (closed : nestedMembers? members f.name = none) :
    membersOfBytes (fillScalar members f.name .bytes []) = [] := by
  rw [fillScalar]
  cases found : members.find? f.name with
  | none => rfl
  | some v =>
    have transparent := level.transparent v (.here holds found)
    rw [nestedMembers?_eq, found] at closed
    cases v with
    | object nested => cases closed
    | string s => exact transparent
    | _ => rfl

theorem decoder_rests : decoder.Rests (· = []) where
  prime := rfl
  start _ idle := idle
  scalar tag t v idle := by
    subst idle
    exact ⟨rfl, rfl⟩
  absorb _ idle := idle
  finish idle := idle

theorem decoder_mirrorsIn : decoder.MirrorsIn c (· = []) fun _ => Level c where
  start _ level := level
  scalar tag t v level := by
    obtain rfl := level.same
    exact ⟨rfl, level⟩
  closed holds level _ entered := by
    obtain rfl := level.same
    obtain ⟨rfl, closed⟩ := Prod.mk.inj entered
    exact ⟨level.closed holds closed, fun _ _ => level⟩
  opened holds level _ entered := by
    obtain rfl := level.same
    obtain ⟨rfl, opened⟩ := Prod.mk.inj entered
    rw [nestedMembers?_eq, Option.bind_eq_some_iff] at opened
    obtain ⟨v, found, inside⟩ := opened
    cases v with
    | object nested =>
      cases inside
      exact ⟨level.opened holds found, fun _ _ _ => level⟩
    | _ => cases inside
  finish level := level

/-- What is read from a text is readable, so its members belong to themselves. -/
theorem level_membersOfBytes {bs : Bytes} (transparent : (membersOfBytes bs).TransparentIn c m) :
    Level c m (membersOfBytes bs) (membersOfBytes bs) := by
  refine ⟨rfl, ?_, transparent⟩
  have empty : Readable maxNesting (.object []) :=
    .object List.nodup_nil fun member mem => absurd mem List.not_mem_nil
  rw [membersOfBytes]
  cases Utf8.decode? bs with
  | none => exact empty
  | some s =>
    change Readable maxNesting (.object (membersOfText s))
    rw [membersOfText]
    cases read : parse? s.toList with
    | none => exact empty
    | some j =>
      cases j with
      | object members => exact readable_of_parse? read
      | _ => exact empty

/-- No value fits a field: none of its type, or no object for a nested message. -/
def Members.Misses (members : Members) (f : Schema.Field) : Prop :=
  match f.type with
  | .undefined => True
  | .scalar t => (members.find? f.name).bind (fit? t) = none
  | .message => nestedMembers? members f.name = none

open Record in
theorem snd_walkField (members : Members) (f : Schema.Field) (entries : Entries) :
    (walkField decoder.toPass (walk decoder.toPass) (entries, members) f).2 = members := by
  cases held : entries.get? f.id with
  | none => rw [walkField_of_absent held]
  | some v =>
    rw [walkField_of_held held]
    cases v with
    | scalar s => rfl
    | record r =>
      rcases entered : decoder.enter f.tag members with ⟨around, _ | opened⟩
      · rw [Value.walk, Pass.descend_of_closed entered]
        exact (Prod.mk.inj entered).1.symm
      · rw [Value.walk, Pass.descend_of_opened entered]
        exact (Prod.mk.inj entered).1.symm

open Record in
theorem value?_walk_of_misses (ids : (m.fields.map (·.id)).Nodup) (mem : f ∈ m.fields)
    (misses : members.Misses f) :
    ((ofSchema m c).walk decoder.toPass members).1.value? f.id = (ofSchema m c).value? f.id := by
  have default : (ofSchema m c).value? f.id = default? c [m.longName] m.package f :=
    get?_addDefaults_of_mem ids mem rfl
  rw [walk_eq, default]
  refine get?_walkFields_of_steady (fun g _ entries => snd_walkField members g entries) ids mem
    (fun entries held => ?_) default
  cases given : default? c [m.longName] m.package f with
  | none => rw [walkField_of_absent (held.trans given), held, given]
  | some v =>
    have kept : (v.walk decoder.toPass (walk decoder.toPass) f.tag members).1 = v := by
      rw [default?] at given
      rw [Members.Misses] at misses
      cases type : f.type with
      | undefined =>
        rw [type] at given
        cases given
      | scalar t =>
        rw [type] at given misses
        cases given
        have filled : fillScalar members f.name t t.zero = t.zero := by
          rw [fillScalar, misses]
          rfl
        exact congrArg (fun v => Value.scalar ⟨t, v⟩) filled
      | message =>
        rw [type] at given misses
        obtain ⟨inner, -, given⟩ := Option.bind_eq_some_iff.1 given
        split at given
        · cases given
        · cases given
          have entered : decoder.enter f.tag members = (members, none) :=
            congrArg (members, ·) misses
          rw [Value.walk, Pass.descend_of_closed entered]
    rw [walkField_of_held (held.trans given), kept, Entries.get?_insert_self]

/-- For a message of an accepted specification whose types do not contain themselves and nest at
most 64 levels, building a record from JSON gives the record that filling the default one does, if
every object for a nested message has numbers in double precision that are read back from their
texts and no string for one is an object with members in Base64. Fields that no value fits keep
their defaults. -/
theorem decode_eq_walk_of_transparent {text : String} (accepted : Schema.parse text = .ok c)
    (mem : m ∈ c) (nests : c.NestsWithin maxLevels m) (bs : Bytes)
    (transparent : (membersOfBytes bs).TransparentIn c m) :
    (Record.decode decoder m c bs).1 =
        ((Record.ofSchema m c).walk decoder.toPass (decoder.prime bs)).1 ∧
      ∀ f ∈ m.fields, (membersOfBytes bs).Misses f →
        (Record.decode decoder m c bs).1.value? f.id = (Record.ofSchema m c).value? f.id := by
  have clean := Schema.unambiguous_of_parse accepted
  have agree : (Record.decode decoder m c bs).1 =
      ((Record.ofSchema m c).walk decoder.toPass (decoder.prime bs)).1 :=
    (Record.ofDecoder_eq_walk_of_mirrorsIn decoder_rests decoder_mirrorsIn clean.names
      clean.fieldIds mem nests (level_membersOfBytes transparent)).1
  refine ⟨agree, fun f declared misses => ?_⟩
  rw [agree]
  exact value?_walk_of_misses (clean.fieldIds m mem) declared misses

def oneMember (name : String) (v : Json) : Bytes := Utf8.encode (Json.object [(name, v)]).text

theorem plain_oneMember {levels : Nat} {v : Json} (name : String) (plain : Plain levels v) :
    Plain (levels + 1) (.object [(name, v)]) :=
  .object (List.nodup_singleton name) (List.forall_mem_singleton.2 plain)

theorem prime_oneMember {v : Json} (name : String) (plain : Plain 126 v) :
    decoder.prime (oneMember name v) = [(name, v)] :=
  prime_of_plain (plain_oneMember name plain)

def twoAndAHalf : Json := .object [("v", .number (.double 0x4004000000000000))]

theorem reversible_twoAndAHalf : twoAndAHalf.Reversible := by
  intro bits inside
  cases inside with
  | member mem inner =>
    obtain rfl := List.mem_singleton.1 mem
    cases inner
    decide +kernel

/-- A number with a fraction in a nested message. -/
theorem decode_eq_walk_twoAndAHalf :
    Schema.parse Wire.nestedText = .ok [Wire.nestedInner, Wire.nestedOuter] ∧
      Wire.nestedOuter ∈ [Wire.nestedInner, Wire.nestedOuter] ∧
      Catalogue.NestsWithin [Wire.nestedInner, Wire.nestedOuter] maxLevels Wire.nestedOuter ∧
      (membersOfBytes (oneMember "n" twoAndAHalf)).TransparentIn
        [Wire.nestedInner, Wire.nestedOuter] Wire.nestedOuter ∧
      (Record.decode decoder Wire.nestedOuter [Wire.nestedInner, Wire.nestedOuter]
          (oneMember "n" twoAndAHalf)).1 =
        ((Record.ofSchema Wire.nestedOuter [Wire.nestedInner, Wire.nestedOuter]).walk
          decoder.toPass (decoder.prime (oneMember "n" twoAndAHalf))).1 := by
  have mem : Wire.nestedOuter ∈ [Wire.nestedInner, Wire.nestedOuter] := by simp
  have plain : Plain 126 twoAndAHalf := plain_oneMember "v" (.number (by decide +kernel))
  have primed : membersOfBytes (oneMember "n" twoAndAHalf) = [("n", twoAndAHalf)] :=
    prime_oneMember "n" plain
  have transparent : (membersOfBytes (oneMember "n" twoAndAHalf)).TransparentIn
      [Wire.nestedInner, Wire.nestedOuter] Wire.nestedOuter := by
    rw [primed]
    intro v given
    cases given with
    | here holds found =>
      obtain ⟨rfl, rfl⟩ := Wire.holdsIn_nestedOuter holds
      obtain rfl : twoAndAHalf = v := Option.some.inj found
      exact reversible_twoAndAHalf
    | inside holds found opens given =>
      obtain ⟨rfl, rfl⟩ := Wire.holdsIn_nestedOuter holds
      cases given with
      | here holds | inside holds => exact absurd holds Wire.not_holdsIn_nestedInner
  exact ⟨Wire.parse_nestedText, mem, Wire.nestsWithin_nestedOuter, transparent,
    (decode_eq_walk_of_transparent Wire.parse_nestedText mem Wire.nestsWithin_nestedOuter _
      transparent).1⟩

/-- A string for a nested message that is an object with a member in Base64. -/
def packedFive : Json :=
  .string (String.ofList (Text.Base64.encode (oneMember "v" (.number (.integer 5)))))

theorem decoded?_packedFive : (Record.decoded? decoder [Wire.nestedInner, Wire.nestedOuter]
    ["Outer"] "" ⟨.message, "Inner", "n", 3, none⟩ [("n", packedFive)]).1 =
      some (.record ⟨Wire.nestedInner, [Wire.nestedInner, Wire.nestedOuter],
        .scalar 1 ⟨.int .w32, 5⟩ .nil⟩) := by
  have fresh : Wire.nestedInner.longName ∉ ["Outer"] := by decide
  have found : Members.find? [("n", packedFive)] "n" = some packedFive := List.lookup_cons_self ..
  have bytes : fillScalar [("n", packedFive)] "n" .bytes [] =
      oneMember "v" (.number (.integer 5)) := by
    rw [fillScalar, found, Option.bind_some, packedFive, fit?, String.toList_ofList,
      Text.Base64.decode?_encode, Option.getD_some]
  have primed : membersOfBytes (fillScalar [("n", packedFive)] "n" .bytes []) =
      [("v", .number (.integer 5))] := by
    rw [bytes]
    exact prime_oneMember "v" (.integer (i := 5) (by decide) (by decide))
  have inner : (Record.addDecoded decoder [Wire.nestedInner, Wire.nestedOuter] ["Inner", "Outer"] ""
      Wire.nestedInner.fields .nil [("v", .number (.integer 5))]).1 =
        .scalar 1 ⟨.int .w32, 5⟩ .nil := by
    rw [Wire.nestedInner, Record.addDecoded_cons, Record.addDecoded_nil]
    rfl
  rw [Record.decoded?]
  dsimp only
  rw [Wire.resolve?_nestedInner]
  dsimp only
  rw [Record.decodedInner?_of_fresh fresh (by decide), ← inner, ← primed]
  rfl

/-- An object with a member in Base64 is built into a nested message and not filled into one. -/
theorem decode_ne_walk_packedFive :
    Schema.parse Wire.nestedText = .ok [Wire.nestedInner, Wire.nestedOuter] ∧
      Wire.nestedOuter ∈ [Wire.nestedInner, Wire.nestedOuter] ∧
      Catalogue.NestsWithin [Wire.nestedInner, Wire.nestedOuter] maxLevels Wire.nestedOuter ∧
      (Record.decode decoder Wire.nestedOuter [Wire.nestedInner, Wire.nestedOuter]
          (oneMember "n" packedFive)).1 ≠
        ((Record.ofSchema Wire.nestedOuter [Wire.nestedInner, Wire.nestedOuter]).walk
          decoder.toPass (decoder.prime (oneMember "n" packedFive))).1 := by
  have mem : Wire.nestedOuter ∈ [Wire.nestedInner, Wire.nestedOuter] := by simp
  refine ⟨Wire.parse_nestedText, mem, Wire.nestsWithin_nestedOuter, fun same => ?_⟩
  have clean := Schema.unambiguous_of_parse Wire.parse_nestedText
  have members : decoder.prime (oneMember "n" packedFive) = [("n", packedFive)] :=
    prime_oneMember "n" (.string _)
  have kept : ((Record.ofSchema Wire.nestedOuter [Wire.nestedInner, Wire.nestedOuter]).walk
      decoder.toPass [("n", packedFive)]).1.value? 3 =
        (Record.ofSchema Wire.nestedOuter [Wire.nestedInner, Wire.nestedOuter]).value? 3 :=
    value?_walk_of_misses (f := ⟨.message, "Inner", "n", 3, none⟩)
      (clean.fieldIds Wire.nestedOuter mem) (List.mem_cons_self ..) rfl
  have built : (Record.decode decoder Wire.nestedOuter [Wire.nestedInner, Wire.nestedOuter]
      (oneMember "n" packedFive)).1.value? 3 = some (.record ⟨Wire.nestedInner,
        [Wire.nestedInner, Wire.nestedOuter], .scalar 1 ⟨.int .w32, 5⟩ .nil⟩) := by
    have first : (Record.decode decoder Wire.nestedOuter [Wire.nestedInner, Wire.nestedOuter]
        (oneMember "n" packedFive)).1.entries = (Record.addDecoded decoder
          [Wire.nestedInner, Wire.nestedOuter] ["Outer"] "" Wire.nestedOuter.fields .nil
          (decoder.prime (oneMember "n" packedFive))).1 := rfl
    have fields : Wire.nestedOuter.fields = [⟨.message, "Inner", "n", 3, none⟩,
        ⟨.scalar .string, "string", "s", 1, none⟩] := rfl
    rw [Record.value?, first, members, fields, Record.addDecoded_cons,
      Record.get?_addDecoded_of_ne (by decide), decoded?_packedFive]
    have empty : Entries.get? .nil 3 = none := rfl
    exact Entries.get?_put_self empty _
  have default : (Record.ofSchema Wire.nestedOuter [Wire.nestedInner, Wire.nestedOuter]).value? 3 =
      some (.record ⟨Wire.nestedInner, [Wire.nestedInner, Wire.nestedOuter],
        .scalar 1 ⟨.int .w32, 0⟩ .nil⟩) :=
    (Record.get?_addDefaults_of_mem (f := ⟨.message, "Inner", "n", 3, none⟩)
      (clean.fieldIds Wire.nestedOuter mem) (List.mem_cons_self ..) rfl).trans
        Wire.default?_nestedInner
  rw [same, members, kept, default] at built
  simp only [Option.some.injEq, Value.record.injEq, Record.mk.injEq, Entries.scalar.injEq,
    Scalar.mk.injEq] at built
  exact absurd (eq_of_heq built.2.2.2.1.2) (by decide)

end MessageCodec.Json
