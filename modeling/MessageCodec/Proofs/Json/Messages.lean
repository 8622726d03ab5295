import MessageCodec.Proofs.Json.Encoder

/-! Messages as JSON text, and back. The object of a message without floating-point fields is
plain, so its text is read back, and what is found in it under the name of a field is the value of
that field. A message with the same names and types takes over every value. -/

namespace MessageCodec

/-- No field is in floating point, at any depth. -/
def Fields.FloatFree : Fields → Prop
  | nil => True
  | scalar _ s rest => (s.type ≠ .float ∧ s.type ≠ .double) ∧ rest.FloatFree
  | nested _ _ inner rest => inner.FloatFree ∧ rest.FloatFree

namespace Json

theorem ofMessage_eq {m : Message} (named : m.fields.DistinctNames) :
    ofMessage [] m = .object m.fields.members :=
  congrArg object (Encoding.walk_pass named rfl named.nodup_names)

/-- Each level of messages is a level of objects. -/
theorem plain_members {fs : Fields} (named : fs.DistinctNames) (free : fs.FloatFree) {levels : Nat}
    (deep : fs.levels ≤ levels) : ∀ member ∈ fs.members, Plain levels member.2 := by
  induction fs generalizing levels with
  | nil => exact fun member mem => absurd mem List.not_mem_nil
  | scalar tag s rest ih =>
    obtain ⟨⟨single, double⟩, free⟩ := free
    have own := plain_ofScalar single double s.value levels
    exact List.forall_mem_cons.2 ⟨own, ih named.2 free deep⟩
  | nested tag header inner rest ihInner ih =>
    obtain ⟨deepInner, deepRest⟩ := Nat.max_le.1 deep
    obtain ⟨levels, rfl⟩ := Nat.exists_eq_add_of_le' (Nat.le_of_add_left_le deepInner)
    have names : (inner.members.map Prod.fst).Nodup := by
      rw [Fields.map_fst_members]
      exact named.2.1.nodup_names
    have inside := ihInner named.2.1 free.1 (Nat.le_of_add_le_add_right deepInner)
    exact List.forall_mem_cons.2 ⟨.object names inside, ih named.2.2 free.2 deepRest⟩

theorem plain_object {fs : Fields} (named : fs.DistinctNames) (free : fs.FloatFree) {levels : Nat}
    (deep : fs.levels < levels) : Plain levels (.object fs.members) := by
  obtain ⟨levels, rfl⟩ := Nat.exists_eq_add_of_lt deep
  refine .object ?_ (plain_members named free (Nat.le_add_right ..))
  rw [Fields.map_fst_members]
  exact named.nodup_names

theorem find?_members {fs : Fields} (named : fs.DistinctNames) :
    ∀ member ∈ fs.members, fs.members.find? member.1 = some member.2 := by
  intro member mem
  refine Members.find?_of_mem ?_ mem
  rw [Fields.map_fst_members]
  exact named.nodup_names

theorem decoder_isSteady : decoder.IsSteady := ⟨fun _ _ => rfl, fun _ _ _ => rfl, fun _ => rfl⟩

/-- The values that are found under the names of fields are given to their namesakes. -/
theorem givenBy_members {fs : Fields} (named : fs.DistinctNames) (free : fs.FloatFree)
    {members : Members} (found : ∀ member ∈ fs.members, members.find? member.1 = some member.2) :
    fs.GivenBy decoder.toPass members := by
  induction fs generalizing members with
  | nil => trivial
  | scalar tag s rest ih =>
    obtain ⟨⟨single, double⟩, free⟩ := free
    rw [Fields.members, List.forall_mem_cons] at found
    refine ⟨fun tag' name v => ?_, ih named.2 free found.2⟩
    change (fillScalar members tag'.name s.type v, members) = _
    rw [fillScalar, ← name, found.1, Option.bind_some, fit?_ofScalar single double]
    rfl
  | nested tag header inner rest ihInner ih =>
    rw [Fields.members, List.forall_mem_cons] at found
    have inside := ihInner named.2.1 free.1 (find?_members named.2.1)
    refine ⟨⟨_, fun tag' name => ?_, inside⟩, ih named.2.2 free.2 found.2⟩
    change (members, nestedMembers? members tag'.name) = _
    rw [nestedMembers?, ← name, found.1]

/-- Reading the JSON text of `a` into a message `b` with the same names and types puts every value
of `a` in place, at every depth; if `b` differs from `a` in nothing but values, it becomes `a`. A
reader goes down to 127 objects in each other, so there are at most as many levels. -/
theorem decodeInto_text {a b : Message} (namesakes : a.fields.Namesakes b.fields)
    (named : a.fields.DistinctNames) (free : a.fields.FloatFree) (levels : a.levels ≤ maxNesting) :
    (decoder.decodeInto (Utf8.encode (ofMessage [] a).text) b).1 =
        ⟨b.header, b.fields.withValues a.fields⟩ ∧
      (b.zeroed = a.zeroed →
        (decoder.decodeInto (Utf8.encode (ofMessage [] a).text) b).1 = a) := by
  have primed : decoder.prime (Utf8.encode (ofMessage [] a).text) = a.fields.members := by
    rw [ofMessage_eq named]
    exact prime_of_plain (plain_object named free levels)
  refine Decoder.decodeInto_of_givenBy decoder_isSteady namesakes ?_
  rw [primed]
  exact givenBy_members named free (find?_members named)

/-- A message with a name that has to be escaped, and another message in it. -/
def sample (c : Char) (i u : BitVec 64) (s : String) (bs : Bytes) : Message :=
  ⟨⟨1, "Outer", "t.Outer"⟩,
    .scalar ⟨1, "char", "\"c\"\n"⟩ ⟨.char, c⟩ <| .scalar ⟨2, "int64", "i"⟩ ⟨.int .w64, i⟩ <|
      .nested ⟨3, "t.Inner", ""⟩ ⟨2, "Inner", "t.Inner"⟩
        (.scalar ⟨1, "uint64", "i"⟩ ⟨.uint .w64, u⟩ <|
          .scalar ⟨2, "string", ""⟩ ⟨.string, s⟩ .nil) <|
      .scalar ⟨4, "bytes", "bs"⟩ ⟨.bytes, bs⟩ .nil⟩

def extremes : Message := sample '\x00' (.intMin 64) (.allOnes 64) "\x01\\𝄞" [0, 255]

/-- Control characters, extreme numbers and any bytes come back, whatever was there. -/
theorem decodeInto_text_extremes :
    extremes.fields.Namesakes (sample 'Ā' 7 5 "kept" []).fields ∧ extremes.fields.DistinctNames ∧
      extremes.fields.FloatFree ∧ extremes.levels ≤ maxNesting ∧
      (sample 'Ā' 7 5 "kept" []).zeroed = extremes.zeroed ∧
      (decoder.decodeInto (Utf8.encode (ofMessage [] extremes).text)
        (sample 'Ā' 7 5 "kept" [])).1 = extremes := by
  have namesakes : extremes.fields.Namesakes (sample 'Ā' 7 5 "kept" []).fields := by
    simp [extremes, sample, Fields.Namesakes]
  have named : extremes.fields.DistinctNames := by
    simp [extremes, sample, Fields.DistinctNames, Fields.names]
  have free : extremes.fields.FloatFree := by simp [extremes, sample, Fields.FloatFree]
  have levels : extremes.levels ≤ maxNesting := by decide
  have same : (sample 'Ā' 7 5 "kept" []).zeroed = extremes.zeroed := rfl
  exact ⟨namesakes, named, free, levels, same,
    (decodeInto_text namesakes named free levels).2 same⟩

end Json

end MessageCodec
