import MessageCodec.Csv
import MessageCodec.Declarations
import MessageCodec.Json.Encoder
import MessageCodec.MessagePack.Encoder
import MessageCodec.Proofs.Record.View
import MessageCodec.Record.Capture
import MessageCodec.Wire.Encoder

/-! Captured messages. The schema of a capture splits the long name of a message and
joins it again, and its fields go through a list of declarations and a map of values.
Nothing is lost on the way, so a capture shows the very message that was captured. -/

namespace MessageCodec

namespace Schema

theorem not_mem_lastSegment (name : String) : '.' ∉ (lastSegment name).toList := by
  intro mem
  rw [lastSegment, String.toList_ofList, List.mem_reverse] at mem
  have other := List.all_eq_true.1 List.all_takeWhile '.' mem
  simp at other

theorem lastSegment_split (name : String) :
    name.toList = (lastSegment name).toList ∨
      ∃ front, name.toList = front ++ '.' :: (lastSegment name).toList := by
  have whole := List.takeWhile_append_dropWhile (p := (· != '.')) (l := name.toList.reverse)
  cases behind : name.toList.reverse.dropWhile (· != '.') with
  | nil =>
    left
    rw [behind, List.append_nil] at whole
    rw [lastSegment, String.toList_ofList, whole, List.reverse_reverse]
  | cons c rest =>
    right
    have stop : c = '.' := by
      have head := List.head?_dropWhile_not (· != '.') name.toList.reverse
      rw [behind] at head
      simpa using head
    refine ⟨rest.reverse, ?_⟩
    rw [behind, stop, ← List.reverse_inj, List.reverse_append, List.reverse_reverse] at whole
    refine whole.symm.trans ?_
    rw [lastSegment, String.toList_ofList, List.reverse_cons, List.append_assoc]
    rfl

theorem lastSegment_of_undotted {name : String} (undotted : '.' ∉ name.toList) :
    lastSegment name = name := by
  rcases lastSegment_split name with whole | ⟨front, split⟩
  · exact (String.toList_inj.1 whole).symm
  · rw [split] at undotted
    simp at undotted

end Schema

/-- Is the short name the last segment of the long one? -/
def Header.Named (h : Header) : Prop := h.shortName = Schema.lastSegment h.longName

/-- In every message of the tree the short name is the last segment of the long one. -/
def Fields.Named : Fields → Prop
  | nil => True
  | scalar _ _ rest => rest.Named
  | nested _ header inner rest => header.Named ∧ inner.Named ∧ rest.Named

def Message.Named (m : Message) : Prop := m.header.Named ∧ m.fields.Named

namespace Capture

theorem schemaOf_of_undotted {h : Header} (undotted : '.' ∉ h.longName.toList) :
    schemaOf h = ⟨"", h.longName, h.id, []⟩ := by
  have ending : ('.' :: h.shortName.toList).isSuffixOf h.longName.toList = false := by
    rw [← Bool.not_eq_true, List.isSuffixOf_iff_suffix]
    intro suffix
    exact undotted (suffix.subset (List.mem_cons_self ..))
  simp [schemaOf, ending]

theorem schemaOf_of_split {h : Header} {front : List Char}
    (split : h.longName.toList = front ++ '.' :: h.shortName.toList) :
    schemaOf h = if front.isEmpty then ⟨"", h.longName, h.id, []⟩
      else ⟨String.ofList front, h.shortName, h.id, []⟩ := by
  have ending : ('.' :: h.shortName.toList).isSuffixOf (front ++ '.' :: h.shortName.toList) := by
    rw [List.isSuffixOf_iff_suffix]
    exact List.suffix_append ..
  have package : (front ++ '.' :: h.shortName.toList).take
      ((front ++ '.' :: h.shortName.toList).length - ('.' :: h.shortName.toList).length) =
        front := by
    rw [List.length_append, Nat.add_sub_cancel, List.take_left]
  simp only [schemaOf, split, ending, package, Bool.true_and]
  cases front.isEmpty <;> rfl

theorem header_schemaOf {h : Header} (named : h.Named) : (schemaOf h).header = h := by
  have whole : Schema.Message.header ⟨"", h.longName, h.id, []⟩ = h := by
    rw [Schema.Message.header, Schema.Message.shortName, ← named]
    rfl
  rcases Schema.lastSegment_split h.longName with undotted | ⟨front, split⟩
  · rw [schemaOf_of_undotted, whole]
    rw [undotted]
    exact Schema.not_mem_lastSegment _
  · rw [← named] at split
    rw [schemaOf_of_split split]
    split
    · exact whole
    · rename_i filled
      have short : Schema.lastSegment h.shortName = h.shortName := by
        rw [named]
        exact Schema.lastSegment_of_undotted (Schema.not_mem_lastSegment _)
      have package : (String.ofList front).isEmpty = false := by
        simpa [String.isEmpty_iff, ← String.toList_inj] using filled
      have long : String.ofList front ++ "." ++ h.shortName = h.longName := by
        rw [← String.toList_inj, split]
        simp
      simp only [Schema.Message.header, Schema.Message.shortName, Schema.Message.longName, package,
        short, long, Bool.false_eq_true, ↓reduceIte]

end Capture

namespace Fields

/-- The declarations that a capture makes of fields. -/
def declared : Fields → List Schema.Field
  | nil => []
  | scalar tag s rest => ⟨.scalar s.type, tag.label, tag.name, tag.id, none⟩ :: rest.declared
  | nested tag _ _ rest => .nested tag.label tag.name tag.id :: rest.declared

theorem ids_declared (fs : Fields) : fs.declared.map (·.id) = fs.ids := by
  induction fs with
  | nil => rfl
  | scalar tag s rest ih => exact congrArg (tag.id :: ·) ih
  | nested tag header inner rest _ ih => exact congrArg (tag.id :: ·) ih

end Fields

namespace Capture

def ofFields (header : Header) (fs : Fields) : Capture := (fs.walk pass (pass.start header empty)).2

theorem capture_eq (m : Message) : m.capture = (ofFields m.header m.fields).record := rfl

/-- Capturing declares the fields in order and leaves the message as it is. -/
theorem walk_pass (fs : Fields) (c : Capture) :
    (fs.walk pass c).1 = fs ∧
      (fs.walk pass c).2.schema = { c.schema with fields := c.schema.fields ++ fs.declared } := by
  induction fs generalizing c with
  | nil =>
    rw [Fields.declared, List.append_nil]
    exact ⟨rfl, rfl⟩
  | scalar tag s rest ih =>
    obtain ⟨same, schema⟩ := ih (pass.scalar tag s.type s.value c).2
    refine ⟨congrArg (Fields.scalar tag s) same, schema.trans ?_⟩
    simp [pass, add, Fields.declared]
  | nested tag header inner rest ihInner ih =>
    obtain ⟨sameInner, -⟩ := ihInner (pass.start header empty)
    obtain ⟨same, schema⟩ := ih (pass.leave tag (ofFields header inner) c)
    refine ⟨congr (congrArg (Fields.nested tag header) sameInner) same, schema.trans ?_⟩
    simp [pass, add, Fields.declared, Schema.Field.nested]

theorem schema_ofFields (header : Header) (fs : Fields) :
    (ofFields header fs).schema = { schemaOf header with fields := fs.declared } := by
  have unfilled : (schemaOf header).fields = [] := by
    unfold schemaOf
    dsimp only
    split <;> rfl
  refine (walk_pass fs (pass.start header empty)).2.trans ?_
  simp [pass, unfilled]

/-- Capturing fields leaves the values of other fields alone. -/
theorem get?_walk_pass {fs : Fields} {i : UInt32} (other : i ∉ fs.ids) (c : Capture) :
    (fs.walk pass c).2.entries.get? i = c.entries.get? i := by
  induction fs generalizing c with
  | nil => rfl
  | scalar tag s rest ih =>
    simp only [Fields.ids, List.mem_cons, not_or] at other
    exact (ih other.2 _).trans (Entries.get?_insert_of_ne (Ne.symm other.1) _ _)
  | nested tag header inner rest _ ih =>
    simp only [Fields.ids, List.mem_cons, not_or] at other
    exact (ih other.2 _).trans (Entries.get?_insert_of_ne (Ne.symm other.1) _ _)

theorem distinct_walk_pass {fs : Fields} (distinct : fs.Distinct) {c : Capture}
    (before : c.entries.Distinct) : (fs.walk pass c).2.entries.Distinct := by
  induction fs generalizing c with
  | nil => exact before
  | scalar tag s rest ih => exact ih distinct.2 (before.insert tag.id trivial)
  | nested tag header inner rest ihInner ih =>
    have ids : ((ofFields header inner).schema.fields.map (·.id)).Nodup := by
      rw [schema_ofFields, Fields.ids_declared]
      exact distinct.2.1.nodup_ids
    exact ih distinct.2.2 (before.insert tag.id ⟨ids, ihInner distinct.2.1 trivial⟩)

theorem distinct_capture {m : Message} (distinct : m.fields.Distinct) : m.capture.Distinct := by
  refine ⟨?_, distinct_walk_pass distinct trivial⟩
  rw [capture_eq]
  change ((ofFields m.header m.fields).schema.fields.map (·.id)).Nodup
  rw [schema_ofFields, Fields.ids_declared]
  exact distinct.nodup_ids

theorem content?_walk_pass {fs : Fields} {i : UInt32} (other : i ∉ fs.ids) {c : Capture} {v : Value}
    (held : c.entries.get? i = some v) :
    (fs.walk pass c).2.entries.content? i = some v.content := by
  rw [Entries.content?_eq, get?_walk_pass other, held]
  rfl

/-- What is captured of a message shows it again if its fields do. -/
theorem view_ofFields {header : Header} {fs : Fields} (named : header.Named)
    (shown : Fields.arrange (ofFields header fs).entries.content? fs.declared = fs) :
    (ofFields header fs).record.view = ⟨header, fs⟩ := by
  have schema : (ofFields header fs).record.schema =
      { schemaOf header with fields := fs.declared } :=
    schema_ofFields header fs
  have same : (ofFields header fs).record.schema.header = header := by
    rw [schema]
    exact header_schemaOf named
  rw [Record.view, same, schema]
  exact congrArg (Message.mk header) shown

/-- The declared fields with the values captured for them are the fields that were captured. -/
theorem arrange_walk_pass {fs : Fields} (distinct : fs.Distinct) (named : fs.Named) (c : Capture) :
    Fields.arrange (fs.walk pass c).2.entries.content? fs.declared = fs := by
  induction fs generalizing c with
  | nil => rfl
  | scalar tag s rest ih =>
    have step : ((Fields.scalar tag s rest).walk pass c).2 =
        (rest.walk pass (pass.scalar tag s.type s.value c).2).2 := rfl
    have held := content?_walk_pass distinct.1 (c := (pass.scalar tag s.type s.value c).2)
      (Entries.get?_insert_self c.entries tag.id (.scalar s))
    rw [step, Fields.declared, Fields.arrange, held, ih distinct.2 named]
    rfl
  | nested tag header inner rest ihInner ih =>
    have step : ((Fields.nested tag header inner rest).walk pass c).2 =
        (rest.walk pass (pass.leave tag (ofFields header inner) c)).2 := rfl
    have held := content?_walk_pass distinct.1 (c := pass.leave tag (ofFields header inner) c)
      (Entries.get?_insert_self c.entries tag.id (.record (ofFields header inner).record))
    have inside := view_ofFields named.1 (ihInner distinct.2.1 named.2.1 (pass.start header empty))
    rw [Value.content, inside] at held
    rw [step, Fields.declared, Fields.arrange, ih distinct.2.2 named.2.2]
    simp only [Schema.Field.nested, held]
    rfl

theorem view_capture {m : Message} (distinct : m.fields.Distinct) (named : m.Named) :
    m.capture.view = m :=
  view_ofFields named.1 (arrange_walk_pass distinct named.2 _)

end Capture

/-- A capture is walked over like the message that was captured, with every pass and from every
state: the headers, the fields with their tags and values, and the nested messages come in the same
order, and what is left in them is the same. It therefore has the same binary, JSON, MessagePack and
table form and the same specification. -/
theorem walk_capture {m : Message} (distinct : m.fields.Distinct) (named : m.Named) :
    m.capture.view = m ∧
      (∀ {σ : Type} (p : Pass σ) (s : σ),
        ((m.capture.walk p s).1.view, (m.capture.walk p s).2) = m.walk p s) ∧
      (m.capture.walk .trace []).2.reverse = m.events ∧
      (m.capture.walk Wire.Encoding.pass .empty).2.bytes = Wire.encode m ∧
      (∀ mask, (m.capture.walk Json.Encoding.pass (.empty mask)).2.value = Json.ofMessage mask m) ∧
      (∀ table,
        (m.capture.walk Csv.Table.pass table).2.text = (m.walk Csv.Table.pass table).2.text) ∧
      (m.capture.walk MessagePack.Encoding.pass .empty).2.bytes = MessagePack.encode m ∧
      (m.capture.walk Declarations.pass .empty).2.text = m.specification := by
  have shown := Capture.view_capture distinct named
  have walked {σ : Type} (p : Pass σ) (s : σ) :
      ((m.capture.walk p s).1.view, (m.capture.walk p s).2) = m.walk p s := by
    rw [← Record.walk_view p (Capture.distinct_capture distinct), shown]
  have left {σ : Type} (p : Pass σ) (s : σ) : (m.capture.walk p s).2 = (m.walk p s).2 :=
    congrArg Prod.snd (walked p s)
  exact ⟨shown, walked, congrArg List.reverse (left _ _), congrArg Wire.Encoding.bytes (left _ _),
    fun mask => congrArg Json.Encoding.value (left _ _),
    fun table => congrArg Csv.Table.text (left _ _),
    congrArg MessagePack.Encoding.bytes (left _ _), congrArg Declarations.text (left _ _)⟩

/-- A message with a NaN, a nested message outside every package, and a package of two segments. -/
def Capture.reading : Message :=
  ⟨⟨7, "Reading", "demo.lab.Reading"⟩,
    .scalar ⟨3, "float", "x"⟩ ⟨.float, 0x7FC00001⟩ <|
      .nested ⟨1, "Place", "at"⟩ ⟨-2, "Place", "Place"⟩
        (.scalar ⟨3, "char", "row"⟩ ⟨.char, 'Ā'⟩ .nil) <|
      .scalar ⟨2, "string", "note"⟩ ⟨.string, "kept"⟩ .nil⟩

theorem walk_capture_reading :
    Capture.reading.fields.Distinct ∧ Capture.reading.Named ∧
      Capture.reading.capture.view = Capture.reading ∧
      (Capture.reading.capture.walk .trace []).2.reverse = Capture.reading.events := by
  have distinct : Capture.reading.fields.Distinct := by
    simp [Fields.Distinct, Fields.ids, Capture.reading]
  have outer : Header.Named ⟨7, "Reading", "demo.lab.Reading"⟩ := by
    rw [Header.Named]
    decide +kernel
  have inner : Header.Named ⟨-2, "Place", "Place"⟩ := by
    rw [Header.Named]
    decide +kernel
  have named : Capture.reading.Named := ⟨outer, inner, trivial, trivial⟩
  obtain ⟨shown, -, events, -⟩ := walk_capture distinct named
  exact ⟨distinct, named, shown, events⟩

end MessageCodec
