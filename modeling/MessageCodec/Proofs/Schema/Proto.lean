import Mathlib.Data.List.Forall2
import MessageCodec.Proofs.Schema.Resolution
import MessageCodec.Schema.Proto

/-! The names in a schema of the proto2 language. Each message is declared under its long name with
underscores for dots, so two messages share a name when their names differ in dots and underscores
only. A nested field refers to the message of its label only if the label leaves out the package:
the package is put in front of every label, also of one that has it already. -/

namespace MessageCodec.Schema

/-- Two characters that cannot be told apart where dots are written as underscores. -/
def Alike (c d : Char) : Prop := c = d ∨ (c = '.' ∨ c = '_') ∧ (d = '.' ∨ d = '_')

theorem alike_iff {c d : Char} :
    (if c = '.' then '_' else c) = (if d = '.' then '_' else d) ↔ Alike c d := by
  grind [Alike]

theorem toList_underscored (name : String) :
    (underscored name).toList = name.toList.map fun c => if c = '.' then '_' else c := by
  rw [underscored, String.toList_ofList]

theorem underscored_append (front behind : String) :
    underscored (front ++ behind) = underscored front ++ underscored behind := by
  simp [← String.toList_inj, toList_underscored]

theorem length_underscored (name : String) : (underscored name).length = name.length := by
  rw [← String.length_toList, toList_underscored, List.length_map, String.length_toList]

/-- Names are written alike when they differ in dots and underscores only. -/
theorem underscored_eq_underscored_iff {name other : String} :
    underscored name = underscored other ↔ List.Forall₂ Alike name.toList other.toList := by
  rw [← String.toList_inj, toList_underscored, toList_underscored, ← List.forall₂_eq_eq_eq,
    List.forall₂_map_left_iff, List.forall₂_map_right_iff]
  simp only [alike_iff]

theorem IsDotted.isIdentifierChar_underscored {name : String} (dotted : IsDotted name) :
    ∀ c ∈ (underscored name).toList, Token.isIdentifierChar c := by
  rw [toList_underscored, List.forall_mem_map]
  intro c mem
  split
  · decide
  · rename_i undotted
    exact (dotted.isIdentifierChar c mem).resolve_right undotted

namespace Proto

variable {m inner : Message} {f : Field} {ms : List Message} {package text : String}

section References

theorem messageName_eq (own : m.package = package) (stated : package ≠ "") :
    messageName m = underscored package ++ "_" ++ underscored m.name := by
  have dot : underscored "." = "_" := by decide
  rw [messageName, Message.longName_eq_append own stated, underscored_append, underscored_append,
    dot]

theorem messageName_of_package (plain : m.package = "") : messageName m = underscored m.name := by
  rw [messageName, longName_of_package plain]

theorem fieldType_of_nested (nested : f.type = .message) :
    fieldType package f =
      if package = "" then underscored f.label
      else underscored package ++ "_" ++ underscored f.label := by
  simp only [fieldType, nested, String.isEmpty_iff]

/-- A nested field refers to the messages of its package whose names are written like its label. -/
theorem fieldType_eq_messageName (nested : f.type = .message) (own : inner.package = package) :
    fieldType package f = messageName inner ↔ underscored f.label = underscored inner.name := by
  rw [fieldType_of_nested nested]
  split
  · rename_i plain
    rw [messageName_of_package (own.trans plain)]
  · rename_i stated
    rw [messageName_eq own stated, String.append_right_inj]

/-- The long name of a message is not written like its name, because it is longer. -/
theorem underscored_longName_ne (stated : m.package ≠ "") :
    underscored m.longName ≠ underscored m.name := by
  intro same
  have lengths := congrArg String.length same
  have filled : m.package.length ≠ 0 := by simpa using stated
  simp only [length_underscored, Message.longName_eq_append rfl stated, String.length_append]
    at lengths
  omega

/-- A label stands for the message with that name in the package, or with that long name. In the
first case the nested field refers to this message. In the second the package is put before the
label a second time, and what the field refers to then is the messages whose names are written like
the whole label, if there are any. -/
theorem fieldType_of_resolve? (read : parse text = .ok ms) (mem : m ∈ ms)
    (nested : f.type = .message) (resolved : Catalogue.resolve? ms f.label m.package = some inner) :
    (f.label = inner.name ∨ f.label = inner.longName) ∧
      (fieldType m.package f = messageName inner ↔ f.label = inner.name) ∧
      (f.label ≠ inner.name →
        fieldType m.package f = underscored m.package ++ "_" ++ messageName inner) ∧
      ∀ other ∈ ms,
        fieldType m.package f = messageName other ↔ underscored f.label = underscored other.name := by
  obtain ⟨package, within, -⟩ := Catalogue.exists_package read
  obtain rfl := within.same m mem
  obtain ⟨known, label⟩ := within.resolve?_eq_some_iff.1 resolved
  have own := within.same inner known
  have names : f.label = inner.name ∨ f.label = inner.longName :=
    (label.imp Eq.symm fun h => h.1.symm).symm
  refine ⟨names, ?_, ?_, fun other mem' => fieldType_eq_messageName nested (within.same other mem')⟩
  · rw [fieldType_eq_messageName nested own]
    refine ⟨fun same => ?_, fun same => congrArg underscored same⟩
    rcases names with short | long
    · exact short
    · by_cases plain : inner.package = ""
      · rw [long, longName_of_package plain]
      · exact absurd (long ▸ same) (underscored_longName_ne plain)
  · intro different
    have long := names.resolve_left different
    have stated : m.package ≠ "" := by
      intro plain
      exact different (long.trans (longName_of_package (own.trans plain)))
    rw [fieldType_of_nested nested, if_neg stated, long, messageName]

def referenceText : String :=
  "package p; message A [id = 1] \x7b uint8 v [id = 1]; \x7d " ++
    "message B [id = 2] \x7b A a [id = 1]; p.A b [id = 2]; \x7d"

def referredMessage : Message := ⟨"p", "A", 1, [.plain (.scalar (.uint .w8)) "v" 1]⟩

def referringMessage : Message := ⟨"p", "B", 2, [.nested "A" "a" 1, .nested "p.A" "b" 2]⟩

theorem parse_referenceText : parse referenceText = .ok [referredMessage, referringMessage] :=
  parse_of_toOption (by decide +kernel)

theorem fieldType_of_resolve?_relative :
    Catalogue.resolve? [referredMessage, referringMessage] "A" "p" = some referredMessage ∧
      fieldType "p" (.nested "A" "a" 1) = messageName referredMessage := by
  have resolved : Catalogue.resolve? [referredMessage, referringMessage] "A" "p" =
      some referredMessage := by decide
  have mem : referringMessage ∈ [referredMessage, referringMessage] := by decide
  refine ⟨resolved, ?_⟩
  exact (fieldType_of_resolve? (f := .nested "A" "a" 1) parse_referenceText mem rfl
    resolved).2.1.2 rfl

/-- Under its long name the message is found, but what the field refers to is not declared. -/
theorem fieldType_qualified : parse referenceText = .ok [referredMessage, referringMessage] ∧
    .nested "p.A" "b" 2 ∈ referringMessage.fields ∧
      Catalogue.resolve? [referredMessage, referringMessage] "p.A" "p" = some referredMessage ∧
      fieldType "p" (.nested "p.A" "b" 2) = "p_p_A" ∧ messageName referredMessage = "p_A" :=
  ⟨parse_referenceText, by decide, by decide, by decide, by decide⟩

end References

section Declarations

/-- The name in a line that opens the declaration of a message: the word behind the keyword. -/
def declared? (line : List Char) : Option String :=
  if "message ".toList.isPrefixOf line then
    some (String.ofList ((line.drop "message ".length).takeWhile (· != ' ')))
  else none

/-- The names of the messages that a text in the proto2 language declares, in order. -/
def declarations (cs : List Char) : List String := (cs.splitOn '\n').filterMap declared?

variable {cs rest : List Char}

theorem declarations_append (cs rest : List Char) :
    declarations (cs ++ '\n' :: rest) = declarations cs ++ declarations rest := by
  rw [declarations, List.splitOn_append_cons_self, List.filterMap_append, declarations,
    declarations]

theorem declarations_line (unbroken : '\n' ∉ cs) : declarations cs = (declared? cs).toList := by
  rw [declarations, List.splitOn_eq_singleton unbroken, List.filterMap_cons, List.filterMap_nil]
  cases declared? cs <;> rfl

/-- A line that starts with another letter than the keyword declares nothing. -/
theorem declarations_of_head? {c : Char} (head : cs.head? = some c) (other : c ≠ 'm')
    (unbroken : '\n' ∉ cs) : declarations cs = [] := by
  obtain ⟨behind, rfl⟩ := List.head?_eq_some_iff.1 head
  have nothing : declared? (c :: behind) = none := by simp [declared?, other.symm]
  rw [declarations_line unbroken, nothing, Option.toList_none]

theorem declared?_opening {name : String} (word : ∀ c ∈ name.toList, Token.isIdentifierChar c) :
    declared? ("message " ++ name ++ " \x7b").toList = some name := by
  have front : ∀ c ∈ name.toList, (c != ' ') = true := by
    intro c mem
    have ident := word c mem
    rw [bne_iff_ne]
    rintro rfl
    exact absurd ident (by decide)
  have behind : (" \x7b".toList).takeWhile (· != ' ') = [] := by decide
  have length : "message ".length = "message ".toList.length := by decide
  rw [declared?, String.toList_append, String.toList_append, List.append_assoc,
    if_pos (List.isPrefixOf_iff_prefix.2 (List.prefix_append ..)), length, List.drop_left,
    List.takeWhile_append_of_pos front, behind, List.append_nil, String.ofList_toList]

theorem not_mem_of_isIdentifierChar (word : ∀ c ∈ cs, Token.isIdentifierChar c) : '\n' ∉ cs :=
  fun mem => absurd (word _ mem) (by decide)

theorem not_mem_toString (n : Nat) : '\n' ∉ (toString n).toList := by
  rw [toList_toString]
  exact fun mem => absurd (Decimal.isDigit_of_mem_digits mem) (by decide)

theorem not_mem_toString_int (i : Int) : '\n' ∉ (toString i).toList := by
  cases i with
  | ofNat n => exact not_mem_toString n
  | negSucc n =>
    have text : toString (Int.negSucc n) = "-" ++ toString (n + 1) := rfl
    rw [text, String.toList_append, List.mem_append, not_or]
    exact ⟨by decide, not_mem_toString (n + 1)⟩

theorem isIdentifierChar_scalarType (t : ScalarType) :
    ∀ c ∈ (scalarType t).toList, Token.isIdentifierChar c := by
  rw [← List.all_eq_true]
  cases t with
  | int w => cases w <;> decide
  | uint w => cases w <;> decide
  | _ => decide

theorem isIdentifierChar_fieldType (named : package = "" ∨ IsDotted package)
    (label : IsDotted f.label) : ∀ c ∈ (fieldType package f).toList, Token.isIdentifierChar c := by
  have inLabel := label.isIdentifierChar_underscored
  rw [fieldType]
  split
  · exact isIdentifierChar_scalarType _
  · split
    · exact inLabel
    · rename_i stated
      have inPackage := (named.resolve_left (by simpa using stated)).isIdentifierChar_underscored
      simp only [String.toList_append, List.forall_mem_append]
      exact ⟨⟨inPackage, List.all_eq_true.1 (by decide)⟩, inLabel⟩

def fieldLine (package : String) (f : Field) : String :=
  "    optional " ++ fieldType package f ++ " " ++ underscored f.name ++ " = " ++
    toString f.id.toNat ++ ";"

theorem toList_field (package : String) (f : Field) :
    (field package f).toList = (fieldLine package f).toList ++ ['\n'] := by
  -- not by their equations, which take too long to derive from a text of so many parts
  unfold field fieldLine
  simp

theorem unbroken_fieldLine (named : package = "" ∨ IsDotted package) (label : IsDotted f.label)
    (name : IsWord f.name.toList) : '\n' ∉ (fieldLine package f).toList := by
  have inType := not_mem_of_isIdentifierChar (isIdentifierChar_fieldType named label)
  have dotted : IsDotted f.name := name.isDotted
  have inName := not_mem_of_isIdentifierChar dotted.isIdentifierChar_underscored
  have inId := not_mem_toString f.id.toNat
  unfold fieldLine
  simp only [String.toList_append, List.mem_append, not_or]
  exact ⟨⟨⟨⟨⟨⟨by decide, inType⟩, by decide⟩, inName⟩, by decide⟩, inId⟩, by decide⟩

theorem declarations_field (named : package = "" ∨ IsDotted package) (label : IsDotted f.label)
    (name : IsWord f.name.toList) (rest : List Char) :
    declarations ((field package f).toList ++ rest) = declarations rest := by
  have head : (fieldLine package f).toList.head? = some ' ' := by
    unfold fieldLine
    simp only [String.toList_append, List.append_assoc]
    rfl
  rw [toList_field, List.append_assoc, List.singleton_append, declarations_append,
    declarations_of_head? head (by decide) (unbroken_fieldLine named label name), List.nil_append]

theorem declarations_fields {fs : List Field} (named : package = "" ∨ IsDotted package)
    (spelled : ∀ f ∈ fs, IsDotted f.label ∧ IsWord f.name.toList) (rest : List Char) :
    declarations ((String.join (fs.map (field package))).toList ++ rest) = declarations rest := by
  induction fs with
  | nil => rfl
  | cons f fs ih =>
    rw [List.forall_mem_cons] at spelled
    rw [List.map_cons, String.join_cons, String.toList_append, List.append_assoc,
      declarations_field named spelled.1.1 spelled.1.2, ih spelled.2]

theorem declarations_heading (withVersion : Bool) :
    declarations (banner ++ if withVersion then versionStatement else "").toList = [] := by
  cases withVersion <;> decide +kernel

theorem declarations_number (i : Int) :
    declarations ("// Message identifier: " ++ toString i ++ ".").toList = [] := by
  have head : ("// Message identifier: " ++ toString i ++ ".").toList.head? = some '/' := by
    simp only [String.toList_append, List.append_assoc]
    rfl
  refine declarations_of_head? head (by decide) ?_
  simp only [String.toList_append, List.mem_append, not_or]
  exact ⟨⟨by decide, not_mem_toString_int i⟩, by decide⟩

theorem declarations_opening {name : String} (word : ∀ c ∈ name.toList, Token.isIdentifierChar c) :
    declarations ("message " ++ name ++ " \x7b").toList = [name] := by
  have unbroken : '\n' ∉ ("message " ++ name ++ " \x7b").toList := by
    simp only [String.toList_append, List.mem_append, not_or]
    exact ⟨⟨by decide, not_mem_of_isIdentifierChar word⟩, by decide⟩
  rw [declarations_line unbroken, declared?_opening word, Option.toList_some]

/-- The text of a message declares this message and no other. -/
theorem declarations_render (named : m.package = "" ∨ IsDotted m.package) (spelled : m.Spelled)
    (withVersion : Bool) (rest : List Char) :
    declarations ((render withVersion m).toList ++ rest) = messageName m :: declarations rest := by
  have word : ∀ c ∈ (messageName m).toList, Token.isIdentifierChar c :=
    (Message.isDotted_longName named spelled.name).isIdentifierChar_underscored
  have closing : declarations "\x7d".toList = [] := by decide
  have text : (render withVersion m).toList ++ rest =
      (banner ++ if withVersion then versionStatement else "").toList ++ '\n' ::
        (("// Message identifier: " ++ toString m.id.toInt ++ ".").toList ++ '\n' ::
          (("message " ++ messageName m ++ " \x7b").toList ++ '\n' ::
            ((String.join (m.fields.map (field m.package))).toList ++
              ("\x7d".toList ++ '\n' :: rest)))) := by
    simp [render]
  rw [text, declarations_append, declarations_heading, declarations_append, declarations_number,
    declarations_append, declarations_opening word, declarations_fields named spelled.fields,
    declarations_append, closing, List.nil_append, List.nil_append, List.nil_append,
    List.singleton_append]

theorem declarations_newline (rest : List Char) :
    declarations ("\n".toList ++ rest) = declarations rest :=
  declarations_append [] rest

theorem declarations_join
    (all : ∀ m ∈ ms, (m.package = "" ∨ IsDotted m.package) ∧ m.Spelled) :
    declarations (String.join (ms.map fun m => render false m ++ "\n")).toList =
      ms.map messageName := by
  induction ms with
  | nil => decide
  | cons m ms ih =>
    rw [List.forall_mem_cons] at all
    rw [List.map_cons, String.join_cons, String.toList_append, String.toList_append,
      List.append_assoc, declarations_render all.1.1 all.1.2, declarations_newline, ih all.2,
      List.map_cons]

theorem declarations_all
    (all : ∀ m ∈ ms, (m.package = "" ∨ IsDotted m.package) ∧ m.Spelled) :
    declarations (renderAll ms).toList = ms.map messageName := by
  cases ms with
  | nil => decide
  | cons m ms =>
    rw [List.forall_mem_cons] at all
    rw [renderAll, String.toList_append, String.toList_append, List.append_assoc,
      declarations_render all.1.1 all.1.2, declarations_newline, declarations_join all.2,
      List.map_cons]

theorem messageName_inj (own : m.package = package) (own' : inner.package = package) :
    messageName m = messageName inner ↔ underscored m.name = underscored inner.name := by
  by_cases plain : package = ""
  · rw [messageName_of_package (own.trans plain), messageName_of_package (own'.trans plain)]
  · rw [messageName_eq own plain, messageName_eq own' plain, String.append_right_inj]

/-- The messages of a package are declared under distinct names when no two of their names are
written alike. -/
theorem nodup_messageName_iff (within : Catalogue.IsPackage ms package) :
    (ms.map messageName).Nodup ↔ ∀ m ∈ ms, ∀ m' ∈ ms, m.name ≠ m'.name →
      ¬ List.Forall₂ Alike m.name.toList m'.name.toList := by
  rw [List.nodup_map_iff_inj_on within.names.of_map]
  simp only [← underscored_eq_underscored_iff]
  constructor
  · intro distinct m mem m' mem' different alike
    have same := (messageName_inj (within.same m mem) (within.same m' mem')).2 alike
    exact different (congrArg Message.name (distinct m mem m' mem' same))
  · intro apart m mem m' mem' same
    by_contra different
    have alike := (messageName_inj (within.same m mem) (within.same m' mem')).1 same
    exact apart m mem m' mem' (fun same => different (within.eq_of_name mem mem' same)) alike

/-- Without underscores, characters are written alike only where they are the same. -/
theorem eq_of_alike {cs ds : List Char} (plain : '_' ∉ cs) (plain' : '_' ∉ ds)
    (alike : List.Forall₂ Alike cs ds) : cs = ds := by
  induction alike with
  | nil => rfl
  | @cons c d cs ds first _ ih =>
    rw [List.mem_cons, not_or] at plain plain'
    have same : c = d := by
      rcases first with same | ⟨dot, dot'⟩
      · exact same
      · rw [dot.resolve_right (Ne.symm plain.1), dot'.resolve_right (Ne.symm plain'.1)]
    rw [same, ih plain.2 plain'.2]

theorem declarations_of_parse (read : parse text = .ok ms) :
    declarations (renderAll ms).toList = ms.map messageName := by
  obtain ⟨package, within, named, spelled⟩ := Catalogue.exists_package read
  exact declarations_all fun m mem => ⟨within.same m mem ▸ named, spelled m mem⟩

/-- The text of a specification declares each of its messages once, in order. Two of these
declarations have one name just when the names of their messages differ in dots and underscores
only, which needs an underscore in one of them. -/
theorem declarations_renderAll (read : parse text = .ok ms) :
    declarations (renderAll ms).toList = ms.map messageName ∧
      ((declarations (renderAll ms).toList).Nodup ↔ ∀ m ∈ ms, ∀ m' ∈ ms, m.name ≠ m'.name →
        ¬ List.Forall₂ Alike m.name.toList m'.name.toList) ∧
      ((∀ m ∈ ms, '_' ∉ m.name.toList) → (declarations (renderAll ms).toList).Nodup) := by
  obtain ⟨package, within, -⟩ := Catalogue.exists_package read
  have distinct := nodup_messageName_iff within
  rw [declarations_of_parse read]
  refine ⟨rfl, distinct, fun plain => distinct.2 ?_⟩
  intro m mem m' mem' different alike
  exact different (String.toList_inj.1 (eq_of_alike (plain m mem) (plain m' mem') alike))

def partsText : String :=
  "package p.q; message A.B [id = 1] \x7b A.C c [id = 1]; \x7d message A.C [id = 2] \x7b \x7d " ++
    "message A_D \x7b bool d; \x7d"

def partsMessages : List Message :=
  [⟨"p.q", "A.B", 1, [.nested "A.C" "c" 1]⟩, ⟨"p.q", "A.C", 2, []⟩,
    ⟨"p.q", "A_D", 0, [.plain (.scalar .bool) "d" 1]⟩]

theorem declarations_renderAll_parts : parse partsText = .ok partsMessages ∧
    declarations (renderAll partsMessages).toList = ["p_q_A_B", "p_q_A_C", "p_q_A_D"] := by
  have read : parse partsText = .ok partsMessages := parse_of_toOption (by decide +kernel)
  exact ⟨read, (declarations_renderAll read).1.trans (by decide)⟩

/-- Two messages whose names are told apart by a dot only. -/
def collidingText : String :=
  "message A.B [id = 1] \x7b uint8 v [id = 1]; \x7d message A_B [id = 2] \x7b uint8 w [id = 1]; \x7d"

def collidingMessages : List Message :=
  [⟨"", "A.B", 1, [.plain (.scalar (.uint .w8)) "v" 1]⟩,
    ⟨"", "A_B", 2, [.plain (.scalar (.uint .w8)) "w" 1]⟩]

theorem parse_collidingText : parse collidingText = .ok collidingMessages :=
  parse_of_toOption (by decide +kernel)

/-- An accepted text with which one name is declared twice. -/
theorem declarations_colliding : parse collidingText = .ok collidingMessages ∧
    declarations (renderAll collidingMessages).toList = ["A_B", "A_B"] :=
  ⟨parse_collidingText, (declarations_of_parse parse_collidingText).trans (by decide)⟩

end Declarations

end Proto

end MessageCodec.Schema
