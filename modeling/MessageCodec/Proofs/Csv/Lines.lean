import MessageCodec.Proofs.Csv.Cell
import MessageCodec.Proofs.Fields
import MessageCodec.Proofs.Schema.Listing

/-! The lines of a table. A table that is split at its line breaks, and each line at the delimiter,
has the columns of the messages in its first line and a line of cells for each message, in the
same order. The one thing that can spoil this is a field that holds the delimiter or a line break
as a character, since characters are written as they are. -/

namespace MessageCodec

/-- A scalar field of a message, or of a message nested in it: the names of the fields on the way
to it, and what it holds. -/
structure Leaf where
  path : List String
  held : Scalar

def Leaf.below (path : List String) (l : Leaf) : Leaf := ⟨path ++ l.path, l.held⟩

namespace Fields

/-- The scalar fields at every depth; fields of the outermost message may be left out. -/
def leaves (keeps : UInt32 → Bool) : Fields → List Leaf
  | nil => []
  | scalar tag s rest =>
    if keeps tag.id then ⟨[tag.name], s⟩ :: rest.leaves keeps else rest.leaves keeps
  | nested tag _ inner rest =>
    if keeps tag.id then
      (inner.leaves fun _ => true).map (.below [tag.name]) ++ rest.leaves keeps
    else rest.leaves keeps

/-- What holds of the names of all fields, at every depth. -/
def NamedBy (P : String → Prop) : Fields → Prop
  | nil => True
  | scalar tag _ rest => P tag.name ∧ rest.NamedBy P
  | nested tag _ inner rest => P tag.name ∧ inner.NamedBy P ∧ rest.NamedBy P

variable {P Q : String → Prop}

theorem NamedBy.mono {fs : Fields} (named : fs.NamedBy P) (weaker : ∀ name, P name → Q name) :
    fs.NamedBy Q := by
  induction fs with
  | nil => trivial
  | scalar tag s rest ih => exact ⟨weaker _ named.1, ih named.2⟩
  | nested tag header inner rest ihInner ih =>
    exact ⟨weaker _ named.1, ihInner named.2.1, ih named.2.2⟩

theorem namedBy_zeroed (fs : Fields) : fs.zeroed.NamedBy P ↔ fs.NamedBy P := by
  induction fs with
  | nil => rfl
  | scalar tag s rest ih => exact and_congr_right' ih
  | nested tag header inner rest ihInner ih => exact and_congr_right' (and_congr ihInner ih)

theorem path_leaves_zeroed (keeps : UInt32 → Bool) (fs : Fields) :
    (fs.zeroed.leaves keeps).map Leaf.path = (fs.leaves keeps).map Leaf.path := by
  induction fs generalizing keeps with
  | nil => rfl
  | scalar tag s rest ih =>
    rw [zeroed, leaves, leaves]
    split
    · rw [List.map_cons, List.map_cons, ih]
    · exact ih keeps
  | nested tag header inner rest ihInner ih =>
    have below : Leaf.path ∘ Leaf.below [tag.name] = List.cons tag.name ∘ Leaf.path := rfl
    rw [zeroed, leaves, leaves]
    split
    · rw [List.map_append, List.map_append, List.map_map, List.map_map, below, ← List.map_map,
        ← List.map_map, ihInner, ih]
    · exact ih keeps

theorem NamedBy.of_mem_path {fs : Fields} (named : fs.NamedBy P) {keeps : UInt32 → Bool}
    {l : Leaf} (mem : l ∈ fs.leaves keeps) : l.path ≠ [] ∧ ∀ name ∈ l.path, P name := by
  induction fs generalizing keeps l with
  | nil => cases mem
  | scalar tag s rest ih =>
    rw [leaves] at mem
    split at mem
    · rcases List.mem_cons.1 mem with rfl | mem
      · exact ⟨List.cons_ne_nil _ _, List.forall_mem_singleton.2 named.1⟩
      · exact ih named.2 mem
    · exact ih named.2 mem
  | nested tag header inner rest ihInner ih =>
    rw [leaves] at mem
    split at mem
    · rcases List.mem_append.1 mem with mem | mem
      · obtain ⟨l, inside, rfl⟩ := List.mem_map.1 mem
        exact ⟨List.cons_ne_nil _ _, List.forall_mem_cons.2 ⟨named.1, (ihInner named.2.1 inside).2⟩⟩
      · exact ih named.2.2 mem
    · exact ih named.2.2 mem

end Fields

namespace Csv

/-- The name of the column of a field at the end of a path. -/
def dotted (path : List String) : List Char := (".".intercalate path).toList

def columns (ls : List Leaf) : List (List Char) := ls.map fun l => dotted l.path

def cells (ls : List Leaf) : List (List Char) := ls.map fun l => cell l.held.type l.held.value

/-- Cells, each of them ended by the delimiter. -/
def line (d : Char) (cells : List (List Char)) : List Char := cells.flatMap (· ++ [d])

/-- Lines, each of them ended by a line break. -/
def printed (d : Char) (lines : List (List (List Char))) : List Char :=
  lines.flatMap (line d · ++ ['\n'])

/-- Split at its line breaks, and each line at the delimiter, a text has these cells and nothing
else. -/
def IsTable (d : Char) (text : List Char) (lines : List (List (List Char))) : Prop :=
  (text.splitOn '\n').map (List.splitOn d) = lines.map (· ++ [[]]) ++ [[[]]]

instance (d : Char) (text : List Char) (lines : List (List (List Char))) :
    Decidable (IsTable d text lines) :=
  inferInstanceAs (Decidable (_ = _))

section Splitting

variable {d : Char}

/-- A piece of a text that is split has characters of the text, and not the separator. -/
theorem of_mem_splitOn {cs piece : List Char} (mem : piece ∈ cs.splitOn d) :
    d ∉ piece ∧ piece ⊆ cs := by
  induction cs generalizing piece with
  | nil =>
    rw [List.splitOn_nil, List.mem_singleton] at mem
    simp [mem]
  | cons c cs ih =>
    obtain ⟨first, others, split⟩ := List.exists_cons_of_ne_nil (List.splitOn_ne_nil d cs)
    rw [split] at ih
    rw [List.splitOn_cons_eq_if_modifyHead, split, List.modifyHead_cons] at mem
    split at mem
    · rcases List.mem_cons.1 mem with rfl | mem
      · exact ⟨List.not_mem_nil, List.nil_subset _⟩
      · exact (ih mem).imp_right (List.subset_cons_of_subset c)
    · rename_i other
      rcases List.mem_cons.1 mem with rfl | mem
      · have inside := ih (List.mem_cons_self ..)
        rw [List.mem_cons, not_or]
        exact ⟨⟨fun same => other (beq_iff_eq.2 same.symm), inside.1⟩,
          List.cons_subset_cons c inside.2⟩
      · exact (ih (List.mem_cons_of_mem _ mem)).imp_right (List.subset_cons_of_subset c)

/-- Pieces that are ended by a separator are found again just when none of them holds it. -/
theorem splitOn_line_iff {pieces : List (List Char)} :
    (line d pieces).splitOn d = pieces ++ [[]] ↔ ∀ piece ∈ pieces, d ∉ piece := by
  constructor
  · intro split piece mem
    exact (of_mem_splitOn (split ▸ List.mem_append_left _ mem)).1
  · intro free
    induction pieces with
    | nil => exact List.splitOn_nil d
    | cons piece pieces ih =>
      rw [List.forall_mem_cons] at free
      have shape : line d (piece :: pieces) = piece ++ d :: line d pieces := by simp [line]
      rw [shape, List.splitOn_append_cons_self_of_not_mem free.1, ih free.2, List.cons_append]

theorem printed_eq_line (lines : List (List (List Char))) :
    printed d lines = line '\n' (lines.map (line d)) := by
  rw [printed, line, List.flatMap_map]

/-- Printed lines are a table just when no cell holds the delimiter or a line break. -/
theorem isTable_printed_iff (apart : d ≠ '\n') {lines : List (List (List Char))} :
    IsTable d (printed d lines) lines ↔
      ∀ cells ∈ lines, ∀ cell ∈ cells, d ∉ cell ∧ '\n' ∉ cell := by
  have ended (cells : List (List Char)) : '\n' ∉ line d cells ↔ ∀ cell ∈ cells, '\n' ∉ cell := by
    simp [line, apart.symm]
  rw [IsTable, printed_eq_line]
  constructor
  · intro table cells mem cell inside
    have listed : cells ++ [[]] ∈ lines.map (· ++ [[]]) ++ [[[]]] :=
      List.mem_append_left _ (List.mem_map_of_mem mem)
    obtain ⟨piece, found, split⟩ := List.mem_map.1 (table ▸ listed)
    have part : cell ∈ piece.splitOn d := split ▸ List.mem_append_left _ inside
    exact ⟨(of_mem_splitOn part).1, fun broken =>
      (of_mem_splitOn found).1 ((of_mem_splitOn part).2 broken)⟩
  · intro free
    have split : (line '\n' (lines.map (line d))).splitOn '\n' = lines.map (line d) ++ [[]] := by
      rw [splitOn_line_iff, List.forall_mem_map]
      exact fun cells mem => (ended cells).2 fun cell inside => (free cells mem cell inside).2
    rw [split, List.map_append, List.map_map, List.map_singleton, List.splitOn_nil]
    congr 1
    refine List.map_congr_left fun cells mem => ?_
    exact splitOn_line_iff.2 fun cell inside => (free cells mem cell inside).1

end Splitting

namespace Table

variable {t : Table}

/-- The table with more columns, when the header is being filled, and more cells in the line that
is being written. -/
def extend (t : Table) (columns cells : List (List Char)) : Table :=
  { t with
    header :=
      if t.fillsHeader then t.header ++ String.ofList (line t.delimiter columns) else t.header
    rows := t.rows ++ String.ofList (line t.delimiter cells) }

@[simp] theorem extend_nil (t : Table) : t.extend [] [] = t := by
  simp [extend, line]

@[simp] theorem extend_extend (t : Table) (columns cells columns' cells' : List (List Char)) :
    (t.extend columns cells).extend columns' cells' =
      t.extend (columns ++ columns') (cells ++ cells') := by
  simp only [extend, line, List.flatMap_append, String.ofList_append, String.append_assoc]
  split <;> simp only [String.append_assoc]

/-- The columns of a table are those of the messages at the end of a path. -/
def IsAt (t : Table) (path : List String) : Prop := t.path?.getD "" = ".".intercalate path

theorem column_eq {path : List String} (here : t.IsAt path) (named : "" ∉ path) (name : String) :
    t.column name = ".".intercalate (path ++ [name]) := by
  rw [column, here]
  cases path with
  | nil => simp
  | cons first others =>
    have nonempty : ".".intercalate (first :: others) ≠ "" := by
      intro empty
      have letters := congrArg String.toList empty
      cases others with
      | nil => simp_all
      | cons => simp [String.intercalate_cons_cons] at letters
    simp only [String.isEmpty_iff, nonempty]
    rw [String.intercalate_append_of_ne_nil (List.cons_ne_nil _ _) (List.cons_ne_nil _ _),
      String.intercalate_singleton]
    rfl

theorem add_eq_extend {path : List String} (here : t.IsAt path) (named : "" ∉ path)
    (name : String) (cell : List Char) :
    t.add name cell = t.extend [dotted (path ++ [name])] [cell] := by
  have single (c : List Char) : line t.delimiter [c] = c ++ [t.delimiter] := by simp [line]
  rw [add, extend, column_eq here named, single, single, dotted, String.ofList_append,
    String.ofList_append, String.ofList_toList, ← String.append_assoc, ← String.append_assoc]
  rfl

theorem join_extend (t : Table) (name : String) (columns cells : List (List Char)) :
    t.join ((t.nested name).extend columns cells) = t.extend columns cells := by
  simp [join, extend, nested, new]

theorem isAt_nested {path : List String} (here : t.IsAt path) (named : "" ∉ path)
    (name : String) : (t.nested name).IsAt (path ++ [name]) := column_eq here named name

theorem walk_scalar (tag : FieldTag) (s : Scalar) (rest : Fields) (t : Table) :
    ((Fields.scalar tag s rest).walk pass t).2 =
      (rest.walk pass
        (if t.mask.includes tag.id then t.add tag.name (cell s.type s.value) else t)).2 := rfl

theorem walk_nested (tag : FieldTag) (header : Header) (inner rest : Fields) (t : Table) :
    ((Fields.nested tag header inner rest).walk pass t).2 =
      (rest.walk pass
        (if t.mask.includes tag.id then t.join (inner.walk pass (t.nested tag.name)).2.endLine
        else t)).2 := by
  rw [Fields.walk, Pass.descend]
  cases kept : t.mask.includes tag.id <;> simp [pass, kept]

/-- The fields of a message become columns and cells, those of nested messages in their places. -/
theorem walk_eq_extend (fs : Fields) {path : List String} (here : t.IsAt path) (known : "" ∉ path)
    (named : fs.NamedBy (· ≠ "")) :
    (fs.walk pass t).2 =
      t.extend (columns ((fs.leaves t.mask.includes).map (.below path)))
        (cells (fs.leaves t.mask.includes)) := by
  induction fs generalizing t path with
  | nil => exact (extend_nil t).symm
  | scalar tag s rest ih =>
    rw [walk_scalar, Fields.leaves]
    split
    · rw [add_eq_extend here known]
      refine (ih (t := t.extend _ _) here known named.2).trans ?_
      rw [extend_extend]
      rfl
    · exact ih here known named.2
  | nested tag header inner rest ihInner ih =>
    rw [walk_nested, Fields.leaves]
    split
    · have knownInside : "" ∉ path ++ [tag.name] := by
        simp [known, Ne.symm named.1]
      have inside := ihInner (isAt_nested here known tag.name) knownInside named.2.1
      have ended (columns cells) : ((t.nested tag.name).extend columns cells).endLine =
          (t.nested tag.name).extend columns cells := rfl
      rw [inside, ended, join_extend]
      refine (ih (t := t.extend _ _) here known named.2.2).trans ?_
      have below (l : Leaf) : (l.below [tag.name]).below path = l.below (path ++ [tag.name]) := by
        simp [Leaf.below]
      simp only [extend_extend, columns, cells, List.map_append, List.map_map, Function.comp_def,
        below]
      rfl
    · exact ih here known named.2.2

/-- What is done to a table: a message is walked over, or all lines are dropped. -/
inductive Action where
  | message (m : Message)
  | clear

def after (t : Table) : Action → Table
  | .message m => (m.walk pass t).2
  | .clear => t.clear

def run (t : Table) (actions : List Action) : Table := actions.foldl after t

theorem clear_walk (fs : Fields) (t : Table) : (fs.walk pass t).2.clear = t.clear := by
  induction fs generalizing t with
  | nil => rfl
  | scalar tag s rest ih =>
    rw [walk_scalar, ih]
    split <;> rfl
  | nested tag header inner rest _ ih =>
    rw [walk_nested, ih]
    split <;> rfl

theorem clear_after (t : Table) (a : Action) : (t.after a).clear = t.clear := by
  cases a with
  | clear => rfl
  | message m =>
    have walked : (t.after (.message m)).clear = (m.fields.walk pass t).2.endLine.clear := rfl
    rw [walked, endLine]
    split <;> exact clear_walk m.fields t

theorem clear_run (t : Table) (actions : List Action) : (t.run actions).clear = t.clear := by
  induction actions generalizing t with
  | nil => rfl
  | cons a actions ih => exact (ih (t.after a)).trans (clear_after t a)

/-- Up to the first message after it is cleared, a table is as it was made. -/
theorem run_of_fresh {d : Char} {withHeader : Bool} {mask : Json.Mask} {past : List Action}
    (fresh : past = [] ∨ past.getLast? = some .clear) :
    (new d withHeader mask).run past = new d withHeader mask := by
  rcases fresh with rfl | last
  · rfl
  · obtain ⟨earlier, rfl⟩ := List.getLast?_eq_some_iff.1 last
    rw [run, List.foldl_append]
    exact clear_run (new d withHeader mask) earlier

/-- A message adds a line, and the line of the columns if it is the first one. -/
theorem after_message (top : t.path? = none) {m : Message} (named : m.fields.NamedBy (· ≠ "")) :
    let ls := m.fields.leaves t.mask.includes
    t.after (.message m) =
      { t with
        header :=
          if t.fillsHeader then t.header ++ String.ofList (printed t.delimiter [columns ls])
          else t.header
        rows := t.rows ++ String.ofList (printed t.delimiter [cells ls])
        fillsHeader := false } := by
  intro ls
  have here : t.IsAt [] := by rw [IsAt, top]; rfl
  have walked := walk_eq_extend m.fields here List.not_mem_nil named
  have same : ls.map (.below []) = ls := List.map_id ls
  have ended : t.after (.message m) = (m.fields.walk pass t).2.endLine := rfl
  have single (row : List (List Char)) : String.ofList (printed t.delimiter [row]) =
      String.ofList (line t.delimiter row) ++ "\n" := by
    rw [printed, List.flatMap_singleton, String.ofList_append]
  rw [ended, walked, same, endLine, single, single]
  simp only [extend, top]
  cases fills : t.fillsHeader <;> simp [String.append_assoc, ls]

theorem run_messages (top : t.path? = none) (filled : t.fillsHeader = false) {ms : List Message}
    (named : ∀ m ∈ ms, m.fields.NamedBy (· ≠ "")) :
    t.run (ms.map .message) =
      { t with
        rows := t.rows ++ String.ofList
          (printed t.delimiter (ms.map fun m => cells (m.fields.leaves t.mask.includes))) } := by
  induction ms generalizing t with
  | nil => simp [run, printed]
  | cons m ms ih =>
    rw [List.forall_mem_cons] at named
    have step : t.after (.message m) =
        { t with
          rows := t.rows ++ String.ofList
            (printed t.delimiter [cells (m.fields.leaves t.mask.includes)]) } := by
      simp [after_message top named.1, filled]
    have behind := ih (t := t.after (.message m)) (by rw [step, top]) (by rw [step, filled]) named.2
    rw [List.map_cons, run, List.foldl_cons]
    refine behind.trans ?_
    rw [step]
    simp [printed, String.append_assoc]

end Table

/-- Names that columns can have. -/
structure IsColumnName (d : Char) (name : String) : Prop where
  nonempty : name ≠ ""
  undelimited : d ∉ name.toList
  unbroken : '\n' ∉ name.toList

/-- No delimiter is a character of a number, of Base64 or of an identifier. -/
theorem delimiter_apart : ∀ d ∈ [';', ',', '\t'],
    d ≠ '\n' ∧ d ≠ '.' ∧ isCellChar d = false ∧ Schema.Token.isIdentifierChar d = false := by
  simp only [List.forall_mem_cons]
  exact ⟨by decide, by decide, by decide, List.forall_mem_nil _⟩

theorem isColumnName_of_isWord {d : Char} {name : String} (word : Schema.IsWord name.toList)
    (delimiter : d ∈ [';', ',', '\t']) : IsColumnName d name := by
  have outside {c : Char} (other : Schema.Token.isIdentifierChar c = false) : c ∉ name.toList :=
    fun mem => Bool.false_ne_true (other.symm.trans (word.isIdentifierChar c mem))
  refine ⟨?_, outside (delimiter_apart d delimiter).2.2.2, outside (by decide)⟩
  obtain ⟨first, others, shape, -⟩ := word
  rintro rfl
  cases shape

/-- The dots are all that a column has besides names. -/
theorem not_mem_dotted {c : Char} {path : List String} (apart : c ≠ '.')
    (free : ∀ name ∈ path, c ∉ name.toList) : c ∉ dotted path := by
  rw [dotted, String.toList_intercalate]
  induction path with
  | nil => exact List.not_mem_nil
  | cons name path ih =>
    rw [List.forall_mem_cons] at free
    cases path with
    | nil => simpa using free.1
    | cons next path =>
      have behind := ih free.2
      rw [List.map_cons] at behind ⊢
      rw [List.map_cons, List.intercalate_cons_cons, List.mem_append, not_or]
      exact ⟨by simp [free.1, apart], behind⟩

theorem forall_cells_iff {c : Char} (apart : isCellChar c = false) (ls : List Leaf) :
    (∀ cell ∈ cells ls, c ∉ cell) ↔ ∀ l ∈ ls, l.held ≠ ⟨.char, c⟩ := by
  rw [cells, List.forall_mem_map]
  exact forall₂_congr fun l _ => not_congr (mem_cell_iff apart l.held)

/-- The lines of messages that are written after a table is made or cleared. -/
theorem text_run (d : Char) (mask : Json.Mask) {past : List Table.Action}
    (fresh : past = [] ∨ past.getLast? = some .clear) {first : Message} {ms : List Message}
    (named : ∀ m ∈ first :: ms, m.fields.NamedBy (· ≠ "")) :
    ((Table.new d true mask).run (past ++ (first :: ms).map .message)).text.toList =
      printed d (columns (first.fields.leaves mask.includes) ::
        (first :: ms).map fun m => cells (m.fields.leaves mask.includes)) := by
  rw [List.forall_mem_cons] at named
  have started : (Table.new d true mask).run (past ++ (first :: ms).map .message) =
      ((Table.new d true mask).after (.message first)).run (ms.map .message) := by
    rw [Table.run, List.foldl_append]
    exact congrArg (fun t : Table => t.run ((first :: ms).map .message)) (Table.run_of_fresh fresh)
  have step := Table.after_message (t := .new d true mask) rfl named.1
  rw [started, Table.run_messages (by rw [step]; rfl) (by rw [step]) named.2, step]
  simp [Table.text, Table.new, printed]

/-- Take a table with a header, and messages of one shape that are written after the table is made
or cleared. It has a line of columns and a line for each message, with a cell for each scalar field
that the mask lets through, in the order of the columns. Read back by splitting, it has these cells
just when none of the fields holds the delimiter or a line break as a character. -/
theorem run_isTable_iff {d : Char} (delimiter : d ∈ [';', ',', '\t']) (mask : Json.Mask)
    {shape : Fields} (named : shape.NamedBy (IsColumnName d)) {past : List Table.Action}
    (fresh : past = [] ∨ past.getLast? = some .clear) {ms : List Message} (some : ms ≠ [])
    (alike : ∀ m ∈ ms, m.fields.zeroed = shape) :
    let text := ((Table.new d true mask).run (past ++ ms.map .message)).text.toList
    let lines := columns (shape.leaves mask.includes) ::
      ms.map fun m => cells (m.fields.leaves mask.includes)
    text = printed d lines ∧
      (∀ m ∈ ms, (m.fields.leaves mask.includes).map Leaf.path =
        (shape.leaves mask.includes).map Leaf.path) ∧
      (IsTable d text lines ↔ ∀ m ∈ ms, ∀ l ∈ m.fields.leaves mask.includes,
        l.held ≠ ⟨.char, d⟩ ∧ l.held ≠ ⟨.char, '\n'⟩) := by
  intro text lines
  have paths (m : Message) (mem : m ∈ ms) : (m.fields.leaves mask.includes).map Leaf.path =
      (shape.leaves mask.includes).map Leaf.path :=
    alike m mem ▸ (Fields.path_leaves_zeroed mask.includes m.fields).symm
  have nonempty (m : Message) (mem : m ∈ ms) : m.fields.NamedBy (· ≠ "") :=
    (Fields.namedBy_zeroed _).1 (alike m mem ▸ named.mono fun _ name => name.nonempty)
  have whole : text = printed d lines := by
    obtain ⟨m, others, rfl⟩ := List.exists_cons_of_ne_nil some
    have names := congrArg (List.map dotted) (paths m List.mem_cons_self)
    have header : columns (m.fields.leaves mask.includes) =
        columns (shape.leaves mask.includes) := by
      simpa [columns, Function.comp_def] using names
    exact (text_run d mask fresh nonempty).trans (by rw [header])
  obtain ⟨unbroken, undotted, other, -⟩ := delimiter_apart d delimiter
  have header : ∀ cell ∈ columns (shape.leaves mask.includes), d ∉ cell ∧ '\n' ∉ cell := by
    rw [columns, List.forall_mem_map]
    intro l mem
    have names := (named.of_mem_path mem).2
    exact ⟨not_mem_dotted undotted fun name mem => (names name mem).undelimited,
      not_mem_dotted (by decide) fun name mem => (names name mem).unbroken⟩
  refine ⟨whole, paths, ?_⟩
  rw [whole, isTable_printed_iff unbroken, List.forall_mem_cons, List.forall_mem_map]
  refine (and_iff_right header).trans (forall₂_congr fun m _ => ?_)
  simp only [forall_and, ← forall_cells_iff other, ← forall_cells_iff (c := '\n') (by decide)]

/-- A message with a field of its own, one that a mask may leave out, and two nested ones. -/
def track (valid : Bool) (x : BitVec 8) (unit : Char) : Message :=
  let origin : Fields :=
    .scalar ⟨1, "int8", "x"⟩ ⟨.int .w8, x⟩ (.scalar ⟨2, "char", "unit"⟩ ⟨.char, unit⟩ .nil)
  ⟨⟨1, "Track", "geo.Track"⟩,
    .scalar ⟨1, "bool", "valid"⟩ ⟨.bool, valid⟩
      (.scalar ⟨2, "char", "mark"⟩ ⟨.char, ';'⟩
        (.nested ⟨3, "geo.Point", "origin"⟩ ⟨2, "Point", "geo.Point"⟩ origin .nil))⟩

/-- Two tracks after another message that was dropped. -/
theorem run_isTable_iff_track :
    let past : List Table.Action := [.message ⟨⟨9, "Other", "Other"⟩, .nil⟩, .clear]
    let ms : List Message := [track true 7 'm', track false (-1) 'k']
    let mask : Json.Mask := [(2, false), (1, true)]
    let text := ((Table.new ';' true mask).run (past ++ ms.map .message)).text.toList
    text = "valid;origin.x;origin.unit;\n1;7;m;\n0;-1;k;\n".toList ∧
      IsTable ';' text ([["valid", "origin.x", "origin.unit"], ["1", "7", "m"], ["0", "-1", "k"]].map
        (·.map String.toList)) := by
  intro past ms mask text
  have names : ∀ name ∈ ["valid", "mark", "origin", "x", "unit"], IsColumnName ';' name := by
    have words : ∀ name ∈ ["valid", "mark", "origin", "x", "unit"],
        Schema.IsWord name.toList := by decide
    exact fun name mem => isColumnName_of_isWord (words name mem) (by simp)
  simp only [List.forall_mem_cons] at names
  obtain ⟨valid, mark, origin, x, unit, -⟩ := names
  have named : (track true 7 'm').fields.zeroed.NamedBy (IsColumnName ';') :=
    ⟨valid, mark, origin, ⟨x, unit, trivial⟩, trivial⟩
  have alike : ∀ m ∈ ms, m.fields.zeroed = (track true 7 'm').fields.zeroed := by
    simp [ms, track, Fields.zeroed]
  obtain ⟨whole, -, table⟩ :=
    run_isTable_iff (by simp) mask named (.inr rfl : past = [] ∨ _) (List.cons_ne_nil _ _) alike
  refine ⟨whole.trans ?_, table.2 ?_⟩
  · decide +kernel
  · simp [track, mask, Fields.leaves, Leaf.below, Json.Mask.includes, List.lookup_cons]

/-- A field that holds the delimiter makes one more cell than there are columns. -/
theorem not_isTable_delimiter :
    let m : Message := ⟨⟨1, "M", "M"⟩, .scalar ⟨1, "char", "c"⟩ ⟨.char, ';'⟩ .nil⟩
    let text := ((Table.new ';' true []).run [.message m]).text.toList
    (text.splitOn '\n').map (List.splitOn ';') =
        [["c".toList, []], [[], [], []], [[]]] ∧
      ¬ IsTable ';' text [["c".toList], [";".toList]] := by
  intro m text
  decide +kernel

end Csv

end MessageCodec
