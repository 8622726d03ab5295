import Mathlib.Data.List.Infix
import MessageCodec.Proofs.Schema.Quotation

/-! Places outside of comments. What is put into a text at such a place is kept when it takes part
in no comment there, and comments around it are removed as before. Each place in a text without
its comments comes from a place outside of them. -/

namespace MessageCodec.Schema.Comment

variable {c : Char} {a b cs rest front behind : List Char}

/-- A block opener stands somewhere in the text. -/
def Opens (cs : List Char) : Prop := ['/', '*'] <:+: cs

instance : DecidablePred Opens := fun cs => inferInstanceAs (Decidable (['/', '*'] <:+: cs))

/-- The characters on the two sides of a joint make neither an opener nor a closer. -/
def Apart (front behind : List Char) : Prop :=
  (front.getLast? = some '/' → behind.head? ≠ some '/' ∧ behind.head? ≠ some '*') ∧
    (front.getLast? = some '*' → behind.head? ≠ some '/')

/-- A place between two parts of a text that no comment covers. The first part does not end in a
line comment, which would take a blank behind it as well, and the second part closes no block that
the first one opens. -/
structure Outside (front behind : List Char) : Prop where
  line : strip (front ++ [' ']) = strip front ++ [' ']
  block : Opens (strip front) → ¬ Closes behind

theorem opens_cons : Opens (c :: cs) ↔ (c = '/' ∧ cs.head? = some '*') ∨ Opens cs := by
  rw [Opens, Opens, List.infix_cons_iff, List.cons_prefix_cons, eq_comm]
  cases cs with
  | nil => simp
  | cons d ds => simp [List.cons_prefix_cons, eq_comm]

theorem outside_nil : Outside [] behind where
  line := by simp [strip_cons (skip?_eq_none_of_head (show ' ' ≠ '/' by decide)), strip_nil]
  block opener := by simp [strip_nil, Opens] at opener

theorem not_closes_blank : ¬ Closes [' '] := by simp [Closes, afterCloser?]

theorem apart_of_head? (plain : ∀ c, behind.head? = some c → IsPlain c) : Apart front behind :=
  ⟨fun _ => ⟨fun head => (plain _ head).1 rfl, fun head => (plain _ head).2 rfl⟩,
    fun _ head => (plain _ head).1 rfl⟩

theorem Apart.of_cons (joint : Apart (c :: a) b) : Apart a b := by
  cases a with
  | nil => exact ⟨nofun, nofun⟩
  | cons d a => exact joint

/-- No closer reaches over a joint. -/
theorem closes_append_iff (joint : Apart a b) : Closes (a ++ b) ↔ Closes a ∨ Closes b := by
  induction a with
  | nil => simp [Closes, afterCloser?]
  | cons c a ih =>
    have edge : (c = '*' ∧ (a ++ b).head? = some '/') ↔ (c = '*' ∧ a.head? = some '/') := by
      refine and_congr_right fun star => ?_
      cases a with
      | nil => simpa using joint.2 (congrArg some star)
      | cons d a => rfl
    rw [List.cons_append, closes_cons, closes_cons, ih joint.of_cons, edge, or_assoc]

theorem closes_append_of_left (closes : Closes a) (b : List Char) : Closes (a ++ b) := by
  induction a with
  | nil => cases closes
  | cons c a ih =>
    rw [List.cons_append, closes_cons]
    rcases closes_cons.1 closes with ⟨star, slash⟩ | closes
    · exact .inl ⟨star, by rw [List.head?_append, slash]; rfl⟩
    · exact .inr (ih closes)

section Comments

/-- A text up to its first closer, whatever follows. -/
theorem afterCloser?_block (closed : ¬ Closes (cs ++ ['*'])) (rest : List Char) :
    afterCloser? (cs ++ '*' :: '/' :: rest) = some rest := by
  induction cs with
  | nil => rfl
  | cons c cs ih =>
    rw [List.cons_append, closes_cons, not_or] at closed
    rw [List.cons_append, afterCloser?]
    · exact ih closed.2
    · intro tail star shape
      cases cs with
      | nil => cases shape
      | cons d ds =>
        cases shape
        exact closed.1 ⟨star, rfl⟩

/-- What stands in front of the rest is a block without its opener. -/
theorem exists_of_afterCloser? (found : afterCloser? cs = some rest) :
    ∃ front, cs = front ++ '*' :: '/' :: rest ∧ ¬ Closes (front ++ ['*']) := by
  fun_induction afterCloser? cs with
  | case1 => cases found
  | case2 rest' =>
    cases found
    exact ⟨[], rfl, by decide⟩
  | case3 c cs other ih =>
    obtain ⟨front, rfl, closed⟩ := ih found
    refine ⟨c :: front, rfl, ?_⟩
    rw [List.cons_append, closes_cons, not_or]
    refine ⟨fun closer => ?_, closed⟩
    cases front with
    | nil => cases closer.2
    | cons d ds =>
      cases closer.2
      exact other _ closer.1 rfl

theorem exists_block (found : afterCloser? cs = some rest) :
    ∃ block, cs = block ++ rest ∧ ∀ z, afterCloser? (block ++ z) = some z := by
  obtain ⟨front, rfl, closed⟩ := exists_of_afterCloser? found
  refine ⟨front ++ ['*', '/'], by simp, fun z => ?_⟩
  rw [List.append_assoc]
  exact afterCloser?_block closed z

theorem fromLineEnd_of_head (line : cs.head? = some '\n') : fromLineEnd cs = cs := by
  cases cs with
  | nil => cases line
  | cons c cs =>
    cases line
    rfl

theorem strip_of_skip? (found : skip? cs = some rest) : strip cs = strip rest := by
  rw [strip]
  split <;> simp_all

/-- A comment in front of a text: a block, which ends by itself, or a line, which ends at the first
line break behind it. -/
theorem exists_comment (found : skip? cs = some rest) :
    ∃ comment, cs = comment ++ rest ∧
      ((∀ z, strip (comment ++ z) = strip z) ∨
        (rest = [] ∨ rest.head? = some '\n') ∧
          ∀ z, strip (comment ++ z) = strip (fromLineEnd z)) := by
  unfold skip? at found
  split at found
  · rename_i text
    cases found
    have inside : ∀ c ∈ text.takeWhile (· != '\n'), (c != '\n') = true :=
      List.all_eq_true.1 List.all_takeWhile
    refine ⟨'/' :: '/' :: text.takeWhile (· != '\n'), ?_, .inr ⟨?_, fun z => ?_⟩⟩
    · simp [fromLineEnd]
    · have stopped := List.head?_dropWhile_not (· != '\n') text
      cases kept : fromLineEnd text with
      | nil => exact .inl rfl
      | cons c cs =>
        rw [fromLineEnd] at kept
        rw [kept] at stopped
        simpa using stopped
    · exact strip_of_skip? (congrArg some (List.dropWhile_append_of_pos inside))
  · rename_i text
    obtain ⟨block, rfl, closed⟩ := exists_block found
    exact ⟨'/' :: '*' :: block, rfl, .inl fun z => strip_of_skip? (closed z)⟩
  · cases found

end Comments

/-- Where no comment starts, none starts if the text goes on, unless a block that is opened here
is closed then. -/
theorem skip?_append_eq_none (none : skip? (c :: cs) = .none) (joint : Apart (c :: cs) b)
    (block : c = '/' → cs.head? = some '*' → ¬ Closes b) : skip? (c :: (cs ++ b)) = .none := by
  rw [skip?_cons_eq_none] at none ⊢
  rintro ⟨slash, opener⟩
  cases cs with
  | nil =>
    have edge := joint.1 (congrArg some slash)
    exact opener.elim edge.1 fun block => edge.2 block.1
  | cons d ds =>
    rcases opener with line | ⟨star, closes⟩
    · exact none ⟨slash, .inl line⟩
    · rcases (closes_append_iff joint.of_cons.of_cons).1 closes with closes | closes
      · exact none ⟨slash, .inr ⟨star, closes⟩⟩
      · exact block slash star closes

theorem skip?_eq_none_left (none : skip? (c :: (cs ++ b)) = .none) : skip? (c :: cs) = .none := by
  rw [skip?_cons_eq_none] at none ⊢
  rintro ⟨slash, opener⟩
  cases cs with
  | nil => simp at opener
  | cons d ds =>
    rcases opener with line | ⟨star, closes⟩
    · exact none ⟨slash, .inl line⟩
    · exact none ⟨slash, .inr ⟨star, closes_append_of_left closes b⟩⟩

/-- A block opener in front of kept text is kept. -/
theorem opens_strip_cons (none : skip? (c :: cs) = .none) (slash : c = '/')
    (star : cs.head? = some '*') : Opens (strip (c :: cs)) := by
  cases cs with
  | nil => cases star
  | cons d ds =>
    obtain rfl : d = '*' := Option.some.inj star
    rw [strip_cons none, strip_cons (skip?_eq_none_of_head (by decide))]
    exact opens_cons.2 (.inl ⟨slash, rfl⟩)

theorem plain_blank : ∀ c, [' '].head? = some c → IsPlain c := by
  rintro _ ⟨⟩
  exact ⟨by decide, by decide⟩

/-- Comments in front of a place outside of them are removed by themselves. -/
theorem strip_append (line : strip (front ++ [' ']) = strip front ++ [' '])
    (block : Opens (strip front) → ¬ Closes b) (plain : ∀ c, b.head? = some c → IsPlain c) :
    strip (front ++ b) = strip front ++ strip b := by
  fun_induction strip front with
  | case1 cs rest found shorter ih =>
    obtain ⟨comment, rfl, closed | ⟨ended, inLine⟩⟩ := exists_comment found
    · rw [List.append_assoc, closed] at line ⊢
      exact ih line block
    · rw [List.append_assoc, inLine] at line ⊢
      rcases ended with rfl | ended
      · -- a line comment that ends with the text takes the blank as well
        have gone : strip (fromLineEnd ([] ++ [' '])) = [] := strip_nil
        rw [gone, strip_nil] at line
        cases line
      · have stop (z : List Char) : fromLineEnd (rest ++ z) = rest ++ z :=
          fromLineEnd_of_head (by rw [List.head?_append, ended]; rfl)
        rw [stop] at line ⊢
        exact ih line block
  | case2 => rfl
  | case3 c cs none ih =>
    have kept : strip (c :: cs) = c :: strip cs := strip_cons none
    have opens (slash : c = '/') (star : cs.head? = some '*') : Opens (c :: strip cs) :=
      kept ▸ opens_strip_cons none slash star
    have blank := skip?_append_eq_none none (apart_of_head? plain_blank)
      fun _ _ => not_closes_blank
    have more := skip?_append_eq_none none (apart_of_head? plain) fun slash star =>
      block (opens slash star)
    have behind (opener : Opens (strip cs)) : ¬ Closes b := block (opens_cons.2 (.inr opener))
    rw [List.cons_append, strip_cons blank, List.cons_append, List.cons.injEq] at line
    rw [List.cons_append, strip_cons more, ih line.2 behind, List.cons_append]

/-- A text without comments is kept in front of another one, unless it opens a block that is
closed there. -/
theorem strip_append_of_clean (clean : Clean a) (joint : Apart a b)
    (block : Opens a → ¬ Closes b) : strip (a ++ b) = a ++ strip b := by
  induction a with
  | nil => rfl
  | cons c a ih =>
    have more := skip?_append_eq_none clean.1 joint fun slash star =>
      block (opens_cons.2 (.inl ⟨slash, star⟩))
    have behind (opener : Opens a) : ¬ Closes b := block (opens_cons.2 (.inr opener))
    rw [List.cons_append, strip_cons more, ih clean.2 joint.of_cons behind, List.cons_append]

/-- A place behind kept text is outside when it is so without a comment in front of that text. -/
theorem Outside.skip {comment : List Char}
    (skips : ∀ z, strip (comment ++ front ++ z) = strip (front ++ z))
    (place : Outside front behind) :
    strip (comment ++ front) = strip front ∧ Outside (comment ++ front) behind := by
  have removed : strip (comment ++ front) = strip front := by simpa using skips []
  refine ⟨removed, ⟨?_, removed ▸ place.block⟩⟩
  rw [skips, removed, place.line]

/-- A place behind a character that no comment covers is outside when it is so behind that
character. -/
theorem Outside.cons (none : skip? (c :: (front ++ behind)) = .none)
    (place : Outside front behind) :
    strip (c :: front) = c :: strip front ∧ Outside (c :: front) behind := by
  have alone : skip? (c :: front) = .none := skip?_eq_none_left none
  have blank : skip? (c :: (front ++ [' '])) = .none :=
    skip?_append_eq_none alone (apart_of_head? plain_blank) fun _ _ => not_closes_blank
  have kept := strip_cons alone
  refine ⟨kept, ⟨?_, fun opener => ?_⟩⟩
  · rw [List.cons_append, strip_cons blank, place.line, kept, List.cons_append]
  · rw [kept, opens_cons] at opener
    rcases opener with ⟨slash, star⟩ | opener
    · rw [skip?_cons_eq_none] at none
      cases front with
      | nil => simp [strip_nil] at star
      | cons d ds =>
        have same : (d :: ds).head? = some '*' := by
          refine (head?_strip star).resolve_right fun line => none ⟨slash, .inl ?_⟩
          rw [List.head?_append, line]
          rfl
        intro closes
        refine none ⟨slash, .inr ⟨?_, closes.of_suffix (List.suffix_append ds behind)⟩⟩
        rw [List.head?_append, same]
        rfl
    · exact place.block opener

/-- Each place in a text without its comments comes from one outside of them. -/
theorem exists_outside (parts : strip cs = a ++ b) :
    ∃ front behind, cs = front ++ behind ∧ strip front = a ∧ strip behind = b ∧
      Outside front behind := by
  fun_induction strip cs generalizing a with
  | case1 cs rest found shorter ih =>
    cases a with
    | nil => exact ⟨[], cs, rfl, strip_nil, (strip_of_skip? found).trans parts, outside_nil⟩
    | cons c a =>
      obtain ⟨front, behind, rfl, kept, others, place⟩ := ih parts
      obtain ⟨comment, rfl, skips⟩ : ∃ comment, cs = comment ++ (front ++ behind) ∧
          ∀ z, strip (comment ++ front ++ z) = strip (front ++ z) := by
        obtain ⟨comment, text, closed | ⟨ended, inLine⟩⟩ := exists_comment found
        · exact ⟨comment, text, fun z => by rw [List.append_assoc, closed]⟩
        · -- the line break is in front of the place, because something is kept there
          have head : front.head? = some '\n' := by
            cases front with
            | nil => rw [strip_nil] at kept; cases kept
            | cons d ds => exact ended.resolve_left (List.cons_ne_nil _ _)
          refine ⟨comment, text, fun z => ?_⟩
          rw [List.append_assoc, inLine, fromLineEnd_of_head]
          rw [List.head?_append, head]
          rfl
      have moved := place.skip skips
      exact ⟨_, behind, (List.append_assoc ..).symm, moved.1.trans kept, others, moved.2⟩
  | case2 =>
    cases a with
    | nil => exact ⟨[], [], rfl, strip_nil, strip_nil.trans parts, outside_nil⟩
    | cons c a => cases parts
  | case3 c cs none ih =>
    cases a with
    | nil => exact ⟨[], _, rfl, strip_nil, (strip_cons none).trans parts, outside_nil⟩
    | cons d a =>
      rw [List.cons_append, List.cons.injEq] at parts
      obtain ⟨rfl, parts⟩ := parts
      obtain ⟨front, behind, rfl, rfl, others, place⟩ := ih parts
      have moved := place.cons none
      exact ⟨_, behind, rfl, moved.1, others, moved.2⟩

/-- Content that takes no part in a comment at a place: no comment is in it, no closer behind the
place ends a block that it opens, and it ends no block that is opened in front of the place. -/
structure Harmless (front content behind : List Char) : Prop where
  clean : Clean content
  opener : Opens content → ¬ Closes behind
  closer : Opens (strip front) → ¬ Closes content

/-- Content without comment marks takes part in no comment anywhere. -/
theorem harmless_of_no_marks {content : List Char} (clean : Clean content) (opens : ¬ Opens content)
    (closes : ¬ Closes content) : Harmless front content behind :=
  ⟨clean, fun opener => absurd opener opens, fun _ => closes⟩

section Between

variable {p q content : List Char}

theorem strip_append_of_plain (plain : ∀ c ∈ p, IsPlain c) : strip (p ++ a) = p ++ strip a := by
  induction p with
  | nil => rfl
  | cons c p ih =>
    rw [List.forall_mem_cons] at plain
    rw [List.cons_append, strip_cons (skip?_eq_none_of_head plain.1.1), ih plain.2,
      List.cons_append]

theorem isPlain_of_head? (plain : ∀ c ∈ p, IsPlain c) (nonempty : p ≠ []) :
    ∀ c, (p ++ a).head? = some c → IsPlain c := by
  cases p with
  | nil => exact absurd rfl nonempty
  | cons d p =>
    rintro _ ⟨⟩
    exact plain d List.mem_cons_self

/-- At a place outside of comments, harmless content is kept between plain characters, and what is
around it does not change. -/
theorem strip_between (place : Outside front behind) (harmless : Harmless front content behind)
    (plain : ∀ c ∈ p, IsPlain c) (opened : p ≠ []) (plain' : ∀ c ∈ q, IsPlain c) (closed : q ≠ []) :
    strip (front ++ (p ++ (content ++ (q ++ behind)))) =
      strip front ++ (p ++ (content ++ (q ++ strip behind))) := by
  have joint : Apart content (q ++ behind) := apart_of_head? (isPlain_of_head? plain' closed)
  have closes : Closes (p ++ (content ++ (q ++ behind))) ↔ Closes content ∨ Closes behind := by
    rw [closes_append_of_plain plain, closes_append_iff joint, closes_append_of_plain plain']
  have block (opener : Opens (strip front)) : ¬ Closes (p ++ (content ++ (q ++ behind))) := by
    rw [closes, not_or]
    exact ⟨harmless.closer opener, place.block opener⟩
  have block' (opener : Opens content) : ¬ Closes (q ++ behind) := by
    rw [closes_append_of_plain plain']
    exact harmless.opener opener
  rw [strip_append place.line block (isPlain_of_head? plain opened), strip_append_of_plain plain,
    strip_append_of_clean harmless.clean joint block', strip_append_of_plain plain']

end Between

theorem Clean.of_infix (clean : Clean cs) (part : a <:+: cs) : Clean a := by
  obtain ⟨p, q, rfl⟩ := part
  induction p with
  | nil =>
    rw [List.nil_append] at clean
    induction a with
    | nil => trivial
    | cons c a ih => exact ⟨skip?_eq_none_left clean.1, ih clean.2⟩
  | cons c p ih => exact ih clean.2

theorem Closes.of_infix (closes : Closes a) (part : a <:+: cs) : Closes cs := by
  obtain ⟨p, q, rfl⟩ := part
  exact (closes_append_of_left closes q).of_suffix ⟨p, (List.append_assoc ..).symm⟩

/-- What is opened in a text without comments is not closed behind. -/
theorem Clean.not_closes (clean : Clean (a ++ b)) (opener : Opens a) : ¬ Closes b := by
  induction a with
  | nil => simp [Opens] at opener
  | cons c a ih =>
    rcases opens_cons.1 opener with ⟨slash, star⟩ | opener
    · cases a with
      | nil => cases star
      | cons d a =>
        intro closes
        exact skip?_cons_eq_none.1 clean.1
          ⟨slash, .inr ⟨star, closes.of_suffix (List.suffix_append a b)⟩⟩
    · exact ih clean.2 opener

/-- Content in a text without comments takes part in none. -/
theorem Clean.harmless {p q content : List Char}
    (clean : Clean (strip front ++ (p ++ (content ++ (q ++ behind))))) :
    Harmless front content behind where
  clean := clean.of_infix ⟨strip front ++ p, q ++ behind, by simp⟩
  opener opener closes := by
    have part : Clean (content ++ (q ++ behind)) :=
      clean.of_infix ⟨strip front ++ p, [], by simp⟩
    exact part.not_closes opener (closes.of_suffix (List.suffix_append q behind))
  closer opener closes := clean.not_closes opener (closes.of_infix ⟨p, q ++ behind, by simp⟩)

end MessageCodec.Schema.Comment
