import Mathlib.Computability.Language
import MessageCodec.Proofs.Schema.Lexeme
import MessageCodec.Proofs.Schema.Outside

/-! What removing comments takes out of a text. Comments are the words of a pattern, with a star of
alternatives for what stands inside a block. A text is cut at the leftmost places where the pattern
matches, and the matches are dropped. No match runs over a block closer, and only blocks have line
feeds in them. -/

namespace MessageCodec.Schema.Comment

open scoped Computability

section Pattern

/-- One character with a property. -/
def oneOf (p : Char → Prop) : Language Char := {cs | ∃ c, p c ∧ cs = [c]}

/-- Stars, at least one. -/
def stars : Language Char := {cs | ∃ n, cs = List.replicate (n + 1) '*'}

/-- Two slashes and the characters of a line. -/
def linePattern : Language Char := {['/', '/']} * (oneOf (· ≠ '\n'))∗

/-- What the inside of a block is made of: characters that are no stars, and stars with a character
behind them that is neither a star nor a slash. -/
def insidePiece : Language Char := oneOf (· ≠ '*') + stars * oneOf fun c => c ≠ '*' ∧ c ≠ '/'

/-- An opener, any number of pieces, and stars with the slash of a closer. -/
def blockPattern : Language Char := {['/', '*']} * (insidePiece∗ * stars) * {['/']}

def pattern : Language Char := linePattern + blockPattern

end Pattern

variable {c : Char} {cs rest x y : List Char}

theorem closes_iff_isInfix : Closes cs ↔ ['*', '/'] <:+: cs := by
  constructor
  · intro closes
    induction cs with
    | nil => cases closes
    | cons c cs ih =>
      rcases closes_cons.1 closes with ⟨rfl, slash⟩ | closes
      · obtain ⟨tail, rfl⟩ := List.head?_eq_some_iff.1 slash
        exact ⟨[], tail, rfl⟩
      · exact (ih closes).trans (List.suffix_cons c cs).isInfix
  · exact fun part => Closes.of_infix (by decide) part

section Inside

theorem closes_stars_cons (n : Nat) (slash : c ≠ '/') :
    Closes (List.replicate n '*' ++ c :: cs) ↔ Closes (c :: cs) := by
  induction n with
  | zero => rfl
  | succ n ih =>
    have edge : (List.replicate n '*' ++ c :: cs).head? ≠ some '/' := by
      cases n with
      | zero => simpa using slash
      | succ n => simp [List.replicate_succ]
    rw [List.replicate_succ, List.cons_append, closes_cons, ih]
    exact or_iff_right fun closer => edge closer.2

/-- A piece of the inside of a block brings no closer. -/
theorem closes_append_piece (piece : x ∈ insidePiece) : Closes (x ++ cs) ↔ Closes cs := by
  rcases piece with ⟨c, other, rfl⟩ | ⟨_, ⟨n, rfl⟩, _, ⟨c, other, rfl⟩, rfl⟩
  · simp [closes_cons, other]
  · dsimp only
    rw [List.append_assoc, List.singleton_append, closes_stars_cons _ other.2]
    simp [closes_cons, other.1]

theorem not_closes_stars (n : Nat) : ¬ Closes (List.replicate n '*') := by
  induction n with
  | zero => exact nofun
  | succ n ih =>
    rw [List.replicate_succ, closes_cons]
    cases n <;> simp_all [List.replicate_succ]

/-- Whatever pieces are taken, no closer is in them and the stars behind them. -/
theorem not_closes_of_mem (mem : x ∈ insidePiece∗ * stars) : ¬ Closes x := by
  obtain ⟨_, body, _, ⟨n, rfl⟩, rfl⟩ := Language.mem_mul.1 mem
  obtain ⟨pieces, rfl, each⟩ := Language.mem_kstar.1 body
  clear body mem
  induction pieces with
  | nil => exact not_closes_stars _
  | cons piece pieces ih =>
    rw [List.forall_mem_cons] at each
    rw [List.flatten_cons, List.append_assoc, closes_append_piece each.1]
    exact ih each.2

theorem append_mem_inside (piece : x ∈ insidePiece) (mem : cs ∈ insidePiece∗ * stars) :
    x ++ cs ∈ insidePiece∗ * stars := by
  obtain ⟨body, pieces, closing, ends, rfl⟩ := Language.mem_mul.1 mem
  have longer : x ++ body ∈ insidePiece∗ :=
    (mul_kstar_le_kstar : insidePiece * insidePiece∗ ≤ _) (Language.append_mem_mul piece pieces)
  rw [← List.append_assoc]
  exact Language.append_mem_mul longer ends

/-- Text without a closer that ends in a star is made of pieces and stars. -/
theorem mem_of_not_closes (n : Nat) (closed : ¬ Closes (List.replicate n '*' ++ cs))
    (last : (List.replicate n '*' ++ cs).getLast? = some '*') :
    List.replicate n '*' ++ cs ∈ insidePiece∗ * stars := by
  -- on the text, with the stars in front of it that no piece has yet
  induction cs generalizing n with
  | nil =>
    cases n with
    | zero => cases last
    | succ n =>
      rw [List.append_nil]
      exact Language.append_mem_mul (Language.nil_mem_kstar _) ⟨n, rfl⟩
  | cons c cs ih =>
    by_cases star : c = '*'
    · subst star
      have moved : List.replicate n '*' ++ '*' :: cs = List.replicate (n + 1) '*' ++ cs := by
        rw [List.replicate_succ', List.append_assoc, List.singleton_append]
      rw [moved] at closed last ⊢
      exact ih (n + 1) closed last
    · have piece : List.replicate n '*' ++ [c] ∈ insidePiece := by
        cases n with
        | zero => exact .inl ⟨c, star, rfl⟩
        | succ n =>
          refine .inr (Language.append_mem_mul ⟨n, rfl⟩ ⟨c, ⟨star, ?_⟩, rfl⟩)
          rintro rfl
          refine closed (closes_iff_isInfix.2 ⟨List.replicate n '*', cs, ?_⟩)
          simp [List.replicate_succ']
      have text : List.replicate n '*' ++ c :: cs = (List.replicate n '*' ++ [c]) ++ cs := by simp
      rw [text] at closed last ⊢
      rw [closes_append_piece piece] at closed
      refine append_mem_inside piece (ih 0 closed ?_)
      cases cs with
      | nil => simp [star] at last
      | cons d ds => simpa [List.getLast?_append] using last

/-- No word of the pattern crosses a closer, and every text without one is covered. -/
theorem mem_inside_iff :
    x ∈ insidePiece∗ * stars ↔ ∃ cs, x = cs ++ ['*'] ∧ ¬ Closes x := by
  constructor
  · intro mem
    obtain ⟨body, -, _, ⟨n, rfl⟩, rfl⟩ := Language.mem_mul.1 mem
    refine ⟨body ++ List.replicate n '*', ?_, not_closes_of_mem mem⟩
    rw [List.replicate_succ', List.append_assoc]
  · rintro ⟨cs, rfl, closed⟩
    exact mem_of_not_closes 0 closed List.getLast?_concat

end Inside

theorem mem_kstar_oneOf {p : Char → Prop} : x ∈ (oneOf p)∗ ↔ ∀ c ∈ x, p c := by
  rw [Language.mem_kstar]
  constructor
  · rintro ⟨parts, rfl, each⟩ c mem
    obtain ⟨part, inside, mem⟩ := List.mem_flatten.1 mem
    obtain ⟨d, holds, rfl⟩ := each part inside
    rwa [List.mem_singleton.1 mem]
  · intro each
    refine ⟨x.map fun c => [c], (List.flatMap_singleton' x).symm, fun part mem => ?_⟩
    obtain ⟨c, inside, rfl⟩ := List.mem_map.1 mem
    exact ⟨c, each c inside, rfl⟩

theorem mem_linePattern : x ∈ linePattern ↔ ∃ line, x = '/' :: '/' :: line ∧ '\n' ∉ line := by
  have same (line : List Char) : line ∈ (oneOf (· ≠ '\n'))∗ ↔ '\n' ∉ line := by
    rw [mem_kstar_oneOf]
    exact ⟨fun each mem => each _ mem rfl, fun absent c mem same => absent (same ▸ mem)⟩
  constructor
  · rintro ⟨_, rfl, line, mem, rfl⟩
    exact ⟨line, rfl, (same line).1 mem⟩
  · rintro ⟨line, rfl, absent⟩
    exact ⟨_, rfl, line, (same line).2 absent, rfl⟩

/-- The closer at the end of a block is the first one behind its opener. -/
theorem mem_blockPattern :
    x ∈ blockPattern ↔ ∃ cs, x = '/' :: '*' :: (cs ++ ['*', '/']) ∧ ¬ Closes (cs ++ ['*']) := by
  have text (cs : List Char) :
      ['/', '*'] ++ (cs ++ ['*']) ++ ['/'] = '/' :: '*' :: (cs ++ ['*', '/']) := by simp
  constructor
  · rintro ⟨_, ⟨_, rfl, _, mem, rfl⟩, _, rfl, rfl⟩
    obtain ⟨cs, rfl, closed⟩ := mem_inside_iff.1 mem
    exact ⟨cs, text cs, closed⟩
  · rintro ⟨cs, rfl, closed⟩
    exact ⟨_, ⟨_, rfl, _, mem_inside_iff.2 ⟨cs, rfl, closed⟩, rfl⟩, _, rfl, text cs⟩

/-- A match of the pattern at the start of a text, which is the longest one there. -/
def Matches (x cs : List Char) : Prop :=
  x ∈ pattern ∧ x <+: cs ∧ ∀ y ∈ pattern, y <+: cs → y.length ≤ x.length

/-- A word of the pattern at the start of a text is a comment there, and no longer than the comment
that is skipped. -/
theorem skip?_of_mem (mem : x ∈ pattern) (rest : List Char) :
    ∃ rest', skip? (x ++ rest) = some rest' ∧ rest'.length ≤ rest.length := by
  rcases mem with word | word
  · obtain ⟨line, rfl, absent⟩ := mem_linePattern.1 word
    refine ⟨fromLineEnd (line ++ rest), rfl, ?_⟩
    have inside : ∀ c ∈ line, (c != '\n') = true := by
      rintro c mem
      exact bne_iff_ne.2 fun same => absent (same ▸ mem)
    rw [fromLineEnd, List.dropWhile_append_of_pos inside]
    exact length_fromLineEnd rest
  · obtain ⟨cs, rfl, closed⟩ := mem_blockPattern.1 word
    refine ⟨rest, ?_, le_rfl⟩
    rw [List.cons_append, List.cons_append, List.append_assoc]
    exact afterCloser?_block closed rest

theorem exists_mem_of_skip? (found : skip? cs = some rest) : ∃ x ∈ pattern, x ++ rest = cs := by
  unfold skip? at found
  split at found
  · rename_i text
    cases found
    refine ⟨_, .inl (mem_linePattern.2 ⟨text.takeWhile (· != '\n'), rfl, fun mem => ?_⟩), ?_⟩
    · simpa using List.all_eq_true.1 List.all_takeWhile _ mem
    · simp [fromLineEnd]
  · obtain ⟨front, rfl, closed⟩ := exists_of_afterCloser? found
    exact ⟨_, .inr (mem_blockPattern.2 ⟨front, rfl, closed⟩), by simp⟩
  · cases found

theorem matches_of_skip? (found : skip? cs = some rest) : ∃ x, x ++ rest = cs ∧ Matches x cs := by
  obtain ⟨x, mem, rfl⟩ := exists_mem_of_skip? found
  refine ⟨x, rfl, mem, List.prefix_append x rest, ?_⟩
  rintro y word ⟨behind, text⟩
  obtain ⟨rest', skipped, shorter⟩ := skip?_of_mem word behind
  rw [text, found] at skipped
  cases skipped
  have lengths := congrArg List.length text
  rw [List.length_append, List.length_append] at lengths
  omega

theorem not_prefix_of_skip? (none : skip? cs = none) : ∀ x ∈ pattern, ¬ x <+: cs := by
  rintro x mem ⟨rest, rfl⟩
  obtain ⟨rest', found, -⟩ := skip?_of_mem mem rest
  rw [none] at found
  cases found

inductive Piece where
  | kept (c : Char)
  | comment (x : List Char)

namespace Piece

def text : Piece → List Char
  | kept c => [c]
  | comment x => x

/-- What is left of the part. -/
def left : Piece → List Char
  | kept c => [c]
  | comment _ => []

end Piece

/-- A text in pieces, from left to right: the match of the pattern at each place, or else the
character there. -/
inductive Cut : List Char → List Piece → Prop
  | nil : Cut [] []
  | kept {c : Char} {cs : List Char} {ps : List Piece} :
      (∀ x ∈ pattern, ¬ x <+: c :: cs) → Cut cs ps → Cut (c :: cs) (.kept c :: ps)
  | comment {x rest cs : List Char} {ps : List Piece} :
      x ++ rest = cs → Matches x cs → Cut rest ps → Cut cs (.comment x :: ps)

theorem Matches.unique (first : Matches x cs) (second : Matches y cs) : x = y := by
  obtain ⟨mem, part, longest⟩ := first
  obtain ⟨mem', part', longest'⟩ := second
  exact (List.prefix_of_prefix_length_le part part' (longest' x mem part)).eq_of_length
    ((longest' x mem part).antisymm (longest y mem' part'))

theorem not_matches_nil : ¬ Matches x [] := by
  rintro ⟨mem, part, -⟩
  exact not_prefix_of_skip? rfl x mem part

theorem Cut.unique {ps qs : List Piece} (cut : Cut cs ps) (other : Cut cs qs) : ps = qs := by
  induction cut generalizing qs with
  | nil =>
    cases other with
    | nil => rfl
    | comment _ found _ => exact absurd found not_matches_nil
  | kept free _ ih =>
    cases other with
    | kept _ cut => rw [ih cut]
    | comment _ found _ => exact absurd found.2.1 (free _ found.1)
  | comment text found _ ih =>
    cases other with
    | nil => exact absurd found not_matches_nil
    | kept free _ => exact absurd found.2.1 (free _ found.1)
    | comment text' found' cut =>
      obtain rfl := found.unique found'
      obtain rfl := List.append_cancel_left (text.trans text'.symm)
      rw [ih cut]

theorem exists_cut (cs : List Char) : ∃ ps, Cut cs ps ∧ strip cs = ps.flatMap Piece.left := by
  fun_induction strip cs with
  | case1 cs rest found shorter ih =>
    obtain ⟨ps, cut, left⟩ := ih
    obtain ⟨x, text, longest⟩ := matches_of_skip? found
    exact ⟨.comment x :: ps, .comment text longest cut, left⟩
  | case2 => exact ⟨[], .nil, rfl⟩
  | case3 c cs none ih =>
    obtain ⟨ps, cut, left⟩ := ih
    exact ⟨.kept c :: ps, .kept (not_prefix_of_skip? none) cut, congrArg (c :: ·) left⟩

theorem Cut.text {ps : List Piece} (cut : Cut cs ps) : ps.flatMap Piece.text = cs := by
  induction cut with
  | nil => rfl
  | kept _ _ ih => exact congrArg _ ih
  | comment text _ _ ih => rw [List.flatMap_cons, ih]; exact text

theorem Cut.mem_pattern {ps : List Piece} (cut : Cut cs ps) (mem : .comment x ∈ ps) :
    x ∈ pattern := by
  induction cut with
  | nil => cases mem
  | kept _ _ ih => exact ih (by simpa using mem)
  | comment _ found _ ih =>
    rcases List.mem_cons.1 mem with same | mem
    · cases same
      exact found.1
    · exact ih mem

/-- No line comment is in a text without comments, and no block that is opened there is closed. -/
theorem Clean.no_comment (clean : Clean cs) :
    ¬ ['/', '/'] <:+: cs ∧
      ∀ front behind, cs = front ++ '/' :: '*' :: behind → ¬ ['*', '/'] <:+: behind := by
  constructor
  · intro line
    exact skip?_cons_eq_none.1 (clean.of_infix line).1 ⟨rfl, .inl rfl⟩
  · rintro front behind rfl closer
    have part : Clean ('/' :: '*' :: behind) := clean.of_infix (List.suffix_append ..).isInfix
    exact skip?_cons_eq_none.1 part.1 ⟨rfl, .inr ⟨rfl, closes_iff_isInfix.2 closer⟩⟩

/-- A text without its comments has no comment left, so that removing them again changes nothing.
The comments are the matches of the pattern, and there is one way to find them. A block ends with
the first closer behind its opener, and a line comment has no line feed in it. -/
theorem strip_cut (cs : List Char) :
    ¬ ['/', '/'] <:+: strip cs ∧
    (∀ front behind, strip cs = front ++ '/' :: '*' :: behind → ¬ ['*', '/'] <:+: behind) ∧
    strip (strip cs) = strip cs ∧
    ∃ ps, (∀ qs, Cut cs qs ↔ qs = ps) ∧ ps.flatMap Piece.text = cs ∧
      strip cs = ps.flatMap Piece.left ∧
      ∀ x, .comment x ∈ ps →
        (∃ inside, x = '/' :: '*' :: (inside ++ ['*', '/']) ∧ ¬ ['*', '/'] <:+: inside ++ ['*']) ∨
        (∃ line, x = '/' :: '/' :: line ∧ '\n' ∉ line) := by
  have clean := clean_strip cs
  obtain ⟨ps, cut, left⟩ := exists_cut cs
  refine ⟨clean.no_comment.1, clean.no_comment.2, strip_of_clean clean, ps, fun qs => ?_, cut.text,
    left, fun x mem => ?_⟩
  · constructor
    · exact fun other => (cut.unique other).symm
    · rintro rfl
      exact cut
  · rcases cut.mem_pattern mem with line | block
    · exact .inr (mem_linePattern.1 line)
    · obtain ⟨inside, rfl, closed⟩ := mem_blockPattern.1 block
      exact .inl ⟨inside, rfl, mt closes_iff_isInfix.2 closed⟩

end MessageCodec.Schema.Comment
