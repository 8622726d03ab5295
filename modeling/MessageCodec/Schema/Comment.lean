/-! Comments in a specification. A line comment runs up to the line feed that ends its line, a block
comment up to the first closer after its opener. A block opener that is never closed is ordinary
text. Nothing is left in the place of a comment, and string literals do not protect their text. -/

namespace MessageCodec.Schema.Comment

/-- What follows the first block closer in a text. -/
def afterCloser? : List Char → Option (List Char)
  | [] => none
  | '*' :: '/' :: rest => some rest
  | _ :: rest => afterCloser? rest

/-- The rest of a text, from its first line feed on. -/
def fromLineEnd (cs : List Char) : List Char := cs.dropWhile (· != '\n')

/-- What follows a comment at the start of a text, if one starts there. -/
def skip? : List Char → Option (List Char)
  | '/' :: '/' :: rest => some (fromLineEnd rest)
  | '/' :: '*' :: rest => afterCloser? rest
  | _ => none

theorem length_afterCloser? {cs rest : List Char} (h : afterCloser? cs = some rest) :
    rest.length < cs.length := by
  fun_induction afterCloser? cs with
  | case1 => cases h
  | case2 rest' => cases h; simp only [List.length_cons]; omega
  | case3 _ _ _ ih => exact Nat.lt_succ_of_lt (ih h)

theorem length_fromLineEnd (cs : List Char) : (fromLineEnd cs).length ≤ cs.length :=
  (List.dropWhile_sublist _).length_le

theorem length_skip? {cs rest : List Char} (h : skip? cs = some rest) :
    rest.length < cs.length := by
  unfold skip? at h
  split at h
  · cases h
    have := length_fromLineEnd (by assumption)
    simp only [List.length_cons]
    omega
  · have := length_afterCloser? h
    simp only [List.length_cons]
    omega
  · cases h

/-- A text without its comments, found from left to right. -/
def strip (cs : List Char) : List Char :=
  match h : skip? cs with
  | some rest =>
    have := length_skip? h
    strip rest
  | none =>
    match cs with
    | [] => []
    | c :: rest => c :: strip rest
termination_by cs.length

end MessageCodec.Schema.Comment
