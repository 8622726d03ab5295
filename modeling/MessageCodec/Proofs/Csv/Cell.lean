import Mathlib.Data.List.Basic
import MessageCodec.Csv
import MessageCodec.Decimal

/-! What can stand in a cell. Numbers are digits with a sign and a point, or the name of an
infinity or a NaN, and texts and bytes are quoted Base64. Only a character is written as it is, so
it is the one value whose cell can hold a delimiter or a line break. -/

namespace MessageCodec

namespace Csv

/-- The characters that are written for the values of all types but `char`. -/
def isCellChar (c : Char) : Bool := c.isAlphanum || "\"+/=-.".toList.contains c

theorem isCellChar_of_isDigit {c : Char} (digit : c.isDigit) : isCellChar c := by
  simp [isCellChar, Char.isAlphanum, digit]

end Csv

namespace Text.Base64

theorem isCellChar_character : ∀ n < 64, Csv.isCellChar (character n) := by decide

theorem isCellChar_of_mem_encode (bs : Bytes) : ∀ c ∈ encode bs, Csv.isCellChar c := by
  have sextet {n : Nat} (small : n < 64) : Csv.isCellChar (character n) :=
    isCellChar_character n small
  have equals : Csv.isCellChar '=' := by decide
  fun_induction encode bs with
  | case1 x y z rest n ih =>
    have hx := x.toNat_lt
    have hn : n = 65536 * x.toNat + 256 * y.toNat + z.toNat := rfl
    have hy := y.toNat_lt
    have hz := z.toNat_lt
    simp only [List.forall_mem_cons]
    exact ⟨sextet (by omega), sextet (by omega), sextet (by omega), sextet (by omega), ih⟩
  | case2 x y n =>
    have hx := x.toNat_lt
    have hy := y.toNat_lt
    have hn : n = 256 * x.toNat + y.toNat := rfl
    simp only [List.forall_mem_cons]
    exact ⟨sextet (by omega), sextet (by omega), sextet (by omega), equals, List.forall_mem_nil _⟩
  | case3 x =>
    have hx := x.toNat_lt
    simp only [List.forall_mem_cons]
    exact ⟨sextet (by omega), sextet (by omega), equals, equals, List.forall_mem_nil _⟩
  | case4 => exact List.forall_mem_nil _

end Text.Base64

namespace Csv

variable {c : Char}

theorem isCellChar_of_mem_ofInt {i : Int} (mem : c ∈ Decimal.ofInt i) : isCellChar c := by
  rw [Decimal.ofInt] at mem
  split at mem
  · rcases List.mem_cons.1 mem with rfl | mem
    · decide
    · exact isCellChar_of_isDigit (Decimal.isDigit_of_mem_digits mem)
  · exact isCellChar_of_isDigit (Decimal.isDigit_of_mem_digits mem)

/-- Digits stay digits where a point and zeros are put between them. -/
theorem isCellChar_of_mem_positional {layout : Decimal.Layout} {ds : List Char}
    (digits : ∀ c ∈ ds, c.isDigit) {whole : Int} (mem : c ∈ layout.positional ds whole) :
    isCellChar c := by
  have zero : isCellChar '0' := by decide
  have point : isCellChar '.' := by decide
  have digit {c : Char} (mem : c ∈ ds) : isCellChar c := isCellChar_of_isDigit (digits c mem)
  have zeros {n : Nat} (mem : c ∈ List.replicate n '0') : isCellChar c :=
    List.eq_of_mem_replicate mem ▸ zero
  have ending (mem : c ∈ if layout.keepsPoint then ['.', '0'] else []) : isCellChar c := by
    split at mem
    · rcases List.mem_pair.1 mem with rfl | rfl
      · exact point
      · exact zero
    · cases mem
  simp only [Decimal.Layout.positional] at mem
  split at mem
  · simp only [List.mem_cons, List.mem_append] at mem
    rcases mem with rfl | rfl | mem | mem
    · exact zero
    · exact point
    · exact zeros mem
    · exact digit mem
  · split at mem
    · simp only [List.mem_append] at mem
      rcases mem with (mem | mem) | mem
      · exact digit mem
      · exact zeros mem
      · exact ending mem
    · simp only [List.mem_append, List.mem_cons] at mem
      rcases mem with mem | rfl | mem
      · exact digit (List.mem_of_mem_take mem)
      · exact point
      · exact digit (List.mem_of_mem_drop mem)

theorem isCellChar_of_mem_render {number : Decimal.Scientific} (mem : c ∈ layout.render number) :
    isCellChar c := by
  refine isCellChar_of_mem_positional (fun d inside => ?_) mem
  have kept := (List.dropWhile_sublist _).subset (List.mem_reverse.1 inside)
  exact Decimal.isDigit_of_mem_digits (List.mem_reverse.1 kept)

theorem isCellChar_of_mem_renderNumber {f : Binary.Format} {bits : Nat}
    (mem : c ∈ renderNumber f bits) : isCellChar c := by
  have nan : ∀ c ∈ "NaN".toList, isCellChar c := by simp [isCellChar]
  have infinite : ∀ c ∈ "-inf".toList ++ "inf".toList, isCellChar c := by simp [isCellChar]
  have sign {negative : Bool} (mem : c ∈ if negative then ['-'] else []) : isCellChar c := by
    split at mem
    · exact List.mem_singleton.1 mem ▸ by decide
    · cases mem
  rw [renderNumber] at mem
  split at mem
  · exact nan c mem
  · split at mem
    · exact infinite c (List.mem_append_left _ mem)
    · exact infinite c (List.mem_append_right _ mem)
  · simp only at mem
    split at mem
    · rcases List.mem_append.1 mem with mem | mem
      · exact sign mem
      · exact List.mem_singleton.1 mem ▸ by decide
    · rcases List.mem_append.1 mem with mem | mem
      · exact sign mem
      · exact isCellChar_of_mem_render mem

theorem isCellChar_of_mem_quoted {bs : Bytes} (mem : c ∈ quoted bs) : isCellChar c := by
  have quote : isCellChar '"' := by decide
  simp only [quoted, List.mem_append, List.mem_cons, List.not_mem_nil, or_false] at mem
  rcases mem with (rfl | mem) | rfl
  · exact quote
  · exact Text.Base64.isCellChar_of_mem_encode bs c mem
  · exact quote

/-- The cells of all values but characters are made of a few characters. -/
theorem isCellChar_of_mem_cell {s : Scalar} (type : s.type ≠ .char)
    (mem : c ∈ cell s.type s.value) : isCellChar c := by
  obtain ⟨t, v⟩ := s
  cases t with
  | char => exact absurd rfl type
  | bool => cases v <;> exact List.mem_singleton.1 mem ▸ by decide
  | int w => exact isCellChar_of_mem_ofInt mem
  | uint w => exact isCellChar_of_isDigit (Decimal.isDigit_of_mem_digits mem)
  | float => exact isCellChar_of_mem_renderNumber mem
  | double => exact isCellChar_of_mem_renderNumber mem
  | string => exact isCellChar_of_mem_quoted mem
  | bytes => exact isCellChar_of_mem_quoted mem

/-- A character that no number and no Base64 holds is found in the cell of itself only. -/
theorem mem_cell_iff (apart : isCellChar c = false) (s : Scalar) :
    c ∈ cell s.type s.value ↔ s = ⟨.char, c⟩ := by
  constructor
  · intro mem
    have type : s.type = .char := by
      by_contra other
      rw [isCellChar_of_mem_cell other mem] at apart
      cases apart
    obtain ⟨t, v⟩ := s
    cases type
    rw [List.mem_singleton.1 mem]
  · rintro rfl
    exact List.mem_singleton_self c

end Csv

end MessageCodec
