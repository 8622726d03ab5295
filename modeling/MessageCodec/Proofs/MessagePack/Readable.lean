import MessageCodec.MessagePack.Reader
import MessageCodec.Proofs.Bytes

/-! What MessagePack values a reader comes across. Integers have 64 bits and lengths 32, and values
are nested no deeper than the reader goes down. -/

namespace MessageCodec.MessagePack

/-- A value of at most so many levels, with lengths and integers that have a form. Strings and
extensions take one level more. -/
inductive Readable : Nat → MessagePack → Prop where
  | nil {levels : Nat} : Readable (levels + 1) .nil
  | bool {levels : Nat} (b : Bool) : Readable (levels + 1) (.bool b)
  | integer {levels : Nat} {i : Int} (low : -0x8000000000000000 ≤ i)
    (high : i < 0x10000000000000000) : Readable (levels + 1) (.integer i)
  | single {levels : Nat} (bits : UInt32) : Readable (levels + 1) (.single bits)
  | double {levels : Nat} (bits : UInt64) : Readable (levels + 1) (.double bits)
  | string {levels : Nat} {bs : Bytes} (short : bs.length < 0x100000000) :
    Readable (levels + 2) (.string bs)
  | binary {levels : Nat} {bs : Bytes} (short : bs.length < 0x100000000) :
    Readable (levels + 1) (.binary bs)
  | array {levels : Nat} {items : List MessagePack} (short : items.length < 0x100000000)
    (inner : ∀ item ∈ items, Readable levels item) : Readable (levels + 1) (.array items)
  | map {levels : Nat} {pairs : List (MessagePack × MessagePack)}
    (short : pairs.length < 0x100000000) (keys : ∀ pair ∈ pairs, Readable levels pair.1)
    (values : ∀ pair ∈ pairs, Readable levels pair.2) : Readable (levels + 1) (.map pairs)
  | extension {levels : Nat} {data : Bytes} (type : UInt8) (short : data.length < 0x100000000) :
    Readable (levels + 2) (.extension type data)

theorem Readable.mono {levels levels' : Nat} {v : MessagePack} (readable : Readable levels v)
    (le : levels ≤ levels') : Readable levels' v := by
  induction readable generalizing levels' with
  | array short _ ih =>
    obtain ⟨n, rfl⟩ := Nat.exists_eq_add_of_le' (Nat.le_of_add_left_le le)
    exact .array short fun item mem => ih item mem (Nat.le_of_add_le_add_right le)
  | map short _ _ ihKeys ihValues =>
    obtain ⟨n, rfl⟩ := Nat.exists_eq_add_of_le' (Nat.le_of_add_left_le le)
    exact .map short (fun pair mem => ihKeys pair mem (Nat.le_of_add_le_add_right le))
      fun pair mem => ihValues pair mem (Nat.le_of_add_le_add_right le)
  | string short =>
    obtain ⟨n, rfl⟩ := Nat.exists_eq_add_of_le' (Nat.le_of_add_left_le le)
    exact .string short
  | extension type short =>
    obtain ⟨n, rfl⟩ := Nat.exists_eq_add_of_le' (Nat.le_of_add_left_le le)
    exact .extension type short
  | _ =>
    obtain ⟨n, rfl⟩ := Nat.exists_eq_add_of_le' (Nat.le_of_add_left_le le)
    constructor <;> assumption

section Numbers

variable {width n : Nat} {rest : Bytes}

/-- The numbers of so many bytes, half of them negative in two's complement. -/
theorem pow_bits (pos : 0 < width) :
    Nat.pow 2 (8 * width) = 2 * Nat.pow 2 (8 * width - 1) ∧ Nat.pow 2 (8 * width) = 256 ^ width := by
  refine ⟨?_, Nat.pow_mul 2 8 width⟩
  obtain ⟨k, bits⟩ : ∃ k, 8 * width = k + 1 := ⟨8 * width - 1, by omega⟩
  rw [bits, Nat.add_sub_cancel]
  exact Nat.pow_succ'

theorem lt_of_readNumber {bs : Bytes} (read : readNumber width bs = some (n, rest)) :
    n < 256 ^ width := by
  obtain ⟨⟨number, behind⟩, split, same⟩ := Option.map_eq_some_iff.1 read
  cases same
  rw [← (Bytes.append_of_split? split).2]
  exact Bytes.bigEndian_lt number

end Numbers

section Read

variable {levels width n : Nat} {value : Bytes → Option (MessagePack × Bytes)} {bs rest : Bytes}
variable {v : MessagePack}

theorem readable_of_readUnsigned (narrow : width ≤ 8) (h : readUnsigned width bs = some (v, rest)) :
    Readable (levels + 1) v := by
  obtain ⟨⟨n, behind⟩, number, same⟩ := Option.map_eq_some_iff.1 h
  cases same
  have bound := lt_of_readNumber number
  have power : 256 ^ width ≤ 256 ^ 8 := Nat.pow_le_pow_right (by decide) narrow
  exact .integer (by omega) (by omega)

theorem readable_of_readSigned (pos : 0 < width) (narrow : width ≤ 8)
    (h : readSigned width bs = some (v, rest)) : Readable (levels + 1) v := by
  obtain ⟨⟨n, behind⟩, number, same⟩ := Option.map_eq_some_iff.1 h
  cases same
  have bound := lt_of_readNumber number
  obtain ⟨size, power⟩ := pow_bits pos
  have most : 256 ^ width ≤ 256 ^ 8 := Nat.pow_le_pow_right (by decide) narrow
  refine .integer ?_ ?_ <;> split <;> omega

theorem readable_of_withLength {next : Nat → Bytes → Option (MessagePack × Bytes)} (narrow : width ≤ 4)
    (inner : ∀ n < 0x100000000, ∀ bs, next n bs = some (v, rest) → Readable levels v)
    (h : withLength width bs next = some (v, rest)) : Readable levels v := by
  obtain ⟨⟨n, behind⟩, number, read⟩ := Option.bind_eq_some_iff.1 h
  have bound := lt_of_readNumber number
  have power : 256 ^ width ≤ 256 ^ 4 := Nat.pow_le_pow_right (by decide) narrow
  exact inner n (by omega) behind read

theorem readable_of_readBinary (short : n < 0x100000000) (h : readBinary n bs = some (v, rest)) :
    Readable (levels + 1) v := by
  obtain ⟨⟨data, behind⟩, split, same⟩ := Option.map_eq_some_iff.1 h
  cases same
  exact .binary ((Bytes.append_of_split? split).2 ▸ short)

theorem readable_of_readString (short : n < 0x100000000)
    (h : readString levels n bs = some (v, rest)) : Readable (levels + 1) v := by
  rw [readString] at h
  split at h
  · cases h
  · rename_i deep
    obtain ⟨⟨data, behind⟩, split, same⟩ := Option.map_eq_some_iff.1 h
    cases same
    obtain ⟨levels, rfl⟩ := Nat.exists_eq_succ_of_ne_zero deep
    exact .string ((Bytes.append_of_split? split).2 ▸ short)

theorem readable_of_readExtension (short : n < 0x100000000)
    (h : readExtension levels n bs = some (v, rest)) : Readable (levels + 1) v := by
  cases levels with
  | zero => cases h
  | succ levels =>
    cases bs with
    | nil => cases h
    | cons type bs =>
      obtain ⟨⟨data, behind⟩, split, same⟩ := Option.map_eq_some_iff.1 h
      cases same
      exact .extension type ((Bytes.append_of_split? split).2 ▸ short)

section Inner

variable (inner : ∀ {bs rest : Bytes} {v : MessagePack}, value bs = some (v, rest) → Readable levels v)
include inner

theorem readItems_sound {items : List MessagePack} (h : readItems value n bs = some (items, rest)) :
    items.length = n ∧ ∀ item ∈ items, Readable levels item := by
  induction n generalizing bs items with
  | zero =>
    cases h
    exact ⟨rfl, fun item mem => absurd mem List.not_mem_nil⟩
  | succ n ih =>
    rw [readItems] at h
    obtain ⟨⟨item, behind⟩, first, h⟩ := Option.bind_eq_some_iff.1 h
    obtain ⟨⟨items, behind⟩, others, h⟩ := Option.bind_eq_some_iff.1 h
    cases h
    obtain ⟨length, readable⟩ := ih others
    exact ⟨congrArg (· + 1) length, List.forall_mem_cons.2 ⟨inner first, readable⟩⟩

theorem readPairs_sound {pairs : List (MessagePack × MessagePack)}
    (h : readPairs value n bs = some (pairs, rest)) :
    pairs.length = n ∧ ∀ pair ∈ pairs, Readable levels pair.1 ∧ Readable levels pair.2 := by
  induction n generalizing bs pairs with
  | zero =>
    cases h
    exact ⟨rfl, fun pair mem => absurd mem List.not_mem_nil⟩
  | succ n ih =>
    rw [readPairs] at h
    obtain ⟨⟨key, behind⟩, first, h⟩ := Option.bind_eq_some_iff.1 h
    obtain ⟨⟨item, behind⟩, second, h⟩ := Option.bind_eq_some_iff.1 h
    obtain ⟨⟨pairs, behind⟩, others, h⟩ := Option.bind_eq_some_iff.1 h
    cases h
    obtain ⟨length, readable⟩ := ih others
    exact ⟨congrArg (· + 1) length, List.forall_mem_cons.2 ⟨⟨inner first, inner second⟩, readable⟩⟩

theorem readable_of_readArray (short : n < 0x100000000)
    (h : readArray value n bs = some (v, rest)) : Readable (levels + 1) v := by
  obtain ⟨⟨items, behind⟩, read, same⟩ := Option.map_eq_some_iff.1 h
  cases same
  obtain ⟨length, readable⟩ := readItems_sound inner read
  exact .array (length ▸ short) readable

theorem readable_of_readMap (short : n < 0x100000000)
    (h : readMap value n bs = some (v, rest)) : Readable (levels + 1) v := by
  obtain ⟨⟨pairs, behind⟩, read, same⟩ := Option.map_eq_some_iff.1 h
  cases same
  obtain ⟨length, readable⟩ := readPairs_sound inner read
  exact .map (length ▸ short) (fun pair mem => (readable pair mem).1)
    fun pair mem => (readable pair mem).2

theorem readable_of_readMarked {marker : UInt8}
    (h : readMarked levels value marker bs = some (v, rest)) : Readable (levels + 1) v := by
  have byte := marker.toNat_lt
  unfold readMarked at h
  dsimp only at h
  split at h
  · cases h
    exact .integer (by omega) (by omega)
  split at h
  · exact readable_of_readMap inner (by omega) h
  split at h
  · exact readable_of_readArray inner (by omega) h
  split at h
  · exact readable_of_readString (by omega) h
  split at h
  · cases h
    exact .integer (by omega) (by omega)
  have extension (n : Nat) (short : n < 0x100000000) (bs : Bytes)
      (h : readExtension levels n bs = some (v, rest)) : Readable (levels + 1) v :=
    readable_of_readExtension short h
  split at h
  · cases h; exact .bool _
  · cases h; exact .bool _
  · exact readable_of_withLength (by decide) (fun n short bs => readable_of_readBinary short) h
  · exact readable_of_withLength (by decide) (fun n short bs => readable_of_readBinary short) h
  · exact readable_of_withLength (by decide) (fun n short bs => readable_of_readBinary short) h
  · exact readable_of_withLength (by decide) extension h
  · exact readable_of_withLength (by decide) extension h
  · exact readable_of_withLength (by decide) extension h
  · obtain ⟨_, _, same⟩ := Option.map_eq_some_iff.1 h
    cases same
    exact .single _
  · obtain ⟨_, _, same⟩ := Option.map_eq_some_iff.1 h
    cases same
    exact .double _
  · exact readable_of_readUnsigned (by decide) h
  · exact readable_of_readUnsigned (by decide) h
  · exact readable_of_readUnsigned (by decide) h
  · exact readable_of_readUnsigned (by decide) h
  · exact readable_of_readSigned (by decide) (by decide) h
  · exact readable_of_readSigned (by decide) (by decide) h
  · exact readable_of_readSigned (by decide) (by decide) h
  · exact readable_of_readSigned (by decide) (by decide) h
  · exact extension 1 (by decide) _ h
  · exact extension 2 (by decide) _ h
  · exact extension 4 (by decide) _ h
  · exact extension 8 (by decide) _ h
  · exact extension 16 (by decide) _ h
  · exact readable_of_withLength (by decide) (fun n short bs => readable_of_readString short) h
  · exact readable_of_withLength (by decide) (fun n short bs => readable_of_readString short) h
  · exact readable_of_withLength (by decide) (fun n short bs => readable_of_readString short) h
  · exact readable_of_withLength (by decide) (fun n short bs => readable_of_readArray inner short) h
  · exact readable_of_withLength (by decide) (fun n short bs => readable_of_readArray inner short) h
  · exact readable_of_withLength (by decide) (fun n short bs => readable_of_readMap inner short) h
  · exact readable_of_withLength (by decide) (fun n short bs => readable_of_readMap inner short) h
  · cases h; exact .nil

end Inner

theorem readable_of_read (h : read levels bs = some (v, rest)) : Readable levels v := by
  induction levels generalizing bs v rest with
  | zero => cases bs <;> cases h
  | succ levels ih =>
    cases bs with
    | nil => cases h
    | cons marker bs => exact readable_of_readMarked ih h

theorem readable_of_parse? (h : parse? bs = some v) : Readable maxNesting v := by
  obtain ⟨⟨_, rest⟩, read, rfl⟩ := Option.map_eq_some_iff.1 h
  exact readable_of_read read

end Read

end MessageCodec.MessagePack
