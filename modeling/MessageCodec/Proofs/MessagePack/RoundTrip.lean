import MessageCodec.Proofs.MessagePack.Readable

/-! MessagePack values, written and read back. A readable value comes back from its binary form,
but for strings that are no text: they come back as binary data. -/

namespace MessageCodec.MessagePack

mutual

/-- A value as it comes back from its binary form. -/
def settled : MessagePack → MessagePack
  | string bs => if (Utf8.decode? bs).isSome then string bs else binary bs
  | array items => array (settledItems items)
  | map pairs => map (settledPairs pairs)
  | nil => nil
  | bool b => bool b
  | integer i => integer i
  | single bits => single bits
  | double bits => double bits
  | binary bs => binary bs
  | extension type data => extension type data

def settledItems : List MessagePack → List MessagePack
  | [] => []
  | item :: rest => settled item :: settledItems rest

def settledPairs : List (MessagePack × MessagePack) → List (MessagePack × MessagePack)
  | [] => []
  | (key, value) :: rest => (settled key, settled value) :: settledPairs rest

end

theorem settledPairs_eq (pairs : List (MessagePack × MessagePack)) :
    settledPairs pairs = pairs.map fun (key, value) => (settled key, settled value) := by
  induction pairs with
  | nil => rfl
  | cons pair pairs ih => rw [settledPairs, ih, List.map_cons]

theorem length_settledPairs (pairs : List (MessagePack × MessagePack)) :
    (settledPairs pairs).length = pairs.length := by
  rw [settledPairs_eq, List.length_map]

theorem length_settledItems (items : List MessagePack) :
    (settledItems items).length = items.length := by
  induction items with
  | nil => rfl
  | cons item items ih => rw [settledItems, List.length_cons, ih, List.length_cons]

mutual

theorem write_settled (v : MessagePack) : write (settled v) = write v := by
  cases v with
  | string bs =>
    rw [settled]
    split
    · rfl
    · rename_i other
      rw [write, write, if_neg other]
  | array items => rw [settled, write, write, length_settledItems, writeItems_settledItems]
  | map pairs => rw [settled, write, write, length_settledPairs, writePairs_settledPairs]
  | _ => rw [settled]

theorem writeItems_settledItems (items : List MessagePack) :
    writeItems (settledItems items) = writeItems items := by
  cases items with
  | nil => rfl
  | cons item items => rw [settledItems, writeItems, writeItems, write_settled, writeItems_settledItems]

theorem writePairs_settledPairs (pairs : List (MessagePack × MessagePack)) :
    writePairs (settledPairs pairs) = writePairs pairs := by
  cases pairs with
  | nil => rfl
  | cons pair pairs =>
    rw [settledPairs, writePairs, writePairs, write_settled, write_settled, writePairs_settledPairs]

end

@[simp]
theorem text?_settled (v : MessagePack) : (settled v).text? = v.text? := by
  cases v with
  | string bs =>
    rw [settled]
    split
    · rfl
    · rename_i other
      rw [text?, text?]
      · exact (Option.not_isSome_iff_eq_none.1 other).symm
      · rintro bs ⟨⟩
  | _ => rw [settled] <;> rfl

section Numbers

variable {width n : Nat}

theorem split?_ofBigEndian (width n : Nat) (rest : Bytes) :
    Bytes.split? width (Bytes.ofBigEndian width n ++ rest) =
      some (Bytes.ofBigEndian width n, rest) := by
  have split := Bytes.split?_append (Bytes.ofBigEndian width n) rest
  rwa [Bytes.ofBigEndian, List.length_reverse, Bytes.length_ofLittleEndian] at split

theorem readNumber_append (fits : n < 256 ^ width) (rest : Bytes) :
    readNumber width (Bytes.ofBigEndian width n ++ rest) = some (n, rest) := by
  rw [readNumber, split?_ofBigEndian, Option.map_some]
  simp only [Bytes.bigEndian_ofBigEndian fits]

theorem withLength_append {α : Type} (width : Nat) (fits : n < 256 ^ width) (rest : Bytes)
    (next : Nat → Bytes → Option α) :
    withLength width (Bytes.ofBigEndian width n ++ rest) next = next n rest := by
  rw [withLength, readNumber_append fits]
  rfl

end Numbers

section Markers

variable {levels n : Nat} {value : Bytes → Option (MessagePack × Bytes)} {bs : Bytes}

theorem read_cons (levels : Nat) (marker : UInt8) (bs : Bytes) :
    read (levels + 1) (marker :: bs) = readMarked levels (read levels) marker bs := rfl

theorem toNat_marker (base : Nat) (small : base + n < 256) :
    (UInt8.ofNat (base + n)).toNat = base + n := by
  rw [UInt8.toNat_ofNat']
  exact Nat.mod_eq_of_lt small

theorem readMarked_positive (small : n < 0x80) :
    readMarked levels value (UInt8.ofNat n) bs = some (integer n, bs) := by
  have marker : (UInt8.ofNat n).toNat = n := by
    rw [UInt8.toNat_ofNat']
    exact Nat.mod_eq_of_lt (by omega)
  simp only [readMarked, marker, if_pos small]

theorem readMarked_map (small : n < 16) :
    readMarked levels value (UInt8.ofNat (0x80 + n)) bs = readMap value n bs := by
  have marker := toNat_marker (n := n) 0x80 (by omega)
  simp only [readMarked, marker, if_neg (show ¬ 0x80 + n < 0x80 by omega),
    if_pos (show 0x80 + n < 0x90 by omega), Nat.add_sub_cancel_left]

theorem readMarked_array (small : n < 16) :
    readMarked levels value (UInt8.ofNat (0x90 + n)) bs = readArray value n bs := by
  have marker := toNat_marker (n := n) 0x90 (by omega)
  simp only [readMarked, marker, if_neg (show ¬ 0x90 + n < 0x80 by omega),
    if_neg (show ¬ 0x90 + n < 0x90 by omega), if_pos (show 0x90 + n < 0xa0 by omega),
    Nat.add_sub_cancel_left]

theorem readMarked_string (small : n < 32) :
    readMarked levels value (UInt8.ofNat (0xa0 + n)) bs = readString levels n bs := by
  have marker := toNat_marker (n := n) 0xa0 (by omega)
  simp only [readMarked, marker, if_neg (show ¬ 0xa0 + n < 0x80 by omega),
    if_neg (show ¬ 0xa0 + n < 0x90 by omega), if_neg (show ¬ 0xa0 + n < 0xa0 by omega),
    if_pos (show 0xa0 + n < 0xc0 by omega), Nat.add_sub_cancel_left]

theorem readMarked_negative (small : n < 32) :
    readMarked levels value (UInt8.ofNat (0xe0 + n)) bs =
      some (integer ((0xe0 + n : Nat) - 256), bs) := by
  have marker := toNat_marker (n := n) 0xe0 (by omega)
  simp only [readMarked, marker, if_neg (show ¬ 0xe0 + n < 0x80 by omega),
    if_neg (show ¬ 0xe0 + n < 0x90 by omega), if_neg (show ¬ 0xe0 + n < 0xa0 by omega),
    if_neg (show ¬ 0xe0 + n < 0xc0 by omega), if_pos (show 0xe0 ≤ 0xe0 + n by omega)]

theorem readMarked_single : readMarked levels value 0xca bs =
    (readNumber 4 bs).map fun (n, rest) => (single (UInt32.ofNat n), rest) := rfl

theorem readMarked_double : readMarked levels value 0xcb bs =
    (readNumber 8 bs).map fun (n, rest) => (double (UInt64.ofNat n), rest) := rfl

end Markers

section Heads

variable {levels n : Nat}

theorem read_stringHead (short : n < 0x100000000) (bs : Bytes) :
    read (levels + 1) (stringHead n ++ bs) = readString levels n bs := by
  rw [stringHead]
  split
  · rename_i small
    exact readMarked_string small
  split
  · rename_i small
    exact withLength_append 1 small bs (readString levels)
  split
  · rename_i small
    exact withLength_append 2 small bs (readString levels)
  · exact withLength_append 4 short bs (readString levels)

theorem read_binaryHead (short : n < 0x100000000) (bs : Bytes) :
    read (levels + 1) (binaryHead n ++ bs) = readBinary n bs := by
  rw [binaryHead]
  split
  · rename_i small
    exact withLength_append 1 small bs readBinary
  split
  · rename_i small
    exact withLength_append 2 small bs readBinary
  · exact withLength_append 4 short bs readBinary

theorem read_arrayHead (short : n < 0x100000000) (bs : Bytes) :
    read (levels + 1) (arrayHead n ++ bs) = readArray (read levels) n bs := by
  rw [arrayHead]
  split
  · rename_i small
    exact readMarked_array small
  split
  · rename_i small
    exact withLength_append 2 small bs (readArray (read levels))
  · exact withLength_append 4 short bs (readArray (read levels))

theorem read_mapHead (short : n < 0x100000000) (bs : Bytes) :
    read (levels + 1) (mapHead n ++ bs) = readMap (read levels) n bs := by
  rw [mapHead]
  split
  · rename_i small
    exact readMarked_map small
  split
  · rename_i small
    exact withLength_append 2 small bs (readMap (read levels))
  · exact withLength_append 4 short bs (readMap (read levels))

theorem read_extensionHead (short : n < 0x100000000) (bs : Bytes) :
    read (levels + 1) (extensionHead n ++ bs) = readExtension levels n bs := by
  rw [extensionHead]
  split
  · rename_i one
    subst one
    rfl
  split
  · rename_i two
    subst two
    rfl
  split
  · rename_i four
    subst four
    rfl
  split
  · rename_i eight
    subst eight
    rfl
  split
  · rename_i sixteen
    subst sixteen
    rfl
  split
  · rename_i small
    exact withLength_append 1 small bs (readExtension levels)
  split
  · rename_i small
    exact withLength_append 2 small bs (readExtension levels)
  · exact withLength_append 4 short bs (readExtension levels)

theorem readSigned_append (width : Nat) {i : Int} (pos : 0 < width)
    (low : -(Nat.pow 2 (8 * width - 1) : Int) ≤ i) (high : i < 0) (bs : Bytes) :
    readSigned width (Bytes.ofBigEndian width (Nat.pow 2 (8 * width) + i).toNat ++ bs) =
      some (integer i, bs) := by
  obtain ⟨size, power⟩ := pow_bits pos
  have wrapped : ((Nat.pow 2 (8 * width) + i).toNat : Int) = Nat.pow 2 (8 * width) + i :=
    Int.toNat_of_nonneg (by omega)
  rw [readSigned, readNumber_append (by rw [← power]; omega), Option.map_some]
  dsimp only
  rw [if_neg (by omega), wrapped]
  congr 3
  omega

theorem read_writeInteger {i : Int} (low : -0x8000000000000000 ≤ i)
    (high : i < 0x10000000000000000) (bs : Bytes) :
    read (levels + 1) (writeInteger i ++ bs) = some (integer i, bs) := by
  rw [writeInteger]
  split
  · rename_i nonnegative
    have value : (i.toNat : Int) = i := Int.toNat_of_nonneg nonnegative
    have unsigned (width : Nat) (fits : i.toNat < 256 ^ width) :
        readUnsigned width (Bytes.ofBigEndian width i.toNat ++ bs) = some (integer i, bs) := by
      rw [readUnsigned, readNumber_append fits, Option.map_some]
      simp only [value]
    dsimp only
    split
    · rename_i small
      refine (readMarked_positive small).trans ?_
      rw [value]
      rfl
    split
    · exact unsigned 1 (by omega)
    split
    · exact unsigned 2 (by omega)
    split
    · exact unsigned 4 (by omega)
    · exact unsigned 8 (by omega)
  · rename_i negative
    split
    · rename_i small
      obtain ⟨n, marker⟩ : ∃ n : Nat, (256 + i).toNat = 0xe0 + n := ⟨(32 + i).toNat, by omega⟩
      have value : ((0xe0 + n : Nat) : Int) - 256 = i := by omega
      rw [marker, ← value]
      exact readMarked_negative (by omega)
    split
    · exact readSigned_append 1 (by decide) (by omega) (by omega) bs
    split
    · exact readSigned_append 2 (by decide) (by omega) (by omega) bs
    split
    · exact readSigned_append 4 (by decide) (by omega) (by omega) bs
    · exact readSigned_append 8 (by decide) (by omega) (by omega) bs

end Heads

section Written

variable {value : Bytes → Option (MessagePack × Bytes)}

theorem readItems_writeItems {items : List MessagePack}
    (read : ∀ item ∈ items, ∀ rest, value (write item ++ rest) = some (settled item, rest))
    (rest : Bytes) :
    readItems value items.length (writeItems items ++ rest) = some (settledItems items, rest) := by
  induction items with
  | nil => rfl
  | cons item items ih =>
    rw [List.forall_mem_cons] at read
    rw [writeItems, List.append_assoc, List.length_cons, readItems, read.1]
    simp only [Option.bind_eq_bind, Option.bind_some, ih read.2]
    rfl

theorem readPairs_writePairs {pairs : List (MessagePack × MessagePack)}
    (keys : ∀ pair ∈ pairs, ∀ rest, value (write pair.1 ++ rest) = some (settled pair.1, rest))
    (values : ∀ pair ∈ pairs, ∀ rest, value (write pair.2 ++ rest) = some (settled pair.2, rest))
    (rest : Bytes) :
    readPairs value pairs.length (writePairs pairs ++ rest) = some (settledPairs pairs, rest) := by
  induction pairs with
  | nil => rfl
  | cons pair pairs ih =>
    rw [List.forall_mem_cons] at keys values
    rw [writePairs, List.append_assoc, List.append_assoc, List.length_cons, readPairs, keys.1]
    simp only [Option.bind_eq_bind, Option.bind_some, values.1, ih keys.2 values.2]
    rfl

theorem Readable.read_write {levels : Nat} {v : MessagePack} (readable : Readable levels v)
    (rest : Bytes) : read levels (write v ++ rest) = some (settled v, rest) := by
  induction readable generalizing rest with
  | nil => rfl
  | bool b => cases b <;> rfl
  | integer low high => exact read_writeInteger low high rest
  | single bits =>
    rw [write, settled, marked, List.cons_append, read_cons, readMarked_single,
      readNumber_append bits.toNat_lt]
    simp only [Option.map_some, UInt32.ofNat_toNat]
  | double bits =>
    rw [write, settled, marked, List.cons_append, read_cons, readMarked_double,
      readNumber_append bits.toNat_lt]
    simp only [Option.map_some, UInt64.ofNat_toNat]
  | string short =>
    rw [write, settled, List.append_assoc]
    split
    · rw [read_stringHead short, readString, if_neg (Nat.succ_ne_zero _), Bytes.split?_append]
      rfl
    · rw [read_binaryHead short, readBinary, Bytes.split?_append]
      rfl
  | binary short =>
    rw [write, settled, List.append_assoc, read_binaryHead short, readBinary, Bytes.split?_append]
    rfl
  | array short _ ih =>
    rw [write, settled, List.append_assoc, read_arrayHead short, readArray,
      readItems_writeItems ih]
    rfl
  | map short _ _ ihKeys ihValues =>
    rw [write, settled, List.append_assoc, read_mapHead short, readMap,
      readPairs_writePairs ihKeys ihValues]
    rfl
  | extension type short =>
    rw [write, settled, List.append_assoc, read_extensionHead short, List.cons_append,
      readExtension, Bytes.split?_append]
    rfl

theorem Readable.parse?_write {v : MessagePack} (readable : Readable maxNesting v) :
    parse? (write v) = some (settled v) := by
  have read := readable.read_write []
  rw [List.append_nil] at read
  rw [parse?, read]
  rfl

end Written

end MessageCodec.MessagePack
