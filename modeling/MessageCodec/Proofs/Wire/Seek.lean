import MessageCodec.Proofs.Wire.Framing

/-! What a cursor finds at an offset of its buffer: the next bytes, a numeral, or content behind
its length. Each read succeeds just if a piece of the wanted form is there, and then the cursor is
behind that piece. A read that fails says where it began. -/

namespace MessageCodec.Wire

def ReadError.offset : ReadError → Nat
  | short offset _ _ => offset
  | truncatedVarint offset => offset
  | longVarint offset => offset
  | unknownType offset _ => offset
  | longLength offset _ _ => offset

theorem error_of_map {ε α β : Type} {r : Except ε α} {f : α → β} {e : ε}
    (h : r.map f = .error e) : r = .error e := by
  cases r with
  | error e =>
    cases h
    rfl
  | ok a => cases h

namespace Varint

theorem isNumeral_of_readNumeral {limit n : Nat} {bs rest : Bytes}
    (h : readNumeral limit bs = .ok (n, rest)) :
    ∃ front, front <+: bs ∧ IsNumeral front ∧ front.length ≤ limit := by
  fun_induction readNumeral limit bs generalizing n rest with
  | case1 => cases h
  | case2 => cases h
  | case3 limit b bs small =>
    exact ⟨[b], ⟨bs, rfl⟩, ⟨[], b, rfl, by simp, small⟩, Nat.succ_le_succ (Nat.zero_le limit)⟩
  | case4 limit b bs large ih =>
    obtain ⟨_, taken, -⟩ := ok_of_map_fst (f := fun n => b.toNat % 128 + 128 * n) h
    obtain ⟨_, inside, ⟨front, last, rfl, more, stop⟩, short⟩ := ih taken
    refine ⟨b :: (front ++ [last]), ?_, ⟨b :: front, last, rfl, ?_, stop⟩, ?_⟩
    · exact (List.prefix_cons_inj b).2 inside
    · exact List.forall_mem_cons.2 ⟨UInt8.not_lt.1 large, more⟩
    · exact Nat.succ_le_succ short

theorem isNumeral_of_read {bs rest : Bytes} {value : UInt64} (h : read bs = .ok (value, rest)) :
    ∃ front, front <+: bs ∧ IsNumeral front ∧ front.length ≤ maxLength := by
  obtain ⟨_, taken, -⟩ := ok_of_map_fst h
  exact isNumeral_of_readNumeral taken

end Varint

namespace Cursor

def seek (buffer : Bytes) (k : Nat) : Cursor := ⟨buffer, buffer.drop k⟩

variable {buffer numeral content : Bytes} {k : Nat} {after : Cursor}

theorem offset_seek (within : k ≤ buffer.length) : (seek buffer k).offset = k := by
  have length : (buffer.drop k).length = buffer.length - k := List.length_drop
  rw [offset, seek, length]
  exact Nat.sub_sub_self within

theorem seek_of_front {bs : Bytes} (front : bs <+: buffer.drop k) :
    seek buffer k = ⟨buffer, bs ++ buffer.drop (k + bs.length)⟩ := by
  obtain ⟨rest, whole⟩ := front
  have behind : buffer.drop (k + bs.length) = rest := by
    rw [← List.drop_drop, ← whole, List.drop_left]
  rw [seek, behind, whole]

theorem varint_of_front {bs : Bytes} (front : bs <+: buffer.drop k)
    (numeral : Varint.IsNumeral bs) (short : bs.length ≤ Varint.maxLength) :
    varint (seek buffer k) =
      .ok (UInt64.ofNat (Varint.denoted bs), seek buffer (k + bs.length)) := by
  rw [seek_of_front front, varint_of_numeral numeral short]
  rfl

theorem le_of_front {bs : Bytes} (within : k ≤ buffer.length) (front : bs <+: buffer.drop k) :
    k + bs.length ≤ buffer.length := by
  have length := front.length_le
  rw [List.length_drop] at length
  omega

/-- Two pieces are at an offset if the first is there and the second is behind it. -/
theorem front_append_iff {bs : Bytes} :
    bs ++ content <+: buffer.drop k ↔
      bs <+: buffer.drop k ∧ content <+: buffer.drop (k + bs.length) := by
  rw [← List.drop_drop]
  constructor
  · rintro ⟨rest, whole⟩
    rw [← whole, List.append_assoc, List.drop_left]
    exact ⟨List.prefix_append .., List.prefix_append ..⟩
  · rintro ⟨⟨rest, whole⟩, inside⟩
    rw [← whole, List.drop_left] at inside
    rw [← whole]
    exact (List.prefix_append_right_inj bs).2 inside

theorem remaining_seek (buffer : Bytes) (k : Nat) :
    (seek buffer k).remaining = buffer.length - k := by
  rw [remaining, seek, List.length_drop]

theorem bytes_seek (n : Nat) (buffer : Bytes) (k : Nat) :
    bytes n (seek buffer k) =
      if n ≤ (seek buffer k).remaining then .ok ((buffer.drop k).take n, seek buffer (k + n))
      else .error (.short (seek buffer k).offset n (seek buffer k).remaining) := by
  rw [bytes, Bytes.split?_eq, remaining]
  by_cases room : n ≤ (seek buffer k).rest.length
  · rw [if_pos room, if_pos room]
    simp only [seek, List.drop_drop]
  · rw [if_neg room, if_neg room]

theorem bytes_of_front {bs : Bytes} (front : bs <+: buffer.drop k) :
    bytes bs.length (seek buffer k) = .ok (bs, seek buffer (k + bs.length)) := by
  rw [seek_of_front front, bytes_append]
  rfl

theorem front_of_bytes {n : Nat} {bs : Bytes} (h : bytes n (seek buffer k) = .ok (bs, after)) :
    bs <+: buffer.drop k ∧ bs.length = n ∧ after = seek buffer (k + bs.length) := by
  rw [bytes_seek, remaining] at h
  split at h
  · rename_i room
    cases h
    have length : ((buffer.drop k).take n).length = n := List.length_take_of_le room
    rw [length]
    exact ⟨List.take_prefix n _, rfl, rfl⟩
  · cases h

theorem fault_of_bytes {n : Nat} {c : Cursor} {fault : ReadError} (h : c.bytes n = .error fault) :
    fault = .short c.offset n c.remaining := by
  rw [bytes] at h
  split at h <;> cases h
  rfl

theorem fault_of_varint {c : Cursor} {fault : ReadError} (h : c.varint = .error fault) :
    fault = .truncatedVarint c.offset ∨ fault = .longVarint c.offset := by
  rw [varint] at h
  split at h <;> cases h
  · exact .inl rfl
  · exact .inr rfl

theorem front_of_varint {value : UInt64} (h : varint (seek buffer k) = .ok (value, after)) :
    ∃ numeral, numeral <+: buffer.drop k ∧ Varint.IsNumeral numeral ∧
      numeral.length ≤ Varint.maxLength ∧ value = .ofNat (Varint.denoted numeral) ∧
      after = seek buffer (k + numeral.length) := by
  have taken := h
  rw [varint] at taken
  split at taken
  · rename_i spelled
    obtain ⟨numeral, front, digits, short⟩ := Varint.isNumeral_of_read spelled
    -- that numeral is read, and there is only one thing that a read can give
    cases h.symm.trans (varint_of_front front digits short)
    exact ⟨numeral, front, digits, short, rfl, rfl⟩
  · cases taken
  · cases taken

theorem fault_of_delimited {c : Cursor} {fault : ReadError} (h : c.delimited = .error fault) :
    c.varint = .error fault ∨
      ∃ length remaining, fault = .longLength c.offset length remaining := by
  rw [delimited] at h
  split at h
  · rename_i number
    cases h
    exact .inl number
  · split at h <;> cases h
    exact .inr ⟨_, _, rfl⟩

/-- The content is read behind its length, and is there if enough is left behind that. -/
theorem delimited_seek (buffer : Bytes) (k : Nat) :
    delimited (seek buffer k) = match varint (seek buffer k) with
      | .error fault => .error fault
      | .ok (length, behind) =>
        if length.toNat ≤ behind.remaining then behind.bytes length.toNat
        else .error (.longLength (seek buffer k).offset length behind.remaining) := by
  rw [delimited]
  cases number : varint (seek buffer k) with
  | error fault => rfl
  | ok pair =>
    obtain ⟨length, behind⟩ := pair
    obtain ⟨numeral, -, -, -, -, rfl⟩ := front_of_varint number
    dsimp only
    rw [Bytes.split?_eq, bytes_seek, remaining]
    by_cases room : length.toNat ≤ (seek buffer (k + numeral.length)).rest.length
    · rw [if_pos room, if_pos room, if_pos room]
      simp only [seek, List.drop_drop]
    · rw [if_neg room, if_neg room]

theorem delimited_of_front (front : numeral ++ content <+: buffer.drop k)
    (digits : Varint.IsNumeral numeral) (short : numeral.length ≤ Varint.maxLength)
    (length : (UInt64.ofNat (Varint.denoted numeral)).toNat = content.length) :
    delimited (seek buffer k) =
      .ok (content, seek buffer (k + (numeral ++ content).length)) := by
  obtain ⟨number, inside⟩ := front_append_iff.1 front
  have room : content.length ≤ (seek buffer (k + numeral.length)).remaining := inside.length_le
  rw [delimited_seek, varint_of_front number digits short]
  dsimp only
  rw [length, if_pos room, bytes_of_front inside, List.length_append, Nat.add_assoc]

theorem front_of_delimited (h : delimited (seek buffer k) = .ok (content, after)) :
    ∃ numeral, numeral ++ content <+: buffer.drop k ∧ Varint.IsNumeral numeral ∧
      numeral.length ≤ Varint.maxLength ∧
      (UInt64.ofNat (Varint.denoted numeral)).toNat = content.length ∧
      after = seek buffer (k + (numeral ++ content).length) := by
  have taken := h
  rw [delimited_seek] at taken
  split at taken
  · cases taken
  · rename_i number
    obtain ⟨numeral, front, digits, short, rfl, rfl⟩ := front_of_varint number
    split at taken
    · obtain ⟨inside, length, -⟩ := front_of_bytes taken
      have whole := front_append_iff.2 ⟨front, inside⟩
      cases h.symm.trans (delimited_of_front whole digits short length.symm)
      exact ⟨numeral, whole, digits, short, length.symm, rfl⟩
    · cases taken

/-- A length is too long just if it can be read and is more than what is behind it. -/
theorem delimited_longLength_iff {start remaining : Nat} {length : UInt64} :
    delimited (seek buffer k) = .error (.longLength start length remaining) ↔
      start = (seek buffer k).offset ∧ ∃ numeral, numeral <+: buffer.drop k ∧
        Varint.IsNumeral numeral ∧ numeral.length ≤ Varint.maxLength ∧
        length = .ofNat (Varint.denoted numeral) ∧
        remaining = buffer.length - (k + numeral.length) ∧ remaining < length.toNat := by
  rw [delimited_seek]
  constructor
  · intro failed
    split at failed
    · rename_i fault number
      cases failed
      rcases fault_of_varint number with other | other <;> cases other
    · rename_i behind number
      obtain ⟨numeral, front, digits, short, rfl, rfl⟩ := front_of_varint number
      split at failed
      · rename_i room
        rw [bytes_seek, if_pos room] at failed
        cases failed
      · rename_i large
        cases failed
        exact ⟨rfl, numeral, front, digits, short, rfl, remaining_seek .., Nat.lt_of_not_le large⟩
  · rintro ⟨rfl, numeral, front, digits, short, rfl, rfl, large⟩
    rw [varint_of_front front digits short]
    dsimp only
    rw [remaining_seek, if_neg (Nat.not_le.2 large)]

end Cursor

end MessageCodec.Wire
