import Mathlib.Data.Nat.Bitwise
import MessageCodec.Proofs.Wire.Seek
import MessageCodec.Wire.Head

/-! Runs of reads with a head that is moved in place. Each read does what a cursor does that is not
moved before the whole is there, and puts the head back if it fails. So a head never leaves
its buffer, a call that fails changes nothing, and one that succeeds consumes just the bytes that
it yields its value of, however many calls came before it and whichever of them failed. -/

namespace MessageCodec.Wire

namespace Cursor

variable {buffer : Bytes} {k : Nat}

def head (c : Cursor) : Head := ⟨c.buffer, c.offset⟩

theorem head_seek (within : k ≤ buffer.length) : (seek buffer k).head = ⟨buffer, k⟩ := by
  rw [head, offset_seek within]
  rfl

end Cursor

namespace Head

variable {α β : Type}

/-! ### Steps of a read -/

section Steps

variable {h after : Head} {a : α} {fault : ReadError}

theorem get_bind (next : Head → Read α) (h : Head) : (get >>= next) h = next h h :=
  rfl

theorem bind_of_ok {first : Read α} (done : first h = .ok a after) (next : α → Read β) :
    (first >>= next) h = next a after := by
  simp only [bind, EStateM.bind, done]

theorem bind_of_error {first : Read α} (failed : first h = .error fault after)
    (next : α → Read β) : (first >>= next) h = .error fault after := by
  simp only [bind, EStateM.bind, failed]

end Steps

/-! ### Digits of a numeral -/

theorem toNat_digit (b : UInt8) : (b &&& 0x7F).toNat = b.toNat % 128 := by
  rw [UInt8.toNat_and, show (0x7F : UInt8).toNat = 2 ^ 7 - 1 from rfl,
    Nat.and_two_pow_sub_one_eq_mod]

/-- The top bit of a byte is not set just if the byte is the last one of a numeral. -/
theorem top_eq_zero_iff (b : UInt8) : b &&& 0x80 = 0 ↔ b < 128 := by
  have bound := b.toNat_lt
  have top : (b &&& 0x80).toNat = (b.toNat.testBit 7).toNat * 2 ^ 7 := by
    rw [UInt8.toNat_and, show (0x80 : UInt8).toNat = 2 ^ 7 from rfl, Nat.and_two_pow]
  rw [← UInt8.toNat_inj, UInt8.lt_iff_toNat_lt, top, Nat.testBit_eq_decide_div_mod_eq]
  by_cases large : b.toNat / 2 ^ 7 % 2 = 1
  · simp only [large, decide_true]
    exact iff_of_false (by decide) (by simp; omega)
  · simp only [large, decide_false]
    exact iff_of_true rfl (by simp; omega)

/-- A digit that is shifted beyond those read so far does not meet them. -/
theorem or_digit {acc shift : Nat} (small : acc < 2 ^ shift) (room : shift < 64) (b : UInt8) :
    UInt64.ofNat acc ||| ((b &&& 0x7F).toUInt64 <<< .ofNat shift) =
      .ofNat (acc + 2 ^ shift * (b.toNat % 128)) := by
  have digit : (b &&& 0x7F).toUInt64 = .ofNat (b.toNat % 128) := by
    rw [← toNat_digit, ← UInt8.toNat_toUInt64, UInt64.ofNat_toNat]
  rw [digit, ← UInt64.ofNat_shiftLeft _ _ room, ← UInt64.ofNat_or, Nat.or_comm,
    ← Nat.shiftLeft_add_eq_or_of_lt small, Nat.shiftLeft_eq, Nat.mul_comm, Nat.add_comm]

/-- With one digit more a number has seven bits more. -/
theorem add_digit_lt {acc shift : Nat} (small : acc < 2 ^ shift) (b : UInt8) :
    acc + 2 ^ shift * (b.toNat % 128) < 2 ^ (shift + 7) := by
  have digit : b.toNat % 128 + 1 ≤ 2 ^ 7 := Nat.mod_lt _ (by decide)
  calc acc + 2 ^ shift * (b.toNat % 128)
      < 2 ^ shift + 2 ^ shift * (b.toNat % 128) := Nat.add_lt_add_right small _
    _ = 2 ^ shift * (b.toNat % 128 + 1) := by rw [Nat.mul_add, Nat.mul_one, Nat.add_comm]
    _ ≤ 2 ^ shift * 2 ^ 7 := Nat.mul_le_mul_left _ digit
    _ = 2 ^ (shift + 7) := (Nat.pow_add ..).symm

/-! ### A head follows a cursor -/

/-- A head that goes where a cursor is after a read, and stays if the read failed. -/
def settle (h : Head) : Except ReadError (α × Cursor) → EStateM.Result ReadError Head α
  | .ok (a, after) => .ok a after.head
  | .error fault => .error fault h

/-- A read in place that does, wherever the head is in a buffer, what a read with a cursor does. -/
def Follows (read : Read α) (plain : Cursor → Except ReadError (α × Cursor)) : Prop :=
  ∀ (buffer : Bytes) (k : Nat), k ≤ buffer.length →
    read ⟨buffer, k⟩ = settle ⟨buffer, k⟩ (plain (.seek buffer k))

theorem Follows.map {read : Read α} {plain : Cursor → Except ReadError (α × Cursor)}
    (follows : Follows read plain) (f : α → β) :
    Follows (f <$> read) fun c => (plain c).map fun (a, after) => (f a, after) := by
  intro buffer k within
  have same := follows buffer k within
  simp only [Functor.map, EStateM.map, same]
  cases plain (.seek buffer k) <;> rfl

theorem bytes_eq (h : Head) (n : Nat) :
    bytes n h =
      if n ≤ h.remaining then .ok ((h.buffer.drop h.offset).take n) (h.advance n)
      else .error (.short h.offset n h.remaining) h := by
  rw [bytes, get_bind]
  split
  · rfl
  · rfl

theorem follows_bytes (n : Nat) : Follows (bytes n) (Cursor.bytes n) := by
  intro buffer k within
  rw [bytes_eq, Cursor.bytes_seek, Cursor.remaining_seek, Cursor.offset_seek within, remaining]
  dsimp only
  split
  · rename_i room
    rw [settle, Cursor.head_seek (by omega)]
    rfl
  · rfl

theorem follows_u32 : Follows u32 Cursor.u32 :=
  (follows_bytes 4).map fun bs => UInt32.ofNat (Bytes.littleEndian bs)

theorem follows_u64 : Follows u64 Cursor.u64 :=
  (follows_bytes 8).map fun bs => UInt64.ofNat (Bytes.littleEndian bs)

section Digits

variable {start left shift : Nat} {value : UInt64} {h : Head}

theorem digits_of_nil (ended : h.buffer.drop h.offset = []) :
    digits start (left + 1) shift value h = .error (.truncatedVarint start) (h.putBack start) := by
  have nothing : h.buffer[h.offset]? = none := by rw [← List.head?_drop, ended, List.head?_nil]
  rw [digits, get_bind, nothing]
  rfl

theorem digits_of_cons {b : UInt8} {bs : Bytes} (next : h.buffer.drop h.offset = b :: bs) :
    digits start (left + 1) shift value h =
      let value := value ||| ((b &&& 0x7F).toUInt64 <<< .ofNat shift)
      if b < 128 then .ok value (h.advance 1)
      else digits start left (shift + 7) value (h.advance 1) := by
  have byte : h.buffer[h.offset]? = some b := by rw [← List.head?_drop, next, List.head?_cons]
  have passed : (modify (advance 1) : Read Unit) h = .ok () (h.advance 1) := rfl
  rw [digits, get_bind, byte]
  simp only [bind_of_ok passed, top_eq_zero_iff]
  by_cases last : b < 128
  · rw [if_pos last, if_pos last]
    rfl
  · rw [if_neg last, if_neg last]

end Digits

/-- The digits that are left add to the number that has been read, and the head is put back to the
start if they do not end. -/
theorem digits_eq (start left shift acc : Nat) (room : shift + 7 * left = 7 * Varint.maxLength)
    (small : acc < 2 ^ shift) (h : Head) :
    digits start left shift (.ofNat acc) h =
      match Varint.readNumeral left (h.buffer.drop h.offset) with
      | .ok (n, rest) =>
        .ok (.ofNat (acc + 2 ^ shift * n)) ⟨h.buffer, h.buffer.length - rest.length⟩
      | .error .truncated => .error (.truncatedVarint start) (h.putBack start)
      | .error .tooLong => .error (.longVarint start) (h.putBack start) := by
  -- on the digits that may still come; the head has gone on since `start`, the fault has not
  induction left generalizing shift acc h with
  | zero => rfl
  | succ left ih =>
    -- even the last digit that is allowed is shifted by less than a word
    have bits : shift < 64 := by
      rw [Varint.maxLength] at room
      omega
    cases next : h.buffer.drop h.offset with
    | nil => exact digits_of_nil next
    | cons b bs =>
      have behind : h.buffer.drop (h.advance 1).offset = bs := by
        rw [advance, ← List.tail_drop, next, List.tail_cons]
      rw [digits_of_cons next, or_digit small bits, Varint.readNumeral]
      by_cases last : b < 128
      · have length := congrArg List.length next
        rw [List.length_drop, List.length_cons] at length
        have place : h.offset + 1 = h.buffer.length - bs.length := by omega
        have digit : b.toNat % 128 = b.toNat := Nat.mod_eq_of_lt (UInt8.lt_iff_toNat_lt.1 last)
        simp only [if_pos last, digit, advance, place]
      · have grown := add_digit_lt small b
        have tail := ih (shift + 7) _ (by omega) grown (h.advance 1)
        rw [show (h.advance 1).buffer = h.buffer from rfl, behind] at tail
        simp only [if_neg last, tail]
        rcases Varint.readNumeral left bs with (_ | _) | ⟨n, rest⟩
        · rfl
        · rfl
        · simp only [Except.map, Nat.pow_add, Nat.mul_add, Nat.add_assoc, Nat.mul_assoc]

theorem follows_varint : Follows varint Cursor.varint := by
  intro buffer k within
  have read := digits_eq k Varint.maxLength 0 0 (Nat.zero_add _) Nat.one_pos ⟨buffer, k⟩
  have start : varint ⟨buffer, k⟩ = digits k Varint.maxLength 0 (.ofNat 0) ⟨buffer, k⟩ := rfl
  rw [start, read, Cursor.varint, Cursor.offset_seek within, Varint.read]
  simp only [Nat.zero_add, Nat.pow_zero, Nat.one_mul]
  rw [Cursor.seek]
  rcases Varint.readNumeral Varint.maxLength (buffer.drop k) with (_ | _) | ⟨n, rest⟩
  · rfl
  · rfl
  · rfl

section Delimited

variable {h after : Head}

theorem delimited_of_error {fault : ReadError} (number : varint h = .error fault after) :
    delimited h = .error fault after := by
  rw [delimited, get_bind, bind_of_error number]

theorem delimited_of_ok {length : UInt64} (number : varint h = .ok length after) :
    delimited h =
      if length.toNat ≤ after.remaining then bytes length.toNat after
      else .error (.longLength h.offset length after.remaining) (after.putBack h.offset) := by
  rw [delimited, get_bind, bind_of_ok number, get_bind]
  split
  · rfl
  · rfl

end Delimited

theorem follows_delimited : Follows delimited Cursor.delimited := by
  intro buffer k within
  have number := follows_varint buffer k within
  rw [Cursor.delimited_seek, Cursor.offset_seek within]
  cases read : Cursor.varint (.seek buffer k) with
  | error fault =>
    rw [read] at number
    exact delimited_of_error number
  | ok pair =>
    obtain ⟨length, behind⟩ := pair
    obtain ⟨numeral, front, -, -, -, rfl⟩ := Cursor.front_of_varint read
    have inside := Cursor.le_of_front within front
    have found := follows_bytes length.toNat buffer _ inside
    rw [read, settle, Cursor.head_seek inside] at number
    rw [delimited_of_ok number, found, remaining]
    dsimp only
    rw [Cursor.remaining_seek]
    split
    · rename_i room
      rw [Cursor.bytes_seek, Cursor.remaining_seek, if_pos room]
      rfl
    · rfl

/-! ### Calls -/

namespace Call

def ask : Call → Cursor → Except ReadError (Found × Cursor)
  | bytes n => fun c => (c.bytes n).map fun (bs, after) => (.bytes bs, after)
  | u32 => fun c => c.u32.map fun (value, after) => (.word32 value, after)
  | u64 => fun c => c.u64.map fun (value, after) => (.word64 value, after)
  | varint => fun c => c.varint.map fun (value, after) => (.word64 value, after)
  | delimited => fun c => c.delimited.map fun (content, after) => (.bytes content, after)

/-- What a call finds in the bytes that it consumes: the bytes, a number that they spell, or the
content behind its length. -/
inductive Yields : Call → Bytes → Found → Prop
  | bytes (bs : Bytes) : Yields (bytes bs.length) bs (.bytes bs)
  | u32 {bs : Bytes} : bs.length = 4 → Yields u32 bs (.word32 (.ofNat (Bytes.littleEndian bs)))
  | u64 {bs : Bytes} : bs.length = 8 → Yields u64 bs (.word64 (.ofNat (Bytes.littleEndian bs)))
  | varint {bs : Bytes} : Varint.IsNumeral bs → bs.length ≤ Varint.maxLength →
      Yields varint bs (.word64 (.ofNat (Varint.denoted bs)))
  | delimited {bs content : Bytes} : Varint.IsNumeral bs → bs.length ≤ Varint.maxLength →
      (UInt64.ofNat (Varint.denoted bs)).toNat = content.length →
      Yields delimited (bs ++ content) (.bytes content)

variable {call : Call} {buffer : Bytes} {k : Nat} {found : Found} {fault : ReadError}

theorem ask_of_yields {slice : Bytes} (front : slice <+: buffer.drop k)
    (yields : call.Yields slice found) :
    call.ask (.seek buffer k) = .ok (found, .seek buffer (k + slice.length)) := by
  cases yields with
  | bytes => simp only [ask, Cursor.bytes_of_front front, Except.map]
  | u32 length =>
    have taken := Cursor.bytes_of_front front
    rw [length] at taken
    simp only [ask, Cursor.u32, taken, Except.map, length]
  | u64 length =>
    have taken := Cursor.bytes_of_front front
    rw [length] at taken
    simp only [ask, Cursor.u64, taken, Except.map, length]
  | varint digits short => simp only [ask, Cursor.varint_of_front front digits short, Except.map]
  | delimited digits short length =>
    simp only [ask, Cursor.delimited_of_front front digits short length, Except.map]

theorem exists_yields {after : Cursor} (h : call.ask (.seek buffer k) = .ok (found, after)) :
    ∃ slice, slice <+: buffer.drop k ∧ call.Yields slice found ∧
      after = .seek buffer (k + slice.length) := by
  cases call with
  | bytes n =>
    obtain ⟨bs, taken, rfl⟩ := ok_of_map_fst h
    obtain ⟨front, rfl, place⟩ := Cursor.front_of_bytes taken
    exact ⟨bs, front, .bytes bs, place⟩
  | u32 =>
    obtain ⟨value, word, rfl⟩ := ok_of_map_fst h
    obtain ⟨bs, taken, rfl⟩ :=
      ok_of_map_fst (f := fun bs => UInt32.ofNat (Bytes.littleEndian bs)) word
    obtain ⟨front, length, place⟩ := Cursor.front_of_bytes taken
    exact ⟨bs, front, .u32 length, place⟩
  | u64 =>
    obtain ⟨value, word, rfl⟩ := ok_of_map_fst h
    obtain ⟨bs, taken, rfl⟩ :=
      ok_of_map_fst (f := fun bs => UInt64.ofNat (Bytes.littleEndian bs)) word
    obtain ⟨front, length, place⟩ := Cursor.front_of_bytes taken
    exact ⟨bs, front, .u64 length, place⟩
  | varint =>
    obtain ⟨value, taken, rfl⟩ := ok_of_map_fst h
    obtain ⟨numeral, front, digits, short, rfl, place⟩ := Cursor.front_of_varint taken
    exact ⟨numeral, front, .varint digits short, place⟩
  | delimited =>
    obtain ⟨content, taken, rfl⟩ := ok_of_map_fst h
    obtain ⟨numeral, front, digits, short, length, place⟩ := Cursor.front_of_delimited taken
    exact ⟨numeral ++ content, front, .delimited digits short length, place⟩

theorem offset_of_ask {c : Cursor} (h : call.ask c = .error fault) : fault.offset = c.offset := by
  have number {fault : ReadError} (failed : c.varint = .error fault) : fault.offset = c.offset := by
    rcases Cursor.fault_of_varint failed with rfl | rfl
    · rfl
    · rfl
  cases call with
  | bytes n => rw [Cursor.fault_of_bytes (error_of_map h), ReadError.offset]
  | u32 => rw [Cursor.fault_of_bytes (error_of_map (error_of_map h)), ReadError.offset]
  | u64 => rw [Cursor.fault_of_bytes (error_of_map (error_of_map h)), ReadError.offset]
  | varint => exact number (error_of_map h)
  | delimited =>
    rcases Cursor.fault_of_delimited (error_of_map h) with failed | ⟨_, _, rfl⟩
    · exact number failed
    · rfl

/-- Only where a length is read can one be too long. -/
theorem ask_longLength_iff {start remaining : Nat} {length : UInt64} {c : Cursor} :
    call.ask c = .error (.longLength start length remaining) ↔
      call = delimited ∧ c.delimited = .error (.longLength start length remaining) := by
  constructor
  · intro h
    cases call with
    | bytes n => cases Cursor.fault_of_bytes (error_of_map h)
    | u32 => cases Cursor.fault_of_bytes (error_of_map (error_of_map h))
    | u64 => cases Cursor.fault_of_bytes (error_of_map (error_of_map h))
    | varint => rcases Cursor.fault_of_varint (error_of_map h) with other | other <;> cases other
    | delimited => exact ⟨rfl, error_of_map h⟩
  · rintro ⟨rfl, h⟩
    simp only [ask, h, Except.map]

theorem follows_read (call : Call) : Follows call.read call.ask := by
  cases call with
  | bytes n => exact (follows_bytes n).map _
  | u32 => exact follows_u32.map _
  | u64 => exact follows_u64.map _
  | varint => exact follows_varint.map _
  | delimited => exact follows_delimited.map _

/-- A head answers what a cursor at its place does, and goes where that one goes. -/
theorem turn_eq (call : Call) (within : k ≤ buffer.length) :
    call.turn ⟨buffer, k⟩ = match call.ask (.seek buffer k) with
      | .ok (found, after) => (.ok found, after.head)
      | .error fault => (.error fault, ⟨buffer, k⟩) := by
  rw [turn, call.follows_read buffer k within]
  cases call.ask (.seek buffer k) with
  | ok pair => rfl
  | error fault => rfl

theorem turn_of_yields (within : k ≤ buffer.length) {slice : Bytes}
    (front : slice <+: buffer.drop k) (yields : call.Yields slice found) :
    call.turn ⟨buffer, k⟩ = (.ok found, ⟨buffer, k + slice.length⟩) := by
  rw [call.turn_eq within, ask_of_yields front yields]
  dsimp only
  rw [Cursor.head_seek (Cursor.le_of_front within front)]

/-- A turn finds what its call yields of the next bytes and consumes these, or it fails as the
cursor does and consumes nothing. -/
theorem turn_cases (call : Call) (within : k ≤ buffer.length) :
    (∃ found slice, slice <+: buffer.drop k ∧ call.Yields slice found ∧
      call.turn ⟨buffer, k⟩ = (.ok found, ⟨buffer, k + slice.length⟩)) ∨
    ∃ fault, call.ask (.seek buffer k) = .error fault ∧
      call.turn ⟨buffer, k⟩ = (.error fault, ⟨buffer, k⟩) := by
  cases asked : call.ask (.seek buffer k) with
  | ok pair =>
    obtain ⟨slice, front, yields, -⟩ := exists_yields asked
    exact .inl ⟨pair.1, slice, front, yields, turn_of_yields within front yields⟩
  | error fault =>
    refine .inr ⟨fault, rfl, ?_⟩
    rw [call.turn_eq within, asked]

theorem turn_eq_ok_iff (within : k ≤ buffer.length) {place : Head} :
    call.turn ⟨buffer, k⟩ = (.ok found, place) ↔
      ∃ slice, slice <+: buffer.drop k ∧ call.Yields slice found ∧
        place = ⟨buffer, k + slice.length⟩ := by
  constructor
  · intro h
    rcases call.turn_cases within with ⟨_, slice, front, yields, turned⟩ | ⟨_, -, turned⟩
    · cases turned.symm.trans h
      exact ⟨slice, front, yields, rfl⟩
    · cases turned.symm.trans h
  · rintro ⟨slice, front, yields, rfl⟩
    exact turn_of_yields within front yields

theorem turn_fst_eq_error_iff (within : k ≤ buffer.length) :
    (call.turn ⟨buffer, k⟩).1 = .error fault ↔ call.ask (.seek buffer k) = .error fault := by
  rcases call.turn_cases within with ⟨_, slice, front, yields, turned⟩ | ⟨_, asked, turned⟩
  · rw [turned, ask_of_yields front yields]
    exact iff_of_false nofun nofun
  · rw [turned, asked]
    simp only [Except.error.injEq]

end Call

/-- Whatever its calls come to, a run ends inside the buffer that it began in. -/
theorem exists_place_run {buffer : Bytes} {k : Nat} (within : k ≤ buffer.length)
    (calls : List Call) : ∃ place ≤ buffer.length, run ⟨buffer, k⟩ calls = ⟨buffer, place⟩ := by
  induction calls generalizing k with
  | nil => exact ⟨k, within, rfl⟩
  | cons call calls ih =>
    rw [run, List.foldl_cons]
    rcases call.turn_cases within with ⟨_, slice, front, -, turned⟩ | ⟨_, -, turned⟩
    · rw [turned]
      exact ih (Cursor.le_of_front within front)
    · rw [turned]
      exact ih within

/-- After any calls the head is inside its buffer. The next call then either fails, says where it
began and leaves the head there, or it consumes the bytes at the head that it yields its value of.
It finds a length too long just if the length can be read and more than what is behind it. -/
theorem run_atomic (buffer : Bytes) (past : List Call) (call : Call) :
    let before := (ofBytes buffer).run past
    before.offset ≤ buffer.length ∧ before.offset + before.remaining = buffer.length ∧
      (∀ fault after, call.turn before = (.error fault, after) →
        after = before ∧ fault.offset = before.offset) ∧
      (∀ found after, call.turn before = (.ok found, after) ↔
        ∃ slice, slice <+: buffer.drop before.offset ∧ call.Yields slice found ∧
          after = ⟨buffer, before.offset + slice.length⟩) ∧
      ∀ start length remaining,
        (call.turn before).1 = .error (.longLength start length remaining) ↔
          call = .delimited ∧ start = before.offset ∧
            ∃ numeral, numeral <+: buffer.drop before.offset ∧ Varint.IsNumeral numeral ∧
              numeral.length ≤ Varint.maxLength ∧ length = .ofNat (Varint.denoted numeral) ∧
              remaining = buffer.length - (before.offset + numeral.length) ∧
              remaining < length.toNat := by
  intro before
  obtain ⟨k, within, place⟩ := exists_place_run (Nat.zero_le buffer.length) past
  rw [show before = ⟨buffer, k⟩ from place]
  refine ⟨within, Nat.add_sub_cancel' within, fun fault after failed => ?_,
    fun found after => call.turn_eq_ok_iff within, fun start length remaining => ?_⟩
  · rcases call.turn_cases within with ⟨_, _, -, -, turned⟩ | ⟨_, asked, turned⟩
    · cases turned.symm.trans failed
    · cases turned.symm.trans failed
      exact ⟨rfl, (Call.offset_of_ask asked).trans (Cursor.offset_seek within)⟩
  · rw [Call.turn_fst_eq_error_iff within, Call.ask_longLength_iff,
      Cursor.delimited_longLength_iff, Cursor.offset_seek within]

/-- Two bytes behind their length, and a length of five in front of a single byte. -/
example : run (ofBytes [2, 104, 105, 5, 120]) [.u64, .delimited, .delimited, .bytes 9] =
    ⟨[2, 104, 105, 5, 120], 3⟩ := by decide +kernel

end Head

end MessageCodec.Wire
