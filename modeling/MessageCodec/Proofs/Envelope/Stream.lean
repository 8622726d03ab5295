import Mathlib.Data.List.Forall2
import MessageCodec.Proofs.Envelope.RoundTrip

/-! Streams of frames. A frame states the length of what it holds, so a reader that takes
frames from the front of a stream gets the envelopes that were put in, in order, and
a stream that breaks off gives exactly the envelopes whose frames arrived whole. -/

namespace MessageCodec.Envelope

/-- What stands in front of `length` bytes in a frame. -/
def frameHeader (length : Nat) : Bytes := frameMark ++ Bytes.ofLittleEndian 3 length

theorem length_frameHeader (length : Nat) : (frameHeader length).length = frameHeaderSize := rfl

/-- Frames are made for exactly the envelopes whose length can be stated. -/
theorem frame_eq_ok {e : Envelope} {bs : Bytes} :
    e.frame = .ok bs ↔
      e.encode.length ≤ maxFrameLength ∧ frameHeader e.encode.length ++ e.encode = bs := by
  simp only [frame]
  split
  · rename_i fits
    rw [Except.ok.injEq]
    exact (and_iff_right fits).symm
  · rename_i large
    exact iff_of_false nofun fun h => large h.1

theorem extract_of_short {bs : Bytes} (short : bs.length < frameHeaderSize) :
    extract bs = .error (.incompleteHeader bs.length) := by
  match bs with
  | [] | [_] | [_, _] | [_, _, _] | [_, _, _, _] => rfl
  | _ :: _ :: _ :: _ :: _ :: _ =>
    simp only [List.length_cons, frameHeaderSize] at short
    omega

/-- Behind a header, as many bytes count as it states. -/
theorem extract_frameHeader {length : Nat} (fits : length ≤ maxFrameLength) (bs : Bytes) :
    extract (frameHeader length ++ bs) =
      match Bytes.split? length bs with
      | some (body, _) => .ok (decodeInto body empty, frameHeaderSize + length)
      | none => .error (.truncated length bs.length) := by
  have stated : Bytes.littleEndian (Bytes.ofLittleEndian 3 length) = length :=
    Bytes.littleEndian_ofLittleEndian 3 length (Nat.lt_succ_of_le fits)
  conv_rhs => rw [← stated]
  rfl

/-- Extraction takes the whole header at least, and no more than there is. -/
theorem used_of_extract {bs : Bytes} {e : Envelope} {used : Nat} (h : extract bs = .ok (e, used)) :
    frameHeaderSize ≤ used ∧ used ≤ bs.length := by
  unfold extract at h
  split at h
  · split at h
    · dsimp only at h
      split at h
      · rename_i taken
        obtain ⟨whole, length⟩ := Bytes.append_of_split? taken
        rw [Except.ok.injEq, Prod.mk.injEq] at h
        obtain ⟨-, rfl⟩ := h
        refine ⟨Nat.le_add_right .., ?_⟩
        rw [← whole]
        simp only [List.length_cons, List.length_append, frameHeaderSize]
        omega
      · cases h
    · cases h
  · cases h

/-- The envelopes that are extracted from some bytes one after the other, each from behind the
bytes that the one before it used, and why the extraction stops. -/
def extractAll (bs : Bytes) : List Envelope × FrameError :=
  match h : extract bs with
  | .error fault => ([], fault)
  | .ok (e, used) =>
    have := used_of_extract h
    let (es, fault) := extractAll (bs.drop used)
    (e :: es, fault)
termination_by bs.length
decreasing_by
  rw [List.length_drop]
  have : 0 < frameHeaderSize := by decide
  omega

theorem extractAll_of_error {bs : Bytes} {fault : FrameError} (h : extract bs = .error fault) :
    extractAll bs = ([], fault) := by
  rw [extractAll]
  split
  · simp_all
  · simp_all

theorem extractAll_of_ok {bs : Bytes} {e : Envelope} {used : Nat} (h : extract bs = .ok (e, used)) :
    extractAll bs = (e :: (extractAll (bs.drop used)).1, (extractAll (bs.drop used)).2) := by
  rw [extractAll]
  split
  · simp_all
  · simp_all

theorem extract_frame {e : Envelope} {frame : Bytes} (framed : e.frame = .ok frame) (rest : Bytes) :
    extract (frame ++ rest) = .ok (e, frame.length) := by
  obtain ⟨fits, rfl⟩ := frame_eq_ok.1 framed
  have small : e.encode.length < UInt64.size := Nat.lt_of_le_of_lt fits (by decide)
  rw [List.append_assoc, extract_frameHeader fits, Bytes.split?_append]
  dsimp only
  rw [decodeInto_encode_empty small, List.length_append, length_frameHeader]

/-- What stops the extraction in a frame that breaks off after so many bytes. -/
def interruption (e : Envelope) (arrived : Nat) : FrameError :=
  if arrived < frameHeaderSize then .incompleteHeader arrived
  else .truncated e.encode.length (arrived - frameHeaderSize)

theorem extract_of_front {e : Envelope} {frame bs : Bytes} (framed : e.frame = .ok frame)
    (front : bs <+: frame) (cut : bs.length < frame.length) :
    extract bs = .error (interruption e bs.length) := by
  obtain ⟨fits, rfl⟩ := frame_eq_ok.1 framed
  rw [interruption]
  split
  · rename_i short
    exact extract_of_short short
  · rename_i long
    obtain ⟨body, rfl⟩ : frameHeader e.encode.length <+: bs :=
      List.prefix_of_prefix_length_le (List.prefix_append ..) front (Nat.le_of_not_lt long)
    rw [List.length_append, List.length_append] at cut
    have missing : Bytes.split? e.encode.length body = none := by
      rw [Bytes.split?, if_neg]
      rw [List.length_take]
      omega
    rw [extract_frameHeader fits, missing, List.length_append, length_frameHeader,
      Nat.add_sub_cancel_left]

/-- Whole frames give their envelopes, and the extraction goes on with what stands behind them. -/
theorem extractAll_append {es : List Envelope} {frames : List Bytes}
    (framed : List.Forall₂ (fun e frame => e.frame = .ok frame) es frames) (rest : Bytes) :
    extractAll (frames.flatten ++ rest) = (es ++ (extractAll rest).1, (extractAll rest).2) := by
  induction framed with
  | nil => rfl
  | @cons e frame es frames first _ ih =>
    rw [List.flatten_cons, List.append_assoc, extractAll_of_ok (extract_frame first _),
      List.drop_left, ih]
    rfl

/-- Behind so many whole frames stands less than the next one, or nothing if there is none. -/
def EndsIn (frames : List Bytes) (n : Nat) (rest : Bytes) : Prop :=
  n = frames.length ∧ rest = [] ∨
    ∃ frame, frames[n]? = some frame ∧ rest <+: frame ∧ rest.length < frame.length

/-- A front part of a run of frames holds some of them whole, then less than the next one. -/
theorem exists_endsIn_of_front {frames : List Bytes} {bs : Bytes} (front : bs <+: frames.flatten) :
    ∃ n rest, bs = (frames.take n).flatten ++ rest ∧ EndsIn frames n rest := by
  induction frames generalizing bs with
  | nil => exact ⟨0, [], List.prefix_nil.1 front, .inl ⟨rfl, rfl⟩⟩
  | cons frame frames ih =>
    by_cases whole : frame.length ≤ bs.length
    · obtain ⟨behind, rfl⟩ : frame <+: bs :=
        List.prefix_of_prefix_length_le (List.prefix_append ..) front whole
      obtain ⟨n, rest, rfl, last⟩ := ih ((List.prefix_append_right_inj frame).1 front)
      refine ⟨n + 1, rest, ?_, ?_⟩
      · rw [List.take_succ_cons, List.flatten_cons, List.append_assoc]
      · simpa [EndsIn] using last
    · refine ⟨0, bs, rfl, .inr ⟨frame, rfl, ?_, Nat.lt_of_not_le whole⟩⟩
      exact List.prefix_of_prefix_length_le front (List.prefix_append ..)
        (Nat.le_of_not_le whole)

theorem length_flatten_take_le {n m : Nat} (h : n ≤ m) (frames : List Bytes) :
    (frames.take n).flatten.length ≤ (frames.take m).flatten.length := by
  have parts : frames.take m = frames.take n ++ (frames.drop n).take (m - n) := by
    rw [← List.take_add, Nat.add_sub_cancel' h]
  rw [parts, List.flatten_append, List.length_append]
  exact Nat.le_add_right ..

section Cut

variable {frames : List Bytes} {n : Nat} {rest : Bytes}

theorem EndsIn.le (ends : EndsIn frames n rest) : n ≤ frames.length := by
  obtain ⟨rfl, -⟩ | ⟨frame, next, -⟩ := ends
  · exact Nat.le_refl _
  · exact Nat.le_of_lt (List.getElem?_eq_some_iff.1 next).1

/-- Exactly the frames in front of the cut lie inside it. -/
theorem EndsIn.lt_iff (ends : EndsIn frames n rest) {k : Nat} (known : k < frames.length) :
    k < n ↔ (frames.take (k + 1)).flatten.length ≤ ((frames.take n).flatten ++ rest).length := by
  constructor
  · intro before
    rw [List.length_append]
    exact Nat.le_add_right_of_le (length_flatten_take_le before frames)
  · intro inside
    obtain ⟨rfl, -⟩ | ⟨frame, next, -, cut⟩ := ends
    · exact known
    · refine Nat.lt_of_not_le fun behind => ?_
      have later := length_flatten_take_le (Nat.add_le_add_right behind 1) frames
      have whole : (frames.take (n + 1)).flatten.length =
          (frames.take n).flatten.length + frame.length := by
        rw [List.take_add_one, next, List.flatten_append, List.length_append]
        simp
      rw [List.length_append] at inside
      omega

/-- What stands behind the whole frames gives no envelope, for want of bytes. -/
theorem EndsIn.extractAll_rest (ends : EndsIn frames n rest) {es : List Envelope}
    (framed : List.Forall₂ (fun e frame => e.frame = .ok frame) es frames) :
    ∃ fault, extractAll rest = ([], fault) ∧
      if rest.length < frameHeaderSize then fault = .incompleteHeader rest.length
      else ∃ next, es[n]? = some next ∧
        fault = .truncated next.encode.length (rest.length - frameHeaderSize) := by
  have same := framed.length_eq
  obtain ⟨-, rfl⟩ | ⟨frame, next, front, cut⟩ := ends
  · exact ⟨.incompleteHeader 0, extractAll_of_error rfl, rfl⟩
  · obtain ⟨known, rfl⟩ := List.getElem?_eq_some_iff.1 next
    have made : es[n].frame = .ok frames[n] := framed.get (same ▸ known) known
    have stop := extractAll_of_error (extract_of_front made front cut)
    refine ⟨interruption es[n] rest.length, stop, ?_⟩
    split
    · rename_i short
      exact if_pos short
    · rename_i long
      exact ⟨es[n], List.getElem?_eq_getElem (same ▸ known), if_neg long⟩

end Cut

/-- Frames are made for exactly the envelopes whose binary form has at most 0xFFFFFF bytes. From
any front part of a run of such frames, repeated extraction gives exactly the envelopes whose frames
lie wholly inside it, in order. It then stops for want of bytes: with fewer than five left in the
header, else in the body of the next frame, of which it states the length. -/
theorem extractAll_of_front {es : List Envelope} {frames : List Bytes} {bs : Bytes}
    (framed : List.Forall₂ (fun e frame => e.frame = .ok frame) es frames)
    (front : bs <+: frames.flatten) :
    (∀ e : Envelope, (∃ frame, e.frame = .ok frame) ↔ e.encode.length ≤ 0xFFFFFF) ∧
      ∃ n ≤ es.length,
        (∀ k < es.length, k < n ↔ (frames.take (k + 1)).flatten.length ≤ bs.length) ∧
          (extractAll bs).1 = es.take n ∧
          (let left := bs.length - (frames.take n).flatten.length
            if left < 5 then (extractAll bs).2 = .incompleteHeader left
            else ∃ next, es[n]? = some next ∧
              (extractAll bs).2 = .truncated next.encode.length (left - 5)) := by
  refine ⟨fun e => by simp only [frame_eq_ok, exists_and_left, exists_eq', and_true]; rfl, ?_⟩
  have same := framed.length_eq
  obtain ⟨n, rest, rfl, ends⟩ := exists_endsIn_of_front front
  obtain ⟨fault, stop, reason⟩ := ends.extractAll_rest framed
  have run := extractAll_append (List.forall₂_take n framed) rest
  rw [stop, List.append_nil] at run
  have left : ((frames.take n).flatten ++ rest).length - (frames.take n).flatten.length =
      rest.length := by
    rw [List.length_append, Nat.add_sub_cancel_left]
  refine ⟨n, same ▸ ends.le, fun k known => ends.lt_iff (same ▸ known), congrArg Prod.fst run, ?_⟩
  rw [left, run]
  exact reason

def early : Envelope := { empty with dataType := 1, sampled := ⟨1, 0⟩ }

def late : Envelope := { empty with sender := 300 }

/-- The frames of two envelopes, of which the second one lacks its last byte. -/
def brokenStream : Bytes :=
  [0x0D, 0xA4, 6, 0, 0, 0x08, 2, 0x2A, 2, 0x08, 2] ++ [0x0D, 0xA4, 3, 0, 0, 0x30, 0xAC]

theorem extractAll_of_front_brokenStream :
    List.Forall₂ (fun e frame => e.frame = .ok frame) [early, late]
        [[0x0D, 0xA4, 6, 0, 0, 0x08, 2, 0x2A, 2, 0x08, 2], [0x0D, 0xA4, 3, 0, 0, 0x30, 0xAC, 2]] ∧
      brokenStream <+: List.flatten
        [[0x0D, 0xA4, 6, 0, 0, 0x08, 2, 0x2A, 2, 0x08, 2], [0x0D, 0xA4, 3, 0, 0, 0x30, 0xAC, 2]] ∧
      extractAll brokenStream = ([early], .truncated 3 2) := by
  have framed : List.Forall₂ (fun e frame => e.frame = .ok frame) [early, late]
      [[0x0D, 0xA4, 6, 0, 0, 0x08, 2, 0x2A, 2, 0x08, 2], [0x0D, 0xA4, 3, 0, 0, 0x30, 0xAC, 2]] :=
    .cons (frame_eq_ok.2 (by decide +kernel)) (.cons (frame_eq_ok.2 (by decide +kernel)) .nil)
  have front : brokenStream <+: List.flatten
      [[0x0D, 0xA4, 6, 0, 0, 0x08, 2, 0x2A, 2, 0x08, 2], [0x0D, 0xA4, 3, 0, 0, 0x30, 0xAC, 2]] :=
    ⟨[2], rfl⟩
  obtain ⟨-, n, -, inside, taken, stop⟩ := extractAll_of_front framed front
  have one : n = 1 := by
    have first := (inside 0 (by decide)).2 (by decide)
    have second := mt (inside 1 (by decide)).1 (by decide)
    omega
  subst one
  obtain ⟨next, held, stop⟩ := stop
  obtain rfl : late = next := Option.some.inj held
  have length : late.encode.length = 3 := by decide +kernel
  rw [length] at stop
  exact ⟨framed, front, Prod.ext taken stop⟩

end MessageCodec.Envelope
