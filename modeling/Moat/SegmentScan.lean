-- The scanner that recovers whole frames from a segment, one candidate at a
-- time (`segment/recovery.rs`).
import Moat.SegmentHeader
import Moat.FrameDecode

namespace moat_engine.segment

open byte_list moat_common
open moat_engine.frame (Frame FrameLimits FramePosition)

structure Scanner where
  header : SegmentHeader
  limits : FrameLimits
  offset : Nat
  frame_count : Nat
  metadata_len : Nat
  done : Bool
  tail_error : Option frame.Error

def Scanner.new (header : SegmentHeader) (limits : FrameLimits) : Scanner :=
  ⟨header, limits, PAGE_SIZE, 0, 0, false, none⟩

/-- A sealed segment ends at its recorded end; an active one where no frame and footer fit. -/
def Scanner.at_end (s : Scanner) : Bool :=
  match s.header.seal_ with
  | some seal_ => decide (s.offset = seal_.data_end)
  | none =>
    decide (s.offset + PAGE_SIZE + footer_len (s.metadata_len + MIN_FRAME_METADATA_LEN) >
      s.header.segment_len)

def Scanner.position (s : Scanner) : Option FramePosition :=
  if s.done = true ∨ s.at_end = true then none else (s.header.position s.offset).toOption

/-- What a sealed segment asks of its next frame, which ends at `end_`. -/
def Scanner.disagrees (s : Scanner) (end_ metadata_len : Nat) : Bool :=
  match s.header.seal_ with
  | none => false
  | some seal_ =>
    decide (s.frame_count + 1 > seal_.frame_count ∨ metadata_len > seal_.metadata_len ∨
      (end_ = seal_.data_end ∧
        (s.frame_count + 1 ≠ seal_.frame_count ∨ metadata_len ≠ seal_.metadata_len)) ∨
      (end_ < seal_.data_end ∧ s.frame_count + 1 = seal_.frame_count))

def Scanner.candidate (s : Scanner) (bytes : Bytes) : Except frame.Error Frame :=
  match s.header.position s.offset with
  | .error e => .error e
  | .ok position =>
    match Frame.decode bytes s.limits position with
    | .error e => .error e
    | .ok frame =>
      let end_ := s.offset + frame.bytes.length
      let metadata_len := s.metadata_len + frame.metadata.bytes.length
      if end_ + footer_len metadata_len > s.header.segment_len then
        .error (.Corrupt "frame leaves no room for the segment footer")
      else if s.disagrees end_ metadata_len = true then
        .error (.Corrupt "frames disagree with sealed summary")
      else .ok frame

def frame_unsupported : frame.Error → Bool
  | .UnsupportedVersion _ => true
  | _ => false

/-- Validates the next frame. `none` is the end of the segment, or of an active prefix. -/
def Scanner.next_frame (s : Scanner) (bytes : Bytes) : Scanner × Except Error (Option Frame) :=
  if s.done = true then (s, .ok none)
  else if s.at_end = true then ({ s with done := true }, .ok none)
  else
    match s.candidate bytes with
    | .ok frame =>
      ({ s with
        offset := s.offset + frame.bytes.length
        frame_count := s.frame_count + 1
        metadata_len := s.metadata_len + frame.metadata.bytes.length }, .ok (some frame))
    | .error source =>
      if s.header.seal_.isSome = true ∨ frame_unsupported source = true then
        ({ s with done := true }, .error (.Frame s.offset source))
      else ({ s with done := true, tail_error := some source }, .ok none)

end moat_engine.segment
