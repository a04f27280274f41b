-- The builder of an active segment: it hands out the next frame position while
-- it keeps the footer's space free, and turns into the encoder of that footer.
import Moat.FrameDecode
import Moat.SegmentHeader

namespace moat_engine.segment

open byte_list moat_common moat_engine.codec
open moat_engine.frame (FramePosition Metadata)

/-- Appends frames to a segment. The last three fields hold from `new` on. -/
structure SegmentBuilder where
  header : SegmentHeader
  data_end : Nat
  frame_count : Nat
  metadata : Bytes
  end_ge : 4096 ≤ data_end
  end_aligned : data_end % 4096 = 0
  room : data_end + footer_len metadata.length ≤ header.segment_len

def SegmentBuilder.new (header : SegmentHeader) : Except Error SegmentBuilder :=
  if header.seal_.isSome then .error .Sealed
  else
    .ok ⟨header, PAGE_SIZE, 0, [], page_ge, page_mod, by
      have := header.len_min
      simp only [footer_len_eq, List.length_nil, PAGE_SIZE]
      omega⟩

/-- The place of the next frame, if the frame and the grown footer both fit. -/
def SegmentBuilder.position (b : SegmentBuilder) (frame_len metadata_len : Nat) :
    Except Error FramePosition :=
  if b.header.seal_.isSome then .error .Sealed
  else if frame_len = 0 ∨ frame_len > 2 ^ 32 - 1 ∨ ¬ is_aligned frame_len PAGE_SIZE = true ∨
      metadata_len < MIN_FRAME_METADATA_LEN ∨ metadata_len > frame_len ∨
      ¬ metadata_len % 4 = 0 then
    .error (.InvalidArgument "invalid frame or metadata length")
  else
    let required := b.data_end + frame_len + footer_len (b.metadata.length + metadata_len)
    if required > b.header.segment_len then .error (.Full required b.header.segment_len)
    else
      match b.header.position b.data_end with
      | .error source => .error (.Frame b.data_end source)
      | .ok position => .ok position

/-- The lengths that `position` accepts for a frame. -/
structure FrameLens (frame_len metadata_len : Nat) : Prop where
  frame_pos : 0 < frame_len
  frame_u32 : frame_len < 2 ^ 32
  frame_aligned : frame_len % 4096 = 0
  metadata_min : 128 ≤ metadata_len
  metadata_le : metadata_len ≤ frame_len
  metadata_aligned : metadata_len % 4 = 0

/-- What an accepted position promises: the frame and the footer after it both fit. -/
theorem SegmentBuilder.position_ok {b : SegmentBuilder} {n m : Nat} {p : FramePosition}
    (h : b.position n m = .ok p) :
    b.header.seal_ = none ∧ FrameLens n m ∧
      b.data_end + n + footer_len (b.metadata.length + m) ≤ b.header.segment_len ∧
      p.segment_seq = b.header.id.sequence ∧ p.offset = b.data_end ∧
      p.available = b.header.segment_len - b.data_end := by
  unfold SegmentBuilder.position at h
  split at h
  · cases h
  rename_i hs
  have hseal : b.header.seal_ = none := by simpa using hs
  split at h
  · cases h
  rename_i hl
  simp only at h
  split at h
  · cases h
  rename_i hr
  split at h
  · cases h
  rename_i q hq
  cases h
  unfold SegmentHeader.position at hq
  rw [hseal] at hq
  obtain ⟨h1, h2, h3, -⟩ := FramePosition.new_ok hq
  simp only [is_aligned_page, not_or, not_not] at hl
  simp only [MIN_FRAME_METADATA_LEN, frame.HEADER_LEN, frame.DESCRIPTOR_LEN] at hl
  obtain ⟨l1, l2, l3, l4, l5, l6⟩ := hl
  exact ⟨hseal, ⟨Nat.pos_of_ne_zero l1, by omega, l3, by omega, by omega, l6⟩, by omega, h1, h2, h3⟩

/-- An active builder accepts a well-formed frame exactly when there is room for it. -/
theorem SegmentBuilder.position_ok_iff (b : SegmentBuilder) {n m : Nat}
    (hs : b.header.seal_ = none) (hl : FrameLens n m) :
    (∃ p, b.position n m = .ok p) ↔
      b.data_end + n + footer_len (b.metadata.length + m) ≤ b.header.segment_len := by
  constructor
  · rintro ⟨p, h⟩
    exact (position_ok h).2.2.1
  · intro hr
    obtain ⟨l1, l2, l3, l4, l5, l6⟩ := hl
    have hu := b.header.len_u32
    have hnew := FramePosition.new_eq b.header.id.seq_u64 hu b.header.len_aligned b.end_aligned
      b.end_ge (show b.data_end < b.header.segment_len by omega)
    unfold SegmentBuilder.position SegmentHeader.position
    rw [if_neg (by simp [hs]), if_neg, if_neg (by omega), hs]
    · simp only [hnew]
      exact ⟨_, rfl⟩
    · simp only [is_aligned_page]
      simp only [MIN_FRAME_METADATA_LEN, frame.HEADER_LEN, frame.DESCRIPTOR_LEN]
      omega

theorem SegmentBuilder.position_full (b : SegmentBuilder) {n m : Nat} (hs : b.header.seal_ = none)
    (hl : FrameLens n m)
    (hr : b.header.segment_len < b.data_end + n + footer_len (b.metadata.length + m)) :
    b.position n m = .error (.Full (b.data_end + n + footer_len (b.metadata.length + m))
      b.header.segment_len) := by
  obtain ⟨l1, l2, l3, l4, l5, l6⟩ := hl
  unfold SegmentBuilder.position
  rw [if_neg (by simp [hs]), if_neg, if_pos (by omega)]
  simp only [is_aligned_page]
  simp only [MIN_FRAME_METADATA_LEN, frame.HEADER_LEN, frame.DESCRIPTOR_LEN]
  omega

/-- Counts a frame that was just encoded at the next position. -/
def SegmentBuilder.append (b : SegmentBuilder) (metadata : Metadata) :
    Except Error SegmentBuilder :=
  match h : b.position metadata.header.frame_len metadata.bytes.length with
  | .error e => .error e
  | .ok position =>
    if metadata.header.position.segment_seq ≠ position.segment_seq ∨
        metadata.header.position.offset ≠ position.offset then
      .error (.InvalidArgument "frame does not match the next segment position")
    else
      .ok { b with
        metadata := b.metadata ++ metadata.bytes
        data_end := b.data_end + metadata.header.frame_len
        frame_count := b.frame_count + 1
        end_ge := Nat.le_trans b.end_ge (Nat.le_add_right _ _)
        end_aligned := by
          have h1 := (SegmentBuilder.position_ok h).2.1.frame_aligned
          have h2 := b.end_aligned
          omega
        room := by
          rw [List.length_append]
          exact (SegmentBuilder.position_ok h).2.2.1 }

def SegmentBuilder.footer_len (b : SegmentBuilder) : Nat := segment.footer_len b.metadata.length

end moat_engine.segment
