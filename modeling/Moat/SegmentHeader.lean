-- Segment identities and the allocation header page, as it is written and read.
import Moat.FrameHeader

namespace moat_engine.segment

open byte_list moat_common moat_engine.codec
open moat_engine.frame (FramePosition)

def FORMAT_VERSION : Nat := 1

/-- `b"MOATSEG1"`. -/
def HEADER_MAGIC : Bytes := [0x4D, 0x4F, 0x41, 0x54, 0x53, 0x45, 0x47, 0x31]

/-- `b"MOATFTR1"`. -/
def FOOTER_MAGIC : Bytes := [0x4D, 0x4F, 0x41, 0x54, 0x46, 0x54, 0x52, 0x31]

def FOOTER_TRAILER_LEN : Nat := 64

def MIN_FRAME_METADATA_LEN : Nat := frame.HEADER_LEN + frame.DESCRIPTOR_LEN

/-- The pages that a footer with this much metadata takes. -/
def footer_len (metadata_len : Nat) : Nat :=
  align_up (FOOTER_TRAILER_LEN + metadata_len) PAGE_SIZE

theorem footer_len_eq (m : Nat) : footer_len m = (m + 4159) / 4096 * 4096 := by
  unfold footer_len FOOTER_TRAILER_LEN
  rw [align_up_page]
  omega

/-- Failures of segment construction, validation and recovery. -/
inductive Error where
  | InvalidArgument (msg : String)
  | Sealed
  | Full (required capacity : Nat)
  | BufferTooSmall (required available : Nat)
  | Truncated (required available : Nat)
  | UnsupportedVersion (version : Nat)
  | Corrupt (msg : String)
  | Frame (offset : Nat) (source : frame.Error)
deriving DecidableEq, Repr

/-! ## Headers -/

structure SegmentId where
  device_id : Id16
  segment_no : Nat
  sequence : Nat
  no_u32 : segment_no < 2 ^ 32
  seq_u64 : sequence < 2 ^ 64

structure Seal where
  data_end : Nat
  frame_count : Nat
  metadata_len : Nat
  end_u32 : data_end < 2 ^ 32

/-- An allocation of a slot. `seal_` is set only in memory, from a footer trailer. -/
structure SegmentHeader where
  id : SegmentId
  segment_len : Nat
  seal_ : Option Seal
  seq_pos : 0 < id.sequence
  len_min : 8192 ≤ segment_len
  len_aligned : segment_len % 4096 = 0
  len_u32 : segment_len < 2 ^ 32

theorem SegmentId.ext_nums {a b : SegmentId} (h1 : a.device_id = b.device_id)
    (h2 : a.segment_no = b.segment_no) (h3 : a.sequence = b.sequence) : a = b := by
  cases a; cases b; simp_all

instance : DecidableEq SegmentId := fun a b => decidable_of_iff
  (a.device_id = b.device_id ∧ a.segment_no = b.segment_no ∧ a.sequence = b.sequence)
  ⟨fun h => SegmentId.ext_nums h.1 h.2.1 h.2.2, by rintro rfl; simp⟩

instance : DecidableEq Seal := fun a b => decidable_of_iff
  (a.data_end = b.data_end ∧ a.frame_count = b.frame_count ∧ a.metadata_len = b.metadata_len)
  (by cases a; cases b; simp)

/-- The first allocation of the first slot. -/
def SegmentId.first : SegmentId := ⟨Id16.from_bytes [1], 0, 1, by decide, by decide⟩

/-- The header of a four-page segment, with room for two pages of frames. -/
def fourPages : SegmentHeader where
  id := SegmentId.first
  segment_len := 16384
  seal_ := none
  seq_pos := Nat.one_pos
  len_min := by decide
  len_aligned := by decide
  len_u32 := by decide

theorem SegmentHeader.seq_u64 (h : SegmentHeader) : h.id.sequence < 2 ^ 64 := h.id.seq_u64

theorem SegmentHeader.ext_nums {a b : SegmentHeader} (h1 : a.id = b.id)
    (h2 : a.segment_len = b.segment_len) (h3 : a.seal_ = b.seal_) : a = b := by
  cases a; cases b; simp_all

instance : DecidableEq SegmentHeader := fun a b => decidable_of_iff
  (a.id = b.id ∧ a.segment_len = b.segment_len ∧ a.seal_ = b.seal_)
  ⟨fun h => SegmentHeader.ext_nums h.1 h.2.1 h.2.2, by rintro rfl; simp⟩

def SegmentHeader.new (id : SegmentId) (segment_len : Nat) (hu : segment_len < 2 ^ 32) :
    Except Error SegmentHeader :=
  if h : id.sequence = 0 ∨ segment_len < 2 * PAGE_SIZE ∨ ¬ is_aligned segment_len PAGE_SIZE = true
  then .error (.InvalidArgument "invalid segment length or allocation incarnation")
  else
    have h1 := not_or.mp h
    have h2 := not_or.mp h1.2
    .ok ⟨id, segment_len, none, Nat.pos_of_ne_zero h1.1, Nat.not_lt.mp h2.1,
      (is_aligned_page _).mp (not_not.mp h2.2), hu⟩

theorem SegmentHeader.new_eq {id : SegmentId} {len : Nat} (h1 : 0 < id.sequence)
    (h2 : 8192 ≤ len) (h3 : len % 4096 = 0) (hu : len < 2 ^ 32) :
    SegmentHeader.new id len hu = .ok ⟨id, len, none, h1, h2, h3, hu⟩ := by
  unfold SegmentHeader.new
  rw [dif_neg]
  simp only [is_aligned_page]
  simp only [PAGE_SIZE]
  omega

/-- The three checks that every stamped structure of a segment starts with. -/
def validate_prefix (bytes magic : Bytes) : Except Error Unit :=
  if slice bytes 0 8 ≠ magic then .error (.Corrupt "segment metadata magic")
  else if u32_at bytes 12 ≠ crc_with_zeroed_checksum bytes then
    .error (.Corrupt "segment metadata checksum")
  else if u32_at bytes 8 ≠ FORMAT_VERSION then .error (.UnsupportedVersion (u32_at bytes 8))
  else .ok ()

theorem validate_prefix_stamp {magic : Bytes} (hm : magic.length = 8) (body : Bytes) :
    validate_prefix (stamp magic FORMAT_VERSION body) magic = .ok () := by
  unfold validate_prefix
  have h1 := stamp_magic hm FORMAT_VERSION body
  have h2 := stamp_checksum hm FORMAT_VERSION body
  have h3 : u32_at (stamp magic FORMAT_VERSION body) 8 = FORMAT_VERSION :=
    stamp_version hm FORMAT_VERSION body
  rw [if_neg (not_not.mpr h1), if_neg (not_not.mpr h2), if_neg (not_not.mpr h3)]

def SegmentHeader.decode (bytes : Bytes) (device_id : Id16) (segment_no segment_len : Nat)
    (hn : segment_no < 2 ^ 32) (hu : segment_len < 2 ^ 32) : Except Error SegmentHeader :=
  if bytes.length < PAGE_SIZE then .error (.Truncated PAGE_SIZE bytes.length)
  else
    let bytes := bytes.take PAGE_SIZE
    match validate_prefix bytes HEADER_MAGIC with
    | .error e => .error e
    | .ok () =>
      if slice bytes 16 32 ≠ device_id.bytes ∨ u32_at bytes 32 ≠ segment_no ∨
          u32_at bytes 36 ≠ segment_len then
        .error (.Corrupt "segment identity or length")
      else
        match SegmentHeader.new ⟨device_id, segment_no, u64_at bytes 40, hn, u64_at_lt _ _⟩
            segment_len hu with
        | .error _ => .error (.Corrupt "segment geometry")
        | .ok header =>
          if ¬ allZero (bytes.drop 48) = true then
            .error (.Corrupt "reserved allocation header bytes")
          else .ok header

/-- Writes the header page over the start of `bytes`. -/
def SegmentHeader.encode_into (h : SegmentHeader) (bytes : Bytes) : Except Error Bytes :=
  if h.seal_.isSome then
    .error (.InvalidArgument "seal state is encoded only in the footer trailer")
  else if bytes.length < PAGE_SIZE then .error (.BufferTooSmall PAGE_SIZE bytes.length)
  else
    let page := zeros PAGE_SIZE
    let page := patch page 0 HEADER_MAGIC
    let page := put_u32 page 8 FORMAT_VERSION
    let page := patch page 16 h.id.device_id.bytes
    let page := put_u32 page 32 h.id.segment_no
    let page := put_u32 page 36 h.segment_len
    let page := put_u64 page 40 h.id.sequence
    let page := put_u32 page 12 (crc_with_zeroed_checksum page)
    .ok (page ++ bytes.drop PAGE_SIZE)

/-- Where a frame at `offset` stands: before the sealed end, or before the segment's end. -/
def SegmentHeader.position (h : SegmentHeader) (offset : Nat) :
    Except frame.Error FramePosition :=
  match h.seal_ with
  | none => FramePosition.new h.id.sequence offset h.segment_len h.seq_u64 h.len_u32
  | some s => FramePosition.new h.id.sequence offset s.data_end h.seq_u64 s.end_u32

end moat_engine.segment
