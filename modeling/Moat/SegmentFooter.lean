-- The footer of a sealed segment: the encoder that writes it chunk by chunk,
-- its trailer, and the incremental validator (`segment/builder.rs`, `footer.rs`).
import Moat.SegmentBuilder

namespace moat_engine.segment

open byte_list moat_common moat_engine.codec
open moat_engine.frame (FrameLimits FramePosition Metadata)

/-- Segment-relative footer extent, for sealed headers only. -/
def SegmentHeader.footer_range (h : SegmentHeader) : Option (Nat × Nat) :=
  h.seal_.map (fun s => (h.segment_len - segment.footer_len s.metadata_len, h.segment_len))

/-! ## Encoding -/

def encode_trailer (trailer : Bytes) (header : SegmentHeader) (seal_ : Seal) (footer_len : Nat) :
    Bytes :=
  let t := patch trailer 0 FOOTER_MAGIC
  let t := put_u32 t 8 FORMAT_VERSION
  let t := patch t 16 header.id.device_id.bytes
  let t := put_u32 t 32 header.id.segment_no
  let t := put_u32 t 36 seal_.data_end
  let t := put_u64 t 40 header.id.sequence
  let t := put_u32 t 48 seal_.frame_count
  let t := put_u32 t 52 seal_.metadata_len
  put_u32 t 56 footer_len

theorem SegmentBuilder.data_end_lt (b : SegmentBuilder) : b.data_end < 2 ^ 32 := by
  have h1 := b.room
  have h2 := b.header.len_u32
  omega

def SegmentBuilder.seal_ (b : SegmentBuilder) : Seal :=
  ⟨b.data_end, b.frame_count, b.metadata.length % 2 ^ 32, b.data_end_lt⟩

def SegmentBuilder.sealed_header (b : SegmentBuilder) : SegmentHeader :=
  { b.header with seal_ := some b.seal_ }

/-- Writes a footer in chunks of at most 64 KiB; the page with the trailer comes last and alone.
`summary` is the seal of `header`, which Rust unwraps. -/
structure FooterEncoder where
  metadata : Bytes
  header : SegmentHeader
  summary : Seal
  len : Nat
  offset : Nat
  checksum : Crc32c

def SegmentBuilder.into_footer (b : SegmentBuilder) : FooterEncoder :=
  ⟨b.metadata, b.sealed_header, b.seal_, b.footer_len, 0, Crc32c.new⟩

/-- The next chunk with its segment offset, and whether it is the last one. -/
def FooterEncoder.next (e : FooterEncoder) : Option ((Nat × Bytes × Bool) × FooterEncoder) :=
  if e.offset = e.len then none
  else
    let last := decide (e.offset = e.len - PAGE_SIZE)
    let len := if last = true then PAGE_SIZE else min (e.len - PAGE_SIZE - e.offset) (64 * 1024)
    let copied := min (e.metadata.length - e.offset) len
    let from_ := min e.offset e.metadata.length
    let bytes := patch (zeros len) 0 (slice e.metadata from_ (from_ + copied))
    let offset := e.header.segment_len - e.len + e.offset
    if last = true then
      let at_ := len - FOOTER_TRAILER_LEN
      let bytes := patch bytes at_ (encode_trailer (bytes.drop at_) e.header e.summary e.len)
      let checksum := e.checksum.update bytes
      let bytes := put_u32 bytes (at_ + 60) checksum.finalize
      let bytes := put_u32 bytes (at_ + 12) (crc_with_zeroed_checksum (bytes.drop at_))
      some ((offset, bytes, true), { e with offset := e.offset + len, checksum })
    else
      some ((offset, bytes, false),
        { e with offset := e.offset + len, checksum := e.checksum.update bytes })

/-! ## The trailer -/

structure FooterTrailer where
  header : SegmentHeader
  checksum : Nat

/-- The geometry that a seal must have in a segment of `segment_len` bytes. -/
def Seal.geometry (s : Seal) (footer_len segment_len : Nat) : Bool :=
  !decide (s.data_end < PAGE_SIZE ∨ ¬ is_aligned s.data_end PAGE_SIZE = true ∨
    s.metadata_len % 4 ≠ 0 ∨ segment.footer_len s.metadata_len ≠ footer_len ∨
    s.data_end + segment.footer_len s.metadata_len > segment_len ∨
    decide (s.frame_count = 0) ≠ decide (s.data_end = PAGE_SIZE) ∨
    decide (s.frame_count = 0) ≠ decide (s.metadata_len = 0) ∨
    s.frame_count * PAGE_SIZE > s.data_end - PAGE_SIZE ∨
    s.frame_count * MIN_FRAME_METADATA_LEN > s.metadata_len ∨
    s.metadata_len > s.data_end - PAGE_SIZE)

/-- Decodes the last 64 bytes of `tail`. -/
def FooterTrailer.decode (tail : Bytes) (segment_len : Nat) (hu : segment_len < 2 ^ 32) :
    Except Error FooterTrailer :=
  if tail.length < FOOTER_TRAILER_LEN then .error (.Truncated FOOTER_TRAILER_LEN tail.length)
  else
    let bytes := tail.drop (tail.length - FOOTER_TRAILER_LEN)
    match validate_prefix bytes FOOTER_MAGIC with
    | .error e => .error e
    | .ok () =>
      match SegmentHeader.new ⟨Id16.from_bytes (slice bytes 16 32), u32_at bytes 32,
          u64_at bytes 40, u32_at_lt _ _, u64_at_lt _ _⟩ segment_len hu with
      | .error _ => .error (.Corrupt "footer segment geometry")
      | .ok header =>
        let s : Seal := ⟨u32_at bytes 36, u32_at bytes 48, u32_at bytes 52, u32_at_lt _ _⟩
        if s.geometry (u32_at bytes 56) segment_len = false then
          .error (.Corrupt "sealed footer geometry")
        else .ok ⟨{ header with seal_ := some s }, u32_at bytes 60⟩

/-- The footer as its checksum sees it: both checksum fields as zero. -/
def zeroed (bytes : Bytes) : Bytes :=
  let at_ := bytes.length - FOOTER_TRAILER_LEN
  bytes.take (at_ + 12) ++ zeros 4 ++ slice bytes (at_ + 16) (at_ + 60) ++ zeros 4

/-! ## The validator -/

structure FooterValidator where
  header : SegmentHeader
  summary : Seal
  limits : FrameLimits
  checksum : Crc32c
  checked : Nat
  metadata_at : Nat
  frame_offset : Nat
  frames : Nat
  expected : Nat
  checksum_done : Bool

def FooterValidator.new (bytes : Bytes) (header : SegmentHeader) (limits : FrameLimits) :
    Except Error FooterValidator :=
  match FooterTrailer.decode bytes header.segment_len header.len_u32 with
  | .error e => .error e
  | .ok trailer =>
    if trailer.header ≠ header then .error (.Corrupt "footer identity")
    else
      match header.seal_ with
      | none => .error (.Corrupt "footer identity")
      | some summary =>
        .ok ⟨header, summary, limits, Crc32c.new, 0, 0, PAGE_SIZE, 0, trailer.checksum, false⟩

/-- One of the four pieces of the checksum, clipped to the window `checked .. end_`. -/
def update_piece (c : Crc32c) (bytes : Bytes) (checked end_ start stop : Nat) (zero : Bool) :
    Crc32c :=
  let lo := max checked start
  let hi := min end_ stop
  if lo < hi then
    if zero = true then c.update (zeros (hi - lo)) else c.update (slice bytes lo hi)
  else c

def update_window (c : Crc32c) (bytes : Bytes) (checked end_ : Nat) : Crc32c :=
  let at_ := bytes.length - FOOTER_TRAILER_LEN
  let c := update_piece c bytes checked end_ 0 (at_ + 12) false
  let c := update_piece c bytes checked end_ (at_ + 12) (at_ + 16) true
  let c := update_piece c bytes checked end_ (at_ + 16) (at_ + 60) false
  update_piece c bytes checked end_ (at_ + 60) bytes.length true

/-- One step: 64 KiB of the checksum, or one frame's metadata. `true` means that all is valid. -/
def FooterValidator.step (v : FooterValidator) (bytes : Bytes) :
    Except Error (FooterValidator × Bool) :=
  let at_ := bytes.length - FOOTER_TRAILER_LEN
  if v.checksum_done = false then
    let end_ := min (v.checked + 64 * 1024) bytes.length
    let checksum := update_window v.checksum bytes v.checked end_
    let lo := max v.checked v.summary.metadata_len
    let hi := min end_ at_
    if lo < hi ∧ ¬ allZero (slice bytes lo hi) = true then .error (.Corrupt "footer padding")
    else if end_ = bytes.length then
      if checksum.finalize ≠ v.expected then .error (.Corrupt "footer checksum")
      else .ok ({ v with checksum, checked := end_, checksum_done := true }, false)
    else .ok ({ v with checksum, checked := end_ }, false)
  else if v.frames = v.summary.frame_count then
    if v.metadata_at ≠ v.summary.metadata_len ∨ v.frame_offset ≠ v.summary.data_end then
      .error (.Corrupt "footer frame coverage")
    else .ok (v, true)
  else
    match v.header.position v.frame_offset with
    | .error source => .error (.Frame v.frame_offset source)
    | .ok position =>
      match Metadata.decode (slice bytes v.metadata_at v.summary.metadata_len) v.limits
        position with
      | .error source => .error (.Frame v.frame_offset source)
      | .ok metadata =>
        .ok ({ v with
          metadata_at := v.metadata_at + metadata.bytes.length
          frame_offset := v.frame_offset + metadata.header.frame_len
          frames := v.frames + 1 }, false)

end moat_engine.segment
