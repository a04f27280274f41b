-- Reading a frame back: the metadata walk with its tiling and overlap
-- checks, the records, and the payload checksums.
import Moat.FrameHeader

namespace moat_engine.frame

open byte_list moat_common moat_engine.codec

/-! ## Ranges of a value -/

def validate_range (value_len start end_ : Nat) : Except Error Unit :=
  if start > end_ ∨ end_ > value_len then .error (.InvalidArgument "read range exceeds value")
  else .ok ()

/-- The range widened to whole checksum blocks of the value. -/
def verification_range (value_len start end_ : Nat) : Except Error (Nat × Nat) :=
  match validate_range value_len start end_ with
  | .error e => .error e
  | .ok () =>
    if end_ ≤ start then .ok (start, end_)
    else
      .ok (align_down start CHECKSUM_BLOCK_SIZE,
        min (align_up end_ CHECKSUM_BLOCK_SIZE) value_len)

theorem align_down_block (v : Nat) : align_down v CHECKSUM_BLOCK_SIZE = v / 65536 * 65536 :=
  align_down_two_pow v 16

theorem align_up_block (v : Nat) : align_up v CHECKSUM_BLOCK_SIZE = (v + 65535) / 65536 * 65536 :=
  align_down_two_pow (v + 65535) 16

theorem verification_range_eq {value_len start end_ : Nat} (h1 : start ≤ end_)
    (h2 : end_ ≤ value_len) :
    verification_range value_len start end_ =
      if end_ ≤ start then .ok (start, end_)
      else .ok (start / 65536 * 65536, min ((end_ + 65535) / 65536 * 65536) value_len) := by
  unfold verification_range validate_range
  rw [if_neg (by omega)]
  simp only [align_down_block, align_up_block]

/-! ## Metadata -/

/-- The validated header, directory and checksums of a frame. -/
structure Metadata where
  bytes : Bytes
  header : FrameHeader
deriving DecidableEq

def Metadata.decode_descriptor (m : Metadata) (ordinal : Nat) : Except Error RecordDescriptor :=
  let at_ := HEADER_LEN + ordinal * DESCRIPTOR_LEN
  RecordDescriptor.decode (slice m.bytes at_ (at_ + DESCRIPTOR_LEN))

/-- What the metadata walk carries from one record to the next. -/
structure Walk where
  checksum_at : Nat
  previous_end : Nat
  ordered : Bool
deriving DecidableEq

/-- The checks on one descriptor. -/
def Walk.step (w : Walk) (header : FrameHeader) (limits : FrameLimits) (d : RecordDescriptor) :
    Except Error Walk :=
  if d.value_len > limits.max_value_len then .error (.Corrupt "value length exceeds format limit")
  else if d.kind = .Tombstone ∧ d.value_len ≠ 0 then .error (.Corrupt "tombstone has a value")
  else if d.value_len = 0 then
    if d.value_offset ≠ 0 ∨ d.checksum_offset ≠ 0 ∨ d.checksum_count ≠ 0 then
      .error (.Corrupt "nonzero empty-value geometry")
    else .ok w
  else if d.checksum_count ≠ block_count d.value_len ∨ d.checksum_offset ≠ w.checksum_at then
    .error (.Corrupt "checksum array geometry")
  else if w.checksum_at + 4 * d.checksum_count > header.metadata_len then
    .error (.Corrupt "checksum array exceeds metadata")
  else if d.value_offset < header.metadata_len ∨ ¬ is_aligned d.value_offset VALUE_ALIGN = true ∨
      d.value_offset + d.value_len > header.frame_len then
    .error (.Corrupt "value range or alignment")
  else
    .ok ⟨w.checksum_at + 4 * d.checksum_count, d.value_offset + d.value_len,
      w.ordered && decide (w.previous_end ≤ d.value_offset)⟩

/-- An empty value, or a tombstone, moves nothing. -/
theorem Walk.step_empty {w : Walk} {header : FrameHeader} {limits : FrameLimits}
    {d : RecordDescriptor} (h0 : d.value_len = 0) (h1 : d.value_offset = 0)
    (h2 : d.checksum_offset = 0) (h3 : d.checksum_count = 0) : w.step header limits d = .ok w := by
  unfold Walk.step
  simp [h0, h1, h2, h3]

/-- A value with the right geometry moves the cursors behind it. -/
theorem Walk.step_value {w : Walk} {header : FrameHeader} {limits : FrameLimits}
    {d : RecordDescriptor} (h0 : 0 < d.value_len) (h1 : d.value_len ≤ limits.max_value_len)
    (h2 : d.kind ≠ .Tombstone) (h3 : d.checksum_count = block_count d.value_len)
    (h4 : d.checksum_offset = w.checksum_at)
    (h5 : w.checksum_at + 4 * d.checksum_count ≤ header.metadata_len)
    (h6 : header.metadata_len ≤ d.value_offset) (h7 : d.value_offset % 8 = 0)
    (h8 : d.value_offset + d.value_len ≤ header.frame_len) :
    w.step header limits d = .ok ⟨w.checksum_at + 4 * d.checksum_count,
      d.value_offset + d.value_len, w.ordered && decide (w.previous_end ≤ d.value_offset)⟩ := by
  have ha : is_aligned d.value_offset VALUE_ALIGN = true := (is_aligned_eight _).mpr h7
  unfold Walk.step
  rw [if_neg (by omega), if_neg (fun h => h2 h.1), if_neg (by omega),
    if_neg (by rw [← h3, h4]; simp), if_neg (by omega), if_neg]
  rintro (h | h | h)
  · omega
  · exact h ha
  · omega

/-- The walk over the next `remaining` descriptors. -/
def Metadata.walk (m : Metadata) (limits : FrameLimits) :
    (remaining : Nat) → (ordinal : Nat) → Walk → Except Error Walk
  | 0, _, w => .ok w
  | remaining + 1, ordinal, w =>
    match m.decode_descriptor ordinal with
    | .error e => .error e
    | .ok d =>
      match w.step m.header limits d with
      | .error e => .error e
      | .ok w => m.walk limits remaining (ordinal + 1) w

structure Record where
  descriptor : RecordDescriptor
  ordinal : Nat
  checksums : Bytes
deriving DecidableEq

/-- A record by its ordinal. Rust unwraps the descriptor, since `decode` has already read it. -/
def Metadata.record (m : Metadata) (ordinal : Nat) : Option Record :=
  if ordinal ≥ m.header.record_count then none
  else
    match m.decode_descriptor ordinal with
    | .error _ => none
    | .ok d =>
      some ⟨d, ordinal, slice m.bytes d.checksum_offset (d.checksum_offset + d.checksum_count * 4)⟩

def Metadata.records (m : Metadata) : List Record :=
  (List.range m.header.record_count).filterMap m.record

/-- The sorted nonempty value ranges, for the overlap check of an unordered directory. -/
def Metadata.sorted_ranges (m : Metadata) : List (Nat × Nat) :=
  ((m.records.filter (fun r => r.descriptor.value_len != 0)).map
    (fun r => (r.descriptor.value_offset, r.descriptor.value_len))).mergeSort
      (fun a b => decide (a.1 ≤ b.1))

def overlapping (ranges : List (Nat × Nat)) : Bool :=
  (ranges.zip ranges.tail).any (fun p => decide (p.1.1 + p.1.2 > p.2.1))

def Metadata.decode (bytes : Bytes) (limits : FrameLimits) (position : FramePosition) :
    Except Error Metadata :=
  match FrameHeader.decode bytes limits position with
  | .error e => .error e
  | .ok header =>
    if bytes.length < header.metadata_len then
      .error (.Truncated header.metadata_len bytes.length)
    else
      let bytes := bytes.take header.metadata_len
      if crc32c (bytes.drop HEADER_LEN) ≠ header.metadata_crc then
        .error (.Corrupt "metadata checksum")
      else
        let metadata : Metadata := ⟨bytes, header⟩
        match metadata.walk limits header.record_count 0
            ⟨HEADER_LEN + header.record_count * DESCRIPTOR_LEN, header.metadata_len, true⟩ with
        | .error e => .error e
        | .ok w =>
          if w.checksum_at ≠ header.metadata_len then
            .error (.Corrupt "unreferenced checksum bytes")
          else if w.ordered = false ∧ overlapping metadata.sorted_ranges = true then
            .error (.Corrupt "overlapping values")
          else .ok metadata

/-! ## Payload checks -/

def Record.checksum (r : Record) (block : Nat) : Option Nat :=
  if block ≥ r.descriptor.checksum_count then none else some (u32_at r.checksums (block * 4))

/-- Checks whole blocks of a value against the record's checksums. -/
def Record.verify (r : Record) (start end_ : Nat) (bytes : Bytes) : Except Error Unit :=
  match verification_range r.descriptor.value_len start end_ with
  | .error e => .error e
  | .ok widened =>
    if widened ≠ (start, end_) ∨ bytes.length ≠ end_ - start then
      .error (.InvalidArgument "verification requires complete checksum blocks")
    else
      match verify_blocks_with bytes (start / CHECKSUM_BLOCK_SIZE) r.checksum with
      | .error block => .error (.PayloadChecksum r.ordinal block)
      | .ok () => .ok ()

theorem Record.checksum_eq {r : Record} {block : Nat} (h : block < r.descriptor.checksum_count) :
    r.checksum block = some (u32_at r.checksums (block * 4)) := by
  unfold Record.checksum
  exact if_neg (by omega)

/-- Bytes pass when the range is whole blocks and every block has its checksum. -/
theorem Record.verify_ok {r : Record} {start end_ : Nat} {bytes : Bytes}
    (h1 : verification_range r.descriptor.value_len start end_ = .ok (start, end_))
    (h2 : bytes.length = end_ - start)
    (h3 : verify_blocks_with bytes (start / CHECKSUM_BLOCK_SIZE) r.checksum = .ok ()) :
    r.verify start end_ bytes = .ok () := by
  unfold Record.verify
  rw [h1]
  simp only
  rw [if_neg (by simp [h2]), h3]

structure Frame where
  bytes : Bytes
  metadata : Metadata
deriving DecidableEq

def verify_records (bytes : Bytes) : List Record → Except Error Unit
  | [] => .ok ()
  | r :: rest =>
    let start := r.descriptor.value_offset
    let len := r.descriptor.value_len
    match r.verify 0 len (slice bytes start (start + len)) with
    | .error e => .error e
    | .ok () => verify_records bytes rest

def Frame.decode (bytes : Bytes) (limits : FrameLimits) (position : FramePosition) :
    Except Error Frame :=
  match Metadata.decode bytes limits position with
  | .error e => .error e
  | .ok metadata =>
    if bytes.length < metadata.header.frame_len then
      .error (.Truncated metadata.header.frame_len bytes.length)
    else
      let bytes := bytes.take metadata.header.frame_len
      match verify_records bytes metadata.records with
      | .error e => .error e
      | .ok () => .ok ⟨bytes, metadata⟩

/-- The value of a record: `none` for a tombstone, also when the ordinal is out of range. -/
def Frame.value (f : Frame) (ordinal : Nat) : Option Bytes :=
  match f.metadata.record ordinal with
  | none => none
  | some r =>
    if r.descriptor.kind = .Tombstone then none
    else
      some (slice f.bytes r.descriptor.value_offset
        (r.descriptor.value_offset + r.descriptor.value_len))

/-- Everything a reader learns from a frame, in record order. -/
def Frame.contents (f : Frame) : List (ChunkId × UInt64 × RecordKind × Option Bytes) :=
  f.metadata.records.map
    (fun r => (r.descriptor.key, r.descriptor.lsn, r.descriptor.kind, f.value r.ordinal))

end moat_engine.frame
