-- Frame limits, frame positions, and the two fixed 64-byte structures of a
-- frame: the header and the record descriptor.
import Moat.Codec

namespace moat_engine.frame

open byte_list moat_common moat_engine.codec List

def HEADER_LEN : Nat := 64
def DESCRIPTOR_LEN : Nat := 64
def FORMAT_VERSION : Nat := 1
def VALUE_ALIGN : Nat := 8

/-- `b"MOATFRM1"`. -/
def MAGIC : Bytes := [0x4D, 0x4F, 0x41, 0x54, 0x46, 0x52, 0x4D, 0x31]

/-- Failures from frame construction and validation. -/
inductive Error where
  | InvalidArgument (msg : String)
  | ValueTooLarge (len max : Nat)
  | FrameFull (required limit : Nat)
  | SegmentFull (required available : Nat)
  | BufferTooSmall (required available : Nat)
  | Truncated (required available : Nat)
  | UnsupportedVersion (version : Nat)
  | Corrupt (msg : String)
  | PayloadChecksum (record block : Nat)
deriving DecidableEq, Repr

/-! ## Limits and positions -/

/-- Format-wide bounds. The fields are private in Rust, so a value of this type has
passed `FrameLimits::new`. -/
structure FrameLimits where
  max_frame_len : Nat
  max_value_len : Nat
  frame_pos : 0 < max_frame_len
  frame_aligned : max_frame_len % 4096 = 0
  frame_u32 : max_frame_len < 2 ^ 32
  value_le : max_value_len ≤ max_frame_len
deriving DecidableEq

/-- A one-page limit, for the smallest frames. -/
def onePage : FrameLimits := ⟨4096, 4096, by decide, by decide, by decide, by decide⟩

def twoPages : FrameLimits := ⟨8192, 8192, by decide, by decide, by decide, by decide⟩

def FrameLimits.new (max_frame_len max_value_len : Nat) (hu : max_frame_len < 2 ^ 32) :
    Except Error FrameLimits :=
  if h1 : max_frame_len = 0 ∨ ¬ is_aligned max_frame_len PAGE_SIZE = true then
    .error (.InvalidArgument "frame limit must be a nonzero page multiple")
  else if h2 : max_value_len > max_frame_len then
    .error (.InvalidArgument "value limit exceeds frame limit")
  else
    .ok ⟨max_frame_len, max_value_len, by omega,
      (is_aligned_page _).mp (not_not.mp (not_or.mp h1).2), hu, by omega⟩

theorem FrameLimits.page_le (l : FrameLimits) : 4096 ≤ l.max_frame_len := by
  have := l.frame_pos; have := l.frame_aligned; omega

/-- The physical place of a frame in one allocation of a segment. -/
structure FramePosition where
  segment_seq : Nat
  offset : Nat
  available : Nat
  seq_u64 : segment_seq < 2 ^ 64
  offset_aligned : offset % 4096 = 0
  offset_page : 4096 ≤ offset
  available_pos : 0 < available
  available_aligned : available % 4096 = 0
  end_u32 : offset + available < 2 ^ 32
deriving DecidableEq

/-- Binds a frame to a segment incarnation and a page-aligned offset. The arguments are
`u64` and `u32` values, which `hq` and `hu` say. -/
def FramePosition.new (segment_seq offset segment_len : Nat) (hq : segment_seq < 2 ^ 64)
    (hu : segment_len < 2 ^ 32) : Except Error FramePosition :=
  if h : ¬ is_aligned segment_len PAGE_SIZE = true ∨ ¬ is_aligned offset PAGE_SIZE = true ∨
      offset < PAGE_SIZE ∨ segment_len ≤ offset then
    .error (.InvalidArgument "invalid segment length or frame offset")
  else
    .ok ⟨segment_seq, offset, segment_len - offset, hq, by
        simp only [is_aligned_page, not_or, not_not] at h; exact h.2.1, by
        simp only [not_or, PAGE_SIZE] at h; omega, by omega, by
        simp only [is_aligned_page, not_or, not_not] at h; omega, by omega⟩

theorem FramePosition.new_ok {seq offset len : Nat} {hq : seq < 2 ^ 64} {hu : len < 2 ^ 32}
    {p : FramePosition} (h : FramePosition.new seq offset len hq hu = .ok p) :
    p.segment_seq = seq ∧ p.offset = offset ∧ p.available = len - offset ∧ offset < len ∧
      4096 ≤ offset ∧ offset % 4096 = 0 ∧ len % 4096 = 0 := by
  unfold FramePosition.new at h
  split at h
  · cases h
  · rename_i hc
    cases h
    simp only [is_aligned_page, not_or, not_not] at hc
    simp only [PAGE_SIZE] at hc
    exact ⟨rfl, rfl, rfl, by omega, by omega, hc.2.1, hc.1⟩

theorem FramePosition.new_eq {seq offset len : Nat} (hq : seq < 2 ^ 64) (hu : len < 2 ^ 32)
    (h1 : len % 4096 = 0) (h2 : offset % 4096 = 0) (h3 : 4096 ≤ offset) (h4 : offset < len) :
    FramePosition.new seq offset len hq hu =
      .ok ⟨seq, offset, len - offset, hq, h2, h3, by omega, by omega, by omega⟩ := by
  unfold FramePosition.new
  rw [dif_neg]
  simp only [is_aligned_page]
  simp only [PAGE_SIZE]
  omega

def FramePosition.check_len (p : FramePosition) (len : Nat) : Except Error Unit :=
  if len > p.available then .error (.SegmentFull len p.available) else .ok ()

/-! ## The frame header -/

structure FrameHeader where
  position : FramePosition
  frame_len : Nat
  record_count : Nat
  checksum_len : Nat
  metadata_crc : Nat
deriving DecidableEq

/-- Header, directory and checksum bytes, not rounded to a page. -/
def FrameHeader.metadata_len (h : FrameHeader) : Nat :=
  HEADER_LEN + h.record_count * DESCRIPTOR_LEN + h.checksum_len

def FrameHeader.decode (bytes : Bytes) (limits : FrameLimits) (position : FramePosition) :
    Except Error FrameHeader :=
  if bytes.length < HEADER_LEN then .error (.Truncated HEADER_LEN bytes.length)
  else
    let bytes := slice bytes 0 HEADER_LEN
    if slice bytes 0 8 ≠ MAGIC then .error (.Corrupt "frame magic")
    else if u32_at bytes 12 ≠ crc_with_zeroed_checksum bytes then
      .error (.Corrupt "header checksum")
    else if u32_at bytes 8 ≠ FORMAT_VERSION then .error (.UnsupportedVersion (u32_at bytes 8))
    else if ¬ allZero (bytes.drop 48) = true then .error (.Corrupt "reserved header bytes")
    else if u64_at bytes 16 ≠ position.segment_seq ∨ u32_at bytes 24 ≠ position.offset then
      .error (.Corrupt "frame position or segment incarnation")
    else
      let frame_len := u32_at bytes 28
      let record_count := u32_at bytes 32
      let directory_len := u32_at bytes 36
      let checksum_len := u32_at bytes 40
      if frame_len = 0 ∨ ¬ is_aligned frame_len PAGE_SIZE = true ∨
          frame_len > limits.max_frame_len ∨ frame_len > position.available then
        .error (.Corrupt "frame length")
      else if record_count = 0 ∨ record_count * DESCRIPTOR_LEN ≠ directory_len then
        .error (.Corrupt "directory length or record count")
      else if ¬ checksum_len % 4 = 0 ∨ HEADER_LEN + directory_len + checksum_len > frame_len then
        .error (.Corrupt "metadata length")
      else .ok ⟨position, frame_len, record_count, checksum_len, u32_at bytes 44⟩

def FrameHeader.encode (h : FrameHeader) (bytes : Bytes) : Bytes :=
  let b := patch bytes 0 (zeros HEADER_LEN)
  let b := patch b 0 MAGIC
  let b := put_u32 b 8 FORMAT_VERSION
  let b := put_u64 b 16 h.position.segment_seq
  let b := put_u32 b 24 h.position.offset
  let b := put_u32 b 28 h.frame_len
  let b := put_u32 b 32 h.record_count
  let b := put_u32 b 36 (h.record_count * DESCRIPTOR_LEN)
  let b := put_u32 b 40 h.checksum_len
  let b := put_u32 b 44 h.metadata_crc
  put_u32 b 12 (crc_with_zeroed_checksum (slice b 0 HEADER_LEN))

/-- The fields of a header after its checksum field. -/
def FrameHeader.tail (h : FrameHeader) : Bytes :=
  leBytes 8 h.position.segment_seq ++ leBytes 4 h.position.offset ++ leBytes 4 h.frame_len ++
    leBytes 4 h.record_count ++ leBytes 4 (h.record_count * DESCRIPTOR_LEN) ++
    leBytes 4 h.checksum_len ++ leBytes 4 h.metadata_crc ++ zeros 16

/-- The 64 bytes that `encode` writes. -/
def FrameHeader.image (h : FrameHeader) : Bytes := stamp MAGIC FORMAT_VERSION h.tail

@[simp] theorem FrameHeader.image_length (h : FrameHeader) : h.image.length = 64 := by
  unfold FrameHeader.image
  rw [stamp_length rfl]
  simp [FrameHeader.tail]

theorem FrameHeader.encode_eq (h : FrameHeader) (bytes : Bytes) (hl : 64 ≤ bytes.length) :
    h.encode bytes = h.image ++ bytes.drop 64 := by
  obtain ⟨a, r, rfl, ha⟩ : ∃ a r, bytes = a ++ r ∧ a.length = 64 :=
    ⟨bytes.take 64, bytes.drop 64, by simp, by simpa using hl⟩
  -- The fields before the checksum land in a header whose checksum field is still zero.
  have hb : put_u32 (put_u32 (put_u32 (put_u32 (put_u32 (put_u32 (put_u64 (put_u32
      (patch (patch (a ++ r) 0 (zeros HEADER_LEN)) 0 MAGIC) 8 FORMAT_VERSION)
      16 h.position.segment_seq) 24 h.position.offset) 28 h.frame_len) 32 h.record_count)
      36 (h.record_count * DESCRIPTOR_LEN)) 40 h.checksum_len) 44 h.metadata_crc =
      stampWith MAGIC FORMAT_VERSION 0 h.tail ++ r := by
    have hz : patch (a ++ r) 0 (zeros HEADER_LEN) = zeros 64 ++ r := by
      rw [patch_append_left (by simp [ha, HEADER_LEN]), patch_all (by simp [ha, HEADER_LEN])]
      rfl
    rw [hz]
    simp [put_u32, put_u64, patch, leBytes, MAGIC, zeros, List.replicate, stampWith,
      FrameHeader.tail]
  have hl : (stampWith MAGIC FORMAT_VERSION 0 h.tail).length = 64 := by
    rw [stampWith_length rfl]
    simp [FrameHeader.tail]
  unfold FrameHeader.encode
  simp only [hb]
  rw [drop_left' ha, slice_append_left _ _ (by rw [hl]; rfl),
    show HEADER_LEN = (stampWith MAGIC FORMAT_VERSION 0 h.tail).length from hl.symm,
    slice_self_length]
  unfold FrameHeader.image
  rw [← put_stamp rfl]
  unfold put_u32
  exact patch_append_left (by rw [hl]; simp)

/-- A well-formed header: the bounds that the format puts on its fields. -/
structure FrameHeader.Fits (h : FrameHeader) (limits : FrameLimits) : Prop where
  frame_pos : 0 < h.frame_len
  frame_aligned : h.frame_len % 4096 = 0
  frame_le : h.frame_len ≤ limits.max_frame_len
  frame_room : h.frame_len ≤ h.position.available
  count_pos : 0 < h.record_count
  checksum_aligned : h.checksum_len % 4 = 0
  metadata_le : h.metadata_len ≤ h.frame_len
  crc_u32 : h.metadata_crc < 2 ^ 32

/-- A header that fits decodes from its own bytes, whatever follows them. -/
theorem FrameHeader.decode_image (h : FrameHeader) (limits : FrameLimits) (bytes : Bytes)
    (hf : h.Fits limits) (hb : bytes.take 64 = h.image) (hl : 64 ≤ bytes.length) :
    FrameHeader.decode bytes limits h.position = .ok h := by
  obtain ⟨f1, f2, f3, f4, f5, f6, f7, f8⟩ := hf
  have i1 : slice h.image 0 8 = MAGIC := stamp_magic rfl _ _
  have i2 : u32_at h.image 8 = FORMAT_VERSION := stamp_version rfl _ _
  have i3 : u32_at h.image 12 = crc_with_zeroed_checksum h.image := stamp_checksum rfl _ _
  have i4 : u64_at h.image 16 = h.position.segment_seq % 2 ^ 64 := stamp_u64 rfl _ _ (by omega) rfl
  have i5 : u32_at h.image 24 = h.position.offset % 2 ^ 32 := stamp_u32 rfl _ _ (by omega) rfl
  have i6 : u32_at h.image 28 = h.frame_len % 2 ^ 32 := stamp_u32 rfl _ _ (by omega) rfl
  have i7 : u32_at h.image 32 = h.record_count % 2 ^ 32 := stamp_u32 rfl _ _ (by omega) rfl
  have i8 : u32_at h.image 36 = h.record_count * 64 % 2 ^ 32 := stamp_u32 rfl _ _ (by omega) rfl
  have i9 : u32_at h.image 40 = h.checksum_len % 2 ^ 32 := stamp_u32 rfl _ _ (by omega) rfl
  have i10 : u32_at h.image 44 = h.metadata_crc % 2 ^ 32 := stamp_u32 rfl _ _ (by omega) rfl
  have i11 : h.image.drop 48 = zeros 16 := stamp_drop rfl _ _ (by omega)
  have hs : slice bytes 0 HEADER_LEN = h.image := by rw [slice_zero]; exact hb
  have hu := limits.frame_u32
  have ho := h.position.end_u32
  simp only [FrameHeader.metadata_len, HEADER_LEN, DESCRIPTOR_LEN] at f7
  rw [Nat.mod_eq_of_lt h.position.seq_u64] at i4
  rw [Nat.mod_eq_of_lt (show h.position.offset < 2 ^ 32 by omega)] at i5
  rw [Nat.mod_eq_of_lt (show h.frame_len < 2 ^ 32 by omega)] at i6
  rw [Nat.mod_eq_of_lt (show h.record_count < 2 ^ 32 by omega)] at i7
  rw [Nat.mod_eq_of_lt (show h.record_count * 64 < 2 ^ 32 by omega)] at i8
  rw [Nat.mod_eq_of_lt (show h.checksum_len < 2 ^ 32 by omega)] at i9
  rw [Nat.mod_eq_of_lt f8] at i10
  unfold FrameHeader.decode
  rw [if_neg (by simp only [HEADER_LEN]; omega), hs]
  simp only [i1, i2, i3, i4, i5, i6, i7, i8, i9, i10, i11, ne_eq, not_true_eq_false, if_false,
    allZero_zeros, or_self]
  have g1 : ¬ (h.frame_len = 0 ∨ ¬ is_aligned h.frame_len PAGE_SIZE = true ∨
      h.frame_len > limits.max_frame_len ∨ h.frame_len > h.position.available) := by
    simp only [is_aligned_page]; omega
  have g2 : ¬ (h.record_count = 0 ∨ ¬ h.record_count * DESCRIPTOR_LEN = h.record_count * 64) := by
    rintro (g | g)
    · omega
    · exact g rfl
  have g3 : ¬ (¬ h.checksum_len % 4 = 0 ∨
      HEADER_LEN + h.record_count * 64 + h.checksum_len > h.frame_len) := by
    simp only [HEADER_LEN]; omega
  rw [if_neg g1, if_neg g2, if_neg g3]

/-- What an accepted header promises. -/
theorem FrameHeader.decode_ok {bytes : Bytes} {limits : FrameLimits} {p : FramePosition}
    {h : FrameHeader} (hd : FrameHeader.decode bytes limits p = .ok h) :
    h.position = p ∧ h.Fits limits ∧ 64 ≤ bytes.length := by
  unfold FrameHeader.decode at hd
  simp only [ite_error_eq_ok] at hd
  obtain ⟨h0, -, -, -, -, -, h6, h7, h8, ⟨⟩⟩ := hd
  simp only [is_aligned_page, not_or, not_not] at h6
  simp only [not_or, ne_eq, not_not] at h7
  simp only [not_or, not_not] at h8
  obtain ⟨a1, a2, a3, a4⟩ := h6
  obtain ⟨b1, b2⟩ := h7
  obtain ⟨c1, c2⟩ := h8
  refine ⟨rfl, ⟨Nat.pos_of_ne_zero a1, a2, Nat.le_of_not_lt a3, Nat.le_of_not_lt a4,
    Nat.pos_of_ne_zero b1, c1, ?_, u32_at_lt _ _⟩, Nat.le_of_not_lt h0⟩
  unfold FrameHeader.metadata_len
  rw [b2]
  exact Nat.le_of_not_lt c2

/-! ## Record descriptors -/

/-- The logical meaning of a directory entry: `Data = 1`, `Tombstone = 2` on disk. -/
inductive RecordKind where
  | Data
  | Tombstone
deriving DecidableEq, Repr

def RecordKind.byte : RecordKind → UInt8
  | .Data => 1
  | .Tombstone => 2

structure RecordDescriptor where
  key : ChunkId
  lsn : UInt64
  value_offset : Nat
  value_len : Nat
  checksum_offset : Nat
  checksum_count : Nat
  kind : RecordKind
deriving DecidableEq

def RecordDescriptor.decode (bytes : Bytes) : Except Error RecordDescriptor :=
  let rest (kind : RecordKind) : Except Error RecordDescriptor :=
    if ¬ allZero (slice bytes 41 DESCRIPTOR_LEN) = true then
      .error (.Corrupt "unsupported record flags or reserved bytes")
    else
      .ok ⟨Id16.from_bytes (slice bytes 0 16), UInt64.ofNat (u64_at bytes 16), u32_at bytes 24,
        u32_at bytes 28, u32_at bytes 32, u32_at bytes 36, kind⟩
  if bytes[40]? = some 1 then rest .Data
  else if bytes[40]? = some 2 then rest .Tombstone
  else .error (.Corrupt "record kind")

def RecordDescriptor.encode (d : RecordDescriptor) (bytes : Bytes) : Bytes :=
  let b := patch bytes 0 (zeros DESCRIPTOR_LEN)
  let b := patch b 0 d.key.bytes
  let b := put_u64 b 16 d.lsn.toNat
  let b := put_u32 b 24 d.value_offset
  let b := put_u32 b 28 d.value_len
  let b := put_u32 b 32 d.checksum_offset
  let b := put_u32 b 36 d.checksum_count
  patch b 40 [d.kind.byte]

/-- The fields of a descriptor after its key. -/
def RecordDescriptor.tail (d : RecordDescriptor) : Bytes :=
  leBytes 8 d.lsn.toNat ++ leBytes 4 d.value_offset ++ leBytes 4 d.value_len ++
    leBytes 4 d.checksum_offset ++ leBytes 4 d.checksum_count ++ [d.kind.byte] ++ zeros 23

/-- The 64 bytes that `encode` writes. -/
def RecordDescriptor.image (d : RecordDescriptor) : Bytes := d.key.bytes ++ d.tail

section
variable (d : RecordDescriptor)

@[simp] theorem RecordDescriptor.image_length : d.image.length = 64 := by
  simp [RecordDescriptor.image, RecordDescriptor.tail, d.key.len]

theorem RecordDescriptor.encode_eq (bytes : Bytes)
    (hl : bytes.length = 64) : d.encode bytes = d.image := by
  have hz : patch (zeros 64) 0 d.key.bytes = d.key.bytes ++ zeros 48 := by
    unfold patch
    rw [d.key.len]
    rfl
  have happ : ∀ (r : Bytes) (i : Nat) (v : Bytes), i + v.length ≤ r.length →
      patch (d.key.bytes ++ r) (16 + i) v = d.key.bytes ++ patch r i v := by
    intro r i v hv
    unfold patch
    rw [take_append, drop_append, d.key.len,
      take_of_length_le (by rw [d.key.len]; omega),
      drop_eq_nil_of_le (by rw [d.key.len]; omega)]
    simp [show 16 + i + v.length - 16 = i + v.length by omega]
  unfold RecordDescriptor.encode put_u64 put_u32
  simp only
  rw [show DESCRIPTOR_LEN = 64 from rfl, patch_all (b := bytes) (v := zeros 64) (by simp [hl]), hz]
  rw [happ _ 0 _ (by simp), happ _ 8 _ (by simp [patch]), happ _ 12 _ (by simp [patch]),
    happ _ 16 _ (by simp [patch]), happ _ 20 _ (by simp [patch]), happ _ 24 _ (by simp [patch])]
  rfl

theorem RecordDescriptor.slice_image {i j : Nat} (hi : 16 ≤ i) :
    slice d.image i j = slice d.tail (i - 16) (j - 16) := by
  unfold RecordDescriptor.image
  rw [slice_append_right _ _ (by rw [d.key.len]; exact hi), d.key.len]

/-- What the fields of a descriptor's bytes read as. -/
theorem RecordDescriptor.image_fields :
    slice d.image 0 16 = d.key.bytes ∧ u64_at d.image 16 = d.lsn.toNat % 2 ^ 64 ∧
    u32_at d.image 24 = d.value_offset % 2 ^ 32 ∧ u32_at d.image 28 = d.value_len % 2 ^ 32 ∧
    u32_at d.image 32 = d.checksum_offset % 2 ^ 32 ∧
    u32_at d.image 36 = d.checksum_count % 2 ^ 32 ∧ d.image[40]? = some d.kind.byte ∧
    slice d.image 41 64 = zeros 23 := by
  have hkey : slice d.image 0 16 = d.key.bytes := by
    unfold RecordDescriptor.image
    rw [slice_append_left _ _ (by rw [d.key.len]), ← d.key.len, slice_self_length]
  have hkind : d.image[40]? = some d.kind.byte := by
    unfold RecordDescriptor.image
    rw [List.getElem?_append_right (by rw [d.key.len]; omega), d.key.len]
    rfl
  refine ⟨hkey, u64_at_of_slice ?_, u32_at_of_slice ?_, u32_at_of_slice ?_, u32_at_of_slice ?_,
    u32_at_of_slice ?_, hkind, ?_⟩
  all_goals
    rw [d.slice_image (by omega)]
    rfl

/-- A descriptor with `u32` fields decodes from its own bytes. -/
theorem RecordDescriptor.decode_image (h1 : d.value_offset < 2 ^ 32)
    (h2 : d.value_len < 2 ^ 32) (h3 : d.checksum_offset < 2 ^ 32)
    (h4 : d.checksum_count < 2 ^ 32) : RecordDescriptor.decode d.image = .ok d := by
  obtain ⟨i1, i2, i3, i4, i5, i6, i7, i8⟩ := d.image_fields
  rw [Nat.mod_eq_of_lt d.lsn.toNat_lt] at i2
  rw [Nat.mod_eq_of_lt h1] at i3
  rw [Nat.mod_eq_of_lt h2] at i4
  rw [Nat.mod_eq_of_lt h3] at i5
  rw [Nat.mod_eq_of_lt h4] at i6
  unfold RecordDescriptor.decode
  simp only [show DESCRIPTOR_LEN = 64 from rfl, i1, i2, i3, i4, i5, i6, i7, i8, allZero_zeros,
    not_true_eq_false, if_false, Id16.from_bytes_eq d.key.len, UInt64.ofNat_toNat]
  obtain ⟨key, lsn, vo, vl, co, cc, kind⟩ := d
  cases kind
  · rfl
  · rfl

end

theorem RecordDescriptor.decode_ok_u32 {b : Bytes} {d : RecordDescriptor}
    (h : RecordDescriptor.decode b = .ok d) :
    d.value_offset < 2 ^ 32 ∧ d.value_len < 2 ^ 32 ∧ d.checksum_offset < 2 ^ 32 ∧
      d.checksum_count < 2 ^ 32 := by
  unfold RecordDescriptor.decode at h
  simp only at h
  split_ifs at h
  all_goals first
    | cases h; exact ⟨u32_at_lt _ _, u32_at_lt _ _, u32_at_lt _ _, u32_at_lt _ _⟩

end moat_engine.frame
