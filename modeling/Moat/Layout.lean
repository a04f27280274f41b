-- Device geometry: the two superblocks, the slots they describe, and the
-- `format` that writes them.
import Moat.Io
import Moat.SegmentBuilder
import Moat.FrameBuilder

namespace moat_engine.engine

open byte_list moat_common moat_engine.codec List
open moat_engine.frame (FrameLimits)
open moat_engine.segment (SegmentHeader SegmentId)

/-- `b"MOATDEV1"`. -/
def MAGIC : Bytes := [0x4D, 0x4F, 0x41, 0x54, 0x44, 0x45, 0x56, 0x31]
def VERSION : Nat := 1
def START : Nat := 2 * PAGE_SIZE

inductive SyncMode where
  | Enabled
  | Disabled
deriving DecidableEq, Repr

structure FormatOptions where
  sync_mode : SyncMode
  device_id : Id16
  segment_size : Nat
  limits : FrameLimits
  size_u32 : segment_size < 2 ^ 32

/-- Geometry fixed by `format`. Every value has passed the checks of `Layout::new`. -/
structure Layout where
  id : Id16
  capacity : Nat
  segment_size : Nat
  segments : Nat
  limits : FrameLimits
  sequence : Nat
  id_nonzero : id.bytes ≠ zeros 16
  capacity_u64 : capacity < 2 ^ 64
  size_min : 16384 ≤ segment_size
  size_aligned : segment_size % 4096 = 0
  size_u32 : segment_size < 2 ^ 32
  segments_eq : segments = (capacity - 8192) / segment_size
  segments_pos : 0 < segments
  segments_u32 : segments < 2 ^ 32
  sequence_pos : 0 < sequence
  sequence_end : sequence + segments < 2 ^ 64
  frame_i32 : limits.max_frame_len < 2 ^ 31
  frame_room : limits.max_frame_len + 12288 ≤ segment_size

instance : DecidableEq Layout := fun a b => decidable_of_iff
  (a.id = b.id ∧ a.capacity = b.capacity ∧ a.segment_size = b.segment_size ∧
    a.segments = b.segments ∧ a.limits = b.limits ∧ a.sequence = b.sequence)
  (by cases a; cases b; simp)

/-- The checks on a device of `capacity` bytes; `hc` says that the number is a `u64`. -/
def Layout.new (capacity : Nat) (options : FormatOptions) (sequence : Nat)
    (hc : capacity < 2 ^ 64) : Except Error Layout :=
  let count := (capacity - START) / max options.segment_size 1
  if h : options.device_id.bytes = zeros 16 ∨ options.segment_size < 4 * PAGE_SIZE ∨
      ¬ is_aligned options.segment_size PAGE_SIZE = true ∨ count = 0 ∨ count > 2 ^ 32 - 1 ∨
      sequence = 0 ∨ sequence + count ≥ 2 ^ 64 ∨ options.limits.max_frame_len > 2 ^ 31 - 1 ∨
      options.limits.max_frame_len + 3 * PAGE_SIZE > options.segment_size then
    .error (.InvalidArgument "invalid device geometry or frame bounds")
  else
    have h1 := not_or.mp h
    have h2 := not_or.mp h1.2
    have h3 := not_or.mp h2.2
    have h4 := not_or.mp h3.2
    have h5 := not_or.mp h4.2
    have h6 := not_or.mp h5.2
    have h7 := not_or.mp h6.2
    have h8 := not_or.mp h7.2
    .ok
      { id := options.device_id
        capacity, segment_size := options.segment_size, segments := count
        limits := options.limits, sequence
        id_nonzero := h1.1
        capacity_u64 := hc
        size_min := Nat.not_lt.mp h2.1
        size_aligned := (is_aligned_page _).mp (not_not.mp h3.1)
        size_u32 := options.size_u32
        segments_eq := congrArg _ (Nat.max_eq_left
          (Nat.le_trans (Nat.le_add_left 1 16383) (Nat.not_lt.mp h2.1)))
        segments_pos := Nat.pos_of_ne_zero h4.1
        segments_u32 := Nat.lt_succ_of_le (Nat.not_lt.mp h5.1)
        sequence_pos := Nat.pos_of_ne_zero h6.1
        sequence_end := Nat.not_le.mp h7.1
        frame_i32 := Nat.lt_succ_of_le (Nat.not_lt.mp h8.1)
        frame_room := Nat.not_lt.mp h8.2 }

theorem Layout.new_ok {capacity sequence : Nat} {options : FormatOptions} {hc : capacity < 2 ^ 64}
    {l : Layout} (h : Layout.new capacity options sequence hc = .ok l) :
    l.id = options.device_id ∧ l.capacity = capacity ∧ l.segment_size = options.segment_size ∧
      l.limits = options.limits ∧ l.sequence = sequence := by
  unfold Layout.new at h
  simp only at h
  split at h
  · cases h
  · cases h; exact ⟨rfl, rfl, rfl, rfl, rfl⟩

def Layout.segment_base (l : Layout) (number : Nat) : Except Error Nat :=
  if number ≥ l.segments then .error (.InvalidArgument "segment number out of range")
  else .ok (START + number * l.segment_size)

/-- The allocation that slot `number` gets. -/
def Layout.header (l : Layout) (number : Nat) : Except Error SegmentHeader :=
  if h : number ≥ l.segments then .error (.InvalidArgument "segment number out of range")
  else
    match SegmentHeader.new ⟨l.id, number, l.sequence + number,
        Nat.lt_trans (Nat.lt_of_not_le h) l.segments_u32, Nat.lt_trans
          (Nat.add_lt_add_left (Nat.lt_of_not_le h) _) l.sequence_end⟩ l.segment_size
          l.size_u32 with
    | .error e => .error (.Segment e)
    | .ok header => .ok header

def Layout.footer_tail_offset (l : Layout) (number : Nat) : Except Error Nat :=
  match l.segment_base number with
  | .error e => .error e
  | .ok base => .ok (base + l.segment_size - PAGE_SIZE)

def Layout.encode (l : Layout) : Bytes :=
  let page := zeros PAGE_SIZE
  let page := patch page 0 MAGIC
  let page := put_u32 page 8 VERSION
  let page := patch page 16 l.id.bytes
  let page := put_u64 page 32 l.capacity
  let page := put_u32 page 40 l.segment_size
  let page := put_u32 page 44 l.segments
  let page := put_u32 page 48 l.limits.max_frame_len
  let page := put_u32 page 52 l.limits.max_value_len
  let page := put_u64 page 56 l.sequence
  put_u32 page 12 (crc_with_zeroed_checksum page)

/-- Reads a superblock page. The sync mode of the options plays no part in the geometry. -/
def Layout.decode (page : Bytes) : Except Error Layout :=
  if slice page 0 8 ≠ MAGIC ∨ u32_at page 12 ≠ crc_with_zeroed_checksum page then
    .error .NotFormatted
  else if u32_at page 8 ≠ VERSION then .error (.UnsupportedVersion (u32_at page 8))
  else if ¬ allZero (page.drop 64) = true then .error (.Corrupt "reserved superblock bytes")
  else
    match FrameLimits.new (u32_at page 48) (u32_at page 52) (u32_at_lt _ _) with
    | .error e => .error (.Frame e)
    | .ok limits =>
      match Layout.new (u64_at page 32) ⟨.Enabled, Id16.from_bytes (slice page 16 32),
          u32_at page 40, limits, u32_at_lt _ _⟩ (u64_at page 56) (u64_at_lt _ _) with
      | .error e => .error e
      | .ok layout =>
        if layout.segments ≠ u32_at page 44 then .error (.Corrupt "segment count") else .ok layout

/-! ## Slots -/

/-- The active header of a slot that is in range. -/
def Layout.headerOf (l : Layout) (n : Nat) (h : n < l.segments) : SegmentHeader where
  id := ⟨l.id, n, l.sequence + n, Nat.lt_trans h l.segments_u32, by
    have := l.sequence_end; omega⟩
  segment_len := l.segment_size
  seal_ := none
  seq_pos := Nat.lt_of_lt_of_le l.sequence_pos (Nat.le_add_right _ _)
  len_min := Nat.le_trans (by omega) l.size_min
  len_aligned := l.size_aligned
  len_u32 := l.size_u32

theorem Layout.header_eq (l : Layout) {n : Nat} (h : n < l.segments) :
    l.header n = .ok (l.headerOf n h) := by
  unfold Layout.header
  rw [dif_neg (by omega), SegmentHeader.new_eq
    (Nat.lt_of_lt_of_le l.sequence_pos (Nat.le_add_right _ _))
    (Nat.le_trans (by omega) l.size_min) l.size_aligned]
  rfl

theorem Layout.header_ok {l : Layout} {n : Nat} {h : SegmentHeader} (hh : l.header n = .ok h) :
    ∃ hn : n < l.segments, h = l.headerOf n hn := by
  by_cases hn : n < l.segments
  · rw [l.header_eq hn] at hh
    cases hh
    exact ⟨hn, rfl⟩
  · unfold Layout.header at hh
    rw [dif_pos (by omega)] at hh
    cases hh

/-! ## Does every frame fit a fresh segment? -/

open moat_engine.frame (FrameBuilder Input PreparedFrame preparedMetadataLen)
open moat_engine.segment (SegmentBuilder FrameLens)

theorem frame_lens {b : FrameBuilder} (h : b.records ≠ []) :
    FrameLens b.encoded_len b.metadata_len := by
  obtain ⟨h1, h2, h3⟩ := b.payloadEnd_le h
  have h4 := frame.le_payloadEnd (frame.metadataLen b.records) b.records
  have h5 : 0 < b.records.length := length_pos_iff.mpr h
  have h6 := b.limits.frame_u32
  have h7 : ∀ rs : List Input, frame.checksumLen rs % 4 = 0 := by
    intro rs
    induction rs with
    | nil => rfl
    | cons => rw [frame.checksumLen_cons]; omega
  have h8 := h7 b.records
  have h9 : frame.metadataLen b.records =
      64 + b.records.length * 64 + frame.checksumLen b.records := rfl
  rw [b.metadata_len_eq]
  exact ⟨by omega, by omega, h3, by omega, by omega, by omega⟩

theorem prepared_lens {limits : FrameLimits} {value_len len : Nat}
    (h : PreparedFrame.required_len limits value_len = .ok len) :
    FrameLens len (preparedMetadataLen value_len) := by
  obtain ⟨rfl, h1, h2⟩ := PreparedFrame.required_len_ok h
  obtain ⟨h3, -, -⟩ := frame.prepared_bounds value_len
  have h4 : preparedMetadataLen value_len = 128 + 4 * block_count value_len := rfl
  have h5 := limits.frame_u32
  have h6 : frame.preparedLen value_len % 4096 = 0 := by
    unfold frame.preparedLen
    simp only [align_up_page]
    split
    · rfl
    · omega
  exact ⟨by omega, by omega, h6, by omega, h3, by omega⟩

/-- A newly allocated segment of the layout takes every frame that the layout's limits admit. -/
def EveryFrameFits (l : Layout) : Prop :=
  ∀ (number : Nat) (header : SegmentHeader) (fresh : SegmentBuilder),
    l.header number = .ok header → SegmentBuilder.new header = .ok fresh →
    (∀ (inputs : List Input) (b : FrameBuilder), inputs ≠ [] →
      (FrameBuilder.new l.limits).admit_all inputs = .ok b →
      ∃ p, fresh.position b.encoded_len b.metadata_len = .ok p) ∧
    (∀ value_len len : Nat, PreparedFrame.required_len l.limits value_len = .ok len →
      ∃ p, fresh.position len (preparedMetadataLen value_len) = .ok p)

/-- In a fresh segment only the header page is taken. -/
theorem fresh_position_iff {l : Layout} {number n m : Nat} {header : SegmentHeader}
    {fresh : SegmentBuilder} (hh : l.header number = .ok header)
    (hf : SegmentBuilder.new header = .ok fresh) (hl : FrameLens n m) :
    (∃ p, fresh.position n m = .ok p) ↔ 4096 + n + segment.footer_len m ≤ l.segment_size := by
  obtain ⟨hn, rfl⟩ := Layout.header_ok hh
  unfold SegmentBuilder.new at hf
  rw [if_neg (by simp [Layout.headerOf])] at hf
  cases hf
  rw [SegmentBuilder.position_ok_iff _ rfl hl]
  simp only [length_nil, Nat.zero_add]
  rfl

def tombstone : Input := ⟨Id16.from_bytes [], 0, .Tombstone, [], Input.none_empty⟩

/-- Tombstones fill a frame of the largest size with metadata alone. -/
theorem tombstone_frame (limits : FrameLimits) :
    ∃ b, (FrameBuilder.new limits).admit_all
        (List.replicate (limits.max_frame_len / 64 - 1) tombstone) = .ok b ∧
      b.records ≠ [] ∧ b.metadata_len = limits.max_frame_len ∧
      b.encoded_len = limits.max_frame_len := by
  have ha := limits.frame_aligned
  have hp := limits.page_le
  have hval : ∀ r ∈ List.replicate (limits.max_frame_len / 64 - 1) tombstone, r.value = [] := by
    intro r hr
    rw [eq_of_mem_replicate hr]
    rfl
  obtain ⟨b, hb⟩ := FrameBuilder.admit_all_empty _ (FrameBuilder.new limits)
    (by simp [FrameBuilder.new]) hval (by
      simp only [FrameBuilder.new, length_nil, length_replicate]
      omega)
  obtain ⟨hbl, hbr⟩ := FrameBuilder.admit_all_ok hb
  rw [show (FrameBuilder.new limits).records ++ _ = _ from nil_append _] at hbr
  have hne : b.records ≠ [] := by
    rw [hbr]
    intro hn
    have := congrArg List.length hn
    simp only [length_replicate, length_nil] at this
    omega
  have hm : b.metadata_len = limits.max_frame_len := by
    rw [b.metadata_len_eq, hbr, frame.metadataLen_empty hval, length_replicate]
    omega
  have h1 := (frame_lens hne).metadata_le
  have h2 := (b.payloadEnd_le hne).2.1
  rw [hbl] at h2
  exact ⟨b, hb, hne, hm, Nat.le_antisymm h2 (by rw [← hm]; exact h1)⟩

/-- The geometry check of `Layout::new` leaves room for a frame of the largest size with two
footer pages. A frame full of tombstones is all metadata, and needs a footer as long as itself:
exactly the layouts with room for that take every frame. -/
theorem every_frame_fits_iff (l : Layout) :
    EveryFrameFits l ↔ 2 * l.limits.max_frame_len + 8192 ≤ l.segment_size := by
  have ha := l.limits.frame_aligned
  constructor
  · intro h
    have h0 := l.segments_pos
    obtain ⟨fresh, hf⟩ : ∃ fresh, SegmentBuilder.new (l.headerOf 0 h0) = .ok fresh := ⟨_, rfl⟩
    obtain ⟨b, hb, hne, hm, he⟩ := tombstone_frame l.limits
    have hin : List.replicate (l.limits.max_frame_len / 64 - 1) tombstone ≠ [] := by
      intro hn
      rw [hn] at hb
      cases hb
      exact hne rfl
    have hpos := (h 0 _ fresh (l.header_eq h0) hf).1 _ b hin hb
    rw [fresh_position_iff (l.header_eq h0) hf (frame_lens hne), hm, he,
      segment.footer_len_eq] at hpos
    omega
  · intro h number header fresh hh hf
    have bound : ∀ n m : Nat, FrameLens n m → n ≤ l.limits.max_frame_len →
        ∃ p, fresh.position n m = .ok p := by
      intro n m hl hn
      rw [fresh_position_iff hh hf hl, segment.footer_len_eq]
      have := hl.metadata_le
      omega
    refine ⟨?_, ?_⟩
    · intro inputs b hne hb
      obtain ⟨hbl, hbr⟩ := FrameBuilder.admit_all_ok hb
      have hbn : b.records ≠ [] := by
        rw [hbr]; simpa [FrameBuilder.new] using hne
      have hmax := (b.payloadEnd_le hbn).2.1
      rw [hbl] at hmax
      exact bound _ _ (frame_lens hbn) hmax
    · intro value_len len hreq
      exact bound _ _ (prepared_lens hreq) (PreparedFrame.required_len_ok hreq).2.2

/-- Two-page frames in a five-page segment. -/
def fivePages : FormatOptions where
  sync_mode := .Enabled
  device_id := Id16.from_bytes [1]
  segment_size := 20480
  limits := frame.twoPages
  size_u32 := by decide

/-- `Layout::new` accepts the five-page segments, a builder accepts 127 tombstones as one frame
of two pages, and an empty segment turns that frame away. -/
theorem tombstones_do_not_fit_a_fresh_segment :
    ∃ layout header fresh b, Layout.new 28672 fivePages 1 (by decide) = .ok layout ∧
      layout.header 0 = .ok header ∧ SegmentBuilder.new header = .ok fresh ∧
      (FrameBuilder.new layout.limits).admit_all (List.replicate 127 tombstone) = .ok b ∧
      fresh.position b.encoded_len b.metadata_len = .error (.Full 24576 20480) ∧
      ¬ EveryFrameFits layout := by
  obtain ⟨layout, hl⟩ : ∃ l, Layout.new 28672 fivePages 1 (by decide) = .ok l := by
    apply exists_of_isOk
    decide +kernel
  obtain ⟨-, -, hs, hlim, -⟩ := Layout.new_ok hl
  have h0 := layout.segments_pos
  obtain ⟨fresh, hf⟩ : ∃ fresh, SegmentBuilder.new (layout.headerOf 0 h0) = .ok fresh := ⟨_, rfl⟩
  have hfh : fresh.header.segment_len = 20480 ∧ fresh.header.seal_ = none ∧
      fresh.data_end = 4096 ∧ fresh.metadata = [] := by
    cases hf
    exact ⟨hs, rfl, rfl, rfl⟩
  obtain ⟨b, hb, hne, hm, he⟩ := tombstone_frame layout.limits
  have hmax : layout.limits.max_frame_len = 8192 := by rw [hlim]; rfl
  rw [hmax] at hb hm he
  have hlens := frame_lens hne
  have hfull := fresh.position_full hfh.2.1 hlens (by
    rw [hfh.1, hfh.2.2.1, hfh.2.2.2, hm, he, segment.footer_len_eq]
    decide)
  refine ⟨layout, _, fresh, b, hl, layout.header_eq h0, hf, hb, ?_, ?_⟩
  · rw [hfull, hfh.1, hfh.2.2.1, hfh.2.2.2, hm, he]
    rfl
  · intro h
    obtain ⟨p, hp⟩ := (h 0 _ fresh (layout.header_eq h0) hf).1 _ b (by simp) hb
    rw [hfull] at hp
    cases hp

end moat_engine.engine
