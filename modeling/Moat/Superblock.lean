-- The superblock page of a layout, and that it reads back.
import Moat.Layout

namespace moat_engine.engine

open byte_list moat_common moat_engine.codec List
open moat_engine.frame (FrameLimits)

/-! ## The page -/

def Layout.numbers (l : Layout) : Bytes :=
  leBytes 8 l.capacity ++ leBytes 4 l.segment_size ++ leBytes 4 l.segments ++
    leBytes 4 l.limits.max_frame_len ++ leBytes 4 l.limits.max_value_len ++ leBytes 8 l.sequence

theorem Layout.encode_eq (l : Layout) :
    l.encode = stamp MAGIC VERSION (l.id.bytes ++ l.numbers ++ zeros 4032) := by
  have hid := l.id.len
  -- each field goes behind the one before it; four zero bytes stay for the checksum
  have hb : put_u64 (put_u32 (put_u32 (put_u32 (put_u32 (put_u64 (patch (put_u32 (patch
      (zeros PAGE_SIZE) 0 MAGIC) 8 VERSION) 16 l.id.bytes) 32 l.capacity) 40 l.segment_size) 44
      l.segments) 48 l.limits.max_frame_len) 52 l.limits.max_value_len) 56 l.sequence =
      stampWith MAGIC VERSION 0 (l.id.bytes ++ l.numbers ++ zeros 4032) := by
    unfold put_u64 put_u32
    rw [show zeros PAGE_SIZE = [] ++ zeros 4096 from rfl,
      patch_next (by simp) (by simp [MAGIC]), patch_next (by simp [MAGIC]) (by simp [MAGIC]),
      patch_zeros (k := 4) (by simp [MAGIC]) (by simp [MAGIC, hid])]
    simp (disch := simp [MAGIC, hid]) only [patch_next]
    simp only [stampWith, Layout.numbers, nil_append, append_assoc, leBytes_length, leBytes_zero,
      hid,
      show MAGIC.length = 8 from rfl]
  unfold Layout.encode
  simp only [hb]
  exact put_stamp rfl _ _

@[simp] theorem Layout.encode_length (l : Layout) : l.encode.length = 4096 := by
  rw [l.encode_eq, stamp_length rfl]
  simp [Layout.numbers, l.id.len]

/-! ## Reading it back -/

theorem FrameLimits.new_eq (l : FrameLimits) (h : l.max_frame_len < 2 ^ 32) :
    FrameLimits.new l.max_frame_len l.max_value_len h = .ok l := by
  have h1 := l.frame_pos
  have h2 := l.frame_aligned
  have h3 := l.value_le
  unfold FrameLimits.new
  rw [dif_neg (by simp only [is_aligned_page]; omega), dif_neg (by omega)]

theorem Layout.new_eq (l : Layout) (sync_mode : SyncMode) :
    Layout.new l.capacity ⟨sync_mode, l.id, l.segment_size, l.limits, l.size_u32⟩ l.sequence
      l.capacity_u64 = .ok l := by
  have h1 := l.size_min
  have h2 := l.size_aligned
  have h3 := l.segments_eq
  have h4 := l.segments_pos
  have h5 := l.segments_u32
  have h6 := l.sequence_pos
  have h7 := l.sequence_end
  have h8 := l.frame_i32
  have h9 := l.frame_room
  have hc : (l.capacity - START) / max l.segment_size 1 = l.segments := by
    rw [h3, Nat.max_eq_left (by omega)]
    rfl
  unfold Layout.new
  simp only
  rw [dif_neg]
  · simp only [hc]
  · simp only [hc, not_or, is_aligned_page]
    simp only [PAGE_SIZE]
    refine ⟨l.id_nonzero, ?_⟩
    omega

theorem Layout.slice_numbers (l : Layout) (rest : Bytes) {i j : Nat} (hi : 16 ≤ i) :
    slice (l.id.bytes ++ l.numbers ++ rest) i j = slice (l.numbers ++ rest) (i - 16) (j - 16) := by
  rw [append_assoc, slice_append_right _ _ (by rw [l.id.len]; exact hi), l.id.len]

/-- A layout reads back from its superblock. -/
theorem Layout.decode_encode (l : Layout) : Layout.decode l.encode = .ok l := by
  have hpage := l.encode_eq
  have hfields : ∀ i j, 16 ≤ i → slice (l.id.bytes ++ l.numbers ++ zeros 4032) i j =
      slice (l.numbers ++ zeros 4032) (i - 16) (j - 16) := fun i j hi => l.slice_numbers _ hi
  have device : slice l.encode 16 32 = l.id.bytes := by
    rw [hpage, stamp_slice rfl _ _ (by omega), append_assoc,
      slice_append_left _ _ (by rw [l.id.len]),
      show 32 - 16 = l.id.bytes.length from l.id.len.symm]
    exact slice_self_length _
  have capacity : u64_at l.encode 32 = l.capacity := by
    rw [hpage, stamp_u64 rfl _ _ (by omega) (by rw [hfields _ _ (by omega)]; rfl),
      Nat.mod_eq_of_lt l.capacity_u64]
  have size : u32_at l.encode 40 = l.segment_size := by
    rw [hpage, stamp_u32 rfl _ _ (by omega) (by rw [hfields _ _ (by omega)]; rfl),
      Nat.mod_eq_of_lt l.size_u32]
  have segments : u32_at l.encode 44 = l.segments := by
    rw [hpage, stamp_u32 rfl _ _ (by omega) (by rw [hfields _ _ (by omega)]; rfl),
      Nat.mod_eq_of_lt l.segments_u32]
  have frame_len : u32_at l.encode 48 = l.limits.max_frame_len := by
    rw [hpage, stamp_u32 rfl _ _ (by omega) (by rw [hfields _ _ (by omega)]; rfl),
      Nat.mod_eq_of_lt l.limits.frame_u32]
  have value_len : u32_at l.encode 52 = l.limits.max_value_len := by
    rw [hpage, stamp_u32 rfl _ _ (by omega) (by rw [hfields _ _ (by omega)]; rfl),
      Nat.mod_eq_of_lt (Nat.lt_of_le_of_lt l.limits.value_le l.limits.frame_u32)]
  have sequence : u64_at l.encode 56 = l.sequence := by
    rw [hpage, stamp_u64 rfl _ _ (by omega) (by rw [hfields _ _ (by omega)]; rfl),
      Nat.mod_eq_of_lt (Nat.lt_of_le_of_lt (Nat.le_add_right _ _) l.sequence_end)]
  have reserved : l.encode.drop 64 = zeros 4032 := by
    rw [hpage, stamp_drop rfl _ _ (by omega), drop_left' (by simp [Layout.numbers, l.id.len])]
  have hmagic : slice l.encode 0 8 = MAGIC := by rw [hpage, stamp_magic rfl]
  have hsum : u32_at l.encode 12 = crc_with_zeroed_checksum l.encode := by
    rw [hpage, stamp_checksum rfl]
  have hversion : u32_at l.encode 8 = VERSION := by
    rw [hpage, stamp_version rfl]
    rfl
  have hlimits : ∀ a b h, a = l.limits.max_frame_len → b = l.limits.max_value_len →
      FrameLimits.new a b h = .ok l.limits := by
    rintro _ _ h rfl rfl
    exact FrameLimits.new_eq l.limits h
  have hnew : ∀ c o s h, c = l.capacity →
      o = ⟨.Enabled, l.id, l.segment_size, l.limits, l.size_u32⟩ → s = l.sequence →
      Layout.new c o s h = .ok l := by
    rintro _ _ _ h rfl rfl rfl
    exact l.new_eq .Enabled
  unfold Layout.decode
  rw [if_neg (by simp [hmagic, hsum]), if_neg (by simp [hversion]),
    if_neg (by simp [reserved]), hlimits _ _ _ frame_len value_len]
  simp only
  rw [hnew _ _ _ _ capacity ?_ sequence]
  · simp [segments]
  · simp only [FormatOptions.mk.injEq, true_and]
    exact ⟨by rw [device, Id16.from_bytes_eq l.id.len], size, trivial⟩

end moat_engine.engine
