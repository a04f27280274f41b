-- Both writers of frames produce a laid-out frame: `encode_into` by its loop
-- over the records, and `PreparedFrame::finish` around one value. With the
-- decoder's side this gives the frame round trip.
import Moat.FrameImage
import Moat.SegmentHeader

namespace moat_engine.frame

open byte_list moat_common moat_engine.codec List

/-! ## The layout that the encoding loop follows -/

/-- The records with the places that `place` gives them, from `end_` on. -/
def placedFrom : Nat → List Input → List Placed
  | _, [] => []
  | end_, r :: rs =>
    ⟨r, (place end_ r.value.length).1⟩ :: placedFrom (place end_ r.value.length).2 rs

/-- The bytes of one value with the padding before it. -/
def valueSegment (end_ : Nat) (r : Input) : Bytes :=
  if r.value = [] then [] else zeros ((place end_ r.value.length).1 - end_) ++ r.value

def payloadFrom : Nat → List Input → Bytes
  | _, [] => []
  | end_, r :: rs => valueSegment end_ r ++ payloadFrom (place end_ r.value.length).2 rs

theorem inputs_placedFrom (e : Nat) (rs : List Input) : inputs (placedFrom e rs) = rs := by
  induction rs generalizing e with
  | nil => rfl
  | cons r _ ih =>
    have := ih (place e r.value.length).2
    unfold inputs at this ⊢
    simp [placedFrom, this]

theorem placedFrom_append (e : Nat) (xs ys : List Input) :
    placedFrom e (xs ++ ys) = placedFrom e xs ++ placedFrom (payloadEnd e xs) ys := by
  induction xs generalizing e with
  | nil => rfl
  | cons _ _ ih => simp [placedFrom, ih]

theorem payloadFrom_append (e : Nat) (xs ys : List Input) :
    payloadFrom e (xs ++ ys) = payloadFrom e xs ++ payloadFrom (payloadEnd e xs) ys := by
  induction xs generalizing e with
  | nil => rfl
  | cons _ _ ih => simp [payloadFrom, ih]

theorem valueSegment_length (e : Nat) (r : Input) :
    e + (valueSegment e r).length = (place e r.value.length).2 := by
  unfold valueSegment
  split
  · rename_i h; simp [h]
  · rename_i h
    have := place_spec e r.value.length (length_pos_iff.mpr h)
    simp; omega

theorem payloadFrom_length (e : Nat) (rs : List Input) :
    e + (payloadFrom e rs).length = payloadEnd e rs := by
  induction rs generalizing e with
  | nil => rfl
  | cons _ _ ih =>
    rw [payloadFrom, length_append, payloadEnd_cons, ← ih, ← valueSegment_length]
    omega

/-- Placed values stand in order, aligned, and end where `payloadEnd` says. -/
theorem laid_placedFrom {limit e : Nat} {rs : List Input} (h : payloadEnd e rs ≤ limit) :
    Laid limit e (placedFrom e rs) := by
  induction rs generalizing e with
  | nil => trivial
  | cons r rs ih =>
    have hr := ih h
    rw [payloadEnd_cons] at h
    have hle := le_payloadEnd (place e r.value.length).2 rs
    by_cases h0 : r.value = []
    · refine Or.inl ⟨h0, by simp [h0], ?_⟩
      simpa [h0] using hr
    · obtain ⟨h1, h2, h3, -⟩ := place_spec e r.value.length (length_pos_iff.mpr h0)
      refine Or.inr ⟨h0, h1, h2, ?_, ?_⟩
      · simp only; omega
      · simp only; rw [← h3]; exact hr

/-- Every placed value stands in the payload at its offset. -/
theorem holds_payloadFrom {e : Nat} {rs : List Input} {p : Placed} (hp : p ∈ placedFrom e rs)
    (h0 : p.input.value ≠ []) (tail : Bytes) :
    slice (payloadFrom e rs ++ tail) (p.value_at - e) (p.value_at - e + p.input.value.length) =
      p.input.value := by
  induction rs generalizing e with
  | nil => cases hp
  | cons r rs ih =>
    have hseg := valueSegment_length e r
    rw [placedFrom] at hp
    rw [payloadFrom, append_assoc]
    rcases mem_cons.mp hp with rfl | hp
    · obtain ⟨h1, -, h3, -⟩ := place_spec e r.value.length (length_pos_iff.mpr h0)
      simp only at h0 ⊢
      unfold valueSegment
      rw [if_neg h0, slice_append_mid]
      · simp
      · simp
    · have hin := (laid_placedFrom (Nat.le_refl (payloadEnd _ rs))).mem hp
      rcases hin with ⟨hz, -⟩ | ⟨-, h1, -⟩
      · exact absurd hz h0
      · rw [slice_append_right _ _ (by omega), ← ih hp]
        congr 1
        · omega
        · rw [ih hp]; omega

/-! ## The image a builder writes -/

def FrameBuilder.payload (b : FrameBuilder) : Bytes :=
  payloadFrom (metadataLen b.records) b.records ++
    zeros (b.encoded_len - payloadEnd (metadataLen b.records) b.records)

theorem FrameBuilder.payload_length (b : FrameBuilder) (h : b.records ≠ []) :
    metadataLen b.records + b.payload.length = b.encoded_len := by
  have h1 := payloadFrom_length (metadataLen b.records) b.records
  have h2 := b.payloadEnd_le h
  unfold FrameBuilder.payload
  rw [length_append, zeros_length]
  omega

/-- The laid-out frame of a nonempty builder at a position with enough room. -/
def FrameBuilder.image (b : FrameBuilder) (h : b.records ≠ []) (position : FramePosition)
    (room : b.encoded_len ≤ position.available) : FrameImage b.limits where
  position := position
  placed := placedFrom (metadataLen b.records) b.records
  payload := b.payload
  nonempty := by
    intro hn
    exact h (by rw [← inputs_placedFrom (metadataLen b.records) b.records, hn]; rfl)
  values_le := by
    intro p hp
    apply b.values_le
    rw [← inputs_placedFrom (metadataLen b.records) b.records]
    exact mem_map_of_mem hp
  laid := by
    rw [inputs_placedFrom, b.payload_length h]
    exact laid_placedFrom (b.payloadEnd_le h).1
  holds := by
    intro p hp h0
    rw [inputs_placedFrom]
    exact holds_payloadFrom hp h0 _
  len_aligned := by rw [inputs_placedFrom, b.payload_length h]; exact (b.payloadEnd_le h).2.2
  len_le := by rw [inputs_placedFrom, b.payload_length h]; exact (b.payloadEnd_le h).2.1
  room := by rw [inputs_placedFrom, b.payload_length h]; exact room

section image

variable (b : FrameBuilder) (h : b.records ≠ []) (position : FramePosition)
  (room : b.encoded_len ≤ position.available)

theorem FrameBuilder.inputs_image : inputs (b.image h position room).placed = b.records :=
  inputs_placedFrom _ _

theorem FrameBuilder.image_count : (b.image h position room).placed.length = b.records.length := by
  rw [← b.inputs_image h position room]
  simp [inputs]

theorem FrameBuilder.image_frame_len : (b.image h position room).frame_len = b.encoded_len := by
  rw [← b.payload_length h, FrameImage.frame_len, FrameImage.metadata_len, b.inputs_image]
  rfl

theorem FrameBuilder.image_header :
    (b.image h position room).header = ⟨position, b.encoded_len, b.records.length,
      checksumLen b.records, crc32c (b.image h position room).body⟩ := by
  unfold FrameImage.header
  rw [b.image_frame_len, b.image_count, b.inputs_image]
  rfl

end image

/-! ## The encoding loop -/

theorem put_sums_eq (sums : List Nat) (b : Bytes) (at_ : Nat) (h : at_ ≤ b.length) :
    put_sums sums b at_ = (patch b at_ (sums.flatMap (leBytes 4)), at_ + 4 * sums.length) := by
  induction sums generalizing b at_ with
  | nil => simp [put_sums]
  | cons s _ ih =>
    have hl : at_ + 4 ≤ (put_u32 b at_ s).length := by
      simp only [put_u32, patch, length_append, length_take, length_drop,
        leBytes_length]
      omega
    rw [put_sums, ih _ _ hl, flatMap_cons, length_cons]
    unfold put_u32
    rw [patch_patch_adjacent h (by simp)]
    congr 1
    omega

/-- The checksums of a value that stands in the buffer go to the cursor. -/
theorem write_checksums_eq {bytes value : Bytes} {at_ value_at : Nat} (h : at_ ≤ bytes.length)
    (hu : value.length < 2 ^ 32) (hv : slice bytes value_at (value_at + value.length) = value) :
    write_checksums bytes at_ value_at value.length =
      (patch bytes at_ (checksumBytes value), at_ + 4 * block_count value.length) := by
  unfold write_checksums
  split
  · rename_i h0
    have hn : value = [] := length_eq_zero_iff.mp h0
    subst hn
    simp [block_count]
  · rw [hv, put_sums_eq _ _ _ h, block_checksums_iter_length, block_count_eq (by omega)]
    rfl

variable {c : EncodeCursor} {m len : Nat} {limits : FrameLimits}

/-- One turn of the loop is three writes: the padded value, the descriptor, the checksums. -/
theorem encode_record_eq {k : Nat} {r : Input} (hd : 64 + k * 64 + 64 ≤ c.checksum_at)
    (hc : c.checksum_at + 4 * block_count r.value.length ≤ m) (hm : m ≤ c.end_)
    (hl : (place c.end_ r.value.length).2 ≤ c.bytes.length) (hu : c.bytes.length < 2 ^ 32) :
    encode_record c k r =
      ⟨patch (patch (patch c.bytes c.end_ (valueSegment c.end_ r)) (64 + k * 64)
          (Placed.descriptor ⟨r, (place c.end_ r.value.length).1⟩ c.checksum_at).image)
          c.checksum_at (checksumBytes r.value),
        c.checksum_at + 4 * block_count r.value.length, (place c.end_ r.value.length).2⟩ := by
  have hend := le_place c.end_ r.value.length
  have hseg := valueSegment_length c.end_ r
  -- The padding and the value are one write.
  have hval : (if r.value = [] then c.bytes
      else patch (patch c.bytes c.end_ (zeros ((place c.end_ r.value.length).1 - c.end_)))
        (place c.end_ r.value.length).1 r.value) =
      patch c.bytes c.end_ (valueSegment c.end_ r) := by
    unfold valueSegment
    split
    · simp
    · rename_i h0
      have := place_spec c.end_ r.value.length (length_pos_iff.mpr h0)
      exact patch_patch_adjacent (by omega) (by simp; omega)
  have hlen1 : (patch c.bytes c.end_ (valueSegment c.end_ r)).length = c.bytes.length :=
    patch_length (by omega)
  have hu32 : (place c.end_ r.value.length).1 < 2 ^ 32 ∧ r.value.length < 2 ^ 32 := by
    by_cases h0 : r.value = []
    · simp [h0]
    · have := place_spec c.end_ r.value.length (length_pos_iff.mpr h0)
      omega
  have hdesc : (⟨r.key, r.lsn, (place c.end_ r.value.length).1 % 2 ^ 32, r.value.length % 2 ^ 32,
      if r.value = [] then 0 else c.checksum_at % 2 ^ 32, block_count r.value.length, r.kind⟩ :
        RecordDescriptor) =
      Placed.descriptor ⟨r, (place c.end_ r.value.length).1⟩ c.checksum_at := by
    rw [Nat.mod_eq_of_lt hu32.1, Nat.mod_eq_of_lt hu32.2,
      Nat.mod_eq_of_lt (show c.checksum_at < 2 ^ 32 by omega)]
    rfl
  unfold encode_record
  simp only [hval, hdesc, HEADER_LEN, DESCRIPTOR_LEN]
  rw [RecordDescriptor.encode_eq _ _ (by rw [slice_length_of_le (by omega)]; omega)]
  rw [write_checksums_eq (by rw [patch_length (by simp; omega), hlen1]; omega) hu32.2]
  -- The value reads back behind the descriptor.
  by_cases h0 : r.value = []
  · rw [h0]; exact slice_empty _ _
  · have hp := place_spec c.end_ r.value.length (length_pos_iff.mpr h0)
    rw [slice_patch_after (by simp; omega) (by simp; omega)]
    unfold valueSegment
    rw [if_neg h0, ← patch_patch_adjacent (j := (place c.end_ r.value.length).1) (by omega)
      (by simp; omega)]
    exact slice_patch_self (by rw [patch_length (by simp; omega)]; omega) rfl rfl

/-- What the buffer holds after the records `pre` of a frame with metadata length `m` and
checksum area at `base`. -/
structure Encoded (base m len : Nat) (pre : List Input) (c : EncodeCursor) : Prop where
  length : c.bytes.length = len
  checksum_at : c.checksum_at = base + checksumLen pre
  end_ : c.end_ = payloadEnd m pre
  directory : slice c.bytes 64 (64 + pre.length * 64) =
    (recordsFrom 0 base (placedFrom m pre)).flatMap (·.descriptor.image)
  checksums : slice c.bytes base (base + checksumLen pre) = checksumArea (placedFrom m pre)
  payload : slice c.bytes m (payloadEnd m pre) = payloadFrom m pre

theorem encode_record_encoded {base : Nat} {pre : List Input} {r : Input}
    (h : Encoded base m len pre c) (hb : 64 + (pre.length + 1) * 64 ≤ base)
    (hm : base + checksumLen (pre ++ [r]) ≤ m) (hl : payloadEnd m (pre ++ [r]) ≤ len)
    (hu : len < 2 ^ 32) : Encoded base m len (pre ++ [r]) (encode_record c pre.length r) := by
  obtain ⟨h1, h2, h3, h4, h5, h6⟩ := h
  rw [payloadEnd_append, payloadEnd_cons, payloadEnd_nil] at hl
  rw [checksumLen_append, checksumLen_cons, checksumLen_nil] at hm
  have hme := le_payloadEnd m pre
  rw [← h3] at hl hme
  have hple := le_place c.end_ r.value.length
  have hseg := valueSegment_length c.end_ r
  rw [encode_record_eq (m := m) (by omega) (by omega) hme (by omega) (by omega)]
  have hvu : r.value.length < 2 ^ 32 := by
    by_cases h0 : r.value = []
    · simp [h0]
    · have := place_spec c.end_ r.value.length (length_pos_iff.mpr h0)
      omega
  have hsums := checksumBytes_length hvu
  generalize hD : Placed.descriptor ⟨r, (place c.end_ r.value.length).1⟩ c.checksum_at = d
  have hb1 : (patch c.bytes c.end_ (valueSegment c.end_ r)).length = len := by
    rw [patch_length (by omega), h1]
  have hb2 : (patch (patch c.bytes c.end_ (valueSegment c.end_ r)) (64 + pre.length * 64)
      d.image).length = len := by
    rw [patch_length (by simp; omega), hb1]
  refine ⟨?_, ?_, ?_, ?_, ?_, ?_⟩
  · simp only
    rw [patch_length (by omega), hb2]
  · simp only [checksumLen_append, checksumLen_cons, checksumLen_nil]
    omega
  · simp only [payloadEnd_append, payloadEnd_cons, payloadEnd_nil]
    rw [← h3]
  · -- The new descriptor follows the ones before it.
    simp only [length_append, length_singleton]
    rw [slice_patch_before (by omega) (by omega),
      ← slice_append_slice _ (show 64 ≤ 64 + pre.length * 64 by omega) (by omega),
      slice_patch_before (by simp; omega) (Nat.le_refl _),
      slice_patch_before (by omega) (by omega), h4,
      slice_patch_self (by simp; omega) rfl (by simp; omega), placedFrom_append,
      recordsFrom_append, flatMap_append, inputs_placedFrom, ← hD, h2, h3]
    simp [placedFrom, recordsFrom]
  · -- So do its checksums.
    rw [checksumLen_append, checksumLen_cons, checksumLen_nil,
      ← slice_append_slice _ (show base ≤ c.checksum_at by omega) (by omega),
      slice_patch_before (by omega) (Nat.le_refl _), slice_patch_after (by simp; omega)
      (by simp; omega), slice_patch_before (by omega) (by omega),
      slice_patch_self (by omega) rfl (by omega), h2, h5, placedFrom_append]
    simp [placedFrom, checksumArea]
  · -- And its padded value.
    rw [payloadEnd_append, payloadEnd_cons, payloadEnd_nil, slice_patch_after (by omega)
      (by omega), slice_patch_after (by simp; omega) (by simp; omega), ← h3,
      ← slice_append_slice _ hme (by omega), slice_patch_before (by omega) (Nat.le_refl _),
      slice_patch_self (by omega) rfl (by omega), payloadFrom_append, ← h3]
    rw [h3, h6]
    simp [payloadFrom]

/-- The whole loop: the records that are left are encoded behind the ones before them. -/
theorem encode_records_encoded {base : Nat} (post : List Input) {pre : List Input}
    (h : Encoded base m len pre c) (hb : 64 + (pre ++ post).length * 64 ≤ base)
    (hm : base + checksumLen (pre ++ post) ≤ m) (hl : payloadEnd m (pre ++ post) ≤ len)
    (hu : len < 2 ^ 32) : Encoded base m len (pre ++ post) (encode_records post pre.length c) := by
  induction post generalizing pre c with
  | nil => simpa [encode_records] using h
  | cons r post ih =>
    have hsplit : pre ++ r :: post = (pre ++ [r]) ++ post := by simp
    rw [hsplit] at hb hm hl ⊢
    have hle := le_payloadEnd (payloadEnd m (pre ++ [r])) post
    have hr := encode_record_encoded (r := r) h
      (by simp only [length_append, length_singleton] at hb; omega)
      (by rw [checksumLen_append] at hm; omega) (by rw [payloadEnd_append] at hl; omega) hu
    have := ih hr hb hm hl
    rw [length_append] at this
    exact this

/-! ## The writers produce images -/

/-- A buffer that holds everything but the header becomes the frame when the header is put. -/
theorem FrameImage.encode_header (img : FrameImage limits) {buf : Bytes} (h1 : 64 ≤ m)
    (h2 : m ≤ buf.length) (hb : slice buf 64 m = img.body) (hp : buf.drop m = img.payload) :
    img.header.encode buf = img.bytes := by
  have hd : buf.drop 64 = img.body ++ img.payload := by
    rw [← hb, ← hp, ← slice_eq_drop (Nat.le_refl buf.length),
      ← slice_eq_drop (Nat.le_refl buf.length), slice_append_slice _ h1 h2]
  rw [img.header.encode_eq buf (by omega), hd, ← append_assoc]
  rfl

theorem FrameBuilder.encode_into_eq (b : FrameBuilder) (h : b.records ≠ [])
    (position : FramePosition) (room : b.encoded_len ≤ position.available) (bytes : Bytes)
    (hl : b.encoded_len ≤ bytes.length) :
    b.encode_into position bytes = .ok ((b.image h position room).header,
      (b.image h position room).bytes ++ bytes.drop b.encoded_len) := by
  obtain ⟨he, hmax, -⟩ := b.payloadEnd_le h
  have hu := b.limits.frame_u32
  have hme := le_payloadEnd (metadataLen b.records) b.records
  have hmeta : metadataLen b.records = 64 + b.records.length * 64 + checksumLen b.records := rfl
  -- The loop starts with nothing encoded and ends with every record encoded.
  have hstart : Encoded (64 + b.records.length * 64) (metadataLen b.records) b.encoded_len []
      ⟨bytes.take b.encoded_len, 64 + b.records.length * 64, metadataLen b.records⟩ :=
    ⟨by simp; omega, rfl, rfl, by simp [slice_empty, placedFrom, recordsFrom],
      by simp [slice_empty, placedFrom, checksumArea], by simp [slice_empty, payloadFrom]⟩
  have hend := encode_records_encoded b.records hstart (by simp) (by simp [hmeta])
    (by simpa using he) (by omega)
  rw [nil_append] at hend
  unfold FrameBuilder.encode_into
  rw [if_neg h]
  simp only [FramePosition.check_len]
  rw [if_neg (by omega)]
  simp only
  rw [if_neg (by omega), b.metadata_len_eq]
  simp only [HEADER_LEN, DESCRIPTOR_LEN]
  rw [show (0 : Nat) = ([] : List Input).length from rfl]
  generalize encode_records b.records _ _ = c at hend ⊢
  obtain ⟨g1, -, g3, g4, g5, g6⟩ := hend
  rw [g3]
  have hpl : payloadEnd (metadataLen b.records) b.records +
      (zeros (b.encoded_len - payloadEnd (metadataLen b.records) b.records)).length ≤
      c.bytes.length := by
    rw [zeros_length]; omega
  generalize hz : patch c.bytes (payloadEnd (metadataLen b.records) b.records)
    (zeros (b.encoded_len - payloadEnd (metadataLen b.records) b.records)) = frame
  have hflen : frame.length = b.encoded_len := by rw [← hz, patch_length hpl, g1]
  have hbody : slice frame 64 (metadataLen b.records) = (b.image h position room).body := by
    rw [← slice_append_slice _ (show 64 ≤ 64 + b.records.length * 64 by omega) (by omega), ← hz,
      slice_patch_before hpl (by omega), slice_patch_before hpl (by omega), g4, hmeta, g5]
    unfold FrameImage.body FrameImage.records FrameImage.checksum_base
    rw [b.image_count h position room]
    rfl
  have hpay : frame.drop (metadataLen b.records) = b.payload := by
    rw [← slice_eq_drop (Nat.le_refl frame.length), hflen,
      ← slice_append_slice _ hme he, ← hz, slice_patch_before hpl (Nat.le_refl _), g6,
      slice_patch_self hpl rfl (by rw [zeros_length]; omega)]
    rfl
  have hheader : (⟨position, b.encoded_len % 2 ^ 32, b.records.length % 2 ^ 32,
      b.checksum_len % 2 ^ 32, crc32c (slice frame 64 (metadataLen b.records))⟩ : FrameHeader) =
      (b.image h position room).header := by
    rw [hbody, b.checksum_eq, Nat.mod_eq_of_lt (show b.encoded_len < 2 ^ 32 by omega),
      Nat.mod_eq_of_lt (show b.records.length < 2 ^ 32 by omega),
      Nat.mod_eq_of_lt (show checksumLen b.records < 2 ^ 32 by omega), b.image_header]
  rw [hheader, (b.image h position room).encode_header (by omega) (by omega) hbody hpay]

/-! ## A prepared frame -/

theorem preparedMetadataLen_eq (r : Input) :
    metadataLen [r] = preparedMetadataLen r.value.length := by
  simp [metadataLen, preparedMetadataLen]

/-- What surrounds the value of a prepared frame. -/
def preparedPayload (value : Bytes) : Bytes :=
  zeros (preparedValueAt value.length - preparedMetadataLen value.length) ++ value ++
    zeros (preparedLen value.length -
      max (preparedMetadataLen value.length) (preparedValueAt value.length + value.length))

theorem preparedPayload_length (value : Bytes) :
    preparedMetadataLen value.length + (preparedPayload value).length =
      preparedLen value.length := by
  obtain ⟨h1, h2, h3⟩ := prepared_bounds value.length
  have h0 : value.length = 0 → preparedValueAt value.length = 0 := by
    intro h0; rw [h0]; rfl
  unfold preparedPayload
  simp only [length_append, zeros_length]
  omega

theorem prepared_aligned (value_len : Nat) :
    preparedValueAt value_len % 8 = 0 ∧ preparedLen value_len % 4096 = 0 := by
  unfold preparedValueAt preparedLen
  simp only [align_up_page]
  split
  · exact ⟨rfl, rfl⟩
  · omega

/-- The laid-out frame of one data record around its value. -/
def preparedImage {limits : FrameLimits} (position : FramePosition) (key : ChunkId) (lsn : UInt64)
    (value : Bytes) (hv : value.length ≤ limits.max_value_len)
    (hl : preparedLen value.length ≤ limits.max_frame_len)
    (room : preparedLen value.length ≤ position.available) : FrameImage limits where
  position := position
  placed := [⟨⟨key, lsn, .Data, value, Input.data_any value⟩, preparedValueAt value.length⟩]
  payload := preparedPayload value
  nonempty := by simp
  values_le := by simpa using hv
  laid := by
    obtain ⟨-, h2, h3⟩ := prepared_bounds value.length
    simp only [inputs, map_cons, map_nil, preparedMetadataLen_eq,
      preparedPayload_length]
    by_cases h0 : value = []
    · exact Or.inl ⟨h0, by simp [h0, preparedValueAt], trivial⟩
    · exact Or.inr ⟨h0, h3 (length_pos_iff.mpr h0), (prepared_aligned _).1, h2, trivial⟩
  holds := by
    intro p hp h0
    simp only [mem_singleton] at hp
    subst hp
    simp only [inputs, map_cons, map_nil, preparedMetadataLen_eq]
    exact slice_append_mid _ _ _ (by simp) (by simp)
  len_aligned := by
    simp only [inputs, map_cons, map_nil, preparedMetadataLen_eq,
      preparedPayload_length]
    exact (prepared_aligned _).2
  len_le := by
    simp only [inputs, map_cons, map_nil, preparedMetadataLen_eq,
      preparedPayload_length]
    exact hl
  room := by
    simp only [inputs, map_cons, map_nil, preparedMetadataLen_eq,
      preparedPayload_length]
    exact room

/-- The zero fill of `finish`: around the value, or over everything after the metadata. -/
theorem prepared_padding {b value : Bytes} (hl : b.length = preparedLen value.length)
    (hval : slice b (preparedValueAt value.length)
      (preparedValueAt value.length + value.length) = value) :
    ∃ b3, (if value.length = 0 then
          patch b (preparedMetadataLen value.length)
            (zeros (b.length - preparedMetadataLen value.length))
        else
          patch (patch b (preparedMetadataLen value.length)
              (zeros (preparedValueAt value.length - preparedMetadataLen value.length)))
            (preparedValueAt value.length + value.length)
            (zeros (b.length - (preparedValueAt value.length + value.length)))) = b3 ∧
      b3.length = preparedLen value.length ∧
      slice b3 64 (preparedMetadataLen value.length) =
        slice b 64 (preparedMetadataLen value.length) ∧
      b3.drop (preparedMetadataLen value.length) = preparedPayload value := by
  obtain ⟨hb1, hb2, hb3⟩ := prepared_bounds value.length
  refine ⟨_, rfl, ?_⟩
  split
  · rename_i h0
    have hn : value = [] := length_eq_zero_iff.mp h0
    subst hn
    refine ⟨by rw [patch_length (by rw [zeros_length]; omega), hl], ?_, ?_⟩
    · exact slice_patch_before (by rw [zeros_length]; omega) (Nat.le_refl _)
    · rw [← slice_eq_drop (Nat.le_refl _), patch_length (by rw [zeros_length]; omega),
        slice_patch_self (by rw [zeros_length]; omega) rfl (by rw [zeros_length]; omega), hl]
      rfl
  · rename_i h0
    have hva := hb3 (by omega)
    have hl1 : (patch b (preparedMetadataLen value.length)
        (zeros (preparedValueAt value.length - preparedMetadataLen value.length))).length =
        preparedLen value.length := by
      rw [patch_length (by rw [zeros_length]; omega), hl]
    refine ⟨by rw [patch_length (by rw [zeros_length]; omega), hl1], ?_, ?_⟩
    · rw [slice_patch_before (by rw [zeros_length]; omega) (by omega),
        slice_patch_before (by rw [zeros_length]; omega) (Nat.le_refl _)]
    · rw [← slice_eq_drop (Nat.le_refl _), patch_length (by rw [zeros_length]; omega), hl1,
        ← slice_append_slice _ (show _ ≤ preparedValueAt value.length + value.length by omega) hb2,
        ← slice_append_slice _ hva (Nat.le_add_right _ value.length),
        slice_patch_before (by rw [zeros_length]; omega) (by omega),
        slice_patch_self (by rw [zeros_length]; omega) rfl (by rw [zeros_length]; omega),
        slice_patch_before (by rw [zeros_length]; omega) (Nat.le_refl _),
        slice_patch_after (by rw [zeros_length]; omega) (by rw [zeros_length]; omega), hval,
        slice_patch_self (by rw [zeros_length]; omega) rfl (by rw [zeros_length]; omega), hl]
      unfold preparedPayload
      rw [Nat.max_eq_right (by omega)]

/-- What `finish` leaves behind the header: the record's metadata, then the padded value. -/
theorem PreparedFrame.finish_eq (p : PreparedFrame) (position : FramePosition) (key : ChunkId)
    (lsn : UInt64) (value : Bytes) (hlen : value.length = p.value_len)
    (hval : slice p.bytes p.value_at (p.value_at + p.value_len) = value)
    (hv : value.length ≤ limits.max_value_len)
    (hl : preparedLen value.length ≤ limits.max_frame_len)
    (room : preparedLen value.length ≤ position.available) :
    p.finish position key lsn = .ok (preparedImage position key lsn value hv hl room).bytes := by
  obtain ⟨bytes, value_at, value_len, len_eq, value_at_eq, value_u32⟩ := p
  simp only at hlen hval
  subst hlen value_at_eq
  obtain ⟨hb1, hb2, hb3⟩ := prepared_bounds value.length
  have hu := limits.frame_u32
  have hm : preparedMetadataLen value.length = 128 + 4 * block_count value.length := rfl
  have hsums := checksumBytes_length value_u32
  have hva : preparedValueAt value.length < 2 ^ 32 := by omega
  have h0 : value = [] ↔ block_count value.length = 0 := by
    rw [block_count_eq (by omega), ← length_eq_zero_iff]; omega
  generalize hd : (Placed.descriptor ⟨⟨key, lsn, .Data, value, by simp⟩,
    preparedValueAt value.length⟩ 128) = d
  have hdesc : (⟨key, lsn, preparedValueAt value.length % 2 ^ 32, value.length % 2 ^ 32,
      if block_count value.length = 0 then 0 else (64 + 64) % 2 ^ 32, block_count value.length,
      .Data⟩ : RecordDescriptor) = d := by
    rw [← hd, Nat.mod_eq_of_lt hva, Nat.mod_eq_of_lt value_u32]
    simp only [Placed.descriptor, h0]
    rfl
  -- The buffer with the descriptor, then with the checksums.
  have hl1 : (patch bytes 64 d.image).length = preparedLen value.length := by
    rw [patch_length (by simp; omega), len_eq]
  have hwrite : write_checksums (patch bytes 64 d.image) (64 + 64) (preparedValueAt value.length)
      value.length = (patch (patch bytes 64 d.image) 128 (checksumBytes value),
        128 + 4 * block_count value.length) := by
    apply write_checksums_eq (by omega) value_u32
    by_cases hn : value = []
    · rw [hn]; exact slice_empty _ _
    · have := hb3 (length_pos_iff.mpr hn)
      rw [slice_patch_after (by simp; omega) (by simp; omega), hval]
  generalize hb2' : patch (patch bytes 64 d.image) 128 (checksumBytes value) = b2 at hwrite
  have hl2 : b2.length = preparedLen value.length := by
    rw [← hb2', patch_length (by omega), hl1]
  have hmeta : slice b2 64 (preparedMetadataLen value.length) = d.image ++ checksumBytes value := by
    rw [← slice_append_slice _ (show 64 ≤ 128 by omega) (by omega), ← hb2',
      slice_patch_before (by omega) (Nat.le_refl _), slice_patch_self (by simp; omega) rfl
        (by simp),
      slice_patch_self (by omega) rfl (by omega)]
  have hv2 : slice b2 (preparedValueAt value.length)
      (preparedValueAt value.length + value.length) = value := by
    by_cases hn : value = []
    · rw [hn]; exact slice_empty _ _
    · have := hb3 (length_pos_iff.mpr hn)
      rw [← hb2', slice_patch_after (by omega) (by omega),
        slice_patch_after (by simp; omega) (by simp; omega), hval]
  obtain ⟨b3, hb3e, hl3, hs3, hd3⟩ := prepared_padding hl2 hv2
  rw [hmeta] at hs3
  have hbody : slice b3 64 (preparedMetadataLen value.length) =
      (preparedImage position key lsn value hv hl room).body := by
    rw [hs3, ← hd]
    simp [FrameImage.body, FrameImage.records, preparedImage, recordsFrom, checksumArea,
      FrameImage.checksum_base, HEADER_LEN, DESCRIPTOR_LEN]
  have hheader : (⟨position, b3.length % 2 ^ 32, 1, block_count value.length * 4 % 2 ^ 32,
      crc32c (slice b3 64 (preparedMetadataLen value.length))⟩ : FrameHeader) =
      (preparedImage position key lsn value hv hl room).header := by
    rw [hbody, hl3, Nat.mod_eq_of_lt (show preparedLen value.length < 2 ^ 32 by omega),
      Nat.mod_eq_of_lt (show block_count value.length * 4 < 2 ^ 32 by omega)]
    unfold FrameImage.header FrameImage.frame_len FrameImage.metadata_len
    simp only [preparedImage, inputs, map_cons, map_nil, preparedMetadataLen_eq,
      preparedPayload_length, checksumLen_cons, checksumLen_nil, length_singleton]
    rw [Nat.mul_comm, Nat.add_zero]
  unfold PreparedFrame.finish
  simp only [FramePosition.check_len]
  rw [if_neg (by rw [len_eq]; omega)]
  simp only [HEADER_LEN, DESCRIPTOR_LEN]
  rw [hdesc, RecordDescriptor.encode_eq _ _ (by rw [slice_length_of_le (by omega)]), hwrite]
  simp only
  rw [show 64 + 64 + 4 * block_count value.length = preparedMetadataLen value.length from rfl,
    hb3e, hheader, FrameImage.encode_header _ (by omega) (by omega) hbody hd3]

/-! ## The round trip -/

theorem PreparedFrame.new_ok {value_len : Nat} {buffer : Bytes}
    (h : PreparedFrame.required_len limits value_len = .ok len) (hb : len ≤ buffer.length) :
    ∃ p, PreparedFrame.new limits value_len buffer = .ok p ∧ p.value_len = value_len := by
  unfold PreparedFrame.new
  split
  · rename_i e he
    rw [h] at he; cases he
  · rename_i l hl
    rw [h] at hl
    cases hl
    rw [dif_neg (by omega)]
    exact ⟨_, rfl, rfl⟩

theorem PreparedFrame.fill_value (p : PreparedFrame) (value : Bytes)
    (h : value.length = p.value_len) :
    slice (p.fill value h).bytes p.value_at (p.value_at + p.value_len) = value := by
  have hb := prepared_bounds p.value_len
  apply slice_patch_self _ rfl (by rw [h])
  rw [h, p.value_at_eq, p.len_eq]
  exact hb.2.1

/-- Whatever a writer accepts, the decoder reads back: the same keys, LSNs, kinds and values in
push order. This holds for every buffer, whatever it held before. -/
theorem every_frame_reads_back (limits : FrameLimits) :
    (∀ (inputs : List Input) (b : FrameBuilder) (position : FramePosition) (buffer : Bytes),
      inputs ≠ [] → (FrameBuilder.new limits).admit_all inputs = .ok b →
      b.encoded_len ≤ position.available → b.encoded_len ≤ buffer.length →
      ∃ header out f, b.encode_into position buffer = .ok (header, out) ∧
        Frame.decode out limits position = .ok f ∧
        f.contents = inputs.map (fun r => (r.key, r.lsn, r.kind, r.stored))) ∧
    (∀ (value buffer : Bytes) (len : Nat) (position : FramePosition) (key : ChunkId)
        (lsn : UInt64),
      PreparedFrame.required_len limits value.length = .ok len → len ≤ position.available →
      len ≤ buffer.length →
      ∃ (p : PreparedFrame) (h : value.length = p.value_len) (out : Bytes) (f : Frame),
        PreparedFrame.new limits value.length buffer = .ok p ∧
        (p.fill value h).finish position key lsn = .ok out ∧
        Frame.decode out limits position = .ok f ∧
        f.contents = [(key, lsn, .Data, some value)]) := by
  refine ⟨?_, ?_⟩
  · intro ins b position buffer hne hadmit hroom hbuf
    obtain ⟨hl, hr⟩ := FrameBuilder.admit_all_ok hadmit
    rw [show (FrameBuilder.new limits).records ++ ins = ins from rfl] at hr
    rw [show (FrameBuilder.new limits).limits = limits from rfl] at hl
    have hn : b.records ≠ [] := by rw [hr]; exact hne
    refine ⟨_, _, (b.image hn position hroom).decoded,
      b.encode_into_eq hn position hroom buffer hbuf, ?_, ?_⟩
    · rw [← hl]
      apply (b.image hn position hroom).decode
      exact take_left' (b.image hn position hroom).bytes_length
    · rw [FrameImage.decoded_contents, b.inputs_image, hr]
  · intro value buffer len position key lsn hreq hroom hbuf
    obtain ⟨hlen, hv, hmax⟩ := PreparedFrame.required_len_ok hreq
    obtain ⟨p, hp, hpl⟩ := PreparedFrame.new_ok hreq hbuf
    subst hlen
    refine ⟨p, hpl.symm, _, (preparedImage position key lsn value hv hmax hroom).decoded, hp,
      (p.fill value hpl.symm).finish_eq position key lsn value hpl.symm (p.fill_value value _) hv
        hmax hroom, ?_, ?_⟩
    · apply FrameImage.decode (preparedImage position key lsn value hv hmax hroom)
      exact take_of_length_le (Nat.le_of_eq (FrameImage.bytes_length _))
    · rw [FrameImage.decoded_contents]
      rfl

/-- The first and the second page behind the header of a four-page segment. -/
def firstPage : FramePosition :=
  ⟨1, 4096, 12288, segment.SegmentId.first.seq_u64, onePage.frame_aligned, onePage.value_le,
    by decide, by decide, by decide⟩

def secondPage : FramePosition :=
  ⟨1, 8192, 8192, segment.SegmentId.first.seq_u64, twoPages.frame_aligned, by decide,
    twoPages.frame_pos, twoPages.frame_aligned, by decide⟩

/-- A value, an empty one and a tombstone. -/
def threeRecords : List Input :=
  [⟨Id16.from_bytes [7], 1, .Data, [1, 2, 3], by simp⟩,
  ⟨Id16.from_bytes [8], 2, .Data, [], by simp⟩,
    ⟨Id16.from_bytes [9], 3, .Tombstone, [], Input.none_empty⟩]

theorem threeRecords_built :
    ∃ b, (FrameBuilder.new onePage).admit_all threeRecords = .ok b ∧ b.encoded_len = 4096 := by
  apply exists_of_any
  decide +kernel

/-- They share a frame, and read back as three different things. -/
theorem threeRecords_read_back :
    ∃ b header out f, (FrameBuilder.new onePage).admit_all threeRecords = .ok b ∧
      b.encode_into firstPage (zeros 4096) = .ok (header, out) ∧
      Frame.decode out onePage firstPage = .ok f ∧
      f.contents = [(Id16.from_bytes [7], 1, .Data, some [1, 2, 3]),
        (Id16.from_bytes [8], 2, .Data, some []), (Id16.from_bytes [9], 3, .Tombstone, none)] := by
  obtain ⟨b, hb, hlen⟩ := threeRecords_built
  obtain ⟨header, out, f, h1, h2, h3⟩ := (every_frame_reads_back onePage).1 _ b firstPage
    (zeros 4096) (by simp [threeRecords]) hb (by rw [hlen]; decide) (by rw [zeros_length, hlen])
  exact ⟨b, header, out, f, hb, h1, h2, h3⟩

/-- A page with one tombstone. -/
def tombstonePage (position : FramePosition) (lsn : UInt64) (room : 4096 ≤ position.available) :
    FrameImage onePage where
  position := position
  placed := [⟨⟨Id16.from_bytes [7], lsn, .Tombstone, [], Input.none_empty⟩, 0⟩]
  payload := zeros 3968
  nonempty := by simp
  values_le := by simp
  laid := .inl ⟨rfl, rfl, trivial⟩
  holds := by simp
  len_aligned := by simp [inputs, metadataLen_empty]
  len_le := by simp [inputs, metadataLen_empty, onePage]
  room := by simpa [inputs, metadataLen_empty] using room

/-- Two tombstones of one key, the newer one on the first page. -/
def twoFrames : List Metadata :=
  [(tombstonePage firstPage 2 (by decide)).metadata,
  (tombstonePage secondPage 1 (by decide)).metadata]

/-! ## What a buffer held before -/

/-- The value of a prepared frame, as the caller has filled it in. -/
def PreparedFrame.value (p : PreparedFrame) : Bytes :=
  slice p.bytes p.value_at (p.value_at + p.value_len)

/-- Of two buffers that are long enough, nothing but the bytes behind the frame can tell which one a
writer was given. A prepared frame also keeps the value that stands in its buffer. -/
theorem frames_leak_nothing (limits : FrameLimits) :
    (∀ (b : FrameBuilder) (position : FramePosition) (x y : Bytes),
      b.encoded_len ≤ x.length → b.encoded_len ≤ y.length →
      (∃ e, b.encode_into position x = .error e ∧ b.encode_into position y = .error e) ∨
      ∃ header frame, frame.length = b.encoded_len ∧
        b.encode_into position x = .ok (header, frame ++ x.drop b.encoded_len) ∧
        b.encode_into position y = .ok (header, frame ++ y.drop b.encoded_len)) ∧
    (∀ (len : Nat) (p q : PreparedFrame) (position : FramePosition) (key : ChunkId) (lsn : UInt64),
      PreparedFrame.required_len limits p.value_len = .ok len → p.value_len = q.value_len →
      p.value = q.value →
      (∃ e, p.finish position key lsn = .error e ∧ q.finish position key lsn = .error e) ∨
      ∃ frame, p.finish position key lsn = .ok frame ∧ q.finish position key lsn = .ok frame ∧
        slice frame p.value_at (p.value_at + p.value_len) = p.value ∧
        ∀ buffer, len ≤ buffer.length → patch buffer 0 frame = frame ++ buffer.drop len) := by
  refine ⟨fun b position x y hx hy => ?_, fun len p q position key lsn hreq hlen hval => ?_⟩
  · by_cases hn : b.records = []
    · exact .inl ⟨_, if_pos hn, if_pos hn⟩
    by_cases room : b.encoded_len ≤ position.available
    · exact .inr ⟨_, _, (FrameImage.bytes_length _).trans (b.image_frame_len hn position room),
        b.encode_into_eq hn position room x hx, b.encode_into_eq hn position room y hy⟩
    · have hfull : ∀ buffer, b.encode_into position buffer =
          .error (.SegmentFull b.encoded_len position.available) := fun buffer => by
        unfold FrameBuilder.encode_into
        rw [if_neg hn]
        simp only [FramePosition.check_len]
        rw [if_pos (by omega)]
      exact .inl ⟨_, hfull x, hfull y⟩
  · obtain ⟨rfl, hv, hmax⟩ := PreparedFrame.required_len_ok hreq
    have hle := (prepared_bounds p.value_len).2.1
    have hpl : p.value.length = p.value_len := by
      rw [PreparedFrame.value, slice_length_of_le (by rw [p.value_at_eq, p.len_eq]; exact hle)]
      omega
    by_cases room : preparedLen p.value_len ≤ position.available
    · rw [← hpl] at hv hmax room
      have hlast : (preparedImage position key lsn p.value hv hmax room).bytes.length =
          preparedLen p.value.length := by
        rw [FrameImage.bytes_length, ← preparedPayload_length]
        simp [FrameImage.frame_len, FrameImage.metadata_len, preparedImage, inputs,
          preparedMetadataLen_eq]
      refine .inr ⟨_, p.finish_eq position key lsn p.value hpl rfl hv hmax room,
        q.finish_eq position key lsn p.value (hpl.trans hlen) hval.symm hv hmax room, ?_,
        fun buffer hb => ?_⟩
      · have := FrameImage.value_slice (preparedImage position key lsn p.value hv hmax room)
          (mem_singleton.mpr rfl)
        rwa [hpl, ← p.value_at_eq] at this
      · rw [patch, hlast, hpl, Nat.zero_add, take_zero, nil_append]
    · have hfull : ∀ r : PreparedFrame, r.value_len = p.value_len → r.finish position key lsn =
          .error (.SegmentFull (preparedLen p.value_len) position.available) := fun r hr => by
        unfold PreparedFrame.finish FramePosition.check_len
        rw [r.len_eq, hr, if_pos (by omega)]
      exact .inl ⟨_, hfull p rfl, hfull q hlen.symm⟩

/-- One frame in two buffers: only the byte behind it tells them apart. -/
theorem threeRecords_leak_nothing :
    ∃ b header out, (FrameBuilder.new onePage).admit_all threeRecords = .ok b ∧
      b.encode_into firstPage (zeros 4097) = .ok (header, out ++ [0]) ∧
      b.encode_into firstPage (replicate 4097 255) = .ok (header, out ++ [255]) := by
  obtain ⟨b, hb, hlen⟩ := threeRecords_built
  have hx : (zeros 4097).drop b.encoded_len = [0] := by rw [hlen, zeros, drop_replicate]; rfl
  have hy : (replicate 4097 (255 : UInt8)).drop b.encoded_len = [255] := by
    rw [hlen, drop_replicate]
    rfl
  obtain ⟨e, he, -⟩ | ⟨header, out, -, h1, h2⟩ := (frames_leak_nothing onePage).1 b firstPage
    (zeros 4097) (replicate 4097 255) (by rw [hlen, zeros_length]; decide)
    (by rw [hlen, length_replicate]; decide)
  · have hne : b.records ≠ [] := by rw [(FrameBuilder.admit_all_ok hb).2]; simp [threeRecords]
    rw [b.encode_into_eq hne firstPage (by rw [hlen]; decide) _
      (by rw [hlen, zeros_length]; decide)] at he
    cases he
  · rw [hx] at h1
    rw [hy] at h2
    exact ⟨b, header, out, hb, h1, h2⟩

end moat_engine.frame
