-- A laid-out frame: its records with the places of their values, and the
-- bytes that follow from them. The two writers produce such a frame, and the
-- decoder accepts every one of them, so the round trip meets here.
import Moat.FrameBuilder
import Moat.FrameDecode

namespace moat_engine.frame

open byte_list moat_common moat_engine.codec List

/-! ## Placed records -/

/-- A record with the frame offset of its value. An empty value has offset zero. -/
structure Placed where
  input : Input
  value_at : Nat

def Placed.descriptor (p : Placed) (checksum_at : Nat) : RecordDescriptor where
  key := p.input.key
  lsn := p.input.lsn
  value_offset := p.value_at
  value_len := p.input.value.length
  checksum_offset := if p.input.value = [] then 0 else checksum_at
  checksum_count := block_count p.input.value.length
  kind := p.input.kind

/-- The checksum array of one value. -/
def checksumBytes (value : Bytes) : Bytes := (block_checksums_iter value).flatMap (leBytes 4)

@[simp] theorem checksumBytes_nil : checksumBytes [] = [] := rfl

theorem checksumBytes_length {value : Bytes} (h : value.length < 2 ^ 32) :
    (checksumBytes value).length = 4 * block_count value.length := by
  unfold checksumBytes
  rw [length_flatMap_const _ (leBytes_length 4), block_checksums_iter_length,
    block_count_eq (by omega)]
  omega

/-- The records as a reader sees them, from ordinal `ordinal` and checksum offset
`checksum_at` on. -/
def recordsFrom : Nat → Nat → List Placed → List Record
  | _, _, [] => []
  | ordinal, checksum_at, p :: ps =>
    ⟨p.descriptor checksum_at, ordinal, checksumBytes p.input.value⟩ ::
      recordsFrom (ordinal + 1) (checksum_at + 4 * block_count p.input.value.length) ps

def inputs (ps : List Placed) : List Input := ps.map (·.input)

def checksumArea (ps : List Placed) : Bytes := ps.flatMap (fun p => checksumBytes p.input.value)

@[simp] theorem recordsFrom_length (o c : Nat) (ps : List Placed) :
    (recordsFrom o c ps).length = ps.length := by
  induction ps generalizing o c with
  | nil => rfl
  | cons _ _ ih => simp [recordsFrom, ih]

theorem recordsFrom_append (o c : Nat) (xs ys : List Placed) :
    recordsFrom o c (xs ++ ys) =
      recordsFrom o c xs ++ recordsFrom (o + xs.length) (c + checksumLen (inputs xs)) ys := by
  induction xs generalizing o c with
  | nil => simp [recordsFrom, inputs]
  | cons p ps ih =>
    simp only [cons_append, recordsFrom, ih, inputs, map_cons, checksumLen_cons,
      length_cons]
    rw [show o + 1 + ps.length = o + (ps.length + 1) by omega, Nat.add_assoc c]

theorem checksumArea_length {ps : List Placed} (h : ∀ p ∈ ps, p.input.value.length < 2 ^ 32) :
    (checksumArea ps).length = checksumLen (inputs ps) := by
  induction ps with
  | nil => rfl
  | cons p _ ih =>
    have h1 := checksumBytes_length (h p (by simp))
    have h2 := ih (fun q hq => h q (by simp [hq]))
    unfold checksumArea at h2 ⊢
    simp only [flatMap_cons, length_append, inputs, map_cons, checksumLen_cons, h1]
    rw [h2]; rfl

/-- The values follow each other from `end_` on, aligned, and stay below `limit`. -/
def Laid (limit : Nat) : Nat → List Placed → Prop
  | _, [] => True
  | end_, p :: ps =>
    (p.input.value = [] ∧ p.value_at = 0 ∧ Laid limit end_ ps) ∨
    (p.input.value ≠ [] ∧ end_ ≤ p.value_at ∧ p.value_at % 8 = 0 ∧
      p.value_at + p.input.value.length ≤ limit ∧
      Laid limit (p.value_at + p.input.value.length) ps)

/-- A nonempty value of a layout lies between the start and the limit. -/
theorem Laid.mem {limit end_ : Nat} {ps : List Placed} (h : Laid limit end_ ps) {p : Placed}
    (hp : p ∈ ps) :
    (p.input.value = [] ∧ p.value_at = 0) ∨
    (p.input.value ≠ [] ∧ end_ ≤ p.value_at ∧ p.value_at + p.input.value.length ≤ limit) := by
  induction ps generalizing end_ with
  | nil => cases hp
  | cons _ _ ih =>
    obtain ⟨h1, h2, h3⟩ | ⟨h1, h2, -, h4, h5⟩ := h
    · rcases mem_cons.mp hp with rfl | hp
      · exact Or.inl ⟨h1, h2⟩
      · exact ih h3 hp
    · rcases mem_cons.mp hp with rfl | hp
      · exact Or.inr ⟨h1, h2, h4⟩
      · rcases ih h5 hp with h6 | ⟨h6, h7, h8⟩
        · exact Or.inl h6
        · exact Or.inr ⟨h6, by omega, h8⟩

/-! ## The image -/

/-- A frame that keeps every rule of the format. -/
structure FrameImage (limits : FrameLimits) where
  position : FramePosition
  placed : List Placed
  payload : Bytes
  nonempty : placed ≠ []
  values_le : ∀ p ∈ placed, p.input.value.length ≤ limits.max_value_len
  laid : Laid (metadataLen (inputs placed) + payload.length) (metadataLen (inputs placed)) placed
  holds : ∀ p ∈ placed, p.input.value ≠ [] →
    slice payload (p.value_at - metadataLen (inputs placed))
      (p.value_at - metadataLen (inputs placed) + p.input.value.length) = p.input.value
  len_aligned : (metadataLen (inputs placed) + payload.length) % 4096 = 0
  len_le : metadataLen (inputs placed) + payload.length ≤ limits.max_frame_len
  room : metadataLen (inputs placed) + payload.length ≤ position.available

namespace FrameImage

variable {limits : FrameLimits} (img : FrameImage limits)

def metadata_len : Nat := metadataLen (inputs img.placed)

def frame_len : Nat := img.metadata_len + img.payload.length

def checksum_base : Nat := HEADER_LEN + img.placed.length * DESCRIPTOR_LEN

def records : List Record := recordsFrom 0 img.checksum_base img.placed

/-- Directory and checksums: what the metadata checksum covers. -/
def body : Bytes := img.records.flatMap (·.descriptor.image) ++ checksumArea img.placed

def header : FrameHeader where
  position := img.position
  frame_len := img.frame_len
  record_count := img.placed.length
  checksum_len := checksumLen (inputs img.placed)
  metadata_crc := crc32c img.body

def metadata : Metadata := ⟨img.header.image ++ img.body, img.header⟩

/-- The whole frame. -/
def bytes : Bytes := img.header.image ++ img.body ++ img.payload

def decoded : Frame := ⟨img.bytes, img.metadata⟩

variable {p : Placed} {buf : Bytes} {pre post : List Placed}

theorem value_u32 (hp : p ∈ img.placed) : p.input.value.length < 2 ^ 32 := by
  have := img.values_le p hp
  have := limits.value_le
  have := limits.frame_u32
  omega

theorem frame_len_lt : img.frame_len < 2 ^ 32 := by
  have h1 := img.len_le
  have h2 := limits.frame_u32
  unfold frame_len metadata_len
  omega

theorem metadata_len_eq :
    img.metadata_len = img.checksum_base + checksumLen (inputs img.placed) := by
  simp [metadata_len, metadataLen, checksum_base, inputs]

theorem placed_pos : 0 < img.placed.length := length_pos_iff.mpr img.nonempty

theorem records_length : img.records.length = img.placed.length := recordsFrom_length _ _ _

theorem body_length : img.body.length + HEADER_LEN = img.metadata_len := by
  unfold body
  rw [length_append, length_flatMap_const _ (fun r => r.descriptor.image_length),
    records_length, checksumArea_length (fun p hp => img.value_u32 hp), metadata_len_eq,
    checksum_base]
  simp only [DESCRIPTOR_LEN]
  omega

theorem metadata_bytes_length : (img.header.image ++ img.body).length = img.metadata_len := by
  have := img.body_length
  simp only [HEADER_LEN] at this
  simp; omega

theorem bytes_length : img.bytes.length = img.frame_len := by
  unfold bytes
  rw [length_append, metadata_bytes_length]
  rfl

theorem header_fits : img.header.Fits limits where
  frame_pos := by
    have h1 := img.metadata_len_eq
    have h2 : 64 ≤ img.checksum_base := by simp [checksum_base, HEADER_LEN]
    simp only [header, frame_len]
    omega
  frame_aligned := img.len_aligned
  frame_le := img.len_le
  frame_room := img.room
  count_pos := img.placed_pos
  checksum_aligned := by
    have hmul : ∀ l : List Input, checksumLen l % 4 = 0 := by
      intro l
      induction l with
      | nil => rfl
      | cons => rw [checksumLen_cons]; omega
    exact hmul _
  metadata_le := by
    have h1 := img.metadata_len_eq
    have h2 : img.header.metadata_len = img.metadata_len := by
      rw [h1]; simp [FrameHeader.metadata_len, header, checksum_base]
    rw [h2]
    exact Nat.le_add_right _ _
  crc_u32 := crc32c_lt _

theorem header_metadata_len : img.header.metadata_len = img.metadata_len := by
  rw [metadata_len_eq]
  simp [FrameHeader.metadata_len, header, checksum_base]

/-- The header reads back from any buffer that starts with it. -/
theorem header_decode (h : buf.take 64 = img.header.image) (hl : 64 ≤ buf.length) :
    FrameHeader.decode buf limits img.position = .ok img.header :=
  img.header.decode_image limits buf img.header_fits h hl

/-! ## The directory reads back -/

/-- One record of the frame, with the records before it and after it. -/
theorem split_at {i : Nat} (h : img.placed[i]? = some p) :
    ∃ pre post, img.placed = pre ++ p :: post ∧ pre.length = i := by
  obtain ⟨hi, hp⟩ := List.getElem?_eq_some_iff.mp h
  refine ⟨img.placed.take i, img.placed.drop (i + 1), ?_, by simp; omega⟩
  rw [← hp, ← drop_eq_getElem_cons hi, take_append_drop]

section
variable (h : img.placed = pre ++ p :: post)
include h

theorem records_getElem : img.records[pre.length]? = some
      ⟨p.descriptor (img.checksum_base + checksumLen (inputs pre)), pre.length,
        checksumBytes p.input.value⟩ := by
  unfold records
  rw [h, recordsFrom_append, List.getElem?_append_right (by simp)]
  simp [recordsFrom]

/-- The fields of every descriptor fit in 32 bits. -/
theorem descriptor_decode :
    RecordDescriptor.decode (p.descriptor (img.checksum_base + checksumLen (inputs pre))).image =
      .ok (p.descriptor (img.checksum_base + checksumLen (inputs pre))) := by
  have hp : p ∈ img.placed := by rw [h]; simp
  have hm := img.metadata_len_eq
  have hf := img.frame_len_lt
  have hc : checksumLen (inputs img.placed) =
      checksumLen (inputs pre) + (4 * block_count p.input.value.length +
        checksumLen (inputs post)) := by
    rw [h]; simp [inputs, checksumLen_append]
  unfold frame_len at hf
  have hv : p.value_at < 2 ^ 32 := by
    rcases img.laid.mem hp with ⟨-, h0⟩ | ⟨-, -, h1⟩
    · omega
    · unfold metadata_len at hf; omega
  apply RecordDescriptor.decode_image
  · exact hv
  · exact img.value_u32 hp
  · simp only [Placed.descriptor]
    split
    · omega
    · omega
  · exact Nat.mod_lt _ (by norm_num)

theorem decode_descriptor : img.metadata.decode_descriptor pre.length =
      .ok (p.descriptor (img.checksum_base + checksumLen (inputs pre))) := by
  have hs : slice (img.records.flatMap (·.descriptor.image)) (pre.length * 64)
      (pre.length * 64 + 64) =
      (p.descriptor (img.checksum_base + checksumLen (inputs pre))).image :=
    slice_flatMap (fun r : Record => r.descriptor.image) (fun r => r.descriptor.image_length) _
      (img.records_getElem h)
  have hl : img.placed.length = pre.length + (post.length + 1) := by rw [h]; simp
  unfold Metadata.decode_descriptor metadata body
  simp only [HEADER_LEN, DESCRIPTOR_LEN]
  rw [slice_append_right _ _ (by simp), slice_append_left, img.header.image_length,
    show 64 + pre.length * 64 - 64 = pre.length * 64 by omega,
    show 64 + pre.length * 64 + 64 - 64 = pre.length * 64 + 64 by omega, hs]
  · exact img.descriptor_decode h
  · rw [length_flatMap_const _ (fun r => r.descriptor.image_length), records_length, hl,
      img.header.image_length]
    omega

/-- The checksum array of one record, cut out of the metadata. -/
theorem checksums_slice :
    slice (img.header.image ++ img.body) (img.checksum_base + checksumLen (inputs pre))
      (img.checksum_base + checksumLen (inputs pre) + 4 * block_count p.input.value.length) =
      checksumBytes p.input.value := by
  have hp : p ∈ img.placed := by rw [h]; simp
  have hpre : (checksumArea pre).length = checksumLen (inputs pre) :=
    checksumArea_length (fun q hq => img.value_u32 (by rw [h]; simp [hq]))
  have hsplit : img.header.image ++ img.body =
      (img.header.image ++ img.records.flatMap (·.descriptor.image) ++ checksumArea pre) ++
        checksumBytes p.input.value ++ checksumArea post := by
    unfold body
    conv_lhs => rw [h]
    simp [checksumArea]
  have hlen : (img.header.image ++ img.records.flatMap (·.descriptor.image) ++
      checksumArea pre).length = img.checksum_base + checksumLen (inputs pre) := by
    simp only [length_append, img.header.image_length, hpre, checksum_base,
      length_flatMap_const _ (fun r : Record => r.descriptor.image_length), records_length,
      HEADER_LEN, DESCRIPTOR_LEN]
  rw [hsplit, slice_append_mid _ _ _ hlen.symm]
  rw [hlen, checksumBytes_length (img.value_u32 hp)]

end

theorem metadata_record (i : Nat) (hi : i < img.records.length) :
    img.metadata.record i = img.records[i]? := by
  rw [records_length] at hi
  obtain ⟨pre, post, h, rfl⟩ := img.split_at (List.getElem?_eq_getElem hi)
  unfold Metadata.record
  rw [if_neg (by simp only [metadata, header]; omega), img.decode_descriptor h,
    img.records_getElem h]
  simp only [Placed.descriptor]
  congr 2
  split
  · rename_i h0
    rw [h0]
    exact slice_empty _ _
  · rw [Nat.mul_comm _ 4]
    exact img.checksums_slice h

theorem metadata_records : img.metadata.records = img.records := by
  unfold Metadata.records
  rw [show img.metadata.header.record_count = img.records.length from img.records_length.symm]
  exact filterMap_range_eq _ _ img.metadata_record

/-! ## The decoder accepts it -/

/-- One placed record passes the checks of the walk, and moves it to the next record. -/
theorem step_placed (hp : p ∈ img.placed) {c e : Nat} (hl : Laid img.frame_len e [p])
    (he : img.metadata_len ≤ e) (hc : c + 4 * block_count p.input.value.length ≤ img.metadata_len) :
    (⟨c, e, true⟩ : Walk).step img.header limits (p.descriptor c) =
      .ok ⟨c + 4 * block_count p.input.value.length,
        if p.input.value = [] then e else p.value_at + p.input.value.length, true⟩ := by
  obtain ⟨h0, hz, -⟩ | ⟨h0, h1, h2, h3, -⟩ := hl
  · -- An empty value has zero offsets, and the cursors stay.
    rw [Walk.step_empty (by simp [Placed.descriptor, h0]) hz (by simp [Placed.descriptor, h0])
      (by simp [Placed.descriptor, h0, block_count]), if_pos h0]
    simp [h0, block_count]
  · have hk : p.input.kind ≠ .Tombstone := fun hk => h0 (p.input.tombstone_empty hk)
    have hm := img.header_metadata_len
    rw [Walk.step_value (length_pos_iff.mpr h0) (img.values_le p hp) hk rfl
      (by simp [Placed.descriptor, h0]) (by rw [hm]; exact hc)
      (by rw [hm]; exact Nat.le_trans he h1) h2 h3, if_neg h0]
    simp [Placed.descriptor, h1]

/-- The walk passes over the records that are left, whatever came before them. -/
theorem walk_placed (pre post : List Placed) (e : Nat) (h : img.placed = pre ++ post)
    (hl : Laid img.frame_len e post) (he : img.metadata_len ≤ e) :
    ∃ e2, img.metadata.walk limits post.length pre.length
      ⟨img.checksum_base + checksumLen (inputs pre), e, true⟩ =
        .ok ⟨img.metadata_len, e2, true⟩ := by
  induction post generalizing pre e with
  | nil =>
    refine ⟨e, ?_⟩
    rw [append_nil] at h
    rw [← h, ← img.metadata_len_eq]
    rfl
  | cons p post ih =>
    have hp : p ∈ img.placed := by rw [h]; simp
    have hc : checksumLen (inputs img.placed) =
        checksumLen (inputs pre) + (4 * block_count p.input.value.length +
          checksumLen (inputs post)) := by
      rw [h]; simp [inputs, checksumLen_append]
    have hm := img.metadata_len_eq
    have hone : Laid img.frame_len e [p] := by
      obtain ⟨h0, hz, -⟩ | ⟨h0, h1, h2, h3, -⟩ := hl
      · exact Or.inl ⟨h0, hz, trivial⟩
      · exact Or.inr ⟨h0, h1, h2, h3, trivial⟩
    have hstep := img.step_placed hp hone he
      (show img.checksum_base + checksumLen (inputs pre) + _ ≤ _ by omega)
    have hrest : Laid img.frame_len
        (if p.input.value = [] then e else p.value_at + p.input.value.length) post ∧
        img.metadata_len ≤ if p.input.value = [] then e else p.value_at + p.input.value.length := by
      obtain ⟨h0, -, h1⟩ | ⟨h0, h1, -, -, h2⟩ := hl
      · rw [if_pos h0]; exact ⟨h1, he⟩
      · rw [if_neg h0]; exact ⟨h2, by omega⟩
    obtain ⟨e2, hw⟩ := ih (pre ++ [p]) _ (by rw [h]; simp) hrest.1 hrest.2
    have hcs : checksumLen (inputs (pre ++ [p])) =
        checksumLen (inputs pre) + 4 * block_count p.input.value.length := by
      simp [inputs, checksumLen_append]
    refine ⟨e2, ?_⟩
    rw [length_cons, Metadata.walk, img.decode_descriptor h]
    simp only [show img.metadata.header = img.header from rfl, hstep]
    rw [hcs, ← Nat.add_assoc, length_append] at hw
    exact hw

/-- The metadata reads back from any buffer that starts with it. -/
theorem metadata_decode (h : buf.take img.metadata_len = img.metadata.bytes)
    (hl : img.metadata_len ≤ buf.length) :
    Metadata.decode buf limits img.position = .ok img.metadata := by
  have hm := img.metadata_len_eq
  have h64 : 64 ≤ img.metadata_len := by
    rw [hm]; simp only [checksum_base, HEADER_LEN]; omega
  have ht : buf.take 64 = img.header.image := by
    have := congrArg (List.take 64) h
    rw [take_take, Nat.min_eq_left h64] at this
    rw [this]
    exact take_left' img.header.image_length
  unfold Metadata.decode
  rw [img.header_decode ht (by omega)]
  simp only [header_metadata_len]
  rw [if_neg (by omega), h]
  have hb : img.metadata.bytes.drop HEADER_LEN = img.body :=
    drop_left' img.header.image_length
  obtain ⟨e2, hw⟩ := img.walk_placed [] img.placed img.metadata_len rfl img.laid (Nat.le_refl _)
  have hmeta : (⟨img.metadata.bytes, img.header⟩ : Metadata) = img.metadata := rfl
  have hcrc : crc32c img.body = img.header.metadata_crc := rfl
  rw [hb, hmeta, if_neg (not_not.mpr hcrc)]
  have hw : img.metadata.walk limits img.header.record_count 0
      ⟨HEADER_LEN + img.header.record_count * DESCRIPTOR_LEN, img.metadata_len, true⟩ =
      .ok ⟨img.metadata_len, e2, true⟩ := hw
  simp only [hw, ne_eq, not_true_eq_false, if_false, Bool.true_eq_false, false_and]

/-- Entry `j` of a checksum array is the checksum of block `j`. -/
theorem u32_at_checksumBytes (value : Bytes) (j : Nat) (hj : j * 65536 < value.length) :
    u32_at (checksumBytes value) (j * 4) = crc32c
      (slice value (j * 65536) (j * 65536 + 65536)) := by
  have hb : (block_checksums_iter value)[j]? =
      some (crc32c (slice value (j * 65536) (j * 65536 + 65536))) := by
    unfold block_checksums_iter
    rw [List.getElem?_map, getElem?_blocks, if_pos hj]
    rfl
  unfold checksumBytes
  rw [u32_at_of_slice (slice_flatMap (leBytes 4) (leBytes_length 4) _ hb)]
  exact Nat.mod_eq_of_lt (crc32c_lt _)

/-- Whole blocks of a placed record's value pass its checksums. -/
theorem verify_placed (hp : p ∈ img.placed) (c ordinal start end_ : Nat)
    (h1 : start ≤ end_) (h2 : end_ ≤ p.input.value.length)
    (hw : verification_range p.input.value.length start end_ = .ok (start, end_)) :
    (⟨p.descriptor c, ordinal, checksumBytes p.input.value⟩ : Record).verify start end_
      (slice p.input.value start end_) = .ok () := by
  have hu := img.value_u32 hp
  have hlen : (slice p.input.value start end_).length = end_ - start := slice_length_of_le h2
  -- A nonempty range that equals its own widening starts on a block.
  have hs : end_ ≤ start ∨ start / 65536 * 65536 = start ∧
      min ((end_ + 65535) / 65536 * 65536) p.input.value.length = end_ := by
    rw [verification_range_eq h1 h2] at hw
    split at hw
    · exact Or.inl ‹_›
    · simp only [Except.ok.injEq, Prod.mk.injEq] at hw; exact Or.inr hw
  refine Record.verify_ok hw hlen ?_
  rw [verify_blocks_with_ok]
  intro i hi
  rw [hlen] at hi
  obtain hs | ⟨hs, he⟩ := hs
  · omega
  have hend : slice (slice p.input.value start end_) (i * 65536) (i * 65536 + 65536) =
      slice p.input.value ((start / 65536 + i) * 65536) ((start / 65536 + i) * 65536 + 65536) := by
    rw [slice_slice_min, Nat.add_mul, hs]
    by_cases hfull : start + (i * 65536 + 65536) ≤ end_
    · rw [Nat.min_eq_left hfull, Nat.add_assoc]
    · -- A short last block only happens at the end of the value.
      rw [Nat.min_eq_right (by omega), slice_eq_drop (by omega), slice_eq_drop (by omega)]
  have hblock : (start / 65536 + i) * 65536 < p.input.value.length := by
    rw [Nat.add_mul, hs]; omega
  have hcount : start / 65536 + i < block_count p.input.value.length := by
    rw [block_count_eq (by omega)]; omega
  rw [hend, ← u32_at_checksumBytes _ _ hblock]
  exact Record.checksum_eq hcount

/-- A record's value stands in the frame at its offset. -/
theorem value_slice (hp : p ∈ img.placed) :
    slice img.bytes p.value_at (p.value_at + p.input.value.length) = p.input.value := by
  rcases img.laid.mem hp with ⟨h0, -⟩ | ⟨h0, h1, -⟩
  · rw [h0]; exact slice_empty _ _
  · have hh := img.holds p hp h0
    unfold bytes
    rw [slice_append_right _ _ (by rw [metadata_bytes_length]; exact h1), metadata_bytes_length,
      metadata_len, Nat.sub_add_comm h1]
    exact hh

/-- Every record of the image passes its payload checksums. -/
theorem verify_all (o c : Nat) (ps : List Placed) (h : ∀ p ∈ ps, p ∈ img.placed) :
    verify_records img.bytes (recordsFrom o c ps) = .ok () := by
  induction ps generalizing o c with
  | nil => rfl
  | cons p _ ih =>
    have hp := h p (by simp)
    have hslice : slice img.bytes p.value_at (p.value_at + p.input.value.length) =
        slice p.input.value 0 p.input.value.length := by
      rw [slice_self_length, img.value_slice hp]
    have hw : verification_range p.input.value.length 0 p.input.value.length =
        .ok (0, p.input.value.length) := by
      rw [verification_range_eq (Nat.zero_le _) (Nat.le_refl _)]
      split
      · rfl
      · rw [Nat.min_eq_right (by omega)]
    have hv := img.verify_placed hp c o 0 _ (Nat.zero_le _) (Nat.le_refl _) hw
    rw [← hslice] at hv
    unfold recordsFrom verify_records
    simp only [Placed.descriptor] at hv ⊢
    rw [hv]
    exact ih (o + 1) _ (fun q hq => h q (by simp [hq]))

/-- The decoder accepts the frame in any buffer that starts with it. -/
theorem decode (h : buf.take img.frame_len = img.bytes) :
    Frame.decode buf limits img.position = .ok img.decoded := by
  have hl : img.frame_len ≤ buf.length := by
    have := congrArg List.length h
    rw [bytes_length, length_take] at this
    omega
  have hm : buf.take img.metadata_len = img.metadata.bytes := by
    have := congrArg (List.take img.metadata_len) h
    rw [take_take, Nat.min_eq_left (show _ ≤ img.frame_len from Nat.le_add_right _ _)] at this
    rw [this]
    exact take_left' img.metadata_bytes_length
  unfold Frame.decode
  rw [img.metadata_decode hm (Nat.le_trans (Nat.le_add_right _ _) hl)]
  simp only [show img.metadata.header.frame_len = img.frame_len from rfl]
  rw [if_neg (by omega), h, metadata_records]
  have hv := img.verify_all 0 img.checksum_base img.placed (fun _ hp => hp)
  unfold records
  rw [hv]
  rfl

/-- The value of every record reads back, and a tombstone has none. -/
theorem decoded_value (h : img.placed = pre ++ p :: post) :
    img.decoded.value pre.length = p.input.stored := by
  have hp : p ∈ img.placed := by rw [h]; simp
  have hi : pre.length < img.records.length := by rw [records_length, h]; simp
  unfold Frame.value
  rw [show img.decoded.metadata = img.metadata from rfl, img.metadata_record _ hi,
    img.records_getElem h]
  simp only [Placed.descriptor]
  unfold Input.stored
  rw [show img.decoded.bytes = img.bytes from rfl, img.value_slice hp]
  rfl

theorem decoded_contents :
    img.decoded.contents =
      (inputs img.placed).map (fun r => (r.key, r.lsn, r.kind, r.stored)) := by
  unfold Frame.contents
  rw [show img.decoded.metadata.records = img.records from img.metadata_records]
  apply ext_getElem?
  intro i
  by_cases hi : i < img.placed.length
  · obtain ⟨p, hp⟩ : ∃ p, img.placed[i]? = some p := ⟨_, List.getElem?_eq_getElem hi⟩
    obtain ⟨pre, post, h, rfl⟩ := img.split_at hp
    rw [List.getElem?_map, img.records_getElem h]
    simp only [Option.map_some, img.decoded_value h]
    rw [h]
    simp [inputs, Placed.descriptor]
  · rw [List.getElem?_eq_none (by simp [records_length]; omega),
      List.getElem?_eq_none (by simp [inputs]; omega)]

end FrameImage

end moat_engine.frame
