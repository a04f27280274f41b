-- The geometry of accepted metadata: values are aligned, inside the frame and
-- apart from each other, and the checksum arrays tile their area in order.
import Moat.FrameAccept
import Moat.Intervals

namespace moat_engine.frame

open byte_list moat_common moat_engine.codec interval List

/-! ## The directory as a list -/

/-- The record that a descriptor stands for. -/
def Metadata.recordOf (m : Metadata) (ordinal : Nat) (d : RecordDescriptor) : Record :=
  ⟨d, ordinal, slice m.bytes d.checksum_offset (d.checksum_offset + d.checksum_count * 4)⟩

variable {m : Metadata} {limits : FrameLimits} {ds : List RecordDescriptor} {i : Nat}
  {d : RecordDescriptor} {r : Record} {header : FrameHeader} {w : Walk}

theorem Metadata.Directory.record_eq (h : m.Directory limits ds)
    (hd : ds[i]? = some d) : m.record i = some (m.recordOf i d) := by
  have hi := (List.getElem?_eq_some_iff.mp hd).1
  rw [h.length] at hi
  unfold Metadata.record
  rw [if_neg (by omega), h.decodes i d hd]
  rfl

/-- The records of a frame are its descriptors, in directory order. -/
theorem Metadata.Directory.records_eq (h : m.Directory limits ds) :
    m.records = ds.mapIdx m.recordOf := by
  unfold Metadata.records
  rw [show m.header.record_count = (ds.mapIdx m.recordOf).length by simp [h.length]]
  apply filterMap_range_eq
  intro i hi
  rw [length_mapIdx] at hi
  rw [h.record_eq (List.getElem?_eq_getElem hi), List.getElem?_mapIdx,
    List.getElem?_eq_getElem hi]
  rfl

/-- What a field of the records is, read from the descriptors. -/
theorem Metadata.map_recordOf {β : Type} (m : Metadata) (ds : List RecordDescriptor)
    (f : Record → β) (g : RecordDescriptor → β) (h : ∀ i d, f (m.recordOf i d) = g d) :
    (ds.mapIdx m.recordOf).map f = ds.map g := by
  apply ext_getElem?
  intro i
  rw [List.getElem?_map, List.getElem?_mapIdx, List.getElem?_map, Option.map_map]
  exact congrArg (fun k => ds[i]?.map k) (funext (fun d => h i d))

theorem Metadata.Directory.mem_records (h : m.Directory limits ds) (hr : r ∈ m.records) :
    ∃ i d, ds[i]? = some d ∧ r = m.recordOf i d := by
  rw [h.records_eq] at hr
  obtain ⟨i, hi, rfl⟩ := mem_mapIdx.mp hr
  exact ⟨i, _, List.getElem?_eq_getElem hi, rfl⟩

/-! ## Checksum arrays -/

/-- The bytes of all the checksum arrays of a list. -/
def checksumSum (ds : List RecordDescriptor) : Nat := (ds.map (4 * ·.checksum_count)).sum

theorem Walk.next_checksum_at (h : d.Lies header limits w.checksum_at) :
    (w.next d).checksum_at = w.checksum_at + 4 * d.checksum_count := by
  unfold Walk.next
  split
  · rename_i h0
    rw [(h.empty h0).2.2]
    rfl
  · rfl

/-- The cursor at a descriptor is behind the arrays of all the descriptors before it. -/
theorem Walk.Over.lies_at (h : Walk.Over header limits w ds) (hd : ds[i]? = some d) :
    d.Lies header limits (w.checksum_at + checksumSum (ds.take i)) := by
  induction ds generalizing w i with
  | nil => simp at hd
  | cons _ _ ih =>
    cases i with
    | zero => cases hd; exact h.1
    | succ =>
      have := ih h.2 hd
      rw [Walk.next_checksum_at h.1] at this
      simpa [checksumSum, Nat.add_assoc] using this

theorem Walk.Over.checksum_end (h : Walk.Over header limits w ds) :
    (ds.foldl Walk.next w).checksum_at = w.checksum_at + checksumSum ds := by
  induction ds generalizing w with
  | nil => rfl
  | cons _ _ ih =>
    rw [foldl_cons, ih h.2, Walk.next_checksum_at h.1]
    simp [checksumSum, Nat.add_assoc]

/-- A checksum array stands at the cursor, also when it is empty. -/
theorem RecordDescriptor.Lies.slice_eq {at_ : Nat} (h : d.Lies header limits at_) (bytes : Bytes) :
    slice bytes d.checksum_offset (d.checksum_offset + d.checksum_count * 4) =
      slice bytes at_ (at_ + 4 * d.checksum_count) := by
  by_cases h0 : d.value_len = 0
  · obtain ⟨-, h1, h2⟩ := h.empty h0
    rw [h1, h2]
    simp [slice]
  · rw [h.cursor h0, Nat.mul_comm]

/-- The arrays, one after the other, are the bytes between the first cursor and the last. -/
theorem Walk.Over.arrays_eq (h : Walk.Over header limits w ds) (bytes : Bytes) :
    ds.flatMap (fun d => slice bytes d.checksum_offset (d.checksum_offset + d.checksum_count * 4)) =
      slice bytes w.checksum_at (w.checksum_at + checksumSum ds) := by
  induction ds generalizing w with
  | nil => simp [checksumSum, slice_empty]
  | cons _ _ ih =>
    rw [flatMap_cons, h.1.slice_eq, ih h.2, Walk.next_checksum_at h.1,
      slice_append_slice _ (by omega) (by omega)]
    simp [checksumSum, Nat.add_assoc]

/-! ## Value ranges -/

/-- The nonempty value ranges of a frame, in directory order. -/
def Metadata.valueRanges (m : Metadata) : List (Nat × Nat) :=
  (m.records.filter (fun r => r.descriptor.value_len != 0)).map
    (fun r => (r.descriptor.value_offset, r.descriptor.value_len))

def rangesOf (ds : List RecordDescriptor) : List (Nat × Nat) :=
  (ds.filter (·.value_len != 0)).map (fun d => (d.value_offset, d.value_len))

theorem rangesOf_cons (d : RecordDescriptor) (ds : List RecordDescriptor) :
    rangesOf (d :: ds) =
      if d.value_len = 0 then rangesOf ds else (d.value_offset, d.value_len) :: rangesOf ds := by
  unfold rangesOf
  by_cases h : d.value_len = 0
  · simp [h]
  · simp [h]

theorem rangesOf_pos (ds : List RecordDescriptor) : ∀ r ∈ rangesOf ds, 0 < r.2 := by
  intro r hr
  unfold rangesOf at hr
  obtain ⟨d, hd, rfl⟩ := mem_map.mp hr
  have := (mem_filter.mp hd).2
  simp only [bne_iff_ne, ne_eq] at this
  exact Nat.pos_of_ne_zero this

theorem Metadata.Directory.valueRanges_eq (h : m.Directory limits ds) :
    m.valueRanges = rangesOf ds := by
  have hds : (ds.mapIdx m.recordOf).map (·.descriptor) = ds := by
    rw [m.map_recordOf ds _ id (fun _ _ => rfl), map_id]
  unfold Metadata.valueRanges rangesOf
  rw [h.records_eq]
  conv_rhs => rw [← hds, filter_map, map_map]
  rfl

/-- A walk that ends ordered went through a chain of ranges. -/
theorem Walk.ordered_chained (h : (ds.foldl Walk.next w).ordered = true) :
    w.ordered = true ∧ Chained ((w.previous_end, 0) :: rangesOf ds) := by
  induction ds generalizing w with
  | nil => exact ⟨h, trivial⟩
  | cons d ds ih =>
    rw [foldl_cons] at h
    obtain ⟨h1, h2⟩ := ih h
    rw [rangesOf_cons]
    unfold Walk.next at h1 h2
    split
    · rename_i h0
      rw [if_pos h0] at h1 h2
      exact ⟨h1, h2⟩
    · rename_i h0
      rw [if_neg h0] at h1 h2
      simp only [Bool.and_eq_true, decide_eq_true_eq] at h1
      refine ⟨h1.1, h1.2, ?_⟩
      -- Only the end of the range before matters for the chain.
      cases hr : rangesOf ds with
      | nil => trivial
      | cons =>
        rw [hr] at h2
        exact h2

theorem overlapping_iff (l : List (Nat × Nat)) : overlapping l = false ↔ Chained l := by
  induction l with
  | nil => simp [overlapping, Chained]
  | cons a l ih =>
    cases l with
    | nil => simp [overlapping, Chained]
    | cons b l =>
      have hstep : overlapping (a :: b :: l) =
          (decide (a.1 + a.2 > b.1) || overlapping (b :: l)) := rfl
      rw [hstep, Bool.or_eq_false_iff, ih]
      simp [Chained]

/-- Both paths of the overlap test together decide whether the values are apart. -/
theorem Metadata.Directory.overlaps_iff (h : m.Directory limits ds) :
    m.overlaps ds = false ↔ m.valueRanges.Pairwise (fun a b => ¬ Meets a b) := by
  have hpos : ∀ r ∈ m.valueRanges, 0 < r.2 := by
    rw [h.valueRanges_eq]
    exact rangesOf_pos ds
  unfold Metadata.overlaps
  cases ho : (ds.foldl Walk.next (Walk.start m.header)).ordered with
  | true =>
    -- In placement order: the walk has seen every range end before the next one starts.
    have hchain := (Walk.ordered_chained ho).2
    rw [← h.valueRanges_eq] at hchain
    have hapart := hchain.apart
    rw [pairwise_cons] at hapart
    simp [hapart.2]
  | false =>
    have hperm : m.sorted_ranges.Perm m.valueRanges := mergeSort_perm _ _
    have hsorted : m.sorted_ranges.Pairwise (fun a b => a.1 ≤ b.1) := by
      have htrans : ∀ a b c : Nat × Nat, decide (a.1 ≤ b.1) = true → decide (b.1 ≤ c.1) = true →
          decide (a.1 ≤ c.1) = true := by
        intro a b c hab hbc
        simp only [decide_eq_true_eq] at *
        omega
      have htotal : ∀ a b : Nat × Nat, (decide (a.1 ≤ b.1) || decide (b.1 ≤ a.1)) = true := by
        intro a b
        simp only [Bool.or_eq_true, decide_eq_true_eq]
        omega
      have := pairwise_mergeSort htrans htotal m.valueRanges
      simp only [decide_eq_true_eq] at this
      exact this
    simp only [Bool.not_false, Bool.true_and]
    rw [overlapping_iff, chained_iff (fun r hr => hpos r (hperm.mem_iff.mp hr)) hsorted,
      apart_perm hperm]

/-! ## What acceptance promises -/

/-- The geometry that every accepted frame has. -/
structure Metadata.Sound (m : Metadata) (limits : FrameLimits) (position : FramePosition) :
    Prop where
  /-- Every ordinal below the count has its record. -/
  count : m.records.length = m.header.record_count
  value_le : ∀ r ∈ m.records, r.descriptor.value_len ≤ limits.max_value_len
  aligned : ∀ r ∈ m.records, r.descriptor.value_len ≠ 0 → r.descriptor.value_offset % 8 = 0
  behind : ∀ r ∈ m.records, r.descriptor.value_len ≠ 0 →
    m.header.metadata_len ≤ r.descriptor.value_offset
  inside : ∀ r ∈ m.records, r.descriptor.value_len ≠ 0 →
    r.descriptor.value_offset + r.descriptor.value_len ≤ m.header.frame_len
  apart : m.valueRanges.Pairwise (fun a b => ¬ Meets a b)
  /-- Each array starts where the arrays of the records before it end. -/
  arrays : ∀ i r, m.records[i]? = some r → r.checksums =
    slice m.bytes
      (HEADER_LEN + m.header.record_count * DESCRIPTOR_LEN +
        ((m.records.take i).map (·.checksums.length)).sum)
      (HEADER_LEN + m.header.record_count * DESCRIPTOR_LEN +
        ((m.records.take (i + 1)).map (·.checksums.length)).sum)
  array_len : ∀ r ∈ m.records, r.checksums.length = 4 * r.descriptor.checksum_count
  array_count : ∀ r ∈ m.records, r.descriptor.checksum_count = block_count r.descriptor.value_len
  /-- All arrays together are the whole checksum area. -/
  tiles : m.records.flatMap (·.checksums) =
    m.bytes.drop (HEADER_LEN + m.header.record_count * DESCRIPTOR_LEN)
  room : m.header.frame_len ≤ position.available

/-- Arrays that tile an area: each one is cut out by the lengths of those before it. -/
theorem slice_of_flatMap {rs : List Record} {area : Bytes} (h : rs.flatMap (·.checksums) = area)
    (hr : rs[i]? = some r) :
    r.checksums = slice area ((rs.take i).map (·.checksums.length)).sum
      ((rs.take (i + 1)).map (·.checksums.length)).sum := by
  induction rs generalizing area i with
  | nil => simp at hr
  | cons _ _ ih =>
    subst h
    cases i with
    | zero =>
      cases hr
      simp [slice]
    | succ =>
      have := ih rfl hr
      rw [take_succ_cons, take_succ_cons, map_cons, map_cons, sum_cons,
        sum_cons, flatMap_cons, slice_append_right _ _ (by omega)]
      simpa using this

theorem Metadata.Checked.array_len (h : m.Checked limits ds) (hr : r ∈ m.records) :
    r.checksums.length = 4 * r.descriptor.checksum_count := by
  obtain ⟨i, d, hd, rfl⟩ := h.directory.mem_records hr
  have hl := h.directory.lies.lies_at hd
  unfold Metadata.recordOf
  simp only
  by_cases h0 : d.value_len = 0
  · obtain ⟨-, h1, h2⟩ := hl.empty h0
    simp [h1, h2, slice]
  · have hle := hl.checksums_le h0
    rw [hl.slice_eq, slice_length_of_le (by rw [h.length]; exact hle)]
    omega

theorem Metadata.Checked.tiles (h : m.Checked limits ds) :
    m.records.flatMap (·.checksums) =
      m.bytes.drop (HEADER_LEN + m.header.record_count * DESCRIPTOR_LEN) := by
  have hend := h.directory.lies.checksum_end
  rw [h.complete] at hend
  rw [h.directory.records_eq, flatMap_def, m.map_recordOf ds _
    (fun d => slice m.bytes d.checksum_offset (d.checksum_offset + d.checksum_count * 4))
    (fun _ _ => rfl), ← flatMap_def, h.directory.lies.arrays_eq, ← hend]
  exact slice_eq_drop (Nat.le_of_eq h.length)

/-- Metadata that passes every check has the whole geometry. -/
theorem Metadata.Checked.sound (h : m.Checked limits ds) (hover : m.overlaps ds = false) :
    m.Sound limits m.header.position where
  count := by rw [h.directory.records_eq, length_mapIdx, h.directory.length]
  value_le r hr := by
    obtain ⟨i, d, hd, rfl⟩ := h.directory.mem_records hr
    exact (h.directory.lies.lies_at hd).value_le
  aligned r hr := by
    obtain ⟨i, d, hd, rfl⟩ := h.directory.mem_records hr
    exact (h.directory.lies.lies_at hd).aligned
  behind r hr := by
    obtain ⟨i, d, hd, rfl⟩ := h.directory.mem_records hr
    exact (h.directory.lies.lies_at hd).behind
  inside r hr := by
    obtain ⟨i, d, hd, rfl⟩ := h.directory.mem_records hr
    exact (h.directory.lies.lies_at hd).inside
  apart := h.directory.overlaps_iff.mp hover
  arrays i r hr := by
    have := slice_of_flatMap h.tiles hr
    rwa [slice_drop, Nat.add_comm _ ((m.records.take i).map _).sum,
      Nat.add_comm _ ((m.records.take (i + 1)).map _).sum] at *
  array_len r hr := h.array_len hr
  array_count r hr := by
    obtain ⟨i, d, hd, rfl⟩ := h.directory.mem_records hr
    have hl := h.directory.lies.lies_at hd
    by_cases h0 : d.value_len = 0
    · rw [show (m.recordOf i d).descriptor = d from rfl, (hl.empty h0).2.2, h0]
      rfl
    · exact hl.count h0
  tiles := h.tiles
  room := (FrameHeader.decode_ok h.header).2.1.frame_room

end moat_engine.frame
