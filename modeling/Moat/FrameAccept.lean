-- What an accepted frame promises: its header fits, its descriptors keep the
-- geometry of the format, and the same bytes are accepted again wherever they lie.
import Moat.FrameDecode

namespace moat_engine.frame

open byte_list moat_common moat_engine.codec List

/-! ## Headers -/

variable {buf : Bytes} {limits : FrameLimits} {p : FramePosition} {w : Walk} {m : Metadata}

/-- The same 64 bytes decode again at any position of the same allocation and offset that
still has room for the frame. -/
theorem FrameHeader.decode_again {bytes : Bytes} {q : FramePosition}
    {h : FrameHeader} (hd : FrameHeader.decode bytes limits p = .ok h)
    (hb : buf.take 64 = bytes.take 64) (hs : q.segment_seq = p.segment_seq)
    (ho : q.offset = p.offset) (hr : h.frame_len ≤ q.available) :
    FrameHeader.decode buf limits q = .ok { h with position := q } := by
  have hlen := congrArg List.length hb
  have hbytes : 64 ≤ bytes.length := (decode_ok hd).2.2
  simp only [length_take] at hlen
  have hslice : slice buf 0 HEADER_LEN = slice bytes 0 HEADER_LEN := by
    rw [slice_zero, slice_zero]; exact hb
  unfold FrameHeader.decode at hd ⊢
  simp only [ite_error_eq_ok, hs, ho, hslice] at hd ⊢
  obtain ⟨-, h1, h2, h3, h4, h5, h6, h7, h8, ⟨⟩⟩ := hd
  refine ⟨by simp only [HEADER_LEN]; omega, h1, h2, h3, h4, h5, ?_, h7, h8, rfl⟩
  rintro (h | h | h | h)
  · exact h6 (.inl h)
  · exact h6 (.inr (.inl h))
  · exact h6 (.inr (.inr (.inl h)))
  · exact absurd h (by simp only [gt_iff_lt, not_lt]; exact hr)

/-! ## Descriptors -/

/-- The geometry of one descriptor, with the checksum cursor at `checksum_at`. -/
structure RecordDescriptor.Lies (d : RecordDescriptor) (header : FrameHeader)
    (limits : FrameLimits) (checksum_at : Nat) : Prop where
  value_le : d.value_len ≤ limits.max_value_len
  tombstone : d.kind = .Tombstone → d.value_len = 0
  empty : d.value_len = 0 → d.value_offset = 0 ∧ d.checksum_offset = 0 ∧ d.checksum_count = 0
  count : d.value_len ≠ 0 → d.checksum_count = block_count d.value_len
  cursor : d.value_len ≠ 0 → d.checksum_offset = checksum_at
  checksums_le : d.value_len ≠ 0 → checksum_at + 4 * d.checksum_count ≤ header.metadata_len
  behind : d.value_len ≠ 0 → header.metadata_len ≤ d.value_offset
  aligned : d.value_len ≠ 0 → d.value_offset % 8 = 0
  inside : d.value_len ≠ 0 → d.value_offset + d.value_len ≤ header.frame_len

/-- The cursors after a descriptor. -/
def Walk.next (w : Walk) (d : RecordDescriptor) : Walk :=
  if d.value_len = 0 then w
  else
    ⟨w.checksum_at + 4 * d.checksum_count, d.value_offset + d.value_len,
      w.ordered && decide (w.previous_end ≤ d.value_offset)⟩

/-- A descriptor passes its checks exactly when it lies well. -/
theorem Walk.step_iff {w' : Walk} {header : FrameHeader} {d : RecordDescriptor} :
    w.step header limits d = .ok w' ↔ d.Lies header limits w.checksum_at ∧ w' = w.next d := by
  constructor
  · intro h
    unfold Walk.step at h
    split at h
    · cases h
    rename_i h1
    split at h
    · cases h
    rename_i h2
    have hvalue : d.value_len ≤ limits.max_value_len := Nat.le_of_not_lt h1
    have htomb : d.kind = .Tombstone → d.value_len = 0 := fun hk =>
      not_not.mp (fun hv => h2 ⟨hk, hv⟩)
    split at h
    · rename_i h0
      split at h
      · cases h
      rename_i h3
      cases h
      simp only [not_or, not_not] at h3
      refine ⟨⟨hvalue, htomb, fun _ => h3, ?_, ?_, ?_, ?_, ?_, ?_⟩, (if_pos h0).symm⟩
      all_goals exact fun hne => absurd h0 hne
    rename_i h0
    split at h
    · cases h
    rename_i h3
    split at h
    · cases h
    rename_i h4
    split at h
    · cases h
    rename_i h5
    cases h
    simp only [not_or, not_not] at h3 h5
    refine ⟨⟨hvalue, htomb, fun he => absurd he h0, fun _ => h3.1, fun _ => h3.2,
      fun _ => Nat.le_of_not_lt h4, fun _ => Nat.le_of_not_lt h5.1,
      fun _ => (is_aligned_eight _).mp h5.2.1, fun _ => Nat.le_of_not_lt h5.2.2⟩, (if_neg h0).symm⟩
  · rintro ⟨hd, rfl⟩
    by_cases h0 : d.value_len = 0
    · obtain ⟨h1, h2, h3⟩ := hd.empty h0
      rw [Walk.step_empty h0 h1 h2 h3, Walk.next, if_pos h0]
    · rw [Walk.step_value (by omega) hd.value_le (fun hk => h0 (hd.tombstone hk)) (hd.count h0)
        (hd.cursor h0) (hd.checksums_le h0) (hd.behind h0) (hd.aligned h0) (hd.inside h0),
        Walk.next, if_neg h0]

/-- Every descriptor of a list lies well, from the cursors in `w` on. -/
def Walk.Over (header : FrameHeader) (limits : FrameLimits) : Walk → List RecordDescriptor → Prop
  | _, [] => True
  | w, d :: ds => d.Lies header limits w.checksum_at ∧ Walk.Over header limits (w.next d) ds

/-- The walk of the directory, as one pass over the descriptors that it reads. -/
theorem Metadata.walk_iff {n k : Nat} {w' : Walk} :
    m.walk limits n k w = .ok w' ↔
      ∃ ds : List RecordDescriptor, ds.length = n ∧
        (∀ i d, ds[i]? = some d → m.decode_descriptor (k + i) = .ok d) ∧
        Walk.Over m.header limits w ds ∧ w' = ds.foldl Walk.next w := by
  induction n generalizing k w with
  | zero =>
    constructor
    · intro h
      cases h
      exact ⟨[], rfl, by simp, trivial, rfl⟩
    · rintro ⟨ds, hl, -, -, rfl⟩
      rw [length_eq_zero_iff] at hl
      subst hl
      rfl
  | succ n ih =>
    unfold Metadata.walk
    constructor
    · intro h
      cases hd : m.decode_descriptor k with
      | error => rw [hd] at h; cases h
      | ok d =>
        rw [hd] at h
        simp only at h
        cases hs : w.step m.header limits d with
        | error => rw [hs] at h; cases h
        | ok =>
          rw [hs] at h
          obtain ⟨hlies, rfl⟩ := Walk.step_iff.mp hs
          obtain ⟨ds, hl, hds, hover, rfl⟩ := ih.mp h
          refine ⟨d :: ds, by simp [hl], ?_, ⟨hlies, hover⟩, rfl⟩
          intro i e hi
          cases i with
          | zero => cases hi; exact hd
          | succ i =>
            rw [show k + (i + 1) = k + 1 + i by omega]
            exact hds i e hi
    · rintro ⟨ds, hl, hds, hover, rfl⟩
      cases ds with
      | nil => simp at hl
      | cons d ds =>
        rw [show m.decode_descriptor k = .ok d from hds 0 d rfl]
        simp only
        rw [Walk.step_iff.mpr ⟨hover.1, rfl⟩]
        refine ih.mpr ⟨ds, by simpa using hl, ?_, hover.2, rfl⟩
        intro i e hi
        rw [show k + 1 + i = k + (i + 1) by omega]
        exact hds (i + 1) e hi

/-- Where the walk starts: the checksum area, and the end of the metadata. -/
def Walk.start (header : FrameHeader) : Walk :=
  ⟨HEADER_LEN + header.record_count * DESCRIPTOR_LEN, header.metadata_len, true⟩

/-! ## Accepted metadata -/

/-- The directory of a frame: the descriptors that the walk reads, all of them in place. -/
structure Metadata.Directory (m : Metadata) (limits : FrameLimits) (ds : List RecordDescriptor) :
    Prop where
  length : ds.length = m.header.record_count
  decodes : ∀ i d, ds[i]? = some d → m.decode_descriptor i = .ok d
  lies : Walk.Over m.header limits (Walk.start m.header) ds

/-- All that `decode` checks before the overlap test. -/
structure Metadata.Checked (m : Metadata) (limits : FrameLimits) (ds : List RecordDescriptor) :
    Prop where
  header : FrameHeader.decode m.bytes limits m.header.position = .ok m.header
  length : m.bytes.length = m.header.metadata_len
  crc : crc32c (m.bytes.drop HEADER_LEN) = m.header.metadata_crc
  directory : m.Directory limits ds
  complete : (ds.foldl Walk.next (Walk.start m.header)).checksum_at = m.header.metadata_len

/-- The answer of the overlap test. -/
def Metadata.overlaps (m : Metadata) (ds : List RecordDescriptor) : Bool :=
  !(ds.foldl Walk.next (Walk.start m.header)).ordered && overlapping m.sorted_ranges

theorem FrameHeader.metadata_len_ge (h : FrameHeader) : 64 ≤ h.metadata_len := by
  unfold FrameHeader.metadata_len HEADER_LEN; omega

/-- Metadata that passed every other check is turned down for an overlap, or accepted. -/
theorem Metadata.Checked.decode_eq {ds : List RecordDescriptor} (h : m.Checked limits ds)
    (hb : buf.take m.header.metadata_len = m.bytes) :
    Metadata.decode buf limits m.header.position =
      if m.overlaps ds = true then .error (.Corrupt "overlapping values") else .ok m := by
  have hl := congrArg List.length hb
  rw [length_take, h.length] at hl
  have h64 := m.header.metadata_len_ge
  have hhead : FrameHeader.decode buf limits m.header.position = .ok m.header :=
    FrameHeader.decode_again h.header
      (by rw [← hb, take_take, Nat.min_eq_left h64]) rfl rfl
      (FrameHeader.decode_ok h.header).2.1.frame_room
  have hwalk : m.walk limits m.header.record_count 0 (Walk.start m.header) =
      .ok (ds.foldl Walk.next (Walk.start m.header)) :=
    Metadata.walk_iff.mpr ⟨ds, h.directory.length,
      fun i d hi => by rw [Nat.zero_add]; exact h.directory.decodes i d hi, h.directory.lies, rfl⟩
  unfold Metadata.decode
  rw [hhead]
  simp only [hb]
  rw [if_neg (by omega), if_neg (not_not.mpr h.crc)]
  unfold Walk.start at hwalk
  rw [show (⟨m.bytes, m.header⟩ : Metadata) = m from rfl, hwalk]
  simp only
  have hc := h.complete
  unfold Walk.start at hc
  rw [if_neg (not_not.mpr hc)]
  simp [Metadata.overlaps, Walk.start]

/-- Accepted metadata passed every check. -/
theorem Metadata.decode_ok (hd : Metadata.decode buf limits p = .ok m) :
    m.header.position = p ∧ buf.take m.header.metadata_len = m.bytes ∧
      ∃ ds, m.Checked limits ds ∧ m.overlaps ds = false := by
  unfold Metadata.decode at hd
  cases hh : FrameHeader.decode buf limits p with
  | error => rw [hh] at hd; cases hd
  | ok header =>
    rw [hh] at hd
    simp only at hd
    split at hd
    · cases hd
    rename_i h1
    split at hd
    · cases hd
    rename_i h2
    split at hd
    · cases hd
    rename_i w hw
    split at hd
    · cases hd
    rename_i h3
    split at hd
    · cases hd
    rename_i h4
    cases hd
    obtain ⟨hp, hfits, -⟩ := FrameHeader.decode_ok hh
    obtain ⟨ds, hl, hds, hover, rfl⟩ := Metadata.walk_iff.mp hw
    have h64 := header.metadata_len_ge
    refine ⟨hp, rfl, ds, ⟨?_, ?_, not_not.mp h2, ⟨hl, fun i d hi => ?_, hover⟩, not_not.mp h3⟩, ?_⟩
    · have htake : (buf.take header.metadata_len).take 64 = buf.take 64 := by
        rw [take_take, Nat.min_eq_left h64]
      have := FrameHeader.decode_again hh htake rfl rfl (hp ▸ hfits.frame_room)
      rw [show header.position = p from hp, this, ← hp]
    · simp only [length_take]; omega
    · have := hds i d hi
      rwa [Nat.zero_add] at this
    · unfold Metadata.overlaps Walk.start
      simp only at h4 ⊢
      rcases Bool.eq_false_or_eq_true (ds.foldl Walk.next
        ⟨HEADER_LEN + header.record_count * DESCRIPTOR_LEN, header.metadata_len, true⟩).ordered
        with ho | ho
      · simp [ho]
      · rw [ho] at h4 ⊢
        simpa using h4

/-- The metadata of some buffer that passed `decode` under `limits`. -/
def Metadata.Accepted (m : Metadata) (limits : FrameLimits) : Prop :=
  ∃ buf p, Metadata.decode buf limits p = .ok m

/-- The same metadata, seen from a position with another room behind it. -/
def Metadata.moved (m : Metadata) (p : FramePosition) : Metadata :=
  ⟨m.bytes, { m.header with position := p }⟩

theorem Walk.over_moved {ds : List RecordDescriptor} (h : Walk.Over m.header limits w ds) :
    Walk.Over (m.moved p).header limits w ds := by
  induction ds generalizing w with
  | nil => trivial
  | cons _ _ ih =>
    obtain ⟨hd, hds⟩ := h
    exact ⟨⟨hd.value_le, hd.tombstone, hd.empty, hd.count, hd.cursor, hd.checksums_le, hd.behind,
      hd.aligned, hd.inside⟩, ih hds⟩

/-- Accepted bytes are accepted again, in any buffer that starts with them and at any position
of the same allocation and offset that has room for the frame. -/
theorem Metadata.Accepted.decode_again (h : m.Accepted limits)
    (hb : buf.take m.header.metadata_len = m.bytes) {q : FramePosition}
    (hs : q.segment_seq = m.header.position.segment_seq) (ho : q.offset = m.header.position.offset)
    (hr : m.header.frame_len ≤ q.available) : Metadata.decode buf limits q = .ok (m.moved q) := by
  obtain ⟨old, p, hd⟩ := h
  obtain ⟨-, -, ds, hc, hover⟩ := Metadata.decode_ok hd
  have hmoved : (m.moved q).Checked limits ds :=
    ⟨FrameHeader.decode_again hc.header rfl hs ho hr, hc.length, hc.crc,
      ⟨hc.directory.length, hc.directory.decodes, Walk.over_moved hc.directory.lies⟩, hc.complete⟩
  have := hmoved.decode_eq hb
  rw [show (m.moved q).header.position = q from rfl] at this
  rw [this, if_neg]
  rw [show (m.moved q).overlaps ds = m.overlaps ds from rfl, hover]
  simp

end moat_engine.frame
