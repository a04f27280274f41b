-- The frame decoder with every slice, cast and sum that can panic in the Rust
-- code. Each function gives the value of its plain model, and never panics.
import Moat.Checked
import Moat.FrameGeometry

namespace moat_engine.frame

open byte_list moat_common moat_engine.codec checked interval List Option

/-! ## Fields -/

def u32_at? (bytes : Bytes) (at_ : Nat) : Option Nat := do
  let stop ← fits? 64 (at_ + 4)
  let field ← slice? bytes at_ stop
  let field ← array? field 4
  return leNat field

def u64_at? (bytes : Bytes) (at_ : Nat) : Option Nat := do
  let stop ← fits? 64 (at_ + 8)
  let field ← slice? bytes at_ stop
  let field ← array? field 8
  return leNat field

def crc_with_zeroed_checksum? (bytes : Bytes) : Option Nat := do
  let front ← slice? bytes 0 12
  let back ← slice? bytes 16 bytes.length
  return (((Crc32c.new.update front).update (zeros 4)).update back).finalize

variable {bytes : Bytes} {limits : FrameLimits} {m : Metadata} {ds : List RecordDescriptor}
  {r : Record}

theorem u32_at?_eq {at_ : Nat} (h : at_ + 4 ≤ bytes.length)
    (hw : at_ + 4 < 2 ^ 64) : u32_at? bytes at_ = some (u32_at bytes at_) := by
  unfold u32_at? u32_at
  rw [fits?_bind hw, slice?_bind (by omega) h, array?_eq (by rw [slice_length_of_le h]; omega)]
  rfl

theorem u64_at?_eq {at_ : Nat} (h : at_ + 8 ≤ bytes.length)
    (hw : at_ + 8 < 2 ^ 64) : u64_at? bytes at_ = some (u64_at bytes at_) := by
  unfold u64_at? u64_at
  rw [fits?_bind hw, slice?_bind (by omega) h, array?_eq (by rw [slice_length_of_le h]; omega)]
  rfl

theorem crc_with_zeroed_checksum?_eq (h : 16 ≤ bytes.length) :
    crc_with_zeroed_checksum? bytes = some (crc_with_zeroed_checksum bytes) := by
  unfold crc_with_zeroed_checksum? crc_with_zeroed_checksum
  rw [slice?_bind (by omega) (by omega), slice?_bind h (Nat.le_refl _),
    slice_eq_drop (Nat.le_refl _)]
  rfl

/-! ## The header and the descriptors -/

def FrameHeader.decode? (bytes : Bytes) (limits : FrameLimits) (position : FramePosition) :
    Option (Except Error FrameHeader) :=
  if bytes.length < HEADER_LEN then some (.error (.Truncated HEADER_LEN bytes.length))
  else do
    let bytes := slice bytes 0 HEADER_LEN
    let magic ← slice? bytes 0 8
    if magic ≠ MAGIC then return .error (.Corrupt "frame magic")
    let stored ← u32_at? bytes 12
    let whole ← slice? bytes 0 HEADER_LEN
    let computed ← crc_with_zeroed_checksum? whole
    if stored ≠ computed then return .error (.Corrupt "header checksum")
    let version ← u32_at? bytes 8
    if version ≠ FORMAT_VERSION then return .error (.UnsupportedVersion version)
    let reserved ← slice? bytes 48 bytes.length
    if ¬ allZero reserved = true then return .error (.Corrupt "reserved header bytes")
    let segment_seq ← u64_at? bytes 16
    let offset ← u32_at? bytes 24
    if segment_seq ≠ position.segment_seq ∨ offset ≠ position.offset then
      return .error (.Corrupt "frame position or segment incarnation")
    let frame_len ← u32_at? bytes 28
    let record_count ← u32_at? bytes 32
    let directory_len ← u32_at? bytes 36
    let checksum_len ← u32_at? bytes 40
    if frame_len = 0 ∨ ¬ is_aligned frame_len PAGE_SIZE = true ∨
        frame_len > limits.max_frame_len ∨ frame_len > position.available then
      return .error (.Corrupt "frame length")
    let entries ← fits? 64 (record_count * DESCRIPTOR_LEN)
    if record_count = 0 ∨ entries ≠ directory_len then
      return .error (.Corrupt "directory length or record count")
    let metadata_len ← fits? 64 (HEADER_LEN + directory_len)
    let metadata_len ← fits? 64 (metadata_len + checksum_len)
    if ¬ checksum_len % 4 = 0 ∨ metadata_len > frame_len then
      return .error (.Corrupt "metadata length")
    let metadata_crc ← u32_at? bytes 44
    return .ok ⟨position, frame_len, record_count, checksum_len, metadata_crc⟩

theorem FrameHeader.decode?_eq (bytes : Bytes) (limits : FrameLimits) (position : FramePosition) :
    FrameHeader.decode? bytes limits position = some
      (FrameHeader.decode bytes limits position) := by
  unfold FrameHeader.decode? FrameHeader.decode
  split
  · rfl
  rename_i hlen
  have hl : (slice bytes 0 HEADER_LEN).length = 64 := by
    rw [slice_length]; simp only [HEADER_LEN] at *; omega
  generalize slice bytes 0 HEADER_LEN = head at hl
  have h1 : slice? head 0 8 = some (slice head 0 8) := slice?_eq (by omega) (by omega)
  have h2 : slice? head 0 HEADER_LEN = some head := by
    rw [slice?_eq (by omega) (by simp only [HEADER_LEN]; omega)]
    rw [show HEADER_LEN = head.length from hl.symm, slice_self_length]
  have h3 : crc_with_zeroed_checksum? head = some (crc_with_zeroed_checksum head) :=
    crc_with_zeroed_checksum?_eq (by omega)
  have h4 : slice? head 48 head.length = some (head.drop 48) := by
    rw [slice?_eq (by omega) (Nat.le_refl _), slice_eq_drop (Nat.le_refl _)]
  have hu : ∀ at_, at_ ≤ 60 → u32_at? head at_ = some (u32_at head at_) := fun at_ h =>
    u32_at?_eq (by omega) (by omega)
  have hu8 : u64_at? head 16 = some (u64_at head 16) := u64_at?_eq (by omega) (by omega)
  have b1 := u32_at_lt head 32
  have b2 := u32_at_lt head 36
  have b3 := u32_at_lt head 40
  have e : ∀ n < 2 ^ 60, fits? 64 n = some n := fun n hn => fits?_eq (by omega)
  simp only [h1, h2, h3, h4, hu 12 (by omega), hu 8 (by omega), hu 24 (by omega), hu 28 (by omega),
    hu 32 (by omega), hu 36 (by omega), hu 40 (by omega), hu 44 (by omega), hu8,
    e (_ * DESCRIPTOR_LEN) (show u32_at head 32 * 64 < _ by omega),
    e (HEADER_LEN + _) (show 64 + u32_at head 36 < _ by omega),
    e (HEADER_LEN + _ + _) (show 64 + u32_at head 36 + u32_at head 40 < _ by omega), bind_eq_bind,
    bind_some]
  split_ifs
  all_goals rfl

def FrameHeader.metadata_len? (h : FrameHeader) : Option Nat := do
  let directory ← fits? 64 (h.record_count * DESCRIPTOR_LEN)
  let front ← fits? 64 (HEADER_LEN + directory)
  fits? 64 (front + h.checksum_len)

theorem FrameHeader.Fits.small {h : FrameHeader} (hf : h.Fits limits) :
    64 + h.record_count * 64 + h.checksum_len = h.metadata_len ∧ h.metadata_len < 2 ^ 32 := by
  have h1 := hf.metadata_le
  have h2 := hf.frame_le
  have h3 := limits.frame_u32
  exact ⟨rfl, by omega⟩

theorem FrameHeader.metadata_len?_eq {h : FrameHeader}
    (hf : h.Fits limits) : h.metadata_len? = some h.metadata_len := by
  obtain ⟨h1, h2⟩ := hf.small
  unfold FrameHeader.metadata_len? FrameHeader.metadata_len
  simp only [HEADER_LEN, DESCRIPTOR_LEN]
  rw [fits?_bind (by omega), fits?_bind (by omega)]
  exact fits?_eq (by omega)

def RecordDescriptor.decode? (bytes : Bytes) : Option (Except Error RecordDescriptor) :=
  let rest (kind : RecordKind) : Option (Except Error RecordDescriptor) := do
    let reserved ← slice? bytes 41 DESCRIPTOR_LEN
    if ¬ allZero reserved = true then
      return .error (.Corrupt "unsupported record flags or reserved bytes")
    let key ← slice? bytes 0 16
    let key ← array? key 16
    let lsn ← u64_at? bytes 16
    let value_offset ← u32_at? bytes 24
    let value_len ← u32_at? bytes 28
    let checksum_offset ← u32_at? bytes 32
    let checksum_count ← u32_at? bytes 36
    return .ok ⟨Id16.from_bytes key, UInt64.ofNat lsn, value_offset, value_len, checksum_offset,
      checksum_count, kind⟩
  match bytes[40]? with
  | none => none
  | some kind =>
    if kind = 1 then rest .Data
    else if kind = 2 then rest .Tombstone
    else some (.error (.Corrupt "record kind"))

theorem RecordDescriptor.decode?_eq (hl : bytes.length = 64) :
    RecordDescriptor.decode? bytes = some (RecordDescriptor.decode bytes) := by
  have h1 : slice? bytes 41 DESCRIPTOR_LEN = some (slice bytes 41 DESCRIPTOR_LEN) :=
    slice?_eq (by decide) (by simp only [DESCRIPTOR_LEN]; omega)
  have h2 : slice? bytes 0 16 = some (slice bytes 0 16) := slice?_eq (by omega) (by omega)
  have h3 : array? (slice bytes 0 16) 16 = some (slice bytes 0 16) :=
    array?_eq (slice_length_of_le (by omega))
  have hu : ∀ at_, at_ ≤ 60 → u32_at? bytes at_ = some (u32_at bytes at_) := fun at_ h =>
    u32_at?_eq (by omega) (by omega)
  have hu8 : u64_at? bytes 16 = some (u64_at bytes 16) := u64_at?_eq (by omega) (by omega)
  obtain ⟨k, hk⟩ : ∃ k, bytes[40]? = some k := ⟨bytes[40], List.getElem?_eq_getElem (by omega)⟩
  unfold RecordDescriptor.decode? RecordDescriptor.decode
  simp (disch := omega) only [h1, h2, h3, hu, hu8, hk, bind_eq_bind, bind_some, some_inj]
  split_ifs
  all_goals rfl

/-! ## The directory walk -/

def Metadata.decode_descriptor? (m : Metadata) (ordinal : Nat) :
    Option (Except Error RecordDescriptor) := do
  let skipped ← fits? 64 (ordinal * DESCRIPTOR_LEN)
  let at_ ← fits? 64 (HEADER_LEN + skipped)
  let stop ← fits? 64 (at_ + DESCRIPTOR_LEN)
  let entry ← slice? m.bytes at_ stop
  RecordDescriptor.decode? entry

/-- Metadata with a header that fits, and with all the bytes that the header asks for. -/
structure Metadata.Whole (m : Metadata) (limits : FrameLimits) : Prop where
  fits : m.header.Fits limits
  length : m.bytes.length = m.header.metadata_len

theorem Metadata.Whole.small (h : m.Whole limits) :
    64 + m.header.record_count * 64 ≤ m.bytes.length ∧ m.bytes.length < 2 ^ 32 := by
  have := h.fits.small
  rw [h.length]
  omega

theorem Metadata.Whole.decode_descriptor?_eq
    (h : m.Whole limits) {ordinal : Nat} (ho : ordinal < m.header.record_count) :
    m.decode_descriptor? ordinal = some (m.decode_descriptor ordinal) := by
  obtain ⟨h1, h2⟩ := h.small
  unfold Metadata.decode_descriptor? Metadata.decode_descriptor
  simp only [HEADER_LEN, DESCRIPTOR_LEN]
  rw [fits?_bind (by omega), fits?_bind (by omega), fits?_bind (by omega),
    slice?_bind (by omega) (by omega)]
  exact RecordDescriptor.decode?_eq (by rw [slice_length_of_le (by omega)]; omega)

/-- The checks on one descriptor. `value_count` counts the nonempty values, for the capacity of
the vector that the overlap check fills. -/
def Walk.step? (w : Walk) (value_count : Nat) (header : FrameHeader) (limits : FrameLimits)
    (d : RecordDescriptor) : Option (Except Error (Walk × Nat)) := do
  if d.value_len > limits.max_value_len then
    return .error (.Corrupt "value length exceeds format limit")
  if d.kind = .Tombstone ∧ d.value_len ≠ 0 then
    return .error (.Corrupt "tombstone has a value")
  if d.value_len = 0 then
    if d.value_offset ≠ 0 ∨ d.checksum_offset ≠ 0 ∨ d.checksum_count ≠ 0 then
      return .error (.Corrupt "nonzero empty-value geometry")
    return .ok (w, value_count)
  if d.checksum_count ≠ block_count d.value_len ∨ d.checksum_offset ≠ w.checksum_at then
    return .error (.Corrupt "checksum array geometry")
  let array ← fits? 64 (4 * d.checksum_count)
  let checksum_end ← fits? 64 (w.checksum_at + array)
  let metadata_len ← header.metadata_len?
  if checksum_end > metadata_len then
    return .error (.Corrupt "checksum array exceeds metadata")
  let end_ ← fits? 64 (d.value_offset + d.value_len)
  if d.value_offset < metadata_len ∨ ¬ is_aligned d.value_offset VALUE_ALIGN = true ∨
      end_ > header.frame_len then
    return .error (.Corrupt "value range or alignment")
  let value_count ← fits? 64 (value_count + 1)
  return .ok (⟨checksum_end, end_, w.ordered && decide (w.previous_end ≤ d.value_offset)⟩,
    value_count)

/-- The plain result of a step, with the counter after it. -/
def counted (value_count : Nat) (d : RecordDescriptor) (r : Except Error Walk) :
    Except Error (Walk × Nat) :=
  r.map (fun w => (w, if d.value_len = 0 then value_count else value_count + 1))

theorem Walk.step?_eq {w : Walk} {value_count : Nat} {header : FrameHeader}
    {d : RecordDescriptor} (hf : header.Fits limits) (hw : w.checksum_at ≤ header.metadata_len)
    (hc : value_count + 1 < 2 ^ 64) (hd : d.value_offset < 2 ^ 32 ∧ d.value_len < 2 ^ 32 ∧
      d.checksum_offset < 2 ^ 32 ∧ d.checksum_count < 2 ^ 32) :
    w.step? value_count header limits d =
      some (counted value_count d (w.step header limits d)) := by
  obtain ⟨d1, d2, -, d4⟩ := hd
  have h1 := hf.small.2
  have e1 : fits? 64 (4 * d.checksum_count) = some (4 * d.checksum_count) := fits?_eq (by omega)
  have e2 : fits? 64 (w.checksum_at + 4 * d.checksum_count) =
      some (w.checksum_at + 4 * d.checksum_count) := fits?_eq (by omega)
  have e3 : fits? 64 (d.value_offset + d.value_len) = some (d.value_offset + d.value_len) :=
    fits?_eq (by omega)
  have e4 : fits? 64 (value_count + 1) = some (value_count + 1) := fits?_eq hc
  unfold Walk.step? Walk.step counted
  simp only [e1, e2, e3, e4, FrameHeader.metadata_len?_eq hf, bind_eq_bind,
    bind_some]
  split_ifs
  all_goals rfl

def Metadata.walk? (m : Metadata) (limits : FrameLimits) :
    (remaining : Nat) → (ordinal : Nat) → Walk → Nat → Option (Except Error (Walk × Nat))
  | 0, _, w, value_count => some (.ok (w, value_count))
  | remaining + 1, ordinal, w, value_count =>
    match m.decode_descriptor? ordinal with
    | none => none
    | some (.error e) => some (.error e)
    | some (.ok d) =>
      match w.step? value_count m.header limits d with
      | none => none
      | some (.error e) => some (.error e)
      | some (.ok (w, value_count)) => m.walk? limits remaining (ordinal + 1) w value_count

/-- The walk gives its plain result. The cursor stays inside the metadata all along. -/
theorem Metadata.Whole.walk?_eq (h : m.Whole limits) {n k c : Nat} {w : Walk}
    (hk : k + n ≤ m.header.record_count) (hw : w.checksum_at ≤ m.header.metadata_len)
    (hc : c + n < 2 ^ 60) :
    ∃ c' < 2 ^ 60, m.walk? limits n k w c = some
      ((m.walk limits n k w).map (fun w => (w, c'))) := by
  induction n generalizing k w c with
  | zero => exact ⟨c, by omega, rfl⟩
  | succ n ih =>
    unfold Metadata.walk? Metadata.walk
    rw [h.decode_descriptor?_eq (by omega)]
    cases hd : m.decode_descriptor k with
    | error => exact ⟨0, by omega, rfl⟩
    | ok d =>
      have hu : d.value_offset < 2 ^ 32 ∧ d.value_len < 2 ^ 32 ∧ d.checksum_offset < 2 ^ 32 ∧
          d.checksum_count < 2 ^ 32 := RecordDescriptor.decode_ok_u32 hd
      simp only
      rw [Walk.step?_eq h.fits hw (by omega) hu]
      cases hs : w.step m.header limits d with
      | error => exact ⟨0, by omega, rfl⟩
      | ok =>
        obtain ⟨hlies, rfl⟩ := Walk.step_iff.mp hs
        have hv : (w.next d).checksum_at ≤ m.header.metadata_len := by
          rw [Walk.next_checksum_at hlies]
          by_cases h0 : d.value_len = 0
          · rw [(hlies.empty h0).2.2]; omega
          · exact hlies.checksums_le h0
        simp only [counted, Except.map]
        refine ih (by omega) hv ?_
        split <;> omega

/-! ## Records -/

/-- A record by its ordinal. A descriptor that does not decode is a failed `expect`. -/
def Metadata.record? (m : Metadata) (ordinal : Nat) : Option (Option Record) :=
  if ordinal ≥ m.header.record_count then some none
  else
    match m.decode_descriptor? ordinal with
    | some (.ok d) => do
      let len ← fits? 64 (d.checksum_count * 4)
      let stop ← fits? 64 (d.checksum_offset + len)
      let checksums ← slice? m.bytes d.checksum_offset stop
      return some ⟨d, ordinal, checksums⟩
    | _ => none

def Metadata.records? (m : Metadata) : Option (List Record) :=
  (List.range m.header.record_count).mapM (fun ordinal => (m.record? ordinal).join)

theorem Metadata.Directory.record?_eq (h : m.Directory limits ds) (hw : m.Whole limits)
    (ordinal : Nat) : m.record? ordinal = some (m.record ordinal) := by
  by_cases ho : ordinal < m.header.record_count
  · obtain ⟨d, hd⟩ : ∃ d, ds[ordinal]? = some d :=
      ⟨_, List.getElem?_eq_getElem (by rw [h.length]; exact ho)⟩
    have hl := h.lies.lies_at hd
    have hu := RecordDescriptor.decode_ok_u32 (h.decodes ordinal d hd)
    have hstop : d.checksum_offset + d.checksum_count * 4 ≤ m.bytes.length := by
      by_cases h0 : d.value_len = 0
      · obtain ⟨-, h1, h2⟩ := hl.empty h0
        rw [h1, h2]; omega
      · have := hl.checksums_le h0
        rw [hw.length, hl.cursor h0]
        omega
    rw [h.record_eq hd]
    unfold Metadata.record?
    rw [if_neg (by omega), hw.decode_descriptor?_eq ho, h.decodes ordinal d hd]
    simp only
    rw [fits?_bind (by omega), fits?_bind (by omega), slice?_eq (by omega) hstop]
    rfl
  · unfold Metadata.record? Metadata.record
    rw [if_pos (by omega), if_pos (by omega)]

theorem Metadata.Directory.records?_eq (h : m.Directory limits ds) (hw : m.Whole limits) :
    m.records? = some m.records := by
  unfold Metadata.records?
  rw [h.records_eq, show m.header.record_count = (ds.mapIdx m.recordOf).length by simp [h.length]]
  apply mapM_range_eq
  intro i hi
  rw [length_mapIdx] at hi
  rw [h.record?_eq hw, h.record_eq (List.getElem?_eq_getElem hi), List.getElem?_mapIdx,
    List.getElem?_eq_getElem hi]
  rfl

/-- `windows(2).any(..)` over the sorted ranges. -/
def overlapping? : List (Nat × Nat) → Option Bool
  | a :: b :: rest => do
    let end_ ← fits? 64 (a.1 + a.2)
    if end_ > b.1 then return true
    overlapping? (b :: rest)
  | _ => some false

theorem overlapping?_eq {l : List (Nat × Nat)} (h : ∀ r ∈ l, r.1 + r.2 < 2 ^ 64) :
    overlapping? l = some (overlapping l) := by
  induction l with
  | nil => rfl
  | cons a l ih =>
    cases l with
    | nil => rfl
    | cons b l =>
      have hstep : overlapping (a :: b :: l) =
          (decide (a.1 + a.2 > b.1) || overlapping (b :: l)) := rfl
      unfold overlapping?
      rw [fits?_bind (h a (by simp)), hstep, ih (fun r hr => h r (mem_cons_of_mem _ hr))]
      split
      · rename_i hlt
        simp [hlt]
      · rename_i hlt
        simp [hlt]

/-! ## Whole metadata -/

def Metadata.decode? (bytes : Bytes) (limits : FrameLimits) (position : FramePosition) :
    Option (Except Error Metadata) :=
  match FrameHeader.decode? bytes limits position with
  | none => none
  | some (.error e) => some (.error e)
  | some (.ok header) => do
    let metadata_len ← header.metadata_len?
    if bytes.length < metadata_len then return .error (.Truncated metadata_len bytes.length)
    let bytes := bytes.take metadata_len
    let body ← slice? bytes HEADER_LEN bytes.length
    if crc32c body ≠ header.metadata_crc then return .error (.Corrupt "metadata checksum")
    let metadata : Metadata := ⟨bytes, header⟩
    let directory ← fits? 64 (header.record_count * DESCRIPTOR_LEN)
    let checksum_at ← fits? 64 (HEADER_LEN + directory)
    match metadata.walk? limits header.record_count 0 ⟨checksum_at, metadata_len, true⟩ 0 with
    | none => none
    | some (.error e) => return .error e
    | some (.ok (w, value_count)) =>
      if w.checksum_at ≠ metadata_len then return .error (.Corrupt "unreferenced checksum bytes")
      if w.ordered = false then
        -- `Vec::with_capacity` of pairs of `u32`: at most `isize::MAX` bytes.
        let _ ← fits? 63 (8 * value_count)
        let records ← metadata.records?
        let ranges := ((records.filter (fun r => r.descriptor.value_len != 0)).map
          (fun r => (r.descriptor.value_offset, r.descriptor.value_len))).mergeSort
            (fun a b => decide (a.1 ≤ b.1))
        let overlap ← overlapping? ranges
        if overlap = true then return .error (.Corrupt "overlapping values")
      return .ok metadata

/-- `Metadata::decode` never panics, whatever the bytes are. -/
theorem Metadata.decode?_eq (bytes : Bytes) (limits : FrameLimits) (position : FramePosition) :
    Metadata.decode? bytes limits position = some (Metadata.decode bytes limits position) := by
  unfold Metadata.decode? Metadata.decode
  rw [FrameHeader.decode?_eq]
  cases hh : FrameHeader.decode bytes limits position with
  | error => rfl
  | ok header =>
    obtain ⟨-, hf, -⟩ := FrameHeader.decode_ok hh
    have hge := header.metadata_len_ge
    have hsmall := hf.small
    simp only [FrameHeader.metadata_len?_eq hf, bind_eq_bind, bind_some]
    by_cases hl : bytes.length < header.metadata_len
    · rw [if_pos hl, if_pos hl]
      rfl
    rw [if_neg hl, if_neg hl]
    have hlen : (bytes.take header.metadata_len).length = header.metadata_len := by
      rw [length_take]; omega
    have hwhole : (⟨bytes.take header.metadata_len, header⟩ : Metadata).Whole limits := ⟨hf, hlen⟩
    have hbody : slice? (bytes.take header.metadata_len) HEADER_LEN
        (bytes.take header.metadata_len).length =
        some ((bytes.take header.metadata_len).drop HEADER_LEN) := by
      rw [slice?_eq (by rw [hlen]; exact hge) (Nat.le_refl _), slice_eq_drop (Nat.le_refl _)]
    have e1 : fits? 64 (header.record_count * DESCRIPTOR_LEN) =
        some (header.record_count * DESCRIPTOR_LEN) :=
      fits?_eq (by simp only [DESCRIPTOR_LEN]; omega)
    have e2 : fits? 64 (HEADER_LEN + header.record_count * DESCRIPTOR_LEN) =
        some (HEADER_LEN + header.record_count * DESCRIPTOR_LEN) :=
      fits?_eq (by simp only [HEADER_LEN, DESCRIPTOR_LEN]; omega)
    obtain ⟨c, hc, hwalk⟩ := hwhole.walk?_eq (n := header.record_count) (k := 0) (c := 0)
      (w := ⟨HEADER_LEN + header.record_count * DESCRIPTOR_LEN, header.metadata_len, true⟩)
      (Nat.le_of_eq (Nat.zero_add _))
      (by simp only [HEADER_LEN, DESCRIPTOR_LEN]; omega) (by omega)
    simp only [hbody, e1, e2, hwalk, bind_some]
    by_cases hcrc : crc32c ((bytes.take header.metadata_len).drop HEADER_LEN) ≠ header.metadata_crc
    · rw [if_pos hcrc, if_pos hcrc]
      rfl
    rw [if_neg hcrc, if_neg hcrc]
    cases hw : Metadata.walk ⟨bytes.take header.metadata_len, header⟩ limits header.record_count 0
        ⟨HEADER_LEN + header.record_count * DESCRIPTOR_LEN, header.metadata_len, true⟩ with
    | error e => rfl
    | ok w =>
      -- From here on every descriptor is known to lie well.
      obtain ⟨ds, hds, hdec, hover, -⟩ := Metadata.walk_iff.mp hw
      have hdir : (⟨bytes.take header.metadata_len, header⟩ : Metadata).Directory limits ds :=
        ⟨hds, fun i d hi => by simpa using hdec i d hi, hover⟩
      have hranges : ∀ r ∈ (⟨bytes.take header.metadata_len, header⟩ : Metadata).sorted_ranges,
          r.1 + r.2 < 2 ^ 64 := by
        intro r hr
        have hr' : r ∈ (⟨bytes.take header.metadata_len, header⟩ : Metadata).valueRanges :=
          (mergeSort_perm _ _).mem_iff.mp hr
        rw [hdir.valueRanges_eq] at hr'
        obtain ⟨d, hd, rfl⟩ := mem_map.mp hr'
        obtain ⟨i, hi⟩ := mem_iff_getElem?.mp (mem_filter.mp hd).1
        have := RecordDescriptor.decode_ok_u32 (hdir.decodes i d hi)
        simp only
        omega
      simp only [Except.map]
      rw [hdir.records?_eq hwhole, fits?_eq (by omega)]
      simp only [bind_some]
      have hoverlap := overlapping?_eq hranges
      unfold Metadata.sorted_ranges at hoverlap ⊢
      rw [hoverlap]
      simp only [bind_some]
      by_cases hend : w.checksum_at ≠ header.metadata_len
      · rw [if_pos hend, if_pos hend]
        rfl
      rw [if_neg hend, if_neg hend]
      cases w.ordered with
      | true => simp
      | false =>
        simp only [true_and, if_true]
        split <;> rfl

/-! ## Payload checks -/

def Record.checksum? (r : Record) (block : Nat) : Option (Option Nat) :=
  if block ≥ r.descriptor.checksum_count then some none
  else do
    let at_ ← fits? 64 (block * 4)
    let value ← u32_at? r.checksums at_
    return some value

def verification_range? (value_len start end_ : Nat) : Option (Except Error (Nat × Nat)) :=
  match validate_range value_len start end_ with
  | .error e => some (.error e)
  | .ok () =>
    if end_ ≤ start then some (.ok (start, end_))
    else do
      let sum ← fits? 64 (end_ + CHECKSUM_BLOCK_SIZE)
      let _ ← sub? sum 1
      return .ok (align_down start CHECKSUM_BLOCK_SIZE,
        min (align_up end_ CHECKSUM_BLOCK_SIZE) value_len)

/-- The loop of `verify_blocks_with`, at its `i`-th block. -/
def verify_blocks_loop? (expected : Nat → Option (Option Nat)) (first_block : Nat) :
    List Bytes → Nat → Option (Except Nat Unit)
  | [], _ => some (.ok ())
  | block :: rest, i => do
    let index ← fits? 32 (first_block + i)
    let want ← expected index
    if want ≠ some (crc32c block) then return .error index
    verify_blocks_loop? expected first_block rest (i + 1)

def Record.verify? (r : Record) (start end_ : Nat) (bytes : Bytes) : Option (Except Error Unit) :=
  match verification_range? r.descriptor.value_len start end_ with
  | none => none
  | some (.error e) => some (.error e)
  | some (.ok widened) => do
    if widened ≠ (start, end_) then
      return .error (.InvalidArgument "verification requires complete checksum blocks")
    let len ← sub? end_ start
    if bytes.length ≠ len then
      return .error (.InvalidArgument "verification requires complete checksum blocks")
    match verify_blocks_loop? r.checksum? (start / CHECKSUM_BLOCK_SIZE) (blocks bytes) 0 with
    | none => none
    | some (.error block) => return .error (.PayloadChecksum r.ordinal block)
    | some (.ok ()) => return .ok ()

/-- A record whose checksum array has all its words. -/
structure Record.Whole (r : Record) : Prop where
  length : r.checksums.length = 4 * r.descriptor.checksum_count
  count_u32 : r.descriptor.checksum_count < 2 ^ 32
  offset_u32 : r.descriptor.value_offset < 2 ^ 32
  len_u32 : r.descriptor.value_len < 2 ^ 32

theorem Record.Whole.checksum?_eq (h : r.Whole) (block : Nat) :
    r.checksum? block = some (r.checksum block) := by
  have h1 := h.length
  have h2 := h.count_u32
  unfold Record.checksum? Record.checksum
  split
  · rfl
  rw [fits?_bind (by omega), u32_at?_eq (by omega) (by omega)]
  rfl

theorem verification_range?_eq {value_len start end_ : Nat} (h : end_ < 2 ^ 32) :
    verification_range? value_len start end_ = some (verification_range value_len start end_) := by
  unfold verification_range? verification_range
  cases validate_range value_len start end_ with
  | error => rfl
  | ok =>
    simp only
    split
    · rfl
    rw [fits?_bind (by simp only [CHECKSUM_BLOCK_SIZE]; omega),
      sub?_eq (by simp only [CHECKSUM_BLOCK_SIZE]; omega)]
    rfl

theorem verify_blocks_loop?_eq {expected : Nat → Option (Option Nat)} {plain : Nat → Option Nat}
    (he : ∀ index, expected index = some (plain index)) {first_block : Nat} {bs : List Bytes}
    {i : Nat} (h : first_block + i + bs.length < 2 ^ 32) :
    verify_blocks_loop? expected first_block bs i =
      some (verify_blocks_loop plain bs (first_block + i)) := by
  induction bs generalizing i with
  | nil => rfl
  | cons block _ ih =>
    rw [length_cons] at h
    unfold verify_blocks_loop? verify_blocks_loop
    rw [fits?_eq (by omega)]
    simp only [bind_eq_bind, bind_some, he]
    rw [ih (by omega), Nat.add_assoc first_block]
    by_cases hne : plain (first_block + i) = some (crc32c block)
    · rw [if_neg (not_not.mpr hne), if_pos hne]
    · rw [if_pos hne, if_neg hne]
      rfl

/-- `Record::verify` never panics, whatever range and bytes it is given. -/
theorem Record.Whole.verify?_eq (h : r.Whole) {start end_ : Nat} (he : end_ < 2 ^ 32)
    (bytes : Bytes) : r.verify? start end_ bytes = some (r.verify start end_ bytes) := by
  unfold Record.verify? Record.verify
  rw [verification_range?_eq he]
  cases hv : verification_range r.descriptor.value_len start end_ with
  | error => rfl
  | ok widened =>
    have hle : start ≤ end_ := by
      unfold verification_range validate_range at hv
      split at hv
      · rename_i e hr
        split at hr
        · cases hv
        · cases hr
      · rename_i hr
        split at hr
        · cases hr
        · omega
    simp only
    by_cases hw : widened ≠ (start, end_)
    · rw [if_pos hw, if_pos (.inl hw)]
      rfl
    rw [if_neg hw, sub?_eq hle]
    simp only [bind_eq_bind, bind_some]
    by_cases hl : bytes.length ≠ end_ - start
    · rw [if_pos hl, if_pos (.inr hl)]
      rfl
    rw [if_neg hl, if_neg (by simp only [not_or]; exact ⟨hw, hl⟩)]
    have hsmall : start / CHECKSUM_BLOCK_SIZE + 0 + (blocks bytes).length < 2 ^ 32 := by
      rw [blocks_length]
      simp only [CHECKSUM_BLOCK_SIZE, not_not] at *
      omega
    rw [verify_blocks_loop?_eq (fun index => h.checksum?_eq index) hsmall]
    unfold verify_blocks_with
    rw [Nat.add_zero]
    split <;> rename_i heq <;> simp only [some_inj, reduceCtorEq] at heq
    all_goals rw [heq]; rfl

/-! ## Whole frames -/

def verify_records? (bytes : Bytes) : List Record → Option (Except Error Unit)
  | [] => some (.ok ())
  | r :: rest => do
    let start := r.descriptor.value_offset
    let len := r.descriptor.value_len
    let stop ← fits? 64 (start + len)
    let value ← slice? bytes start stop
    match r.verify? 0 len value with
    | none => none
    | some (.error e) => return .error e
    | some (.ok ()) => verify_records? bytes rest

def Frame.decode? (bytes : Bytes) (limits : FrameLimits) (position : FramePosition) :
    Option (Except Error Frame) :=
  match Metadata.decode? bytes limits position with
  | none => none
  | some (.error e) => some (.error e)
  | some (.ok metadata) =>
    if bytes.length < metadata.header.frame_len then
      some (.error (.Truncated metadata.header.frame_len bytes.length))
    else do
      let bytes := bytes.take metadata.header.frame_len
      let records ← metadata.records?
      match verify_records? bytes records with
      | none => none
      | some (.error e) => return .error e
      | some (.ok ()) => return .ok ⟨bytes, metadata⟩

def Frame.value? (f : Frame) (ordinal : Nat) : Option (Option Bytes) :=
  match f.metadata.record? ordinal with
  | none => none
  | some none => some none
  | some (some r) =>
    if r.descriptor.kind = .Tombstone then some none
    else do
      let stop ← fits? 64 (r.descriptor.value_offset + r.descriptor.value_len)
      let value ← slice? f.bytes r.descriptor.value_offset stop
      return some value

/-- What an accepted directory says of each record: its array is whole, and its value, if it has
one, ends inside the frame. -/
theorem Metadata.Checked.mem_records (h : m.Checked limits ds) (hr : r ∈ m.records) :
    r.Whole ∧ r.descriptor.value_offset + r.descriptor.value_len ≤ m.header.frame_len := by
  obtain ⟨i, d, hd, rfl⟩ := h.directory.mem_records hr
  have hu := RecordDescriptor.decode_ok_u32 (h.directory.decodes i d hd)
  have hl := h.directory.lies.lies_at hd
  refine ⟨⟨h.array_len hr, hu.2.2.2, hu.1, hu.2.1⟩, ?_⟩
  rw [show (m.recordOf i d).descriptor = d from rfl]
  by_cases h0 : d.value_len = 0
  · rw [(hl.empty h0).1, h0]; omega
  · exact hl.inside h0

theorem Metadata.Checked.whole (h : m.Checked limits ds) : m.Whole limits :=
  ⟨(FrameHeader.decode_ok h.header).2.1, h.length⟩

theorem verify_records?_eq {rs : List Record}
    (h : ∀ r ∈ rs, r.Whole ∧ r.descriptor.value_offset + r.descriptor.value_len ≤ bytes.length)
    : verify_records? bytes rs = some (verify_records bytes rs) := by
  induction rs with
  | nil => rfl
  | cons r _ ih =>
    obtain ⟨hw, hle⟩ := h r (by simp)
    have h1 := hw.offset_u32
    have h2 := hw.len_u32
    unfold verify_records? verify_records
    simp only
    rw [fits?_bind (by omega), slice?_bind (by omega) hle, hw.verify?_eq h2]
    cases r.verify 0 r.descriptor.value_len
      (slice bytes r.descriptor.value_offset (r.descriptor.value_offset + r.descriptor.value_len))
      with
    | error e => rfl
    | ok u => exact ih (fun x hx => h x (by simp [hx]))

/-- `Frame::decode` never panics, whatever the bytes are. -/
theorem Frame.decode?_eq (bytes : Bytes) (limits : FrameLimits) (position : FramePosition) :
    Frame.decode? bytes limits position = some (Frame.decode bytes limits position) := by
  unfold Frame.decode? Frame.decode
  rw [Metadata.decode?_eq]
  cases hd : Metadata.decode bytes limits position with
  | error => rfl
  | ok m =>
    obtain ⟨-, -, ds, hc, -⟩ := Metadata.decode_ok hd
    simp only
    split
    · rfl
    rename_i hl
    rw [hc.directory.records?_eq hc.whole]
    simp only [bind_eq_bind, bind_some]
    rw [verify_records?_eq (fun r hr => ⟨(hc.mem_records hr).1, by
      have := (hc.mem_records hr).2
      rw [length_take]; omega⟩)]
    cases verify_records (bytes.take m.header.frame_len) m.records with
    | error => rfl
    | ok => rfl

theorem Frame.decode_metadata {position : FramePosition}
    {f : Frame} (h : Frame.decode bytes limits position = .ok f) :
    Metadata.decode bytes limits position = .ok f.metadata ∧
      f.bytes.length = f.metadata.header.frame_len := by
  unfold Frame.decode at h
  cases hm : Metadata.decode bytes limits position with
  | error => rw [hm] at h; cases h
  | ok m =>
    rw [hm] at h
    simp only at h
    split at h
    · cases h
    rename_i hl
    split at h
    · cases h
    cases h
    exact ⟨rfl, by simp only [length_take]; omega⟩

theorem Frame.value?_eq {position : FramePosition}
    {f : Frame} (h : Frame.decode bytes limits position = .ok f) (ordinal : Nat) :
    f.value? ordinal = some (f.value ordinal) := by
  obtain ⟨hm, hlen⟩ := Frame.decode_metadata h
  obtain ⟨-, -, ds, hc, -⟩ := Metadata.decode_ok hm
  unfold Frame.value? Frame.value
  rw [hc.directory.record?_eq hc.whole]
  cases hr : f.metadata.record ordinal with
  | none => rfl
  | some r =>
    have hmem : r ∈ f.metadata.records := by
      unfold Metadata.records
      refine mem_filterMap.mpr ⟨ordinal, ?_, hr⟩
      unfold Metadata.record at hr
      split at hr
      · cases hr
      · rw [mem_range]; omega
    obtain ⟨hw, hle⟩ := hc.mem_records hmem
    have h1 := hw.offset_u32
    have h2 := hw.len_u32
    simp only
    split
    · rfl
    rw [fits?_bind (by omega), slice?_eq (by omega) (by rw [hlen]; exact hle)]
    rfl

/-! ## The decoder on arbitrary bytes -/

/-- No access to the records of `m` panics. -/
structure Metadata.Accessible (m : Metadata) : Prop where
  record : ∀ ordinal, m.record? ordinal = some (m.record ordinal)
  records : m.records? = some m.records
  checksum : ∀ r ∈ m.records, ∀ block, r.checksum? block = some (r.checksum block)
  verify : ∀ r ∈ m.records, ∀ start end_ bytes, end_ < 2 ^ 32 →
    r.verify? start end_ bytes = some (r.verify start end_ bytes)

theorem Metadata.Checked.accessible (h : m.Checked limits ds) : m.Accessible where
  record := h.directory.record?_eq h.whole
  records := h.directory.records?_eq h.whole
  checksum _ hr block := (h.mem_records hr).1.checksum?_eq block
  verify _ hr _ _ bytes he := (h.mem_records hr).1.verify?_eq he bytes

/-- The frame decoder on arbitrary bytes. Neither `decode` panics. What `Metadata::decode` accepts
has the geometry of the format, and no later access to it panics. Metadata that passes every
other check is turned down for an overlap exactly when two nonempty values meet. -/
theorem the_frame_decoder_is_sound (bytes : Bytes) (limits : FrameLimits)
    (position : FramePosition) :
    Metadata.decode? bytes limits position = some (Metadata.decode bytes limits position) ∧
    Frame.decode? bytes limits position = some (Frame.decode bytes limits position) ∧
    (∀ m, Metadata.decode bytes limits position = .ok m →
      m.Sound limits position ∧ m.Accessible) ∧
    (∀ f, Frame.decode bytes limits position = .ok f →
      f.metadata.Sound limits position ∧ f.metadata.Accessible ∧
      ∀ ordinal, f.value? ordinal = some (f.value ordinal)) ∧
    (∀ m ds, m.Checked limits ds → m.header.position = position →
      bytes.take m.header.metadata_len = m.bytes →
      (Metadata.decode bytes limits position = .error (.Corrupt "overlapping values") ↔
        ∃ (i j : Nat) (a b : Nat × Nat), i < j ∧ m.valueRanges[i]? = some a ∧
          m.valueRanges[j]? = some b ∧ Meets a b) ∧
      (Metadata.decode bytes limits position ≠ .error (.Corrupt "overlapping values") →
        Metadata.decode bytes limits position = .ok m)) := by
  have hmeta : ∀ m, Metadata.decode bytes limits position = .ok m →
      m.Sound limits position ∧ m.Accessible := by
    intro m hd
    obtain ⟨hp, -, ds, hc, hover⟩ := Metadata.decode_ok hd
    exact ⟨hp ▸ hc.sound hover, hc.accessible⟩
  refine ⟨Metadata.decode?_eq .., Frame.decode?_eq .., hmeta, fun f hf => ?_, ?_⟩
  · obtain ⟨h1, h2⟩ := hmeta f.metadata (Frame.decode_metadata hf).1
    exact ⟨h1, h2, Frame.value?_eq hf⟩
  · intro m ds hc hp hb
    have hdecode := hc.decode_eq hb
    rw [hp] at hdecode
    rw [hdecode, ← not_apart_iff, ← hc.directory.overlaps_iff]
    cases m.overlaps ds with
    | true => simp
    | false => simp

end moat_engine.frame
