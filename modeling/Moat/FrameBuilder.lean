-- Building a frame: where each value is placed, what a builder admits, and
-- the bytes that `encode_into` and `PreparedFrame::finish` write.
import Moat.FrameHeader

namespace moat_engine.frame

open byte_list moat_common moat_engine.codec List

/-! ## Placing a value -/

def div_ceil (a b : Nat) : Nat := (a + b - 1) / b

theorem div_ceil_page (a : Nat) : div_ceil a PAGE_SIZE = (a + 4095) / 4096 := by
  unfold div_ceil PAGE_SIZE; omega

/-- Where a value of `len` bytes goes after `end_`, and where it ends. A value moves to the
next page when it is large, or when it would touch one page more than it needs. -/
def place (end_ len : Nat) : Nat × Nat :=
  if len = 0 then (0, end_)
  else
    let packed := align_up end_ VALUE_ALIGN
    let start :=
      if CHECKSUM_BLOCK_SIZE ≤ len ∨
          div_ceil (packed % PAGE_SIZE + len) PAGE_SIZE > div_ceil len PAGE_SIZE then
        align_up end_ PAGE_SIZE
      else packed
    (start, start + len)

@[simp] theorem place_zero (end_ : Nat) : place end_ 0 = (0, end_) := rfl

/-- The two places a value can get, in plain arithmetic. -/
theorem place_cases (end_ len : Nat) (h : 0 < len) :
    (place end_ len).2 = (place end_ len).1 + len ∧
    ((65536 ≤ len ∨ ((end_ + 7) / 8 * 8 % 4096 + len + 4095) / 4096 > (len + 4095) / 4096) ∧
      (place end_ len).1 = (end_ + 4095) / 4096 * 4096 ∨
    ¬ (65536 ≤ len ∨ ((end_ + 7) / 8 * 8 % 4096 + len + 4095) / 4096 > (len + 4095) / 4096) ∧
      (place end_ len).1 = (end_ + 7) / 8 * 8) := by
  unfold place
  rw [if_neg (by omega), align_up_page, show VALUE_ALIGN = 8 from rfl, align_up_eight]
  simp only [div_ceil_page, true_and]
  simp only [CHECKSUM_BLOCK_SIZE, PAGE_SIZE]
  by_cases hc : 65536 ≤ len ∨ ((end_ + 7) / 8 * 8 % 4096 + len + 4095) / 4096 > (len + 4095) / 4096
  · exact Or.inl ⟨hc, if_pos hc⟩
  · exact Or.inr ⟨hc, if_neg hc⟩

/-- What a nonempty value's place promises. -/
theorem place_spec (end_ len : Nat) (h : 0 < len) :
    end_ ≤ (place end_ len).1 ∧ (place end_ len).1 % 8 = 0 ∧
      (place end_ len).2 = (place end_ len).1 + len ∧
      (place end_ len).1 ≤ (end_ + 4095) / 4096 * 4096 := by
  obtain ⟨h2, ⟨-, he⟩ | ⟨-, he⟩⟩ := place_cases end_ len h
  · refine ⟨?_, ?_, h2, ?_⟩ <;> rw [he] <;> omega
  · refine ⟨?_, ?_, h2, ?_⟩ <;> rw [he] <;> omega

theorem le_place (end_ len : Nat) : end_ ≤ (place end_ len).2 := by
  by_cases h : len = 0
  · subst h; exact Nat.le_refl _
  · have := place_spec end_ len (by omega); omega

/-- Starting later never ends a value earlier. -/
theorem place_mono {a b : Nat} (len : Nat) (h : a ≤ b) : (place a len).2 ≤ (place b len).2 := by
  by_cases h0 : len = 0
  · subst h0; exact h
  · obtain ⟨e1, ⟨ca, ea⟩ | ⟨ca, ea⟩⟩ := place_cases a len (by omega) <;>
      obtain ⟨e2, ⟨cb, eb⟩ | ⟨cb, eb⟩⟩ := place_cases b len (by omega) <;>
      rw [e1, e2, ea, eb] <;> omega

/-- A value's place shifts with its start by whole pages. -/
theorem place_page_add (t end_ len : Nat) (ht : t % 4096 = 0) :
    (place (t + end_) len).2 = t + (place end_ len).2 := by
  by_cases h0 : len = 0
  · subst h0; simp
  · have hp : (t + end_ + 7) / 8 * 8 = t + (end_ + 7) / 8 * 8 := by omega
    have hq : (t + (end_ + 7) / 8 * 8) % 4096 = (end_ + 7) / 8 * 8 % 4096 := by omega
    have hr : (t + end_ + 4095) / 4096 * 4096 = t + (end_ + 4095) / 4096 * 4096 := by omega
    obtain ⟨e1, hc⟩ := place_cases (t + end_) len (by omega)
    obtain ⟨e2, hd⟩ := place_cases end_ len (by omega)
    rw [hp, hq, hr] at hc
    rw [e1, e2]
    omega

/-! ## Records and their lengths -/

/-- A record handed to a builder. `push_tombstone` passes no value, which the field says. -/
structure Input where
  key : ChunkId
  lsn : UInt64
  kind : RecordKind
  value : Bytes
  tombstone_empty : kind = .Tombstone → value = []
deriving DecidableEq

theorem Input.data_any (value : Bytes) : RecordKind.Data = .Tombstone → value = [] := nofun

theorem Input.none_empty : RecordKind.Tombstone = .Tombstone → ([] : Bytes) = [] := fun _ => rfl

/-- What a reader finds for the record: a tombstone has no value, an empty value is one. -/
def Input.stored (r : Input) : Option Bytes :=
  if r.kind = .Tombstone then none else some r.value

/-- The bytes of checksums that the records need. -/
def checksumLen (records : List Input) : Nat :=
  (records.map (fun r => 4 * block_count r.value.length)).sum

def metadataLen (records : List Input) : Nat :=
  HEADER_LEN + records.length * DESCRIPTOR_LEN + checksumLen records

/-- Where the values of `records` end when they are placed from `end_` on. -/
def payloadEnd (end_ : Nat) (records : List Input) : Nat :=
  records.foldl (fun e r => (place e r.value.length).2) end_

@[simp] theorem payloadEnd_nil (e : Nat) : payloadEnd e [] = e := rfl

@[simp] theorem payloadEnd_cons (e : Nat) (r : Input) (rs : List Input) :
    payloadEnd e (r :: rs) = payloadEnd (place e r.value.length).2 rs := rfl

theorem payloadEnd_append (e : Nat) (xs ys : List Input) :
    payloadEnd e (xs ++ ys) = payloadEnd (payloadEnd e xs) ys := by
  simp [payloadEnd]

theorem le_payloadEnd (e : Nat) (rs : List Input) : e ≤ payloadEnd e rs := by
  induction rs generalizing e with
  | nil => exact Nat.le_refl _
  | cons r _ ih => exact Nat.le_trans (le_place e r.value.length) (ih _)

theorem payloadEnd_mono {a b : Nat} (rs : List Input) (h : a ≤ b) :
    payloadEnd a rs ≤ payloadEnd b rs := by
  induction rs generalizing a b with
  | nil => exact h
  | cons r _ ih => exact ih (place_mono r.value.length h)

theorem payloadEnd_page_add (t e : Nat) (rs : List Input) (ht : t % 4096 = 0) :
    payloadEnd (t + e) rs = t + payloadEnd e rs := by
  induction rs generalizing e with
  | nil => rfl
  | cons _ _ ih => rw [payloadEnd_cons, payloadEnd_cons, place_page_add _ _ _ ht, ih]

/-- How many pages the bytes of a value touch. -/
def pages (start len : Nat) : Nat := (start + len - 1) / PAGE_SIZE - start / PAGE_SIZE + 1

/-- No start of a value touches fewer pages than the first byte of a page. -/
theorem pages_least {len : Nat} (h : 0 < len) (start : Nat) :
    (∀ t, pages start len ≤ pages t len) ↔ pages start len = (len + 4095) / 4096 := by
  have hlow : ∀ t, (len + 4095) / 4096 ≤ pages t len := fun t => by
    unfold pages PAGE_SIZE
    omega
  have hzero : pages 0 len = (len + 4095) / 4096 := by
    unfold pages PAGE_SIZE
    omega
  refine ⟨fun hs => Nat.le_antisymm (hzero ▸ hs 0) (hlow start), fun hs t => hs ▸ hlow t⟩

/-- A value goes to the first aligned start that touches the fewest pages, a large value to the
first such page; where it ends is monotone in where it may start, and shifts with it by whole
pages, and so do the ends of many values. -/
theorem placement_is_optimal_monotone_and_periodic :
    (∀ end_ len, 0 < len → (place end_ len).2 = (place end_ len).1 + len ∧
      IsLeast { s | end_ ≤ s ∧ is_aligned s VALUE_ALIGN = true ∧ (∀ t, pages s len ≤ pages t len) ∧
        (CHECKSUM_BLOCK_SIZE ≤ len → is_aligned s PAGE_SIZE = true) } (place end_ len).1) ∧
    (∀ len a b, a ≤ b → (place a len).2 ≤ (place b len).2) ∧
    (∀ end_ len n, 0 < len → place (PAGE_SIZE * n + end_) len =
      (PAGE_SIZE * n + (place end_ len).1, PAGE_SIZE * n + (place end_ len).2)) ∧
    (∀ records a b, a ≤ b → payloadEnd a records ≤ payloadEnd b records) ∧
    ∀ records end_ n, payloadEnd (PAGE_SIZE * n + end_) records =
      PAGE_SIZE * n + payloadEnd end_ records := by
  have hpage : ∀ n, PAGE_SIZE * n % 4096 = 0 := fun n => Nat.mul_mod_right 4096 n
  refine ⟨fun end_ len h => ?_, fun len _ _ => place_mono len, fun end_ len n h => ?_,
    fun records _ _ => payloadEnd_mono records,
    fun records end_ n => payloadEnd_page_add _ _ records (hpage n)⟩
  · obtain ⟨he, hc⟩ := place_cases end_ len h
    simp only [pages_least h, show VALUE_ALIGN = 8 from rfl, is_aligned_eight, is_aligned_page]
    simp only [pages, CHECKSUM_BLOCK_SIZE, PAGE_SIZE]
    refine ⟨he, ⟨?_, ?_, ?_, ?_⟩, ?_⟩
    on_goal 5 => rintro s ⟨h1, h2, h3, h4⟩
    all_goals rcases hc with ⟨hc, hs⟩ | ⟨hc, hs⟩ <;> rw [hs] <;> omega
  · have h2 := place_page_add (PAGE_SIZE * n) end_ len (hpage n)
    have hs := (place_spec end_ len h).2.2.1
    have hs' := (place_spec (PAGE_SIZE * n + end_) len h).2.2.1
    exact Prod.ext (by simp only; omega) h2

/-- The constant-time bound of `admit`: metadata and payload, each rounded to pages, are never
shorter than the frame. -/
theorem payloadEnd_upper (m : Nat) (rs : List Input) :
    align_up (payloadEnd m rs) PAGE_SIZE ≤
      align_up m PAGE_SIZE + align_up (payloadEnd 0 rs) PAGE_SIZE := by
  have h1 : payloadEnd m rs ≤ payloadEnd ((m + 4095) / 4096 * 4096 + 0) rs :=
    payloadEnd_mono rs (by omega)
  rw [payloadEnd_page_add _ _ _ (by omega)] at h1
  simp only [align_up_page]
  omega

theorem checksumLen_append (xs ys : List Input) :
    checksumLen (xs ++ ys) = checksumLen xs + checksumLen ys := by
  simp [checksumLen]

@[simp] theorem checksumLen_nil : checksumLen [] = 0 := rfl

@[simp] theorem checksumLen_cons (r : Input) (rs : List Input) :
    checksumLen (r :: rs) = 4 * block_count r.value.length + checksumLen rs := by
  simp [checksumLen]

/-! ## The builder -/

/-- Collects records for one frame. The last four fields hold along every run of `push`,
`push_tombstone` and `clear`. -/
structure FrameBuilder where
  limits : FrameLimits
  records : List Input
  checksum_len : Nat
  payload_end : Nat
  checksum_eq : checksum_len = checksumLen records
  payload_eq : payload_end = payloadEnd 0 records
  values_le : ∀ r ∈ records, r.value.length ≤ limits.max_value_len
  fits : records ≠ [] →
    align_up (payloadEnd (metadataLen records) records) PAGE_SIZE ≤ limits.max_frame_len

def FrameBuilder.new (limits : FrameLimits) : FrameBuilder :=
  ⟨limits, [], 0, 0, rfl, rfl, by simp, by simp⟩

def FrameBuilder.clear (b : FrameBuilder) : FrameBuilder := FrameBuilder.new b.limits

/-- Adds a record when the frame still fits its limit. -/
def FrameBuilder.admit (b : FrameBuilder) (input : Input) : Except Error FrameBuilder :=
  if hv : input.value.length > b.limits.max_value_len then
    .error (.ValueTooLarge input.value.length b.limits.max_value_len)
  else
    let checksum_len := b.checksum_len + 4 * block_count input.value.length
    let metadata_len := HEADER_LEN + (b.records.length + 1) * DESCRIPTOR_LEN + checksum_len
    let payload_end := (place b.payload_end input.value.length).2
    let upper := align_up metadata_len PAGE_SIZE + align_up payload_end PAGE_SIZE
    let required := align_up (payloadEnd metadata_len (b.records ++ [input])) PAGE_SIZE
    have hc : checksum_len = checksumLen (b.records ++ [input]) := by
      simp [checksum_len, b.checksum_eq, checksumLen_append]
    have hm : metadata_len = metadataLen (b.records ++ [input]) := by
      simp [metadata_len, metadataLen, hc]
    have hp : payload_end = payloadEnd 0 (b.records ++ [input]) := by
      simp [payload_end, b.payload_eq, payloadEnd_append]
    have hvs : ∀ r ∈ b.records ++ [input], r.value.length ≤ b.limits.max_value_len := by
      intro r hr
      rcases mem_append.mp hr with hr | hr
      · exact b.values_le r hr
      · simp only [mem_singleton] at hr; subst hr; omega
    if hu : upper > b.limits.max_frame_len then
      if hr : required > b.limits.max_frame_len then
        .error (.FrameFull required b.limits.max_frame_len)
      else
        .ok ⟨b.limits, b.records ++ [input], checksum_len, payload_end, hc, hp, hvs, fun _ => by
          rw [← hm]; omega⟩
    else
      .ok ⟨b.limits, b.records ++ [input], checksum_len, payload_end, hc, hp, hvs, fun _ => by
        have := payloadEnd_upper (metadataLen (b.records ++ [input])) (b.records ++ [input])
        rw [← hm, ← hp] at this
        rw [← hm]; omega⟩

def FrameBuilder.push (b : FrameBuilder) (key : ChunkId) (lsn : UInt64) (value : Bytes) :
    Except Error FrameBuilder :=
  b.admit ⟨key, lsn, .Data, value, Input.data_any value⟩

def FrameBuilder.push_tombstone (b : FrameBuilder) (key : ChunkId) (lsn : UInt64) :
    Except Error FrameBuilder :=
  b.admit ⟨key, lsn, .Tombstone, [], Input.none_empty⟩

/-- A run of `push` and `push_tombstone` calls that are all accepted. -/
def FrameBuilder.admit_all (b : FrameBuilder) : List Input → Except Error FrameBuilder
  | [] => .ok b
  | input :: rest =>
    match b.admit input with
    | .error e => .error e
    | .ok b => b.admit_all rest

/-- An admitted record is the last record, and nothing else changes. -/
theorem FrameBuilder.admit_ok {b b2 : FrameBuilder} {input : Input} (h : b.admit input = .ok b2) :
    b2.limits = b.limits ∧ b2.records = b.records ++ [input] := by
  unfold FrameBuilder.admit at h
  simp only at h
  split at h
  · cases h
  · split at h
    · split at h
      · cases h
      · cases h; exact ⟨rfl, rfl⟩
    · cases h; exact ⟨rfl, rfl⟩

variable {rs : List Input}

theorem FrameBuilder.admit_all_ok {b b2 : FrameBuilder}
    (h : b.admit_all rs = .ok b2) : b2.limits = b.limits ∧ b2.records = b.records ++ rs := by
  induction rs generalizing b with
  | nil => cases h; simp
  | cons r rs ih =>
    rw [FrameBuilder.admit_all] at h
    split at h
    · cases h
    · rename_i b1 h1
      obtain ⟨hl, hr⟩ := admit_ok h1
      obtain ⟨hl2, hr2⟩ := ih h
      exact ⟨hl2.trans hl, by rw [hr2, hr]; simp⟩

/-- A record is turned away exactly when it or the frame with it would be too long. -/
theorem FrameBuilder.admit_ok_iff (b : FrameBuilder) (input : Input) :
    (∃ b2, b.admit input = .ok b2) ↔
      input.value.length ≤ b.limits.max_value_len ∧
      align_up (payloadEnd (metadataLen (b.records ++ [input])) (b.records ++ [input])) PAGE_SIZE ≤
        b.limits.max_frame_len := by
  constructor
  · rintro ⟨b2, h⟩
    obtain ⟨hl, hr⟩ := admit_ok h
    have hf := b2.fits
    have hv := b2.values_le
    rw [hl, hr] at hf hv
    exact ⟨hv input (by simp), hf (by simp)⟩
  · rintro ⟨hv, hf⟩
    have hm : HEADER_LEN + (b.records.length + 1) * DESCRIPTOR_LEN +
        (b.checksum_len + 4 * block_count input.value.length) =
        metadataLen (b.records ++ [input]) := by
      simp [metadataLen, b.checksum_eq, checksumLen_append]
    unfold FrameBuilder.admit
    rw [dif_neg (by omega)]
    simp only
    split
    · rw [dif_neg (by rw [hm]; omega)]
      exact ⟨_, rfl⟩
    · exact ⟨_, rfl⟩

def FrameBuilder.metadata_len (b : FrameBuilder) : Nat :=
  HEADER_LEN + b.records.length * DESCRIPTOR_LEN + b.checksum_len

def FrameBuilder.encoded_len (b : FrameBuilder) : Nat :=
  if b.records = [] then 0 else align_up (payloadEnd b.metadata_len b.records) PAGE_SIZE

theorem FrameBuilder.metadata_len_eq (b : FrameBuilder) :
    b.metadata_len = metadataLen b.records := by
  simp [FrameBuilder.metadata_len, metadataLen, b.checksum_eq]

theorem FrameBuilder.payloadEnd_le (b : FrameBuilder) (h : b.records ≠ []) :
    payloadEnd (metadataLen b.records) b.records ≤ b.encoded_len ∧
      b.encoded_len ≤ b.limits.max_frame_len ∧ b.encoded_len % 4096 = 0 := by
  have hf := b.fits h
  unfold FrameBuilder.encoded_len
  rw [if_neg h, b.metadata_len_eq]
  simp only [align_up_page] at hf ⊢
  omega

/-- Records without values take their metadata and nothing else. -/
theorem payloadEnd_empty (h : ∀ r ∈ rs, r.value = []) (e : Nat) : payloadEnd e rs = e := by
  induction rs generalizing e with
  | nil => rfl
  | cons r _ ih =>
    rw [payloadEnd_cons, h r (by simp)]
    exact ih (fun q hq => h q (by simp [hq])) e

theorem metadataLen_empty (h : ∀ r ∈ rs, r.value = []) : metadataLen rs = 64 + rs.length * 64 := by
  have hc : checksumLen rs = 0 := by
    induction rs with
    | nil => rfl
    | cons r _ ih =>
      rw [checksumLen_cons, h r (by simp), ih (fun q hq => h q (by simp [hq]))]
      rfl
  rw [metadataLen, hc]
  rfl

/-- A builder takes records without values until their descriptors fill the frame. -/
theorem FrameBuilder.admit_all_empty (rs : List Input) (b : FrameBuilder)
    (hb : ∀ r ∈ b.records, r.value = []) (h : ∀ r ∈ rs, r.value = [])
    (hl : 64 + (b.records.length + rs.length) * 64 ≤ b.limits.max_frame_len) :
    ∃ b2, b.admit_all rs = .ok b2 := by
  induction rs generalizing b with
  | nil => exact ⟨b, rfl⟩
  | cons r _ ih =>
    have ha := b.limits.frame_aligned
    have hr := h r (by simp)
    have hbr : ∀ q ∈ b.records ++ [r], q.value = [] := by
      intro q hq
      rcases mem_append.mp hq with hq | hq
      · exact hb q hq
      · simp only [mem_singleton] at hq; subst hq; exact hr
    simp only [length_cons] at hl
    obtain ⟨b1, h1⟩ := (b.admit_ok_iff r).mpr ⟨by simp [hr], by
      rw [payloadEnd_empty hbr, metadataLen_empty hbr, align_up_page]
      simp only [length_append, length_singleton]
      omega⟩
    obtain ⟨hl1, hr1⟩ := admit_ok h1
    rw [FrameBuilder.admit_all, h1]
    apply ih b1 (by rw [hr1]; exact hbr) (fun q hq => h q (by simp [hq]))
    rw [hl1, hr1]
    simp only [length_append, length_singleton]
    omega

/-! ## Encoding -/

/-- The loop of `write_checksums`: each sum goes to the cursor, which then moves on. -/
def put_sums : List Nat → Bytes → Nat → Bytes × Nat
  | [], bytes, at_ => (bytes, at_)
  | sum :: sums, bytes, at_ => put_sums sums (put_u32 bytes at_ sum) (at_ + 4)

/-- Writes the block checksums of the value already copied to `value_at`. -/
def write_checksums (bytes : Bytes) (at_ value_at value_len : Nat) : Bytes × Nat :=
  if value_len = 0 then (bytes, at_)
  else put_sums (block_checksums_iter (slice bytes value_at (value_at + value_len))) bytes at_

/-- What the encoding loop carries from one record to the next. -/
structure EncodeCursor where
  bytes : Bytes
  checksum_at : Nat
  end_ : Nat

/-- One turn of the loop of `encode_into`. -/
def encode_record (c : EncodeCursor) (ordinal : Nat) (input : Input) : EncodeCursor :=
  let value_at := (place c.end_ input.value.length).1
  let next_end := (place c.end_ input.value.length).2
  let bytes :=
    if input.value = [] then c.bytes
    else patch (patch c.bytes c.end_ (zeros (value_at - c.end_))) value_at input.value
  let descriptor : RecordDescriptor :=
    { key := input.key, lsn := input.lsn, kind := input.kind,
      value_offset := value_at % 2 ^ 32, value_len := input.value.length % 2 ^ 32,
      checksum_offset := if input.value = [] then 0 else c.checksum_at % 2 ^ 32,
      checksum_count := block_count input.value.length }
  let descriptor_at := HEADER_LEN + ordinal * DESCRIPTOR_LEN
  let bytes := patch bytes descriptor_at
    (descriptor.encode (slice bytes descriptor_at (descriptor_at + DESCRIPTOR_LEN)))
  let written := write_checksums bytes c.checksum_at value_at input.value.length
  ⟨written.1, written.2, next_end⟩

def encode_records : List Input → Nat → EncodeCursor → EncodeCursor
  | [], _, c => c
  | input :: rest, ordinal, c => encode_records rest (ordinal + 1) (encode_record c ordinal input)

/-- Encodes the frame over the start of `bytes`, and returns its header and the whole buffer. -/
def FrameBuilder.encode_into (b : FrameBuilder) (position : FramePosition) (bytes : Bytes) :
    Except Error (FrameHeader × Bytes) :=
  if b.records = [] then .error (.InvalidArgument "cannot encode an empty frame")
  else
    let frame_len := b.encoded_len
    match position.check_len frame_len with
    | .error e => .error e
    | .ok () =>
      if bytes.length < frame_len then .error (.BufferTooSmall frame_len bytes.length)
      else
        let c := encode_records b.records 0
          ⟨bytes.take frame_len, HEADER_LEN + b.records.length * DESCRIPTOR_LEN, b.metadata_len⟩
        let frame := patch c.bytes c.end_ (zeros (frame_len - c.end_))
        let header : FrameHeader :=
          { position, frame_len := frame_len % 2 ^ 32, record_count := b.records.length % 2 ^ 32,
            checksum_len := b.checksum_len % 2 ^ 32,
            metadata_crc := crc32c (slice frame HEADER_LEN b.metadata_len) }
        .ok (header, header.encode frame ++ bytes.drop frame_len)

/-! ## A frame prepared around its value -/

def preparedMetadataLen (value_len : Nat) : Nat :=
  HEADER_LEN + DESCRIPTOR_LEN + 4 * block_count value_len

/-- The value starts on the first page after the metadata, so that a caller can fill it in. -/
def preparedValueAt (value_len : Nat) : Nat :=
  if value_len = 0 then 0 else align_up (preparedMetadataLen value_len) PAGE_SIZE

def preparedLen (value_len : Nat) : Nat :=
  if value_len = 0 then PAGE_SIZE
  else align_up (align_up (preparedMetadataLen value_len) PAGE_SIZE + value_len) PAGE_SIZE

def PreparedFrame.required_len (limits : FrameLimits) (value_len : Nat) : Except Error Nat :=
  if value_len > limits.max_value_len then
    .error (.ValueTooLarge value_len limits.max_value_len)
  else if preparedLen value_len > limits.max_frame_len then
    .error (.FrameFull (preparedLen value_len) limits.max_frame_len)
  else .ok (preparedLen value_len)

theorem PreparedFrame.required_len_ok {limits : FrameLimits} {value_len len : Nat}
    (h : PreparedFrame.required_len limits value_len = .ok len) :
    len = preparedLen value_len ∧ value_len ≤ limits.max_value_len ∧
      len ≤ limits.max_frame_len := by
  unfold PreparedFrame.required_len at h
  split at h
  · cases h
  · split at h
    · cases h
    · cases h; exact ⟨rfl, by omega, by omega⟩

/-- A buffer cut to the length of its frame, and the value's range in it. -/
structure PreparedFrame where
  bytes : Bytes
  value_at : Nat
  value_len : Nat
  len_eq : bytes.length = preparedLen value_len
  value_at_eq : value_at = preparedValueAt value_len
  value_u32 : value_len < 2 ^ 32

def PreparedFrame.new (limits : FrameLimits) (value_len : Nat) (bytes : Bytes) :
    Except Error PreparedFrame :=
  match h : PreparedFrame.required_len limits value_len with
  | .error e => .error e
  | .ok len =>
    if hb : bytes.length < len then .error (.BufferTooSmall len bytes.length)
    else
      .ok ⟨bytes.take len, preparedValueAt value_len, value_len, by
        rw [length_take, ← (PreparedFrame.required_len_ok h).1]; omega, rfl, by
        have := (PreparedFrame.required_len_ok h).2.1
        have := limits.value_le
        have := limits.frame_u32
        omega⟩

def PreparedFrame.metadata_len (p : PreparedFrame) : Nat := preparedMetadataLen p.value_len

/-- The value's range lies between the metadata and the end of the frame. -/
theorem prepared_bounds (value_len : Nat) :
    preparedMetadataLen value_len ≤ preparedLen value_len ∧
    preparedValueAt value_len + value_len ≤ preparedLen value_len ∧
    (0 < value_len → preparedMetadataLen value_len ≤ preparedValueAt value_len) := by
  unfold preparedLen preparedValueAt
  simp only [align_up_page]
  have hb : preparedMetadataLen 0 = 128 := rfl
  by_cases h0 : value_len = 0
  · subst h0
    simp only [hb, if_true, PAGE_SIZE]
    omega
  · simp only [h0, if_false]
    omega

/-- What the caller writes through `value_mut`: any `value_len` bytes, in the value's range. -/
def PreparedFrame.fill (p : PreparedFrame) (value : Bytes) (h : value.length = p.value_len) :
    PreparedFrame :=
  { p with
    bytes := patch p.bytes p.value_at value
    len_eq := by
      have hb := prepared_bounds p.value_len
      rw [patch_length (by rw [h, p.value_at_eq, p.len_eq]; exact hb.2.1), p.len_eq] }

/-- Fixes the frame's place and record, and writes everything but the value. -/
def PreparedFrame.finish (p : PreparedFrame) (position : FramePosition) (key : ChunkId)
    (lsn : UInt64) : Except Error Bytes :=
  match position.check_len p.bytes.length with
  | .error e => .error e
  | .ok () =>
    let count := block_count p.value_len
    let checksum_at := HEADER_LEN + DESCRIPTOR_LEN
    let metadata_len := checksum_at + 4 * count
    let descriptor : RecordDescriptor :=
      { key, lsn, kind := .Data, value_offset := p.value_at % 2 ^ 32,
        value_len := p.value_len % 2 ^ 32,
        checksum_offset := if count = 0 then 0 else checksum_at % 2 ^ 32, checksum_count := count }
    let bytes := patch p.bytes HEADER_LEN (descriptor.encode (slice p.bytes HEADER_LEN checksum_at))
    let bytes := (write_checksums bytes checksum_at p.value_at p.value_len).1
    let bytes :=
      if p.value_len = 0 then patch bytes metadata_len (zeros (bytes.length - metadata_len))
      else
        let value_end := p.value_at + p.value_len
        patch (patch bytes metadata_len (zeros (p.value_at - metadata_len))) value_end
          (zeros (bytes.length - value_end))
    let header : FrameHeader :=
      { position, frame_len := bytes.length % 2 ^ 32, record_count := 1,
        checksum_len := count * 4 % 2 ^ 32,
        metadata_crc := crc32c (slice bytes HEADER_LEN metadata_len) }
    .ok (header.encode bytes)

end moat_engine.frame
