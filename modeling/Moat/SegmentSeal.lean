-- Sealing a segment in one buffer and reading the footer back: `seal_into`, the
-- whole-footer decoder, and its frames (`segment/builder.rs`, `footer.rs`).
import Moat.FrameAccept
import Moat.FrameWrite
import Moat.SegmentFooter

namespace moat_engine.segment

open byte_list moat_common moat_engine.codec List
open moat_engine.frame (FrameHeader FrameLimits FramePosition Metadata)

/-! ## Sealing into one buffer -/

/-- The footer checksum, with both checksum fields of the trailer as zero. -/
def checksum (bytes : Bytes) : Nat :=
  let at_ := bytes.length - FOOTER_TRAILER_LEN
  ((((Crc32c.new.update (bytes.take (at_ + 12))).update (zeros 4)).update
    (slice bytes (at_ + 16) (at_ + 60))).update (zeros 4)).finalize

/-- Writes the footer over the start of `bytes` and closes the builder. -/
def SegmentBuilder.seal_into (b : SegmentBuilder) (bytes : Bytes) :
    Except Error (SegmentBuilder × SegmentHeader × Bytes) :=
  if b.header.seal_.isSome then .error .Sealed
  else
    let len := b.footer_len
    if bytes.length < len then .error (.BufferTooSmall len bytes.length)
    else
      let footer := patch (zeros len) 0 b.metadata
      let at_ := len - FOOTER_TRAILER_LEN
      let header := b.sealed_header
      let footer := patch footer at_ (encode_trailer (footer.drop at_) header b.seal_ len)
      let footer := put_u32 footer (at_ + 60) (checksum footer)
      let footer := put_u32 footer (at_ + 12) (crc_with_zeroed_checksum (footer.drop at_))
      .ok ({ b with header }, header, footer ++ bytes.drop len)

/-! ## The whole footer -/

/-- A footer that passed `decode`, without its padding and trailer. -/
structure Footer where
  bytes : Bytes
  header : SegmentHeader
  limits : FrameLimits

/-- The metadata at the front of `bytes`, and what follows it. -/
def Footer.decode_next (f : Footer) (bytes : Bytes) (offset : Nat) :
    Except Error (Metadata × Bytes) :=
  match f.header.position offset with
  | .error source => .error (.Frame offset source)
  | .ok position =>
    match Metadata.decode bytes f.limits position with
    | .error source => .error (.Frame offset source)
    | .ok metadata => .ok (metadata, bytes.drop metadata.bytes.length)

/-- The loop of `decode` over the frames that are left. -/
def Footer.decode_frames (f : Footer) : Nat → Bytes → Nat → Except Error (Bytes × Nat)
  | 0, remaining, offset => .ok (remaining, offset)
  | n + 1, remaining, offset =>
    match f.decode_next remaining offset with
    | .error e => .error e
    | .ok (metadata, rest) => f.decode_frames n rest (offset + metadata.header.frame_len)

def Footer.decode (bytes : Bytes) (header : SegmentHeader) (limits : FrameLimits) :
    Except Error Footer :=
  match header.seal_, header.footer_range with
  | some s, some range =>
    let len := range.2 - range.1
    if bytes.length < len then .error (.Truncated len bytes.length)
    else
      let bytes := bytes.take len
      match FooterTrailer.decode bytes header.segment_len header.len_u32 with
      | .error e => .error e
      | .ok trailer =>
        if trailer.header ≠ header ∨ trailer.checksum ≠ checksum bytes then
          .error (.Corrupt "footer identity, geometry, or checksum")
        else if ¬ allZero (slice bytes s.metadata_len (len - FOOTER_TRAILER_LEN)) = true then
          .error (.Corrupt "footer padding")
        else
          let footer : Footer := ⟨bytes.take s.metadata_len, header, limits⟩
          match footer.decode_frames s.frame_count footer.bytes PAGE_SIZE with
          | .error e => .error e
          | .ok (remaining, offset) =>
            if remaining ≠ [] ∨ offset ≠ s.data_end then
              .error (.Corrupt "footer frame coverage")
            else .ok footer
  | _, _ => .error (.InvalidArgument "active segment has no committed footer")

/-- The iterator of `frames`. It reads only the headers again; `none` is a failed `expect`, or a
`split_at` behind the end. -/
def Footer.frames_from (f : Footer) : Nat → Bytes → Nat → Option (List Metadata)
  | 0, _, _ => some []
  | n + 1, bytes, offset =>
    match f.header.position offset with
    | .error _ => none
    | .ok position =>
      match FrameHeader.decode bytes f.limits position with
      | .error _ => none
      | .ok header =>
        if bytes.length < header.metadata_len then none
        else
          (f.frames_from n (bytes.drop header.metadata_len) (offset + header.frame_len)).map
            (⟨bytes.take header.metadata_len, header⟩ :: ·)

def Footer.frames (f : Footer) : Option (List Metadata) :=
  f.header.seal_.bind (fun s => f.frames_from s.frame_count f.bytes PAGE_SIZE)

/-! ## Frames in a row -/

/-- Accepted frames that follow one another in a segment, from `offset` on. -/
def Run (limits : FrameLimits) (sequence : Nat) : Nat → List Metadata → Prop
  | _, [] => True
  | offset, m :: ms =>
    m.Accepted limits ∧ m.header.position.segment_seq = sequence ∧
      m.header.position.offset = offset ∧ FrameLens m.header.frame_len m.bytes.length ∧
      Run limits sequence (offset + m.header.frame_len) ms

def framesLen (ms : List Metadata) : Nat := (ms.map (·.header.frame_len)).sum

def metadataBytes (ms : List Metadata) : Bytes := ms.flatMap (·.bytes)

variable {limits : FrameLimits} {offset at_ : Nat} {ms : List Metadata} {m : Metadata}
  {header : SegmentHeader} {b c : SegmentBuilder}

theorem Run.append {sequence : Nat} (h : Run limits sequence offset ms) (hm : m.Accepted limits)
    (h1 : m.header.position.segment_seq = sequence)
    (h2 : m.header.position.offset = offset + framesLen ms)
    (h3 : FrameLens m.header.frame_len m.bytes.length) :
    Run limits sequence offset (ms ++ [m]) := by
  induction ms generalizing offset with
  | nil => exact ⟨hm, h1, h2, h3, trivial⟩
  | cons _ _ ih =>
    obtain ⟨x1, x2, x3, x4, hxs⟩ := h
    refine ⟨x1, x2, x3, x4, ih hxs ?_⟩
    rw [h2]
    simp [framesLen, Nat.add_assoc]

/-- The inequalities between count, frame bytes and metadata bytes that a trailer must show. -/
theorem Run.sums {sequence : Nat} (h : Run limits sequence offset ms) :
    ms.length * 4096 ≤ framesLen ms ∧ ms.length * 128 ≤ (metadataBytes ms).length ∧
      (metadataBytes ms).length ≤ framesLen ms ∧ framesLen ms % 4096 = 0 ∧
      (metadataBytes ms).length % 4 = 0 := by
  induction ms generalizing offset with
  | nil => simp [framesLen, metadataBytes]
  | cons m ms ih =>
    obtain ⟨-, -, -, hl, hms⟩ := h
    obtain ⟨i1, i2, i3, i4, i5⟩ := ih hms
    have h1 := hl.frame_pos
    have h2 := hl.frame_aligned
    have h3 := hl.metadata_min
    have h4 := hl.metadata_le
    have h5 := hl.metadata_aligned
    have e1 : framesLen (m :: ms) = m.header.frame_len + framesLen ms := by simp [framesLen]
    have e2 : (metadataBytes (m :: ms)).length = m.bytes.length + (metadataBytes ms).length := by
      simp [metadataBytes]
    rw [e1, e2, length_cons]
    omega

theorem Run.accepted_length (h : m.Accepted limits) : m.bytes.length = m.header.metadata_len := by
  obtain ⟨buf, p, hd⟩ := h
  obtain ⟨-, -, ds, hc, -⟩ := Metadata.decode_ok hd
  exact hc.length

/-- Appends frames one after the other. -/
def SegmentBuilder.append_all (b : SegmentBuilder) : List Metadata → Except Error SegmentBuilder
  | [] => .ok b
  | m :: ms =>
    match b.append m with
    | .error e => .error e
    | .ok b => b.append_all ms

/-- The builder's accounting of the frames `ms`. -/
structure SegmentBuilder.Counts (b : SegmentBuilder) (header : SegmentHeader)
    (limits : FrameLimits) (ms : List Metadata) : Prop where
  header_eq : b.header = header
  frame_count : b.frame_count = ms.length
  data_end : b.data_end = 4096 + framesLen ms
  metadata : b.metadata = metadataBytes ms
  run : Run limits header.id.sequence 4096 ms

theorem SegmentBuilder.counts_new (h : SegmentBuilder.new header = .ok b) (limits : FrameLimits) :
    header.seal_ = none ∧ b.Counts header limits [] := by
  unfold SegmentBuilder.new at h
  split at h
  · cases h
  · rename_i hs
    cases h
    exact ⟨by simpa using hs, rfl, rfl, rfl, rfl, trivial⟩

theorem SegmentBuilder.append_ok (h : b.append m = .ok c) :
    c.header = b.header ∧ c.frame_count = b.frame_count + 1 ∧
      c.data_end = b.data_end + m.header.frame_len ∧ c.metadata = b.metadata ++ m.bytes ∧
      m.header.position.segment_seq = b.header.id.sequence ∧
      m.header.position.offset = b.data_end ∧ FrameLens m.header.frame_len m.bytes.length := by
  unfold SegmentBuilder.append at h
  split at h
  · cases h
  rename_i p hp
  obtain ⟨-, hl, -, h1, h2, -⟩ := SegmentBuilder.position_ok hp
  split at h
  · cases h
  rename_i hpos
  simp only [not_or, not_not] at hpos
  cases h
  exact ⟨rfl, rfl, rfl, rfl, hpos.1.trans h1, hpos.2.trans h2, hl⟩

/-- A frame at the next position is appended when it and the footer after it fit. -/
theorem SegmentBuilder.append_fits (hs : b.header.seal_ = none)
    (hl : FrameLens m.header.frame_len m.bytes.length)
    (h1 : m.header.position.segment_seq = b.header.id.sequence)
    (h2 : m.header.position.offset = b.data_end)
    (hr : b.data_end + m.header.frame_len + segment.footer_len
    (b.metadata.length + m.bytes.length) ≤
      b.header.segment_len) : ∃ c, b.append m = .ok c := by
  obtain ⟨p, hp⟩ := (b.position_ok_iff hs hl).mpr hr
  obtain ⟨-, -, -, p1, p2, -⟩ := SegmentBuilder.position_ok hp
  unfold SegmentBuilder.append
  split
  · rename_i e he
    rw [hp] at he
    cases he
  · rename_i q hq
    rw [hp] at hq
    cases hq
    rw [if_neg (by rw [h1, h2, p1, p2]; simp)]
    exact ⟨_, rfl⟩

/-- One append keeps the accounting. -/
theorem SegmentBuilder.Counts.append (hb : b.Counts header limits ms)
    (hm : m.Accepted limits) (h : b.append m = .ok c) : c.Counts header limits (ms ++ [m]) := by
  obtain ⟨h1, h2, h3, h4, h5, h6, h7⟩ := append_ok h
  refine ⟨h1.trans hb.header_eq, by simp [h2, hb.frame_count], ?_, ?_, ?_⟩
  · rw [h3, hb.data_end]
    simp [framesLen, Nat.add_assoc]
  · rw [h4, hb.metadata]
    simp [metadataBytes]
  · exact hb.run.append hm (h5.trans (by rw [hb.header_eq])) (h6.trans hb.data_end) h7

theorem SegmentBuilder.Counts.append_all {pre : List Metadata} (hb : b.Counts header limits pre)
    (hm : ∀ m ∈ ms, m.Accepted limits) (h : b.append_all ms = .ok c) :
    c.Counts header limits (pre ++ ms) := by
  induction ms generalizing b pre with
  | nil => cases h; simpa using hb
  | cons m _ ih =>
    unfold SegmentBuilder.append_all at h
    cases ha : b.append m with
    | error => rw [ha] at h; cases h
    | ok =>
      rw [ha] at h
      have := ih (hb.append (hm m (by simp)) ha) (fun x hx => hm x (by simp [hx])) h
      simpa using this

/-! ## The footer's bytes -/

/-- The fields of a trailer after its checksum field. -/
def SegmentHeader.trailerFields (h : SegmentHeader) (s : Seal) (footer_len crc : Nat) : Bytes :=
  h.id.device_id.bytes ++ (leBytes 4 h.id.segment_no ++ leBytes 4 s.data_end ++
    leBytes 8 h.id.sequence ++ leBytes 4 s.frame_count ++ leBytes 4 s.metadata_len ++
    leBytes 4 footer_len ++ leBytes 4 crc)

theorem SegmentHeader.trailerFields_length (h : SegmentHeader) (s : Seal) (len crc : Nat) :
    (h.trailerFields s len crc).length = 48 := by
  simp [SegmentHeader.trailerFields, h.id.device_id.len]

/-- The trailer with `0` in both of its checksum fields. -/
def SegmentHeader.blankTrailer (h : SegmentHeader) (s : Seal) (len : Nat) : Bytes :=
  stampWith FOOTER_MAGIC FORMAT_VERSION 0 (h.trailerFields s len 0)

def SegmentHeader.trailer (h : SegmentHeader) (s : Seal) (len crc : Nat) : Bytes :=
  stamp FOOTER_MAGIC FORMAT_VERSION (h.trailerFields s len crc)

@[simp] theorem SegmentHeader.blankTrailer_length (h : SegmentHeader) (s : Seal) (len : Nat) :
    (h.blankTrailer s len).length = 64 := by
  unfold SegmentHeader.blankTrailer
  rw [stampWith_length rfl, h.trailerFields_length]

@[simp] theorem SegmentHeader.trailer_length (h : SegmentHeader) (s : Seal) (len crc : Nat) :
    (h.trailer s len crc).length = 64 := by
  unfold SegmentHeader.trailer
  rw [stamp_length rfl, h.trailerFields_length]

theorem encode_trailer_zeros (h : SegmentHeader) (s : Seal) (len : Nat) :
    encode_trailer (zeros 64) h s len = h.blankTrailer s len := by
  have hid := h.id.device_id.len
  unfold encode_trailer put_u64 put_u32
  simp only
  rw [show zeros 64 = [] ++ zeros 64 from rfl,
    patch_next (by simp) (by simp [FOOTER_MAGIC]),
    patch_next (by simp [FOOTER_MAGIC]) (by simp [FOOTER_MAGIC]),
    patch_zeros (k := 4) (by simp [FOOTER_MAGIC]) (by simp [FOOTER_MAGIC, hid])]
  simp (disch := simp [FOOTER_MAGIC, hid]) only [patch_next]
  simp only [SegmentHeader.blankTrailer, stampWith, SegmentHeader.trailerFields, nil_append,
    append_assoc, leBytes_length, leBytes_zero, hid, show FOOTER_MAGIC.length = 8 from rfl]

/-- The trailer goes in with both of its checksum fields blank. -/
theorem patch_trailer (pre : Bytes) (h : SegmentHeader) (s : Seal) (len : Nat)
    (hat : at_ = pre.length) :
    patch (pre ++ zeros 64) at_ (encode_trailer ((pre ++ zeros 64).drop at_) h s len) =
      pre ++ h.blankTrailer s len := by
  rw [drop_left' hat.symm, encode_trailer_zeros]
  have := patch_mid (a := pre) (b := zeros 64) (c := []) (v := h.blankTrailer s len) hat (by simp)
  simpa using this

/-- Then comes the checksum of the footer. -/
theorem put_footer_checksum (pre : Bytes) (h : SegmentHeader) (s : Seal) (len crc : Nat)
    (hat : at_ = pre.length) :
    put_u32 (pre ++ h.blankTrailer s len) (at_ + 60) crc =
      pre ++ stampWith FOOTER_MAGIC FORMAT_VERSION 0 (h.trailerFields s len crc) := by
  have hfield : at_ + 60 = (pre ++ FOOTER_MAGIC ++ leBytes 4 FORMAT_VERSION ++ leBytes 4 0 ++
      h.id.device_id.bytes ++ leBytes 4 h.id.segment_no ++ leBytes 4 s.data_end ++
      leBytes 8 h.id.sequence ++ leBytes 4 s.frame_count ++ leBytes 4 s.metadata_len ++
      leBytes 4 len).length := by
    simp [FOOTER_MAGIC, h.id.device_id.len, hat]
  have := patch_mid (b := leBytes 4 0) (c := []) (v := leBytes 4 crc) hfield (by simp)
  simpa [put_u32, SegmentHeader.blankTrailer, stampWith, SegmentHeader.trailerFields] using this

/-- And over both, the trailer's own checksum. -/
theorem put_trailer_checksum (pre : Bytes) (h : SegmentHeader) (s : Seal) (len crc : Nat)
    (hat : at_ = pre.length) :
    put_u32 (pre ++ stampWith FOOTER_MAGIC FORMAT_VERSION 0 (h.trailerFields s len crc)) (at_ + 12)
      (crc_with_zeroed_checksum ((pre ++ stampWith FOOTER_MAGIC FORMAT_VERSION 0
        (h.trailerFields s len crc)).drop at_)) = pre ++ h.trailer s len crc := by
  rw [drop_left' hat.symm]
  have hfield : at_ + 12 = (pre ++ FOOTER_MAGIC ++ leBytes 4 FORMAT_VERSION).length := by
    simp [FOOTER_MAGIC, hat]
  have := patch_mid (b := leBytes 4 0) (c := h.trailerFields s len crc)
    (v := leBytes 4 (crc_with_zeroed_checksum (stampWith FOOTER_MAGIC FORMAT_VERSION 0
      (h.trailerFields s len crc)))) hfield (by simp)
  simpa [put_u32, SegmentHeader.trailer, stamp, stampWith] using this

/-- The metadata with the zero padding that brings the trailer to the end of its page. -/
def SegmentBuilder.padded (b : SegmentBuilder) : Bytes :=
  b.metadata ++ zeros (b.footer_len - 64 - b.metadata.length)

/-- The checksum that the footer carries. -/
def SegmentBuilder.footerCrc (b : SegmentBuilder) : Nat :=
  crc32c (b.padded ++ b.sealed_header.blankTrailer b.seal_ b.footer_len)

/-- The footer of a builder, byte for byte. -/
def SegmentBuilder.footer (b : SegmentBuilder) : Bytes :=
  b.padded ++ b.sealed_header.trailer b.seal_ b.footer_len b.footerCrc

theorem footer_len_ge (m : Nat) : m + 64 ≤ footer_len m := by
  rw [footer_len_eq]; omega

theorem SegmentBuilder.padded_length (b : SegmentBuilder) :
    b.padded.length = b.footer_len - 64 := by
  have := footer_len_ge b.metadata.length
  unfold SegmentBuilder.padded SegmentBuilder.footer_len
  simp
  omega

@[simp] theorem SegmentBuilder.footer_length (b : SegmentBuilder) :
    b.footer.length = b.footer_len := by
  have := footer_len_ge b.metadata.length
  unfold SegmentBuilder.footer
  rw [length_append, b.padded_length, SegmentHeader.trailer_length]
  unfold SegmentBuilder.footer_len
  omega

theorem checksum_eq (bytes : Bytes) : checksum bytes = crc32c (zeroed bytes) := by
  unfold checksum zeroed crc32c
  simp only [Crc32c.update_append]

/-- Zeroing both checksum fields of a stamped trailer gives the blank one. -/
theorem zeroed_trailer (pre : Bytes) (h : SegmentHeader) (s : Seal) (len crc stamped : Nat) :
    zeroed (pre ++ stampWith FOOTER_MAGIC FORMAT_VERSION stamped (h.trailerFields s len crc)) =
      pre ++ h.blankTrailer s len := by
  have hid := h.id.device_id.len
  have hl : (pre ++ stampWith FOOTER_MAGIC FORMAT_VERSION stamped
      (h.trailerFields s len crc)).length - FOOTER_TRAILER_LEN = pre.length := by
    rw [length_append, stampWith_length rfl, h.trailerFields_length]
    simp [FOOTER_TRAILER_LEN]
  -- The trailer is split around its two checksum fields.
  have hsplit : h.trailerFields s len crc = h.id.device_id.bytes ++ (leBytes 4 h.id.segment_no ++
      leBytes 4 s.data_end ++ leBytes 8 h.id.sequence ++ leBytes 4 s.frame_count ++
      leBytes 4 s.metadata_len ++ leBytes 4 len) ++ leBytes 4 crc := by
    simp [SegmentHeader.trailerFields]
  unfold zeroed
  simp only [hl]
  have htake : (pre ++ stampWith FOOTER_MAGIC FORMAT_VERSION stamped
      (h.trailerFields s len crc)).take (pre.length + 12) =
      pre ++ (FOOTER_MAGIC ++ leBytes 4 FORMAT_VERSION) := by
    unfold stampWith
    rw [append_assoc (FOOTER_MAGIC ++ _), ← append_assoc pre]
    exact take_left' (by simp [FOOTER_MAGIC])
  have hslice : slice (pre ++ stampWith FOOTER_MAGIC FORMAT_VERSION stamped
      (h.trailerFields s len crc)) (pre.length + 16) (pre.length + 60) =
      h.id.device_id.bytes ++ (leBytes 4 h.id.segment_no ++ leBytes 4 s.data_end ++
        leBytes 8 h.id.sequence ++ leBytes 4 s.frame_count ++ leBytes 4 s.metadata_len ++
        leBytes 4 len) := by
    rw [hsplit, show pre ++ stampWith FOOTER_MAGIC FORMAT_VERSION stamped
        (h.id.device_id.bytes ++ (leBytes 4 h.id.segment_no ++ leBytes 4 s.data_end ++
          leBytes 8 h.id.sequence ++ leBytes 4 s.frame_count ++ leBytes 4 s.metadata_len ++
          leBytes 4 len) ++ leBytes 4 crc) =
        (pre ++ FOOTER_MAGIC ++ leBytes 4 FORMAT_VERSION ++ leBytes 4 stamped) ++
        (h.id.device_id.bytes ++ (leBytes 4 h.id.segment_no ++ leBytes 4 s.data_end ++
          leBytes 8 h.id.sequence ++ leBytes 4 s.frame_count ++ leBytes 4 s.metadata_len ++
          leBytes 4 len)) ++ leBytes 4 crc by simp [stampWith]]
    exact slice_append_mid _ _ _ (by simp [FOOTER_MAGIC]) (by simp [FOOTER_MAGIC, hid])
  rw [htake, hslice]
  simp [SegmentHeader.blankTrailer, stampWith, SegmentHeader.trailerFields, leBytes_zero]

theorem SegmentBuilder.checksum_footer (b : SegmentBuilder) : checksum b.footer = b.footerCrc := by
  rw [checksum_eq]
  unfold SegmentBuilder.footer SegmentHeader.trailer stamp
  rw [zeroed_trailer]
  rfl

/-- Sealing into a buffer that is large enough writes exactly the footer. -/
theorem SegmentBuilder.seal_into_eq (b : SegmentBuilder) (buffer : Bytes)
    (hs : b.header.seal_ = none) (hl : b.footer_len ≤ buffer.length) :
    b.seal_into buffer = .ok ({ b with header := b.sealed_header }, b.sealed_header,
      b.footer ++ buffer.drop b.footer_len) := by
  have hge : b.metadata.length + 64 ≤ b.footer_len := footer_len_ge _
  have hat : b.footer_len - FOOTER_TRAILER_LEN = b.padded.length := b.padded_length.symm
  have hbody : patch (zeros b.footer_len) 0 b.metadata = b.padded ++ zeros 64 := by
    rw [show zeros b.footer_len = [] ++ zeros b.footer_len from rfl,
      patch_zeros (k := 0) (by simp) (by simpa using (by omega : b.metadata.length ≤ b.footer_len))]
    unfold SegmentBuilder.padded
    rw [append_assoc b.metadata, zeros_append]
    simp only [nil_append, zeros_zero, Nat.zero_add]
    rw [show b.footer_len - 64 - b.metadata.length + 64 = b.footer_len - b.metadata.length by omega]
  have hcrc : checksum (b.padded ++ b.sealed_header.blankTrailer b.seal_ b.footer_len) =
      b.footerCrc := by
    rw [checksum_eq]
    unfold SegmentHeader.blankTrailer
    rw [zeroed_trailer]
    rfl
  unfold SegmentBuilder.seal_into
  rw [if_neg (by simp [hs]), if_neg (by omega)]
  simp only [hbody, patch_trailer _ _ _ _ hat, hcrc, put_footer_checksum _ _ _ _ _ hat,
    put_trailer_checksum _ _ _ _ _ hat]
  rfl

/-! ## Reading the footer back -/

section trailer

variable (h : SegmentHeader) (s : Seal) (len crc : Nat)

theorem SegmentHeader.trailer_id : slice (h.trailer s len crc) 16 32 = h.id.device_id.bytes := by
  unfold SegmentHeader.trailer
  rw [stamp_slice rfl _ _ (by omega)]
  unfold SegmentHeader.trailerFields
  rw [slice_append_left _ _ (by rw [h.id.device_id.len]),
    show 32 - 16 = h.id.device_id.bytes.length from h.id.device_id.len.symm]
  exact slice_self_length _

theorem SegmentHeader.slice_trailerFields {i j : Nat} (hi : 16 ≤ i) :
    slice (h.trailerFields s len crc) i j =
      slice (leBytes 4 h.id.segment_no ++ leBytes 4 s.data_end ++ leBytes 8 h.id.sequence ++
        leBytes 4 s.frame_count ++ leBytes 4 s.metadata_len ++ leBytes 4 len ++ leBytes 4 crc)
        (i - 16) (j - 16) := by
  unfold SegmentHeader.trailerFields
  rw [slice_append_right _ _ (by rw [h.id.device_id.len]; exact hi), h.id.device_id.len]

/-- What the fields of a trailer read as. -/
theorem SegmentHeader.trailer_fields :
    u32_at (h.trailer s len crc) 32 = h.id.segment_no % 2 ^ 32 ∧
    u32_at (h.trailer s len crc) 36 = s.data_end % 2 ^ 32 ∧
    u64_at (h.trailer s len crc) 40 = h.id.sequence % 2 ^ 64 ∧
    u32_at (h.trailer s len crc) 48 = s.frame_count % 2 ^ 32 ∧
    u32_at (h.trailer s len crc) 52 = s.metadata_len % 2 ^ 32 ∧
    u32_at (h.trailer s len crc) 56 = len % 2 ^ 32 ∧
    u32_at (h.trailer s len crc) 60 = crc % 2 ^ 32 := by
  refine ⟨stamp_u32 rfl _ _ (by omega) ?_, stamp_u32 rfl _ _ (by omega) ?_,
    stamp_u64 rfl _ _ (by omega) ?_, stamp_u32 rfl _ _ (by omega) ?_,
    stamp_u32 rfl _ _ (by omega) ?_, stamp_u32 rfl _ _ (by omega) ?_,
    stamp_u32 rfl _ _ (by omega) ?_⟩
  all_goals
    rw [h.slice_trailerFields s len crc (by omega)]
    rfl

end trailer

theorem Seal.ext_nums {a b : Seal} (h1 : a.data_end = b.data_end)
    (h2 : a.frame_count = b.frame_count) (h3 : a.metadata_len = b.metadata_len) : a = b := by
  cases a; cases b; simp_all

/-- A trailer with a sound geometry reads back from the last 64 bytes of any tail. -/
theorem FooterTrailer.decode_trailer (h : SegmentHeader) (s : Seal) (hs : h.seal_ = some s)
    (len crc : Nat) (pre : Bytes) (hg : s.geometry len h.segment_len = true)
    (h1 : s.frame_count < 2 ^ 32) (h2 : s.metadata_len < 2 ^ 32) (h3 : len < 2 ^ 32)
    (h4 : crc < 2 ^ 32) :
    FooterTrailer.decode (pre ++ h.trailer s len crc) h.segment_len h.len_u32 = .ok ⟨h, crc⟩ := by
  obtain ⟨f1, f2, f3, f4, f5, f6, f7⟩ := h.trailer_fields s len crc
  rw [Nat.mod_eq_of_lt h.id.no_u32] at f1
  rw [Nat.mod_eq_of_lt s.end_u32] at f2
  rw [Nat.mod_eq_of_lt h.id.seq_u64] at f3
  rw [Nat.mod_eq_of_lt h1] at f4
  rw [Nat.mod_eq_of_lt h2] at f5
  rw [Nat.mod_eq_of_lt h3] at f6
  rw [Nat.mod_eq_of_lt h4] at f7
  have hlen : (pre ++ h.trailer s len crc).length = pre.length + 64 := by simp
  have hdrop : (pre ++ h.trailer s len crc).drop
      ((pre ++ h.trailer s len crc).length - FOOTER_TRAILER_LEN) = h.trailer s len crc :=
    drop_left' (by rw [hlen]; simp [FOOTER_TRAILER_LEN])
  have hprefix : validate_prefix (h.trailer s len crc) FOOTER_MAGIC = .ok () :=
    validate_prefix_stamp rfl _
  have hid : Id16.from_bytes (slice (h.trailer s len crc) 16 32) = h.id.device_id := by
    rw [h.trailer_id, Id16.from_bytes_eq h.id.device_id.len]
  have hnew := @SegmentHeader.new_eq ⟨Id16.from_bytes (slice (h.trailer s len crc) 16 32),
    u32_at (h.trailer s len crc) 32, u64_at (h.trailer s len crc) 40, u32_at_lt _ _, u64_at_lt _ _⟩
    _ (f3 ▸ h.seq_pos : 0 < u64_at (h.trailer s len crc) 40) h.len_min h.len_aligned h.len_u32
  have hseal : (⟨u32_at (h.trailer s len crc) 36, u32_at (h.trailer s len crc) 48,
      u32_at (h.trailer s len crc) 52, u32_at_lt _ _⟩ : Seal) = s := Seal.ext_nums f2 f4 f5
  unfold FooterTrailer.decode
  rw [if_neg (by rw [hlen]; simp [FOOTER_TRAILER_LEN])]
  simp only [hdrop, hprefix, hnew, hseal, f6, f7]
  rw [if_neg (by simp [hg])]
  refine congrArg (fun x => Except.ok (FooterTrailer.mk x crc)) ?_
  exact SegmentHeader.ext_nums (SegmentId.ext_nums hid f1 f3) rfl hs.symm

/-- The builder's own accounting has the geometry that the trailer decoder asks for. -/
theorem SegmentBuilder.Counts.geometry (hb : b.Counts header limits ms) :
    b.seal_.geometry b.footer_len header.segment_len = true ∧ b.metadata.length < 2 ^ 32 ∧
      b.frame_count < 2 ^ 32 ∧ b.footer_len < 2 ^ 32 := by
  obtain ⟨s1, s2, s3, s4, s5⟩ := hb.run.sums
  have hroom := b.room
  have hlen := header.len_u32
  have hge := footer_len_ge b.metadata.length
  rw [hb.header_eq] at hroom
  rw [← hb.metadata] at s2 s3 s5
  rw [← hb.frame_count] at s1 s2
  have hend := hb.data_end
  have hnone : b.frame_count = 0 → framesLen ms = 0 := by
    rw [hb.frame_count]
    intro h
    rw [length_eq_zero_iff.mp h]
    rfl
  have hm : b.metadata.length % 2 ^ 32 = b.metadata.length := Nat.mod_eq_of_lt (by omega)
  refine ⟨?_, by omega, by omega, by unfold SegmentBuilder.footer_len; omega⟩
  unfold Seal.geometry SegmentBuilder.seal_
  simp only [hm, Bool.not_eq_true', decide_eq_false_iff_not, not_or, not_not, is_aligned_page]
  simp only [PAGE_SIZE, MIN_FRAME_METADATA_LEN, frame.HEADER_LEN, frame.DESCRIPTOR_LEN,
    decide_eq_decide]
  unfold SegmentBuilder.footer_len
  refine ⟨by omega, by omega, by omega, rfl, by omega, decide_eq_decide.mpr (by omega), by omega,
    by omega, by omega, by omega⟩

/-- The trailer of the footer reads back as the sealed header. -/
theorem SegmentBuilder.Counts.trailer (hb : b.Counts header limits ms) (pre : Bytes) :
    FooterTrailer.decode (pre ++ b.sealed_header.trailer b.seal_ b.footer_len b.footerCrc)
      header.segment_len header.len_u32 = .ok ⟨b.sealed_header, b.footerCrc⟩ := by
  obtain ⟨hg, h1, h2, h3⟩ := hb.geometry
  have hcrc : b.footerCrc < 2 ^ 32 := crc32c_lt _
  have hlen : b.sealed_header.segment_len = header.segment_len := by
    rw [← hb.header_eq]; rfl
  have := FooterTrailer.decode_trailer b.sealed_header b.seal_ rfl b.footer_len b.footerCrc pre
    (by rw [hlen]; exact hg) h2 (Nat.mod_lt _ (by omega)) h3 hcrc
  simpa only [hlen] using this

/-- A position inside the sealed data. -/
theorem SegmentHeader.position_sealed {h : SegmentHeader} {s : Seal} (hs : h.seal_ = some s)
    (h1 : s.data_end % 4096 = 0) (h2 : offset % 4096 = 0) (h3 : 4096 ≤ offset)
    (h4 : offset < s.data_end) :
    ∃ p, h.position offset = .ok p ∧ p.segment_seq = h.id.sequence ∧ p.offset = offset ∧
      p.available = s.data_end - offset := by
  unfold SegmentHeader.position
  rw [hs]
  exact ⟨_, FramePosition.new_eq h.id.seq_u64 s.end_u32 h1 h2 h3 h4, rfl, rfl, rfl⟩

/-- Both passes over the metadata of a run: `decode` accepts all of it, and `frames` gives it
back, each frame at its place before the sealed end. -/
theorem Run.reads_back (f : Footer) {s : Seal} (hs : f.header.seal_ = some s)
    (hlim : f.limits = limits) (h : Run limits f.header.id.sequence offset ms)
    (h1 : offset % 4096 = 0) (h2 : 4096 ≤ offset) (hend : s.data_end = offset + framesLen ms) :
    f.decode_frames ms.length (metadataBytes ms) offset = .ok ([], s.data_end) ∧
      ∃ frames, f.frames_from ms.length (metadataBytes ms) offset = some frames ∧
        frames.map (·.bytes) = ms.map (·.bytes) := by
  induction ms generalizing offset with
  | nil => exact ⟨by rw [hend]; rfl, [], rfl, rfl⟩
  | cons m ms ih =>
    obtain ⟨hm, hseq, hoff, hl, hms⟩ := h
    have hsum : framesLen (m :: ms) = m.header.frame_len + framesLen ms := by simp [framesLen]
    have hbytes : metadataBytes (m :: ms) = m.bytes ++ metadataBytes ms := by simp [metadataBytes]
    have hlen := Run.accepted_length hm
    have hpos := hl.frame_pos
    have halign := hl.frame_aligned
    have hrest := hms.sums.2.2.2.1
    rw [hsum] at hend
    obtain ⟨p, hp, p1, p2, p3⟩ := SegmentHeader.position_sealed hs (by omega) h1 h2
      (show offset < s.data_end by omega)
    have htake : (m.bytes ++ metadataBytes ms).take m.header.metadata_len = m.bytes :=
      take_left' hlen
    have hdrop : (m.bytes ++ metadataBytes ms).drop m.header.metadata_len = metadataBytes ms :=
      drop_left' hlen
    have hdecode := hm.decode_again htake (q := p) (by rw [p1, hseq]) (by rw [p2, hoff]) (by omega)
    obtain ⟨-, -, ds, hc, -⟩ := Metadata.decode_ok hdecode
    have hhead : FrameHeader.decode (m.bytes ++ metadataBytes ms) limits p = .ok
      (m.moved p).header :=
      FrameHeader.decode_again (h := (m.moved p).header) hc.header
        (take_append_of_le_length (by rw [hlen]; exact m.header.metadata_len_ge)) rfl rfl
        (show m.header.frame_len ≤ p.available by omega)
    obtain ⟨i1, frames, i2, i3⟩ := ih hms (by omega) (by omega) (by omega)
    constructor
    · rw [hbytes, length_cons]
      unfold Footer.decode_frames Footer.decode_next
      simp only [hp, hlim, hdecode, show (m.moved p).bytes = m.bytes from rfl,
        show (m.moved p).header.frame_len = m.header.frame_len from rfl]
      rw [drop_left' rfl]
      exact i1
    · refine ⟨m.moved p :: frames, ?_, by simp [i3, Metadata.moved]⟩
      rw [hbytes, length_cons]
      unfold Footer.frames_from
      simp only [hp, hlim, hhead, show (m.moved p).header.metadata_len = m.header.metadata_len from
        rfl,
        show (m.moved p).header.frame_len = m.header.frame_len from rfl, htake, hdrop, i2]
      rw [if_neg (by rw [length_append, hlen]; omega)]
      rfl

/-- The footer of a builder decodes under its sealed header, and gives its frames back. -/
theorem SegmentBuilder.Counts.decode_footer (hb : b.Counts header limits ms) (rest : Bytes) :
    ∃ f frames, Footer.decode (b.footer ++ rest) b.sealed_header limits = .ok f ∧
      f.frames = some frames ∧ frames.map (·.bytes) = ms.map (·.bytes) := by
  obtain ⟨-, hm32, -, hf32⟩ := hb.geometry
  have hge := footer_len_ge b.metadata.length
  have hroom := b.room
  have hmeta : b.seal_.metadata_len = b.metadata.length := Nat.mod_eq_of_lt hm32
  have hseal : b.sealed_header.seal_ = some b.seal_ := rfl
  have hlen : b.sealed_header.segment_len = header.segment_len := by
    rw [← hb.header_eq]; rfl
  have hid : b.sealed_header.id = header.id := by
    rw [← hb.header_eq]; rfl
  have hrange : b.sealed_header.footer_range =
      some (header.segment_len - b.footer_len, header.segment_len) := by
    unfold SegmentHeader.footer_range SegmentBuilder.footer_len
    rw [hseal, Option.map_some, hmeta, hlen]
  have hsub : header.segment_len - (header.segment_len - b.footer_len) = b.footer_len := by
    rw [hb.header_eq] at hroom
    unfold SegmentBuilder.footer_len
    omega
  have htake : (b.footer ++ rest).take b.footer_len = b.footer := take_left' b.footer_length
  have hmetaTake : b.footer.take b.metadata.length = b.metadata := by
    unfold SegmentBuilder.footer SegmentBuilder.padded
    rw [append_assoc]
    exact take_left' rfl
  have hpad : slice b.footer b.metadata.length (b.footer_len - FOOTER_TRAILER_LEN) =
      zeros (b.footer_len - 64 - b.metadata.length) := by
    unfold SegmentBuilder.footer SegmentBuilder.padded
    refine slice_append_mid _ _ _ rfl ?_
    simp only [zeros_length, FOOTER_TRAILER_LEN]
    unfold SegmentBuilder.footer_len
    omega
  have htrailer :
    FooterTrailer.decode b.footer b.sealed_header.segment_len b.sealed_header.len_u32 =
      .ok ⟨b.sealed_header, b.footerCrc⟩ := by
    have := hb.trailer b.padded
    simp only [hlen]
    exact this
  have hrun := hb.run
  rw [← hid] at hrun
  obtain ⟨h1, frames, h2, h3⟩ := Run.reads_back ⟨b.metadata, b.sealed_header, limits⟩ hseal rfl hrun
    (by omega) (by omega) hb.data_end
  rw [← hb.metadata, ← hb.frame_count] at h1 h2
  refine ⟨⟨b.metadata, b.sealed_header, limits⟩, frames, ?_, ?_, h3⟩
  · unfold Footer.decode
    rw [hseal, hrange]
    simp only [hsub, htake, htrailer, hmeta, hmetaTake, hpad]
    rw [if_neg (by simp), if_neg (by simp [b.checksum_footer]), if_neg (by simp),
      show b.seal_.frame_count = b.frame_count from rfl, show PAGE_SIZE = 4096 from rfl, h1]
    simp
  · unfold Footer.frames
    simp only [hseal, Option.bind_some]
    exact h2

/-- Sealing always succeeds and reads back: whatever frames were appended to a new builder, the
footer has room, `seal_into` fills any buffer that is large enough, the last 64 bytes decode to
the sealed header with the exact totals, and the footer decodes to the appended metadata. -/
theorem a_sealed_segment_reads_back (header : SegmentHeader) (limits : FrameLimits)
    (ms : List Metadata) (hacc : ∀ m ∈ ms, m.Accepted limits) {empty b : SegmentBuilder}
    (hnew : SegmentBuilder.new header = .ok empty) (happ : empty.append_all ms = .ok b) :
    b.data_end + b.footer_len ≤ header.segment_len ∧
    ∀ buffer : Bytes, b.footer_len ≤ buffer.length →
      ∃ closed sealed_header bytes trailer footer frames,
        b.seal_into buffer = .ok (closed, sealed_header, bytes) ∧
        bytes.length = buffer.length ∧
        FooterTrailer.decode (slice bytes (b.footer_len - 64) b.footer_len) header.segment_len
          header.len_u32 = .ok trailer ∧
        trailer.header = sealed_header ∧
        sealed_header.id = header.id ∧ sealed_header.segment_len = header.segment_len ∧
        sealed_header.seal_.map (fun s => (s.data_end, s.frame_count, s.metadata_len)) =
          some (4096 + framesLen ms, ms.length, (metadataBytes ms).length) ∧
        Footer.decode bytes sealed_header limits = .ok footer ∧
        footer.frames = some frames ∧ frames.map (·.bytes) = ms.map (·.bytes) := by
  obtain ⟨hactive, hempty⟩ := SegmentBuilder.counts_new hnew limits
  have hb : b.Counts header limits ms := hempty.append_all hacc happ
  have hroom := b.room
  rw [hb.header_eq] at hroom
  refine ⟨hroom, fun buffer hbuf => ?_⟩
  obtain ⟨footer, frames, hf1, hf2, hf3⟩ := hb.decode_footer (buffer.drop b.footer_len)
  have hs : b.header.seal_ = none := by rw [hb.header_eq]; exact hactive
  have hge : b.metadata.length + 64 ≤ b.footer_len := footer_len_ge _
  have htail : slice (b.footer ++ buffer.drop b.footer_len) (b.footer_len - 64) b.footer_len =
      b.sealed_header.trailer b.seal_ b.footer_len b.footerCrc := by
    unfold SegmentBuilder.footer
    exact slice_append_mid _ _ _ b.padded_length.symm
      (by rw [b.padded_length, SegmentHeader.trailer_length]; omega)
  refine ⟨_, _, _, ⟨b.sealed_header, b.footerCrc⟩, footer, frames, b.seal_into_eq buffer hs hbuf,
    ?_, ?_, rfl, ?_, ?_, ?_, hf1, hf2, hf3⟩
  · rw [length_append, b.footer_length, length_drop]
    omega
  · rw [htail]
    exact hb.trailer []
  · rw [← hb.header_eq]; rfl
  · rw [← hb.header_eq]; rfl
  · have hmeta : b.seal_.metadata_len = b.metadata.length := Nat.mod_eq_of_lt hb.geometry.2.1
    rw [← hb.data_end, ← hb.frame_count, ← hb.metadata, ← hmeta]
    rfl

/-- A segment with two tombstones in it is sealed and gives the frames back. -/
theorem two_sealed_tombstones_read_back :
    (∀ m ∈ frame.twoFrames, m.Accepted frame.onePage) ∧ ∃ empty b : SegmentBuilder,
      SegmentBuilder.new fourPages = .ok empty ∧ empty.append_all frame.twoFrames = .ok b ∧
      ∃ closed sealed_header bytes footer frames,
        b.seal_into (zeros b.footer_len) = .ok (closed, sealed_header, bytes) ∧
        Footer.decode bytes sealed_header frame.onePage = .ok footer ∧
        footer.frames = some frames ∧ frames.map (·.bytes) = frame.twoFrames.map (·.bytes) := by
  have hacc : ∀ img : frame.FrameImage frame.onePage, img.metadata.Accepted frame.onePage :=
    fun img => ⟨img.metadata.bytes, _, img.metadata_decode
      (take_of_length_le (Nat.le_of_eq img.metadata_bytes_length))
      (Nat.le_of_eq img.metadata_bytes_length.symm)⟩
  have hm : ∀ m ∈ frame.twoFrames, m.Accepted frame.onePage := by
    simp only [frame.twoFrames, forall_mem_cons]
    exact ⟨hacc _, hacc _, fun _ h => absurd h not_mem_nil⟩
  obtain ⟨empty, hempty, happ⟩ : ∃ empty, SegmentBuilder.new fourPages = .ok empty ∧
      (empty.append_all frame.twoFrames).isOk = true := by
    apply exists_of_any
    decide +kernel
  obtain ⟨b, happ⟩ := exists_of_isOk happ
  obtain ⟨-, h⟩ := a_sealed_segment_reads_back fourPages frame.onePage frame.twoFrames hm hempty
    happ
  obtain ⟨closed, sealed_header, bytes, -, footer, frames, h1, -, -, -, -, -, -, h2, h3, h4⟩ :=
    h (zeros b.footer_len) (by simp)
  exact ⟨hm, empty, b, hempty, happ, closed, sealed_header, bytes, footer, frames, h1, h2, h3, h4⟩

end moat_engine.segment
