-- The append headroom of a disk: what `write_cost` charges for a value against
-- the segments that the frames of `Session::write` fill.
import Moat.Layout
import Moat.PipelineWrites
import Moat.StoreSession

namespace moat_server.storage

open byte_list moat_common List
open moat_engine.engine (Layout)
open moat_engine.frame (FrameBuilder FrameImage FrameLimits FramePosition Metadata PreparedFrame
  payloadEnd preparedImage preparedLen preparedMetadataLen preparedMetadataLen_eq
  preparedValueAt prepared_bounds)
open moat_engine.pipeline (Encode encode_frame encode_prepared)
open moat_engine.segment (FrameLens SegmentBuilder)

/-! ## Costs -/

def frame_error (e : moat_engine.frame.Error) : Error := .Engine (.Pipeline (.Frame e))

/-- An operation of a `u64` that saturates. -/
def saturated (n : Nat) : Nat := min n (2 ^ 64 - 1)

/-- Conservative bytes for one frame, its footer metadata and allocation headers. -/
def write_cost (l : Layout) (len : Nat) : Except Error Nat :=
  match PreparedFrame.required_len l.limits len with
  | .error e => .error (frame_error e)
  | .ok frame => .ok (saturated (saturated (frame * 2) + 3 * PAGE_SIZE))

variable {l : Layout} {len cost : Nat} {buffer value : Bytes}

theorem write_cost_ok (h : write_cost l len = .ok cost) :
    PreparedFrame.required_len l.limits len = .ok (preparedLen len) ∧
      cost = 2 * preparedLen len + 12288 := by
  unfold write_cost at h
  split at h
  · cases h
  rename_i frame hr
  obtain ⟨rfl, -, hle⟩ := PreparedFrame.required_len_ok hr
  have hu := l.limits.frame_u32
  refine ⟨hr, ?_⟩
  rw [← Except.ok.inj h]
  unfold saturated
  simp only [PAGE_SIZE]
  omega

/-! ## Frames of a session -/

/-- A pool that has a buffer for every frame, with anything in it. -/
structure Pool where
  alloc : Nat → Bytes
  enough : ∀ n, n ≤ (alloc n).length

/-- The frame that `Session::write` gives to the engine: a large value is copied into a prepared
buffer, a small one goes through a builder. -/
def Session.write_frame (limits : FrameLimits) (id : ChunkId) (lsn : UInt64) (value : Bytes)
    (pool : Pool) : Except Error (Encode × Bytes) :=
  if 65536 ≤ value.length then
    match PreparedFrame.required_len limits value.length with
    | .error e => .error (frame_error e)
    | .ok required =>
      let buffer := pool.alloc required
      match h : PreparedFrame.new limits value.length buffer with
      | .error e => .error (frame_error e)
      | .ok frame =>
        .ok (encode_prepared id lsn value.length required,
          (frame.fill value (moat_engine.pipeline.in_place.new_ok h).2.2.2.2.symm).bytes ++
            buffer.drop required)
  else
    match (FrameBuilder.new limits).push id lsn value with
    | .error e => .error (frame_error e)
    | .ok frame => .ok (encode_frame frame, pool.alloc frame.encoded_len)

/-- The part of a write that concerns the active segment. -/
def place (limits : FrameLimits) (segment : SegmentBuilder) (encode : Encode) (buffer : Bytes) :
    Except moat_engine.pipeline.Error SegmentBuilder :=
  match encode segment limits buffer with
  | .error e => .error e
  | .ok (position, buffer) =>
    match Metadata.decode buffer limits position with
    | .error e => .error (.Frame e)
    | .ok metadata =>
      match segment.append metadata with
      | .error e => .error (.Segment e)
      | .ok segment => .ok segment

theorem place_eq {limits : FrameLimits} {segment segment' : SegmentBuilder} {encode : Encode}
    {bytes : Bytes} {position : FramePosition} {metadata : Metadata}
    (he : encode segment limits buffer = .ok (position, bytes))
    (hd : Metadata.decode bytes limits position = .ok metadata)
    (ha : segment.append metadata = .ok segment') :
    place limits segment encode buffer = .ok segment' := by
  unfold place
  simp only [he, hd, ha]

/-- An encoder that puts a frame of `len` bytes, `metadata_len` of them metadata, at the end of any
segment that has room for it. -/
structure Encodes (limits : FrameLimits) (encode : Encode) (buffer : Bytes)
    (len metadata_len : Nat) :
    Prop where
  lens : FrameLens len metadata_len
  full : ∀ (segment : SegmentBuilder) e, segment.position len metadata_len = .error e →
    encode segment limits buffer = .error (.Segment e)
  image : ∀ (segment : SegmentBuilder) position, segment.position len metadata_len = .ok position →
    ∃ (img : FrameImage limits) (rest : Bytes),
      encode segment limits buffer = .ok (position, img.bytes ++ rest) ∧ img.position = position ∧
      img.frame_len = len ∧ img.metadata_len = metadata_len

/-- Room for the frame and for the footer with its metadata. -/
def Fits (segment : SegmentBuilder) (len metadata_len : Nat) : Prop :=
  segment.data_end + len + moat_engine.segment.footer_len (segment.metadata.length + metadata_len) ≤
    segment.header.segment_len

namespace Encodes

variable {limits : FrameLimits} {encode : Encode} {buffer : Bytes} {len metadata_len : Nat}

theorem place_fits (h : Encodes limits encode buffer len metadata_len) {segment : SegmentBuilder}
    (hs : segment.header.seal_ = none) (hf : Fits segment len metadata_len) :
    ∃ segment', place limits segment encode buffer = .ok segment' ∧
      segment'.header = segment.header ∧ segment'.data_end = segment.data_end + len ∧
      segment'.metadata.length = segment.metadata.length + metadata_len := by
  obtain ⟨position, hp⟩ := (segment.position_ok_iff hs h.lens).mpr hf
  obtain ⟨img, rest, he, hpos, hlen, hmeta⟩ := h.image segment position hp
  have hmb : img.metadata.bytes.length = metadata_len := by
    rw [← hmeta]
    exact img.metadata_bytes_length
  have hdecode : Metadata.decode (img.bytes ++ rest) limits position = .ok img.metadata := by
    rw [← hpos]
    refine img.metadata_decode ?_ ?_
    · rw [hmeta, ← hmb]
      show (img.metadata.bytes ++ img.payload ++ rest).take img.metadata.bytes.length = _
      rw [append_assoc]
      exact take_left' rfl
    · have h1 := img.bytes_length
      have h2 : img.metadata_len ≤ img.frame_len := Nat.le_add_right _ _
      rw [length_append]
      omega
  have hlen' : img.metadata.header.frame_len = len := hlen
  have hpos' : img.metadata.header.position = position := hpos
  obtain ⟨-, -, -, hseq, hoff, -⟩ := SegmentBuilder.position_ok hp
  obtain ⟨segment', ha⟩ := SegmentBuilder.append_fits (m := img.metadata) hs
    (by rw [hlen', hmb]; exact h.lens) (by rw [hpos', hseq]) (by rw [hpos', hoff])
    (by rw [hlen', hmb]; exact hf)
  obtain ⟨h1, -, h2, h3, -⟩ := SegmentBuilder.append_ok ha
  refine ⟨segment', ?_, h1, by rw [h2, hlen'], by rw [h3, length_append, hmb]⟩
  exact place_eq he hdecode ha

theorem place_full (h : Encodes limits encode buffer len metadata_len) {segment : SegmentBuilder}
    (hs : segment.header.seal_ = none) (hf : ¬ Fits segment len metadata_len) :
    ∃ required capacity, place limits segment encode buffer =
      .error (.Segment (.Full required capacity)) := by
  have hfull := segment.position_full hs h.lens (Nat.lt_of_not_le hf)
  unfold place
  rw [h.full segment _ hfull]
  exact ⟨_, _, rfl⟩

end Encodes

section prepared

variable {limits : FrameLimits} (position : FramePosition) (id : ChunkId) (lsn : UInt64)
  (value : Bytes) (hv : value.length ≤ limits.max_value_len)
  (hl : preparedLen value.length ≤ limits.max_frame_len)
  (room : preparedLen value.length ≤ position.available)

theorem preparedImage_metadata_len :
    (preparedImage position id lsn value hv hl room).metadata_len = preparedMetadataLen
    value.length := by
  simp [FrameImage.metadata_len, preparedImage, moat_engine.frame.inputs, preparedMetadataLen_eq]

theorem preparedImage_frame_len :
    (preparedImage position id lsn value hv hl room).frame_len = preparedLen value.length := by
  rw [FrameImage.frame_len, preparedImage_metadata_len,
    ← moat_engine.frame.preparedPayload_length value]
  rfl

end prepared

theorem encode_prepared_encodes {limits : FrameLimits} {id : ChunkId} {lsn : UInt64}
    (hreq : PreparedFrame.required_len limits value.length = .ok (preparedLen value.length))
    (hle : preparedLen value.length ≤ buffer.length)
    (hvalue : slice buffer (preparedValueAt value.length)
      (preparedValueAt value.length + value.length) = value) :
    Encodes limits (encode_prepared id lsn value.length (preparedLen value.length)) buffer
      (preparedLen value.length) (preparedMetadataLen value.length) := by
  obtain ⟨-, hv, hl⟩ := PreparedFrame.required_len_ok hreq
  obtain ⟨frame, hnew, hlen⟩ := PreparedFrame.new_ok hreq hle
  have hmeta : frame.metadata_len = preparedMetadataLen value.length := by
    rw [PreparedFrame.metadata_len, hlen]
  refine ⟨moat_engine.engine.prepared_lens hreq, ?_, ?_⟩
  · intro segment e he
    unfold encode_prepared
    rw [hnew]
    simp only [hmeta, he]
  · intro segment position hp
    obtain ⟨-, -, hroom, -, -, havail⟩ := SegmentBuilder.position_ok hp
    have hav : preparedLen value.length ≤ position.available := by
      rw [havail]
      omega
    refine ⟨preparedImage position id lsn value hv hl hav, buffer.drop (preparedLen value.length),
      ?_,
      rfl, ?_, ?_⟩
    · unfold encode_prepared
      rw [hnew]
      simp only [hmeta, hp]
      rw [moat_engine.pipeline.in_place.finish_payload hnew hvalue position id lsn hv hl hav]
      simp only [FrameImage.bytes_length, preparedImage_frame_len]
    · exact preparedImage_frame_len ..
    · exact preparedImage_metadata_len ..

theorem encode_frame_encodes {frame : FrameBuilder} (hne : frame.records ≠ [])
    (hle : frame.encoded_len ≤ buffer.length) :
    Encodes frame.limits (encode_frame frame) buffer frame.encoded_len frame.metadata_len := by
  refine ⟨moat_engine.engine.frame_lens hne, ?_, ?_⟩
  · intro segment e he
    unfold encode_frame
    rw [he]
  · intro segment position hp
    obtain ⟨-, -, hroom, -, -, havail⟩ := SegmentBuilder.position_ok hp
    have hav : frame.encoded_len ≤ position.available := by
      rw [havail]
      omega
    refine ⟨frame.image hne position hav, buffer.drop frame.encoded_len, ?_, rfl,
      frame.image_frame_len .., ?_⟩
    · unfold encode_frame
      rw [hp]
      simp only [frame.encode_into_eq hne position hav buffer hle]
    · rw [frame.metadata_len_eq, ← frame.inputs_image hne position hav]
      rfl

/-- The first value of an empty payload starts at once. -/
theorem place_first (len : Nat) : (moat_engine.frame.place 0 len).2 = len := by
  by_cases h : len = 0
  · rw [h]
    rfl
  · have := moat_engine.frame.place_spec 0 len (by omega)
    omega

/-- A frame of one small value is never longer than the frame prepared for it. -/
theorem push_len (limits : FrameLimits) (id : ChunkId) (lsn : UInt64)
    (hreq : PreparedFrame.required_len limits value.length = .ok (preparedLen value.length)) :
    ∃ frame, (FrameBuilder.new limits).push id lsn value = .ok frame ∧ frame.limits = limits ∧
      frame.records ≠ [] ∧ frame.encoded_len ≤ preparedLen value.length ∧
      frame.metadata_len = preparedMetadataLen value.length := by
  obtain ⟨-, hv, hl⟩ := PreparedFrame.required_len_ok hreq
  obtain ⟨input, hin, hval⟩ : ∃ input : moat_engine.frame.Input,
    (FrameBuilder.new limits).push id lsn value =
      FrameBuilder.admit (FrameBuilder.new limits) input ∧
      input.value = value := ⟨_, rfl, rfl⟩
  have hlen : align_up (payloadEnd (moat_engine.frame.metadataLen [input]) [input]) PAGE_SIZE ≤
      preparedLen value.length := by
    have h1 := moat_engine.frame.payloadEnd_upper (moat_engine.frame.metadataLen [input]) [input]
    have h2 : payloadEnd 0 [input] = value.length := by
      rw [moat_engine.frame.payloadEnd_cons, moat_engine.frame.payloadEnd_nil, hval]
      exact place_first _
    rw [h2, preparedMetadataLen_eq, hval] at h1
    rw [preparedMetadataLen_eq, hval]
    refine h1.trans (Nat.le_of_eq ?_)
    unfold preparedLen
    split
    · rename_i h0
      rw [h0]
      rfl
    · generalize preparedMetadataLen value.length = m
      simp only [align_up_page]
      omega
  obtain ⟨frame, hf⟩ := ((FrameBuilder.new limits).admit_ok_iff input).mpr
    ⟨by rw [hval]; exact hv, hlen.trans hl⟩
  obtain ⟨hlim, hrec⟩ := FrameBuilder.admit_ok hf
  have hrec : frame.records = [input] := hrec
  have hne : frame.records ≠ [] := by
    rw [hrec]
    simp
  refine ⟨frame, hin.trans hf, hlim, hne, ?_, ?_⟩
  · unfold FrameBuilder.encoded_len
    rw [if_neg hne, frame.metadata_len_eq, hrec]
    exact hlen
  · rw [frame.metadata_len_eq, hrec, preparedMetadataLen_eq, hval]

/-- What a session writes for a value that `write_cost` has a price for. -/
theorem write_frame_encodes (limits : FrameLimits) (id : ChunkId) (lsn : UInt64) (pool : Pool)
    (hreq : PreparedFrame.required_len limits value.length = .ok (preparedLen value.length)) :
    ∃ encode buffer len, Session.write_frame limits id lsn value pool = .ok (encode, buffer) ∧
      Encodes limits encode buffer len (preparedMetadataLen value.length) ∧
      len ≤ preparedLen value.length := by
  unfold Session.write_frame
  split
  · rw [hreq]
    simp only
    split
    · rename_i e he
      obtain ⟨frame, hnew, -⟩ := PreparedFrame.new_ok hreq (pool.enough _)
      rw [hnew] at he
      cases he
    · rename_i frame hnew
      obtain ⟨-, -, hle, hbytes, hlen⟩ := moat_engine.pipeline.in_place.new_ok hnew
      have hfill : (frame.fill value hlen.symm).bytes.length = preparedLen value.length := by
        rw [PreparedFrame.len_eq]
        exact congrArg preparedLen hlen
      refine ⟨_, _, _, rfl, encode_prepared_encodes hreq ?_ ?_, le_rfl⟩
      · rw [length_append, hfill]
        exact Nat.le_add_right _ _
      · have := frame.fill_value value hlen.symm
        generalize (frame.fill value hlen.symm).bytes = bytes at this hfill ⊢
        rw [frame.value_at_eq, hlen] at this
        rw [slice_append_left _ _ (by rw [hfill]; exact (prepared_bounds value.length).2.1), this]
  · obtain ⟨frame, hpush, hlim, hne, hlen, hmeta⟩ := push_len limits id lsn hreq
    rw [hpush]
    have := encode_frame_encodes hne (pool.enough frame.encoded_len)
    rw [hlim, hmeta] at this
    exact ⟨_, _, _, rfl, this, hlen⟩

/-! ## Writing a list of values -/

/-- A write, and the slot that the engine takes if it needs a fresh one. -/
structure Put where
  id : ChunkId
  lsn : UInt64
  value : Bytes
  slot : Nat

/-- The active segment, and how many fresh ones were opened. -/
structure Appender where
  active : Option SegmentBuilder
  opened : Nat

/-- The frame goes into a fresh segment. -/
def Appender.roll (a : Appender) (l : Layout) (slot : Nat) (encode : Encode) (buffer : Bytes) :
    Except Error Appender :=
  match l.header slot with
  | .error e => .error (.Engine e)
  | .ok header =>
    match SegmentBuilder.new header with
    | .error e => .error (.Engine (.Segment e))
    | .ok fresh =>
      match place l.limits fresh encode buffer with
      | .error e => .error (.Engine (.Pipeline e))
      | .ok segment => .ok ⟨some segment, a.opened + 1⟩

/-- One write, tried again in a fresh segment when the active one is full, or when there is none. -/
def Appender.write (l : Layout) (pool : Pool) (a : Appender) (w : Put) : Except Error Appender :=
  match Session.write_frame l.limits w.id w.lsn w.value pool with
  | .error e => .error e
  | .ok (encode, buffer) =>
    match a.active with
    | none => a.roll l w.slot encode buffer
    | some segment =>
      match place l.limits segment encode buffer with
      | .ok segment => .ok { a with active := some segment }
      | .error (.Segment (.Full _ _)) => a.roll l w.slot encode buffer
      | .error e => .error (.Engine (.Pipeline e))

def Appender.run (l : Layout) (pool : Pool) (a : Appender) (puts : List Put) :
    Except Error Appender :=
  puts.foldlM (Appender.write l pool) a

/-- An active segment of the layout. -/
def Active (l : Layout) (segment : SegmentBuilder) : Prop :=
  segment.header.segment_len = l.segment_size ∧ segment.header.seal_ = none

/-- Every fresh segment but the last is paid for, and so is what the last one holds. -/
structure Paid (l : Layout) (cost : Nat) (a : Appender) : Prop where
  active : ∀ segment, a.active = some segment → Active l segment
  paid : 1 ≤ a.opened → ∃ segment, a.active = some segment ∧
    (a.opened - 1) * l.segment_size + segment.data_end + segment.metadata.length ≤ cost

/-- Up to 14 MiB, a frame has at most 1024 bytes of metadata. -/
theorem preparedMetadataLen_le (h : len ≤ 14 * 2 ^ 20) : preparedMetadataLen len ≤ 1024 := by
  unfold preparedMetadataLen
  rw [block_count_eq (by omega)]
  simp only [moat_engine.frame.HEADER_LEN, moat_engine.frame.DESCRIPTOR_LEN]
  omega

theorem fresh_fits {slot : Nat} (hs : slot < l.segments) {encode : Encode}
    {metadata_len : Nat} (he : Encodes l.limits encode buffer len metadata_len)
    (hlen : len ≤ l.limits.max_frame_len) (hm : metadata_len ≤ 1024) (a : Appender) :
    ∃ segment, a.roll l slot encode buffer = .ok ⟨some segment, a.opened + 1⟩ ∧ Active l segment ∧
      segment.data_end = 4096 + len ∧ segment.metadata.length = metadata_len := by
  obtain ⟨fresh, hf⟩ : ∃ fresh, SegmentBuilder.new (l.headerOf slot hs) = .ok fresh := ⟨_, rfl⟩
  have hfresh : fresh.header = l.headerOf slot hs ∧ fresh.data_end = 4096 ∧
    fresh.metadata = [] := by
    cases hf
    exact ⟨rfl, rfl, rfl⟩
  obtain ⟨h1, h2, h3⟩ := hfresh
  have hseal : fresh.header.seal_ = none := by
    rw [h1]
    rfl
  have hsize : fresh.header.segment_len = l.segment_size := by
    rw [h1]
    rfl
  have hroom := l.frame_room
  have hfits : Fits fresh len metadata_len := by
    unfold Fits
    rw [hsize, h2, h3, moat_engine.segment.footer_len_eq, length_nil]
    omega
  obtain ⟨segment, hp, k1, k2, k3⟩ := he.place_fits hseal hfits
  refine ⟨segment, ?_, ⟨by rw [k1, hsize], by rw [k1, hseal]⟩, by rw [k2, h2], by rw [k3, h3]; simp⟩
  unfold Appender.roll
  rw [l.header_eq hs]
  simp only [hf, hp]

/-- One write keeps the account: it fits, or what it closes is paid by the frames on both sides. -/
theorem Paid.write {a : Appender} {w : Put} {c : Nat} (h : Paid l cost a)
    (pool : Pool) (hs : w.slot < l.segments) (hv : w.value.length ≤ 14 * 2 ^ 20)
    (hc : write_cost l w.value.length = .ok c) :
    ∃ a', Appender.write l pool a w = .ok a' ∧ Paid l (cost + c) a' := by
  obtain ⟨hreq, rfl⟩ := write_cost_ok hc
  obtain ⟨encode, buffer, len, hw, he, hle⟩ := write_frame_encodes l.limits w.id w.lsn pool hreq
  have hm := preparedMetadataLen_le hv
  have hmax : len ≤ l.limits.max_frame_len := hle.trans (PreparedFrame.required_len_ok hreq).2.2
  obtain ⟨fresh, hroll, hact, hend, hmeta⟩ := fresh_fits hs he hmax hm a
  unfold Appender.write
  simp only [hw]
  cases ha : a.active with
  | none =>
    have h0 : a.opened = 0 := by
      by_contra hn
      obtain ⟨segment, hsome, -⟩ := h.paid (by omega)
      rw [ha] at hsome
      cases hsome
    refine ⟨_, hroll, ?_, ?_⟩
    · rintro segment ⟨⟩
      exact hact
    · intro _
      refine ⟨fresh, rfl, ?_⟩
      simp only [h0, hend, hmeta]
      omega
  | some segment =>
    obtain ⟨hsize, hseal⟩ := h.active segment ha
    by_cases hf : Fits segment len (preparedMetadataLen w.value.length)
    · obtain ⟨segment', hp, k1, k2, k3⟩ := he.place_fits hseal hf
      simp only [hp]
      refine ⟨_, rfl, ?_, ?_⟩
      · rintro _ ⟨⟩
        exact ⟨by rw [k1, hsize], by rw [k1, hseal]⟩
      · intro ho
        obtain ⟨_, hsome, hpaid⟩ := h.paid ho
        rw [ha] at hsome
        cases hsome
        refine ⟨segment', rfl, ?_⟩
        simp only [k2, k3]
        omega
    · obtain ⟨required, capacity, hp⟩ := he.place_full hseal hf
      simp only [hp]
      refine ⟨_, hroll, ?_, ?_⟩
      · rintro segment ⟨⟩
        exact hact
      · intro _
        refine ⟨fresh, rfl, ?_⟩
        simp only [hend, hmeta]
        by_cases ho : 1 ≤ a.opened
        · obtain ⟨_, hsome, hpaid⟩ := h.paid ho
          rw [ha] at hsome
          cases hsome
          -- the frame and the footer behind it do not fit, so the closed segment is nearly full
          have hover : l.segment_size < segment.data_end + len + segment.metadata.length +
              preparedMetadataLen w.value.length + 4159 := by
            unfold Fits at hf
            rw [hsize, moat_engine.segment.footer_len_eq] at hf
            omega
          have hsplit : (a.opened + 1 - 1) * l.segment_size =
              (a.opened - 1) * l.segment_size + l.segment_size := by
            rw [← Nat.succ_mul]
            congr 1
            omega
          omega
        · have h0 : a.opened = 0 := by omega
          simp only [h0]
          omega

theorem Paid.run {pool : Pool} {a : Appender} (h : Paid l cost a)
    {puts : List Put} (hputs : ∀ w ∈ puts, w.slot < l.segments ∧ w.value.length ≤ 14 * 2 ^ 20)
    {costs : List Nat} (hcosts : puts.mapM (fun w => write_cost l w.value.length) = .ok costs) :
    ∃ a', Appender.run l pool a puts = .ok a' ∧ Paid l (cost + costs.sum) a' := by
  induction puts generalizing a cost costs with
  | nil =>
    cases hcosts
    exact ⟨a, rfl, h⟩
  | cons w puts ih =>
    obtain ⟨hs, hv⟩ := hputs w mem_cons_self
    rw [mapM_cons] at hcosts
    cases hc : write_cost l w.value.length with
    | error =>
      rw [hc] at hcosts
      cases hcosts
    | ok c =>
      cases hcs : puts.mapM (fun w => write_cost l w.value.length) with
      | error =>
        rw [hc, hcs] at hcosts
        cases hcosts
      | ok cs =>
        rw [hc, hcs] at hcosts
        obtain rfl : c :: cs = costs := Except.ok.inj hcosts
        obtain ⟨a₁, hw, h₁⟩ := h.write pool hs hv hc
        obtain ⟨a', hr, h'⟩ := ih h₁ (fun w hm => hputs w (mem_cons_of_mem _ hm)) hcs
        refine ⟨a', ?_, ?_⟩
        · unfold Appender.run
          rw [foldlM_cons, hw]
          exact hr
        · rw [sum_cons, ← Nat.add_assoc]
          exact h'

/-- A list of values costs at least the segments that it fills: with `m` fresh segments, all but
one of them are less than the sum of the costs. So writes that the headroom admits leave the reserve
alone, and every write lands. -/
theorem costs_cover_the_segments {l : Layout} (pool : Pool) {start : Option SegmentBuilder}
    (hstart : ∀ segment, start = some segment → Active l segment) {puts : List Put}
    (hputs : ∀ w ∈ puts, w.slot < l.segments ∧ w.value.length ≤ 14 * 2 ^ 20) {costs : List Nat}
    (hcosts : puts.mapM (fun w => write_cost l w.value.length) = .ok costs) :
    ∃ a, Appender.run l pool ⟨start, 0⟩ puts = .ok a ∧
      (1 ≤ a.opened → (a.opened - 1) * l.segment_size < costs.sum) ∧
      ∀ free_segments reserve_segments,
        reserve_segments * l.segment_size + costs.sum ≤ free_segments * l.segment_size →
        a.opened + reserve_segments ≤ free_segments := by
  have hnone : Paid l 0 ⟨start, 0⟩ := ⟨hstart, (fun h => absurd h (by simp))⟩
  obtain ⟨a, hrun, hpaid⟩ := hnone.run hputs hcosts
  rw [Nat.zero_add] at hpaid
  have hsize : 0 < l.segment_size := Nat.lt_of_lt_of_le (by decide) l.size_min
  have hcover : 1 ≤ a.opened → (a.opened - 1) * l.segment_size < costs.sum := by
    intro ho
    obtain ⟨segment, -, hle⟩ := hpaid.paid ho
    have := segment.end_ge
    omega
  refine ⟨a, hrun, hcover, ?_⟩
  intro free_segments reserve_segments hroom
  by_cases ho : 1 ≤ a.opened
  · have hlt :
      (a.opened - 1 + reserve_segments) * l.segment_size < free_segments * l.segment_size := by
      have := hcover ho
      rw [Nat.add_mul]
      omega
    have := Nat.lt_of_mul_lt_mul_right hlt
    omega
  · have : reserve_segments * l.segment_size ≤ free_segments * l.segment_size := by omega
    have := Nat.le_of_mul_le_mul_right this hsize
    omega

/-- Buffers of zeros. -/
def zeroPool : Pool := ⟨zeros, fun n => by simp⟩

/-- Four one-byte values, three to a segment of five pages. -/
def fourValues : List Put :=
  [⟨Id16.from_bytes [7], 1, [1], 0⟩, ⟨Id16.from_bytes [8], 2, [1], 0⟩,
    ⟨Id16.from_bytes [9], 3, [1], 0⟩, ⟨Id16.from_bytes [10], 4, [1], 1⟩]

/-- They fill the first of two segments, and the second one is paid for. -/
theorem four_values_are_covered :
    ∃ (l : Layout) (a : Appender),
      Layout.new 49152 moat_engine.engine.fivePages 1 (by decide) = .ok l ∧ l.segments = 2 ∧
      Appender.run l zeroPool ⟨none, 0⟩ fourValues = .ok a ∧ a.opened = 2 ∧
      (a.opened - 1) * l.segment_size < [28672, 28672, 28672, 28672].sum := by
  obtain ⟨l, hl, hseg, hopened⟩ :
      ∃ l, Layout.new 49152 moat_engine.engine.fivePages 1 (by decide) = .ok l ∧ l.segments = 2 ∧
        (Appender.run l zeroPool ⟨none, 0⟩ fourValues).toOption.map Appender.opened = some 2 := by
    apply exists_of_any
    set_option maxRecDepth 10000 in
    decide +kernel
  obtain ⟨-, -, -, hlim, -⟩ := Layout.new_ok hl
  have hcost : write_cost l 1 = .ok 28672 := by
    unfold write_cost
    rw [hlim]
    rfl
  have hputs : ∀ w ∈ fourValues, w.slot < l.segments ∧ w.value.length ≤ 14 * 2 ^ 20 := by
    rw [hseg]
    decide
  have hcosts : fourValues.mapM (fun w => write_cost l w.value.length) =
      .ok [28672, 28672, 28672, 28672] := by
    simp [fourValues, mapM_cons, hcost]
    rfl
  have hstart : ∀ segment, (none : Option SegmentBuilder) = some segment → Active l segment := nofun
  obtain ⟨a, hrun, hcover, -⟩ := costs_cover_the_segments zeroPool hstart hputs hcosts
  rw [hrun] at hopened
  have hopened : a.opened = 2 := Option.some.inj hopened
  exact ⟨l, a, hl, hseg, hrun, hopened, hcover (by omega)⟩

end moat_server.storage
