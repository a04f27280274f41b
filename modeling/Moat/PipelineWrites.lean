-- Writes that change the pipeline and the caller's buffer in place, with every
-- point at which the source may give up (`pipeline/write.rs`), memory included.
-- What a rejected write leaves behind, and where the accepted ones go.
import Moat.FrameAccept
import Moat.FrameWrite
import Moat.Outcome
import Moat.PipelineRuns
import Moat.PipelineSegment
import Moat.SegmentSeal

namespace moat_engine.frame

open byte_list moat_common moat_engine.codec

/-! ## Decoding under other limits -/

/-- What an accepted header holds is read from its bytes. -/
theorem FrameHeader.decode_value {bytes : Bytes} {limits : FrameLimits} {p : FramePosition}
    {h : FrameHeader} (hd : FrameHeader.decode bytes limits p = .ok h) :
    h = ⟨p, u32_at (slice bytes 0 64) 28, u32_at (slice bytes 0 64) 32,
      u32_at (slice bytes 0 64) 40, u32_at (slice bytes 0 64) 44⟩ := by
  unfold FrameHeader.decode at hd
  simp only at hd
  repeat' split at hd
  all_goals cases hd
  rfl

/-- Limits only turn a frame away: two that accept it read the same. -/
theorem Metadata.decode_limits {buf : Bytes} {limits limits' : FrameLimits} {p : FramePosition}
    {m m' : Metadata} (h : Metadata.decode buf limits p = .ok m)
    (h' : Metadata.decode buf limits' p = .ok m') : m = m' := by
  obtain ⟨hp, hb, ds, hc, -⟩ := Metadata.decode_ok h
  obtain ⟨hp', hb', ds', hc', -⟩ := Metadata.decode_ok h'
  have front : ∀ {n : Nat} {x : Bytes}, 64 ≤ n → buf.take n = x →
    slice x 0 64 = slice buf 0 64 := by
    intro n x hn hx
    rw [← hx, slice_zero, slice_zero, List.take_take, Nat.min_eq_left hn]
  have hh : m.header = m'.header := by
    rw [FrameHeader.decode_value hc.header, FrameHeader.decode_value hc'.header,
      front m.header.metadata_len_ge hb, front m'.header.metadata_len_ge hb', hp, hp']
  have hbytes : m.bytes = m'.bytes := by
    rw [← hb, ← hb', hh]
  cases m
  cases m'
  simp_all

/-- Whatever limits accept a buffer that starts with the image, its length is the image's. -/
theorem FrameImage.decode_frame_len {own limits : FrameLimits} (img : FrameImage own) {buf : Bytes}
    (hb : buf.take img.frame_len = img.bytes) {m : Metadata}
    (h : Metadata.decode buf limits img.position = .ok m) : m.header.frame_len = img.frame_len := by
  have hd := img.decode hb
  unfold Frame.decode at hd
  split at hd
  · cases hd
  rename_i m' hm
  have hm' : m' = img.metadata := by
    split at hd
    · cases hd
    simp only at hd
    split at hd
    · cases hd
    · exact congrArg Frame.metadata (Except.ok.inj hd)
  rw [Metadata.decode_limits h hm, hm']
  rfl

end moat_engine.frame

namespace moat_engine.pipeline.in_place

open byte_list moat_common outcome
open moat_engine.frame (Frame FrameBuilder FrameHeader FrameImage FrameLimits FramePosition Metadata
  PreparedFrame preparedImage preparedLen preparedMetadataLen preparedValueAt prepared_bounds)
open moat_engine.io (Operation Queue Request Script)
open moat_engine.segment (SegmentBuilder fourPages)

/-! ## In place -/

/-- What a write may change: the pipeline, and the bytes of the buffer that it was given. -/
structure Writing where
  pipe : Pipeline
  buffer : Bytes

/-- The calls of `try_reserve`. -/
inductive Reservation where
  | entries
  | unique
  | index
  | keys
  | metadata
deriving DecidableEq

/-- `Allocation` of the source carries what the allocator says. Here it says where it was asked. -/
inductive WriteError where
  | Pipeline (source : Error)
  | Allocation (reservation : Reservation)

/-- An error keeps everything as it is when it is thrown. -/
abbrev WriteM := EStateM WriteError Writing

def WriteM.of {α : Type} (result : Except Error α) : WriteM α :=
  match result with
  | .ok a => pure a
  | .error e => throw (.Pipeline e)

variable {p : Pipeline} {e : WriteError}

section grants

-- what the allocator answers
variable (grants : Reservation → Bool)

def try_reserve (reservation : Reservation) : WriteM Unit :=
  if grants reservation then pure () else throw (.Allocation reservation)

/-- The loop over the entries changes only its own set of keys. -/
def reserve_entries (es : List (ChunkId × Location)) : WriteM Nat := do
  let this := (← get).pipe
  if this.index.len + this.pending_new + es.length > this.resources.index_entries then
    try_reserve grants .unique
  let new ← WriteM.of (this.reserve_entries es)
  try_reserve grants .index
  try_reserve grants .keys
  pure new

/-- `append` on the active segment. -/
def append (segment : SegmentBuilder) (metadata : Metadata) : WriteM Unit := do
  match segment.append metadata with
  | .error e => throw (.Pipeline (.Segment e))
  | .ok appended =>
    try_reserve grants .metadata
    modify fun w => { w with pipe := { w.pipe with segment := some appended } }

/-- What a caller does to the buffer, once the place of its frame is known. -/
abbrev Encoder := SegmentBuilder → FrameLimits → WriteM FramePosition

/-- The closure `prepare` of `submit_frame`. -/
def prepare (encode : Encoder) : WriteM (Write × Nat × Nat) := do
  let this := (← get).pipe
  let ticket ← WriteM.of (this.admission true)
  let some segment := this.segment | throw (.Pipeline .ReadOnly)  -- `admission` has refused
  let position ← encode segment this.limits
  let buffer := (← get).buffer
  match Metadata.decode buffer this.limits position with
  | .error e => throw (.Pipeline (.Frame e))
  | .ok metadata =>
    let len := metadata.header.frame_len
    let count := metadata.header.record_count
    if count > this.resources.pending_records then
      throw (.Pipeline (.ResourceLimit "single frame pending record metadata"))
    if this.pending_entries + count > this.resources.pending_records then
      throw (.Pipeline .Backpressure)
    if metadata.bytes.length > this.resources.metadata_bytes then
      throw (.Pipeline (.ResourceLimit "single frame footer metadata"))
    if segment.metadata.length + metadata.bytes.length > this.resources.metadata_bytes then
      throw (.Pipeline .MetadataFull)
    try_reserve grants .entries
    let es := entries metadata this.current
    let reserved_new ← reserve_entries grants es
    append grants segment metadata
    pure (⟨ticket, es, reserved_new, none⟩, this.base this.current + position.offset, len)

/-- From here on nothing fails. The buffer goes to the device. -/
def submit_frame (encode : Encoder) : WriteM Nat := do
  let (write, offset, len) ← prepare grants encode
  modify fun w => { w with
    pipe := { w.pipe with pending_entries := w.pipe.pending_entries + write.entries.length } }
  modify fun w => { w with
    pipe := { w.pipe with pending_new := w.pipe.pending_new + write.reserved_new } }
  let (slot, taken) := (← get).pipe.take_slot (.Write write)
  modify fun w => { w with pipe := taken }
  modify fun w => { w with pipe := { w.pipe with writes := w.pipe.writes ++ [slot] } }
  modify fun w => { w with pipe := w.pipe.submit slot .Write offset len (some w.buffer) }
  pure write.ticket

/-- The closure of `write`. `encode_into` checks everything before it changes a byte. -/
def encode_frame (frame : FrameBuilder) : Encoder := fun segment _ => do
  match segment.position frame.encoded_len frame.metadata_len with
  | .error e => throw (.Pipeline (.Segment e))
  | .ok position =>
    match frame.encode_into position (← get).buffer with
    | .error e => throw (.Pipeline (.Frame e))
    | .ok (_, bytes) =>
      modify fun w => { w with buffer := bytes }
      pure position

def write (frame : FrameBuilder) : WriteM Nat := do
  if frame.encoded_len > (← get).pipe.resources.frame_bytes then
    throw (.Pipeline (.ResourceLimit "frame bytes"))
  submit_frame grants (encode_frame frame)

/-- The closure of `write_prepared`. `finish` checks the length before it changes a byte. -/
def encode_prepared (key : ChunkId) (lsn : UInt64) (value_len required : Nat) : Encoder :=
  fun segment limits => do
    match PreparedFrame.new limits value_len (← get).buffer with
    | .error e => throw (.Pipeline (.Frame e))
    | .ok frame =>
      match segment.position required frame.metadata_len with
      | .error e => throw (.Pipeline (.Segment e))
      | .ok position =>
        match frame.finish position key lsn with
        | .error e => throw (.Pipeline (.Frame e))
        | .ok bytes =>
          modify fun w => { w with buffer := bytes ++ w.buffer.drop bytes.length }
          pure position

def write_prepared (key : ChunkId) (lsn : UInt64) (value_len : Nat) : WriteM Nat := do
  match PreparedFrame.required_len (← get).pipe.limits value_len with
  | .error e => throw (.Pipeline (.Frame e))
  | .ok required =>
    if required > (← get).pipe.resources.frame_bytes then
      throw (.Pipeline (.ResourceLimit "frame bytes"))
    submit_frame grants (encode_prepared key lsn value_len required)

/-! ## One write -/

/-- What an encoder does, as the model without changes in place has it. -/
def Performs (encode : Encoder) (model : Encode) : Prop :=
  ∀ (segment : SegmentBuilder) (limits : FrameLimits) (w : Writing),
    (encode segment limits).run w =
      match model segment limits w.buffer with
      | .ok (position, bytes) => .ok position { w with buffer := bytes }
      | .error e => .error (.Pipeline e) w

/-- The buffer of a rejected write: as it was, or with a frame encoded into it. -/
def Returned (p : Pipeline) (model : Encode) (buffer back : Bytes) : Prop :=
  back = buffer ∨ ∃ segment position, model segment p.limits buffer = .ok (position, back)

/-- How a call comes back that was not accepted: the model refuses it too, or memory was short. The
pipeline is as it was. -/
inductive Refused (p : Pipeline) (model : Encode) (buffer : Bytes)
    (refuses : Rejected Bytes → Prop) :
    WriteError → Writing → Prop
  | model {e : Error} {back : Bytes} (h : refuses ⟨e, back⟩) (hb : Returned p model buffer back) :
      Refused p model buffer refuses (.Pipeline e) ⟨p, back⟩
  | memory {reservation : Reservation} {back : Bytes} (h : grants reservation = false)
      (hb : Returned p model buffer back) :
      Refused p model buffer refuses (.Allocation reservation) ⟨p, back⟩

variable {grants} in
variable {w : Writing} {E : WriteError → Writing → Prop}

theorem Refused.kept {model : Encode} {buffer : Bytes}
    {refuses : Rejected Bytes → Prop} (h : Refused grants p model buffer refuses e w) :
    w.pipe = p ∧ Returned p model buffer w.buffer := by
  cases h with
  | model _ hb | memory _ hb => exact ⟨rfl, hb⟩

variable {grants} in
theorem Refused.mono {model : Encode} {buffer : Bytes}
    {refuses refuses' : Rejected Bytes → Prop}
    (h : Refused grants p model buffer refuses e w) (hr : ∀ r, refuses r → refuses' r) :
    Refused grants p model buffer refuses' e w := by
  cases h with
  | model h hb => exact .model (hr _ h) hb
  | memory h hb => exact .memory h hb

theorem WriteM.of_ends {α : Type} {result : Except Error α}
    {Q : α → Writing → Prop} (hok : ∀ a, result = .ok a → Q a w)
    (herror : ∀ e, result = .error e → E (.Pipeline e) w) : Ends (WriteM.of result) w Q E := by
  cases result with
  | ok a => exact hok a rfl
  | error e => exact herror e rfl

theorem try_reserve_ends {reservation : Reservation} {Q : Unit → Writing → Prop} (hok : Q () w)
    (herror : grants reservation = false → E (.Allocation reservation) w) :
    Ends (try_reserve grants reservation) w Q E := by
  unfold try_reserve
  split
  · exact hok
  · rename_i hr
    exact herror (by simpa using hr)

/-- Nothing changes, and what is reserved is what the pipeline answers. -/
theorem reserve_entries_ends (es : List (ChunkId × Location)) (w : Writing)
    (hmodel : ∀ e, w.pipe.reserve_entries es = .error e → E (.Pipeline e) w)
    (hmemory : ∀ r, grants r = false → E (.Allocation r) w) :
    Ends (reserve_entries grants es) w
      (fun n w' => w.pipe.reserve_entries es = .ok n ∧ w = w') E := by
  have hrest : Ends (do
      let new ← WriteM.of (w.pipe.reserve_entries es)
      try_reserve grants .index
      try_reserve grants .keys
      pure new) w (fun n w' => w.pipe.reserve_entries es = .ok n ∧ w = w') E := by
    refine Ends.bind (Q := fun n w' => w.pipe.reserve_entries es = .ok n ∧ w = w')
      (WriteM.of_ends (fun n hn => ⟨hn, rfl⟩) hmodel) ?_
    rintro n _ ⟨hn, rfl⟩
    refine Ends.bind (Q := fun _ w' => w = w') (try_reserve_ends grants rfl (hmemory _)) ?_
    rintro _ _ rfl
    refine Ends.bind (Q := fun _ w' => w = w') (try_reserve_ends grants rfl (hmemory _)) ?_
    rintro _ _ rfl
    exact Ends.of_pure ⟨hn, rfl⟩
  unfold reserve_entries
  refine Ends.of_get ?_
  simp only
  split
  · refine Ends.bind (Q := fun _ w' => w = w') (try_reserve_ends grants rfl (hmemory _)) ?_
    rintro _ _ rfl
    exact hrest
  · exact hrest

theorem append_ends (segment : SegmentBuilder) (metadata : Metadata) (w : Writing)
    (hmodel : ∀ e, segment.append metadata = .error e → E (.Pipeline (.Segment e)) w)
    (hmemory : ∀ r, grants r = false → E (.Allocation r) w) :
    Ends (append grants segment metadata) w
      (fun _ w' => ∃ appended, segment.append metadata = .ok appended ∧
        { w with pipe := { w.pipe with segment := some appended } } = w') E := by
  unfold append
  cases ha : segment.append metadata with
  | error e => exact Ends.of_throw (hmodel e ha)
  | ok appended =>
    refine Ends.bind (Q := fun _ w' => w = w') (try_reserve_ends grants rfl (hmemory _)) ?_
    rintro _ _ rfl
    exact ⟨appended, rfl, rfl⟩

variable {encode : Encoder} {model : Encode}

/-- `prepare` changes the buffer when it encodes, and the active segment in its last step. -/
theorem prepare_ends (h : Performs encode model) (p : Pipeline) (buffer : Bytes) :
    Ends (prepare grants encode) ⟨p, buffer⟩
      (fun a w => ∃ f, p.prepare buffer model = .ok f ∧ a = (f.write, f.offset, f.len) ∧
        w = ⟨{ p with segment := some f.segment }, f.buffer⟩)
      (Refused grants p model buffer (p.prepare buffer model = .error ·)) := by
  have hkept : Returned p model buffer buffer := .inl rfl
  unfold prepare
  refine Ends.of_get ?_
  refine Ends.bind (Q := fun ticket w => p.admission true = .ok ticket ∧ w = ⟨p, buffer⟩)
    (WriteM.of_ends (fun _ ht => ⟨ht, rfl⟩) (fun e ht => .model ?_ hkept)) ?_
  · unfold Pipeline.prepare
    simp only [ht]
  rintro ticket _ ⟨ht, rfl⟩
  simp only
  cases hs : p.segment with
  | none =>
    refine Ends.of_throw (.model ?_ hkept)
    unfold Pipeline.prepare
    simp only [ht, hs]
  | some segment =>
    simp only
    refine Ends.bind (Q := fun position w => ∃ bytes,
      model segment p.limits buffer = .ok (position, bytes) ∧ w = ⟨p, bytes⟩) ?_ ?_
    · have he := h segment p.limits ⟨p, buffer⟩
      cases hm : model segment p.limits buffer with
      | error =>
        refine .of_error (by rw [he, hm]) (.model ?_ hkept)
        unfold Pipeline.prepare
        simp only [ht, hs, hm]
      | ok x => exact .of_ok (by rw [he, hm]) ⟨x.2, rfl, rfl⟩
    rintro position _ ⟨bytes, hm, rfl⟩
    have hback : Returned p model buffer bytes := .inr ⟨segment, position, hm⟩
    refine Ends.of_get ?_
    simp only
    cases hd : Metadata.decode bytes p.limits position with
    | error =>
      refine Ends.of_throw (.model ?_ hback)
      unfold Pipeline.prepare
      simp only [ht, hs, hm, hd]
    | ok metadata =>
      -- from here on the model makes the same checks in the same order
      simp only [Pipeline.prepare, ht, hs, hm, hd]
      split
      · exact Ends.of_throw (.model rfl hback)
      rename_i h1
      split
      · exact Ends.of_throw (.model rfl hback)
      rename_i h2
      split
      · exact Ends.of_throw (.model rfl hback)
      rename_i h3
      split
      · exact Ends.of_throw (.model rfl hback)
      rename_i h4
      refine Ends.bind (Q := fun _ w => w = ⟨p, bytes⟩)
        (try_reserve_ends grants rfl (fun hr => .memory hr hback)) ?_
      rintro _ _ rfl
      refine Ends.bind (reserve_entries_ends grants (entries metadata p.current) ⟨p, bytes⟩
        (fun e he => .model (by simp only [he]) hback) (fun _ hr => .memory hr hback)) ?_
      rintro reserved_new _ ⟨h5, rfl⟩
      refine Ends.bind (append_ends grants segment metadata ⟨p, bytes⟩
        (fun e he => .model (by simp only [h5, he]) hback) (fun _ hr => .memory hr hback)) ?_
      rintro _ _ ⟨appended, h6, rfl⟩
      refine Ends.of_pure ⟨⟨⟨ticket, entries metadata p.current, reserved_new, none⟩, appended,
        p.base p.current + position.offset, metadata.header.frame_len, bytes⟩, ?_, rfl, rfl⟩
      simp only [h5, h6]

/-- A frame is refused, or accepted as the model accepts it. -/
theorem submit_frame_ends (h : Performs encode model) (p : Pipeline) (buffer : Bytes) :
    Ends (submit_frame grants encode) ⟨p, buffer⟩
      (fun ticket w => p.submit_frame buffer model = .ok (ticket, w.pipe) ∧
        ∃ f, p.prepare buffer model = .ok f ∧ w = ⟨p.launch f, f.buffer⟩)
      (Refused grants p model buffer (p.submit_frame buffer model = .error ·)) := by
  unfold submit_frame
  refine Ends.bind ((prepare_ends grants h p buffer).mono (fun _ _ hf => hf) ?_) ?_
  · intro e w hr
    exact hr.mono (fun r hp => by simp only [Pipeline.submit_frame, hp])
  · rintro _ _ ⟨f, hf, rfl, rfl⟩
    exact ⟨by simp only [Pipeline.submit_frame, hf]; rfl, f, hf, rfl⟩

theorem encode_frame_performs (frame : FrameBuilder) :
    Performs (encode_frame frame) (pipeline.encode_frame frame) := by
  intro segment limits w
  unfold encode_frame pipeline.encode_frame
  cases segment.position frame.encoded_len frame.metadata_len with
  | error => rfl
  | ok position =>
    simp only [EStateM.run_bind, EStateM.run_get]
    cases frame.encode_into position w.buffer with
    | error => rfl
    | ok => rfl

theorem encode_prepared_performs (key : ChunkId) (lsn : UInt64) (value_len required : Nat) :
    Performs (encode_prepared key lsn value_len required)
      (pipeline.encode_prepared key lsn value_len required) := by
  intro segment limits w
  unfold encode_prepared pipeline.encode_prepared
  simp only [EStateM.run_bind, EStateM.run_get]
  cases PreparedFrame.new limits value_len w.buffer with
  | error => rfl
  | ok frame =>
    simp only
    cases segment.position required frame.metadata_len with
    | error => rfl
    | ok position =>
      simp only
      cases frame.finish position key lsn with
      | error => rfl
      | ok => rfl

end grants

/-! ## Both calls -/

inductive WriteCall where
  | write (frame : FrameBuilder)
  | write_prepared (key : ChunkId) (lsn : UInt64) (value_len : Nat)

namespace WriteCall

def action (c : WriteCall) (grants : Reservation → Bool) : WriteM Nat :=
  match c with
  | .write frame => in_place.write grants frame
  | .write_prepared key lsn value_len => in_place.write_prepared grants key lsn value_len

/-- The length of the frame. -/
def len : WriteCall → Nat
  | .write frame => frame.encoded_len
  | .write_prepared _ _ value_len => preparedLen value_len

def metadata_len : WriteCall → Nat
  | .write frame => frame.metadata_len
  | .write_prepared _ _ value_len => preparedMetadataLen value_len

/-- What the caller keeps in the buffer: the value of a prepared frame. -/
def payload (c : WriteCall) (buffer : Bytes) : Bytes :=
  match c with
  | .write _ => []
  | .write_prepared _ _ value_len =>
    slice buffer (preparedValueAt value_len) (preparedValueAt value_len + value_len)

/-- The call without changes in place. -/
def model (c : WriteCall) (p : Pipeline) (buffer : Bytes) :
    Except (Rejected Bytes) (Nat × Pipeline) :=
  match c with
  | .write frame => p.write frame buffer
  | .write_prepared key lsn value_len => p.write_prepared key lsn value_len buffer

def encode : WriteCall → Encode
  | .write frame => pipeline.encode_frame frame
  | .write_prepared key lsn value_len =>
    pipeline.encode_prepared key lsn value_len (preparedLen value_len)

/-- The frame in a buffer that holds the payload and zeros. -/
def encoding (c : WriteCall) (limits : FrameLimits) (position : FramePosition) (payload : Bytes) :
    Except frame.Error Bytes :=
  match c with
  | .write frame => (frame.encode_into position (zeros frame.encoded_len)).map (·.2)
  | .write_prepared key lsn value_len =>
    let buffer := patch (zeros (preparedLen value_len)) (preparedValueAt value_len) payload
    match PreparedFrame.new limits value_len buffer with
    | .error e => .error e
    | .ok frame => frame.finish position key lsn

variable (c : WriteCall) (grants : Reservation → Bool)

/-- A call is refused, or accepted as the model accepts it. -/
theorem action_ends (p : Pipeline) (buffer : Bytes) :
    Ends (c.action grants) ⟨p, buffer⟩
      (fun ticket w => c.model p buffer = .ok (ticket, w.pipe) ∧
        ∃ f, p.prepare buffer c.encode = .ok f ∧ w = ⟨p.launch f, f.buffer⟩)
      (Refused grants p c.encode buffer (c.model p buffer = .error ·)) := by
  cases c with
  | write frame =>
    show Ends (in_place.write grants frame) ⟨p, buffer⟩
      (fun ticket w => p.write frame buffer = .ok (ticket, w.pipe) ∧ _)
      (Refused grants p (pipeline.encode_frame frame) buffer (p.write frame buffer = .error ·))
    unfold in_place.write Pipeline.write
    refine Ends.of_get ?_
    simp only
    split
    · exact Ends.of_throw (.model rfl (.inl rfl))
    · exact submit_frame_ends grants (encode_frame_performs frame) p buffer
  | write_prepared key lsn value_len =>
    show Ends (in_place.write_prepared grants key lsn value_len) ⟨p, buffer⟩
      (fun ticket w => p.write_prepared key lsn value_len buffer = .ok (ticket, w.pipe) ∧ _)
      (Refused grants p (pipeline.encode_prepared key lsn value_len (preparedLen value_len)) buffer
        (p.write_prepared key lsn value_len buffer = .error ·))
    unfold in_place.write_prepared Pipeline.write_prepared
    refine Ends.of_get ?_
    simp only
    cases hr : PreparedFrame.required_len p.limits value_len with
    | error => exact Ends.of_throw (.model rfl (.inl rfl))
    | ok =>
      obtain ⟨rfl, -, -⟩ := PreparedFrame.required_len_ok hr
      refine Ends.of_get ?_
      simp only
      split
      · exact Ends.of_throw (.model rfl (.inl rfl))
      · exact submit_frame_ends grants (encode_prepared_performs key lsn value_len _) p buffer

end WriteCall

/-! ## What an encoder leaves in the buffer -/

/-- The buffer holds the frame as it is encoded at `position`, and the same payload. -/
structure Encoded (c : WriteCall) (limits : FrameLimits) (segment : SegmentBuilder) (buffer : Bytes)
    (position : FramePosition) (bytes : Bytes) : Prop where
  placed : segment.position c.len c.metadata_len = .ok position
  length : bytes.length = buffer.length
  payload : c.payload bytes = c.payload buffer
  fresh : c.encoding limits position (c.payload buffer) = .ok (bytes.take c.len)
  frame_len : ∀ limits m, Metadata.decode bytes limits position = .ok m → m.header.frame_len = c.len

variable {limits : FrameLimits} {segment : SegmentBuilder} {buffer bytes : Bytes}
  {position : FramePosition} {start base : Nat} {r : Log}

/-- A frame that stands at the front of the buffer, as an image. -/
theorem Encoded.of_image {c : WriteCall} {own : FrameLimits} (img : FrameImage own)
    (hplace : segment.position c.len c.metadata_len = .ok position) (hpos : img.position = position)
    (hlen : img.frame_len = c.len) (hle : c.len ≤ buffer.length)
    (hbytes : bytes = img.bytes ++ buffer.drop c.len) (hpay : c.payload bytes = c.payload buffer)
    (hfresh : c.encoding limits position (c.payload buffer) = .ok img.bytes) :
    Encoded c limits segment buffer position bytes := by
  have himg : img.bytes.length = c.len := by rw [img.bytes_length, hlen]
  have htake : bytes.take c.len = img.bytes := by
    rw [hbytes]
    exact List.take_left' himg
  refine ⟨hplace, ?_, hpay, by rw [htake, hfresh], ?_⟩
  · rw [hbytes, List.length_append, himg, List.length_drop]
    omega
  · intro limits' m hm
    rw [← hpos] at hm
    rw [img.decode_frame_len (by rw [hlen, htake]) hm, hlen]

theorem write_encoded {frame : FrameBuilder}
    (h : pipeline.encode_frame frame segment limits buffer = .ok (position, bytes)) :
    Encoded (.write frame) limits segment buffer position bytes := by
  unfold pipeline.encode_frame at h
  split at h
  · cases h
  rename_i q hq
  split at h
  · cases h
  rename_i header out he
  cases h
  obtain ⟨-, hl, hroom, -, -, havail⟩ := SegmentBuilder.position_ok hq
  have hne : frame.records ≠ [] := by
    intro hn
    have := hl.frame_pos
    simp [FrameBuilder.encoded_len, hn] at this
  have hav : frame.encoded_len ≤ position.available := by
    rw [havail]
    omega
  have hbuf : frame.encoded_len ≤ buffer.length := by
    unfold FrameBuilder.encode_into at he
    rw [if_neg hne] at he
    simp only at he
    split at he
    · cases he
    split at he
    · cases he
    · omega
  rw [frame.encode_into_eq hne position hav buffer hbuf] at he
  cases he
  refine .of_image (frame.image hne position hav) hq rfl (frame.image_frame_len ..) hbuf rfl rfl ?_
  show (frame.encode_into position (zeros frame.encoded_len)).map (·.2) = _
  rw [frame.encode_into_eq hne position hav _ (by simp)]
  simp [Except.map]

/-- A buffer that `PreparedFrame::new` takes is long enough, and the frame is its front. -/
theorem new_ok {value_len : Nat} {p : PreparedFrame}
    (h : PreparedFrame.new limits value_len buffer = .ok p) :
    value_len ≤ limits.max_value_len ∧ preparedLen value_len ≤ limits.max_frame_len ∧
      preparedLen value_len ≤ buffer.length ∧ p.bytes = buffer.take (preparedLen value_len) ∧
      p.value_len = value_len := by
  unfold PreparedFrame.new at h
  split at h
  · cases h
  rename_i len hlen
  split at h
  · cases h
  obtain ⟨rfl, h1, h2⟩ := PreparedFrame.required_len_ok hlen
  cases h
  exact ⟨h1, h2, by omega, rfl, rfl⟩

/-- What `finish` makes of the buffer depends on its payload only. -/
theorem finish_payload {value : Bytes} {p : PreparedFrame}
    (h : PreparedFrame.new limits value.length buffer = .ok p)
    (hvalue : slice buffer (preparedValueAt value.length)
    (preparedValueAt value.length + value.length) =
      value) (position : FramePosition) (key : ChunkId) (lsn : UInt64)
    (hv : value.length ≤ limits.max_value_len)
    (hl : preparedLen value.length ≤ limits.max_frame_len)
    (room : preparedLen value.length ≤ position.available) :
    p.finish position key lsn = .ok (preparedImage position key lsn value hv hl room).bytes := by
  obtain ⟨-, -, hle, hbytes, hlen⟩ := new_ok h
  refine p.finish_eq position key lsn value hlen.symm ?_ hv hl room
  rw [p.value_at_eq, hlen, hbytes, slice_take _ (prepared_bounds value.length).2.1, hvalue]

theorem write_prepared_encoded {key : ChunkId} {lsn : UInt64} {value_len : Nat}
    (h : pipeline.encode_prepared key lsn value_len (preparedLen value_len) segment limits buffer =
      .ok (position, bytes)) :
    Encoded (.write_prepared key lsn value_len) limits segment buffer position bytes := by
  unfold pipeline.encode_prepared at h
  split at h
  · cases h
  rename_i p hp
  split at h
  · cases h
  rename_i q hq
  split at h
  · cases h
  rename_i out he
  cases h
  obtain ⟨hv, hl, hle, hbytes, hlen⟩ := new_ok hp
  have hq' : segment.position (preparedLen value_len) (preparedMetadataLen value_len) =
    .ok position := by
    rw [← hq, PreparedFrame.metadata_len, hlen]
  obtain ⟨-, -, hroom, -, -, havail⟩ := SegmentBuilder.position_ok hq'
  obtain ⟨hb1, hb2, hb3⟩ := prepared_bounds value_len
  obtain ⟨value, hvalue⟩ : ∃ value, slice buffer (preparedValueAt value_len)
    (preparedValueAt value_len + value_len) = value := ⟨_, rfl⟩
  have hn : value.length = value_len := by
    rw [← hvalue, slice_length_of_le (by omega)]
    omega
  subst hn
  have hav : preparedLen value.length ≤ position.available := by
    rw [havail]
    omega
  rw [finish_payload hp hvalue position key lsn hv hl hav] at he
  cases he
  generalize himg : preparedImage position key lsn value hv hl hav = img
  have hlen' : img.frame_len = preparedLen value.length := by
    rw [← himg, ← frame.preparedPayload_length value]
    simp [FrameImage.frame_len, FrameImage.metadata_len, preparedImage, frame.inputs,
      frame.preparedMetadataLen_eq]
  have hsize : img.bytes.length = preparedLen value.length := by rw [img.bytes_length, hlen']
  refine .of_image img hq' (by rw [← himg]; rfl) hlen' hle (by rw [hsize]; rfl) ?_ ?_
  · show slice (img.bytes ++ _) _ _ = slice buffer _ _
    rw [hvalue, slice_append_left _ _ (by omega)]
    have := img.value_slice (p := ⟨⟨key, lsn, .Data, value, by simp⟩, preparedValueAt value.length⟩)
      (by rw [← himg]; simp [preparedImage])
    exact this
  · simp only [WriteCall.payload, WriteCall.encoding, hvalue]
    have hroom :
      preparedValueAt value.length + value.length ≤ (zeros (preparedLen value.length)).length := by
      rw [zeros_length]
      exact hb2
    have hreq : PreparedFrame.required_len limits value.length = .ok
      (preparedLen value.length) := by
      unfold PreparedFrame.required_len
      rw [if_neg (by omega), if_neg (by omega)]
    obtain ⟨p', hp', -⟩ := @PreparedFrame.new_ok _ _ _ (patch (zeros (preparedLen value.length))
      (preparedValueAt value.length) value) hreq (by rw [patch_length hroom, zeros_length])
    rw [hp']
    simp only
    rw [finish_payload hp' (slice_patch_self hroom rfl rfl) position key lsn hv hl hav, himg]

theorem WriteCall.encoded {c : WriteCall}
    (h : c.encode segment limits buffer = .ok (position, bytes)) :
    Encoded c limits segment buffer position bytes := by
  cases c with
  | write => exact write_encoded h
  | write_prepared => exact write_prepared_encoded h

/-! ## Rejected and accepted calls -/

section calls

variable {c : WriteCall} {grants : Reservation → Bool} {p : Pipeline} {buffer : Bytes} {w : Writing}

theorem rejected (h : (c.action grants).run ⟨p, buffer⟩ = .error e w) :
    w.pipe = p ∧ w.buffer.length = buffer.length ∧ c.payload w.buffer = c.payload buffer := by
  obtain ⟨hp, hback⟩ := ((c.action_ends grants p buffer).error h).kept
  refine ⟨hp, ?_⟩
  rcases hback with hback | ⟨segment, position, hback⟩
  · rw [hback]
    exact ⟨rfl, rfl⟩
  · have henc := WriteCall.encoded hback
    exact ⟨henc.length, henc.payload⟩

/-- Where an accepted frame goes: the end of the active segment, which moves behind it. -/
structure Stored (p : Pipeline) (c : WriteCall) (buffer : Bytes) (w : Writing)
    (segment : SegmentBuilder) (position : FramePosition) : Prop where
  active : p.segment = some segment
  encoded : Encoded c p.limits segment buffer position w.buffer
  submitted : ∃ slot, w.pipe.queue =
    p.queue.push ⟨slot, .Write, p.base p.current + position.offset, c.len, some w.buffer⟩
  moved : ∃ after, w.pipe.segment = some after ∧ after.data_end = segment.data_end + c.len
  base : w.pipe.base w.pipe.current = p.base p.current

theorem accepted {ticket : Nat} (h : (c.action grants).run ⟨p, buffer⟩ = .ok ticket w) :
    ∃ segment position, Stored p c buffer w segment position := by
  obtain ⟨-, f, hf, rfl⟩ := (c.action_ends grants p buffer).ok h
  obtain ⟨_, segment, position, metadata, _, ha, hs, hm, hd, -, happ, -, hlen, hoff⟩ :=
    prepare_parts hf
  have henc := WriteCall.encoded hm
  have hlen' : f.len = c.len := by rw [hlen, henc.frame_len _ _ hd]
  obtain ⟨-, -, hfree, hv, -⟩ := admission_ok ha
  obtain ⟨slot, rest, hs'⟩ := List.exists_cons_of_ne_nil hfree
  refine ⟨segment, position, ⟨hs, henc, ⟨slot, ?_⟩, ⟨f.segment, ?_, ?_⟩, ?_⟩⟩
  · rw [launch_eq hs' (vacant_ne hv), ← hoff, ← hlen']
    rfl
  · rw [launch_eq hs' (vacant_ne hv)]
    rfl
  · rw [(SegmentBuilder.append_ok happ).2.2.1, ← hlen, hlen']
  · rw [launch_eq hs' (vacant_ne hv)]
    rfl

end calls

/-! ## Whole runs -/

/-- What the owner does next. A write comes with what the allocator answers, a poll with what the
device does during it. -/
inductive Deed where
  | write (c : WriteCall) (buffer : Bytes) (grants : Reservation → Bool)
  | read (key : ChunkId) (range : Range) (verify : Bool) (buffers : ReadBuffers)
  | flush
  | poll (script : Script)

/-- A pipeline, and the offset and the length of each frame that it has sent to the device. -/
structure Log where
  pipe : Pipeline
  frames : List (Nat × Nat)

/-- The request that went to the queue last. -/
def newest (p : Pipeline) : List (Nat × Nat) :=
  (p.queue.accepted.getLast?.map (fun e => (e.2.offset, e.2.len))).toList

def Log.step (r : Log) : Deed → Log
  | .write c buffer grants =>
    match (c.action grants).run ⟨r.pipe, buffer⟩ with
    | .ok _ w => ⟨w.pipe, r.frames ++ newest w.pipe⟩
    | .error _ w => { r with pipe := w.pipe }
  | .read key range verify buffers =>
    match r.pipe.read key range verify buffers with
    | .ok (_, p) => { r with pipe := p }
    | .error _ => r
  | .flush =>
    match r.pipe.flush with
    | .ok (_, p) => { r with pipe := p }
    | .error _ => r
  | .poll script => { r with pipe := (r.pipe.poll script).pipe }

def Log.run (r : Log) (deeds : List Deed) : Log := deeds.foldl Log.step r

/-- The frames stand one after the other from `start` to `stop`. -/
def Follow (start : Nat) : List (Nat × Nat) → (stop : Nat) → Prop
  | [], stop => start = stop
  | (offset, len) :: rest, stop => offset = start ∧ Follow (start + len) rest stop

theorem Follow.snoc {stop len : Nat} {frames : List (Nat × Nat)} (h : Follow start frames stop) :
    Follow start (frames ++ [(stop, len)]) (stop + len) := by
  induction frames generalizing start with
  | nil =>
    cases h
    exact ⟨rfl, rfl⟩
  | cons _ _ ih => exact ⟨h.1, ih h.2⟩

/-- The frames so far fill the active segment up to its end. -/
structure Gapless (start base : Nat) (r : Log) : Prop where
  fixed : r.pipe.base r.pipe.current = base
  filled : ∃ b, r.pipe.segment = some b ∧ Follow start r.frames (base + b.data_end)

theorem Gapless.stays (h : Gapless start base r)
    (hs : Stays r.pipe p) : Gapless start base { r with pipe := p } := by
  obtain ⟨b, hb, hf⟩ := h.filled
  exact ⟨hs.base.trans h.fixed, b, hs.segment.trans hb, hf⟩

theorem newest_push {queue : Queue} {request : Request}
    (h : p.queue = queue.push request) : newest p = [(request.offset, request.len)] := by
  unfold newest
  rw [h]
  simp [Queue.push]

theorem Gapless.step (h : Gapless start base r) (deed : Deed) :
    Gapless start base (r.step deed) := by
  cases deed with
  | write c buffer grants =>
    simp only [Log.step]
    split
    · rename_i ticket w hw
      obtain ⟨b, hb, hf⟩ := h.filled
      obtain ⟨segment, position, hst⟩ := accepted hw
      obtain ⟨slot, hsub⟩ := hst.submitted
      obtain ⟨after, hafter, hend⟩ := hst.moved
      have hseg : b = segment := Option.some.inj (hb.symm.trans hst.active)
      have hoff : position.offset = b.data_end := by
        rw [hseg]
        exact (SegmentBuilder.position_ok hst.encoded.placed).2.2.2.2.1
      refine ⟨hst.base.trans h.fixed, after, hafter, ?_⟩
      rw [newest_push hsub, h.fixed, hend, ← hseg, hoff, ← Nat.add_assoc]
      exact hf.snoc
    · rename_i e w hw
      rw [(rejected hw).1]
      exact h
  | read key range verify buffers =>
    simp only [Log.step]
    split
    · rename_i hr
      exact h.stays (read_turns hr).toStays
    · exact h
  | flush =>
    simp only [Log.step]
    split
    · rename_i hr
      exact h.stays (flush_turns hr).toStays
    · exact h
  | poll script => exact h.stays (poll_turns r.pipe script).toStays

theorem Gapless.run (h : Gapless start base r) (deeds : List Deed) :
    Gapless start base (r.run deeds) := by
  induction deeds generalizing r with
  | nil => exact h
  | cons deed _ ih => exact ih (h.step deed)

/-- For every pipeline and every reason to reject: a rejected call leaves the pipeline as it was,
and the payload in the buffer. When the same call is made again with that buffer and accepted, then
or later, the frame that goes to the device is the one it encodes for the end of the segment as it
is then, whatever the first attempt left in the buffer. And over any calls and any device, the
accepted frames of a segment stand one after the other. -/
theorem rejected_writes_leave_no_trace :
    (∀ (p : Pipeline) (c : WriteCall) (buffer : Bytes) (grants : Reservation → Bool)
    (e : WriteError)
        (w : Writing), (c.action grants).run ⟨p, buffer⟩ = .error e w →
      w.pipe = p ∧ w.buffer.length = buffer.length ∧ c.payload w.buffer = c.payload buffer ∧
      ∀ (later : Pipeline) (grants : Reservation → Bool) (ticket : Nat) (done : Writing),
        (c.action grants).run ⟨later, w.buffer⟩ = .ok ticket done →
        ∃ segment position slot bytes, later.segment = some segment ∧
          segment.position c.len c.metadata_len = .ok position ∧
          done.pipe.queue = later.queue.push
            ⟨slot, .Write, later.base later.current + segment.data_end, c.len, some bytes⟩ ∧
          c.encoding later.limits position (c.payload buffer) = .ok (bytes.take c.len)) ∧
    (∀ (p : Pipeline) (b : SegmentBuilder) (deeds : List Deed), p.segment = some b →
      let r := Log.run ⟨p, []⟩ deeds
      ∃ after, r.pipe.segment = some after ∧
        Follow (p.base p.current + b.data_end) r.frames (p.base p.current + after.data_end)) := by
  refine ⟨?_, ?_⟩
  · intro p c buffer grants e w hw
    obtain ⟨hp, hlen, hpay⟩ := rejected hw
    refine ⟨hp, hlen, hpay, ?_⟩
    intro later grants' ticket done hdone
    obtain ⟨segment, position, hst⟩ := accepted hdone
    obtain ⟨slot, hsub⟩ := hst.submitted
    obtain ⟨-, -, -, -, hoff, -⟩ := SegmentBuilder.position_ok hst.encoded.placed
    have hfresh := hst.encoded.fresh
    rw [hpay] at hfresh
    rw [hoff] at hsub
    exact ⟨segment, position, slot, done.buffer, hst.active, hst.encoded.placed, hsub, hfresh⟩
  · intro p b deeds hb
    have hstart : Gapless (p.base p.current + b.data_end) (p.base p.current) ⟨p, []⟩ :=
      ⟨rfl, b, hb, rfl⟩
    exact (hstart.run deeds).filled

/-- What a refused call leaves behind. -/
def refusedWith : EStateM.Result WriteError Writing Nat → Option Writing
  | .ok _ _ => none
  | .error _ w => some w

theorem refusedWith_some {r : EStateM.Result WriteError Writing Nat} {w : Writing}
    (h : refusedWith r = some w) : ∃ e, r = .error e w := by
  cases r with
  | ok => cases h
  | error e => exact ⟨e, congrArg _ (Option.some.inj h)⟩

/-- An empty value. -/
def emptyValue : WriteCall := .write_prepared (.from_bytes []) 1 0

/-- The allocator has no room for the key of a frame that is already in its buffer. With the same
buffer the call is accepted later, and the frame is the one it would have been at first. -/
theorem a_refused_write_is_made_again :
    ∃ p, Pipeline.new (Queue.empty 1) fourPages frame.onePage 8192 = .ok p ∧
      ∃ e w, (emptyValue.action (· ≠ .keys)).run ⟨p, zeros 4096⟩ = .error e w ∧
        w.buffer ≠ zeros 4096 ∧ w.pipe = p ∧
      ∃ ticket done, (emptyValue.action fun _ => true).run ⟨p, w.buffer⟩ = .ok ticket done ∧
      ∃ segment position slot bytes, p.segment = some segment ∧
        done.pipe.queue = p.queue.push
          ⟨slot, .Write, p.base p.current + segment.data_end, 4096, some bytes⟩ ∧
        emptyValue.encoding p.limits position [] = .ok (bytes.take 4096) := by
  obtain ⟨p, hp, hrun⟩ :
      ∃ p, Pipeline.new (Queue.empty 1) fourPages frame.onePage 8192 = .ok p ∧
        (refusedWith ((emptyValue.action (· ≠ .keys)).run ⟨p, zeros 4096⟩)).any (fun w =>
          w.buffer ≠ zeros 4096 ∧
            (emptyValue.action fun _ => true).run' ⟨p, w.buffer⟩ = some 1) = true := by
    apply exists_of_any
    set_option maxRecDepth 10000 in
    decide +kernel
  obtain ⟨w, hw, hrun⟩ := (Option.any_eq_true _ _).mp hrun
  obtain ⟨hbuf, hdone⟩ := of_decide_eq_true hrun
  obtain ⟨e, he⟩ := refusedWith_some hw
  obtain ⟨hpipe, -, -, hagain⟩ := rejected_writes_leave_no_trace.1 p emptyValue _ _ e w he
  cases hd : (emptyValue.action fun _ => true).run ⟨p, w.buffer⟩ with
  | error =>
    rw [EStateM.run', hd] at hdone
    cases hdone
  | ok ticket done =>
    obtain ⟨segment, position, slot, bytes, hseg, -, hqueue, henc⟩ := hagain p _ ticket done hd
    refine ⟨p, hp, e, w, he, hbuf, hpipe, ticket, done, hd, segment, position, slot, bytes, hseg,
      hqueue, ?_⟩
    rwa [show emptyValue.payload (zeros 4096) = [] by simp [emptyValue, WriteCall.payload, slice]]
      at henc

end moat_engine.pipeline.in_place
