-- The state of the pipeline and what its owner calls: admission of writes,
-- reads and flushes, and the maintenance calls of the engine
-- (`pipeline/mod.rs`, `write.rs`, `read.rs`, `verify.rs`, `maintenance.rs`).
import Moat.PipelineRead
import Moat.SegmentBuilder
import Moat.FrameBuilder

namespace moat_engine.pipeline

open byte_list moat_common
open moat_engine.frame (FrameBuilder FrameLimits FramePosition Metadata PreparedFrame RecordKind)
open moat_engine.io (Operation Queue Request)
open moat_engine.segment (SegmentBuilder SegmentHeader)

structure PollBudget where
  operations : Nat
  bytes : Nat
  records : Nat
deriving DecidableEq, Repr

structure ResourceLimits where
  frame_bytes : Nat
  index_entries : Nat
  metadata_bytes : Nat
  pending_records : Nat
deriving DecidableEq, Repr

def PollBudget.default : PollBudget := ⟨64, 2 ^ 20, 4096⟩

def ResourceLimits.default : ResourceLimits := ⟨64 * 2 ^ 20, 2 ^ 20, 64 * 2 ^ 20, 2 ^ 20⟩

/-- What the pipeline tells its owner about an admitted operation. -/
inductive Completion where
  | Write (ticket : Nat) (result : Except Error Unit) (buffer : Bytes)
  | Read (ticket : Nat) (result : Except Error ReadRange) (buffers : ReadBuffers)
  | Failed (ticket : Nat) (error : Error)
  | Flush (ticket : Nat) (result : Except Error Unit)

def Completion.ticket : Completion → Nat
  | .Write t _ _ => t
  | .Read t _ _ => t
  | .Failed t _ => t
  | .Flush t _ => t

/-- An admitted write. `completed` is set when its I/O has come back. -/
structure Write where
  ticket : Nat
  entries : List (ChunkId × Location)
  reserved_new : Nat
  completed : Option (Except Error Unit × Bytes)

inductive Pending where
  | Write (write : Write)
  | Read (read : Read)
  | VerifiedRead (read : VerifiedRead)
  | EmptyRead (ticket : Nat) (buffers : ReadBuffers)
  | Flush (ticket : Nat) (submitted : Bool)

structure Extent where
  header : SegmentHeader
  base : Nat

/-- An input that was not accepted goes back to the caller. -/
structure Rejected (α : Type) where
  error : Error
  input : α

/-- The pipeline. `free` is a stack with its top first, and the field `flush` of the source is
`flush_slot` here. The last two fields are for the statements only: the batches that reached the
index, and whether the source has come to an `expect` or an `unreachable!` that panics. -/
structure Pipeline where
  queue : Queue
  extents : List Extent
  current : Nat
  limits : FrameLimits
  segment : Option SegmentBuilder
  index : Index
  slots : List (Option Pending)
  free : List Nat
  writes : List Nat
  ready_reads : List Nat
  flush_slot : Option Nat
  sync_enabled : Bool
  next_ticket : Nat
  serving : Bool
  failed_at : Option Nat
  queue_failed : Bool
  fatal : Option Error
  failed_cursor : Nat
  control : Option Request
  control_active : Bool
  control_done : Option io.Completion
  maintenance : Bool
  budget : PollBudget
  resources : ResourceLimits
  pending_entries : Nat
  pending_new : Nat
  applied : List (List (ChunkId × Location))
  panicked : Bool

/-- The token of the engine's own requests, `u64::MAX`. -/
def CONTROL_TOKEN : Nat := 2 ^ 64 - 1

/-- The operation in a slot, if any. -/
def Pipeline.slot (p : Pipeline) (s : Nat) : Option Pending := (p.slots[s]?).join

def Pipeline.in_flight (p : Pipeline) : Nat := p.slots.length - p.free.length

/-! ## Construction -/

def Pipeline.empty (queue : Queue) (limits : FrameLimits) : Except Error Pipeline :=
  if queue.depth = 0 ∨ queue.depth > 32768 ∨ queue.vacant ≠ queue.depth ∨
      limits.max_frame_len > 2 ^ 31 - 1 then
    .error (.InvalidArgument "invalid queue or frame limit")
  else
    .ok
      { queue, extents := [], current := 0, limits, segment := none, index := .empty
        slots := List.replicate queue.depth none, free := List.range queue.depth
        writes := [], ready_reads := [], flush_slot := none, sync_enabled := true
        next_ticket := 1, serving := false, failed_at := none, queue_failed := false
        fatal := none, failed_cursor := 0, control := none, control_active := false
        control_done := none, maintenance := false, budget := .default, resources := .default
        pending_entries := 0, pending_new := 0, applied := [], panicked := false }

def Pipeline.read_only (queue : Queue) (header : SegmentHeader) (limits : FrameLimits)
    (base : Nat) : Except Error Pipeline :=
  if queue.depth = 0 ∨ queue.depth > 32768 ∨ queue.vacant ≠ queue.depth ∨
      ¬ is_aligned base PAGE_SIZE = true ∨ base + header.segment_len ≥ 2 ^ 64 ∨
      limits.max_frame_len > 2 ^ 31 - 1 then
    .error (.InvalidArgument "invalid queue, extent, or I/O frame limit")
  else
    match Pipeline.empty queue limits with
    | .error e => .error e
    | .ok p => .ok { p with extents := p.extents ++ [⟨header, base⟩] }

def Pipeline.new (queue : Queue) (header : SegmentHeader) (limits : FrameLimits) (base : Nat) :
    Except Error Pipeline :=
  match SegmentBuilder.new header with
  | .error e => .error (.Segment e)
  | .ok segment =>
    match Pipeline.read_only queue header limits base with
    | .error e => .error e
    | .ok p => .ok { p with segment := some segment }

def Pipeline.configure (p : Pipeline) (resources : ResourceLimits) (budget : PollBudget) :
    Except Error Pipeline :=
  if p.serving = true ∨ p.in_flight ≠ 0 ∨ p.index.len ≠ 0 ∨ p.control_active = true ∨
      p.control.isSome = true then
    .error (.InvalidArgument "configure before recovery or admission")
  else if resources.frame_bytes < 4096 ∨ resources.index_entries = 0 ∨
      resources.metadata_bytes < 4096 ∨ resources.pending_records = 0 ∨ budget.operations = 0 ∨
      budget.bytes = 0 ∨ budget.records = 0 then
    .error (.InvalidArgument "resource limits and poll budgets must be positive")
  else .ok { p with resources, budget }

/-! ## Admission -/

def Pipeline.admission (p : Pipeline) (write : Bool) : Except Error Nat :=
  if p.queue_failed = true then .error .QueueFailed
  else
    let refused : Option Error :=
      if write = true then
        if p.segment.isNone = true then some .ReadOnly
        else
          match p.failed_at with
          | some ticket => some (.WriteFailed ticket)
          | none => if p.flush_slot.isSome = true then some .Backpressure else none
      else none
    match refused with
    | some e => .error e
    | none =>
      if p.free = [] ∨ p.queue.vacant = 0 ∨ (p.maintenance = true ∧ p.queue.vacant ≤ 1) then
        .error .Backpressure
      else if p.next_ticket = 2 ^ 64 - 1 then .error (.InvalidArgument "ticket counter exhausted")
      else .ok p.next_ticket

/-- Puts an operation into a free slot. There is one when `admission` has said so. -/
def Pipeline.take_slot (p : Pipeline) (pending : Pending) : Nat × Pipeline :=
  match p.free with
  | [] => (0, { p with panicked := true })
  | s :: rest =>
    (s, { p with
      serving := true, free := rest, slots := p.slots.set s (some pending)
      next_ticket := p.next_ticket + 1 })

/-- Hands a request to the queue, which must have room. -/
def Pipeline.submit (p : Pipeline) (slot : Nat) (operation : Operation) (offset len : Nat)
    (buffer : Option Bytes) : Pipeline :=
  match p.queue.try_submit ⟨slot, operation, offset, len, buffer⟩ with
  | .ok queue => { p with queue }
  | .error _ => { p with panicked := true }

/-- The keys of `entries` that the index lacks, each once, up to `limit`. -/
def count_unique (index : Index) (limit : Nat) :
    List (ChunkId × Location) → List ChunkId → Except Error (List ChunkId)
  | [], unique => .ok unique
  | (key, _) :: rest, unique =>
    if (index.get key).isSome = true then count_unique index limit rest unique
    else if unique.length = limit ∧ key ∉ unique then .error (.ResourceLimit "index entries")
    else count_unique index limit rest (unique.insert key)

/-- Checks that the index has room for `entries`, and how much of it they may need. -/
def Pipeline.reserve_entries (p : Pipeline) (es : List (ChunkId × Location)) : Except Error Nat :=
  let new :=
    if p.index.len + p.pending_new + es.length > p.resources.index_entries then
      (count_unique p.index p.resources.index_entries es []).map List.length
    else .ok es.length
  match new with
  | .error e => .error e
  | .ok new =>
    if p.pending_new + new ≥ 2 ^ 64 then .error (.ResourceLimit "index entries")
    else if p.index.len + new > p.resources.index_entries then
      .error (.ResourceLimit "index entries including tombstones")
    else if p.index.len + (p.pending_new + new) > p.resources.index_entries then
      .error .Backpressure
    else .ok new

/-! ## Writes -/

/-- What a caller's encoder does: it places a frame at the next position and writes it into the
buffer. -/
abbrev Encode := SegmentBuilder → FrameLimits → Bytes → Except Error (FramePosition × Bytes)

/-- An encoded frame that passed every check, before it takes a slot. -/
structure Prepared where
  write : Write
  segment : SegmentBuilder
  offset : Nat
  len : Nat
  buffer : Bytes

def Pipeline.base (p : Pipeline) (segment : Nat) : Nat := (p.extents[segment]?).elim 0 (·.base)

/-- The checks on a frame, in the order of the source. Nothing changes when one fails. -/
def Pipeline.prepare (p : Pipeline) (buffer : Bytes) (encode : Encode) :
    Except (Rejected Bytes) Prepared :=
  match p.admission true, p.segment with
  | .error e, _ => .error ⟨e, buffer⟩
  | .ok _, none => .error ⟨.ReadOnly, buffer⟩
  | .ok ticket, some segment =>
    match encode segment p.limits buffer with
    | .error e => .error ⟨e, buffer⟩
    | .ok (position, buffer) =>
      match Metadata.decode buffer p.limits position with
      | .error e => .error ⟨.Frame e, buffer⟩
      | .ok metadata =>
        let count := metadata.header.record_count
        if count > p.resources.pending_records then
          .error ⟨.ResourceLimit "single frame pending record metadata", buffer⟩
        else if p.pending_entries + count > p.resources.pending_records then
          .error ⟨.Backpressure, buffer⟩
        else if metadata.bytes.length > p.resources.metadata_bytes then
          .error ⟨.ResourceLimit "single frame footer metadata", buffer⟩
        else if segment.metadata.length + metadata.bytes.length > p.resources.metadata_bytes then
          .error ⟨.MetadataFull, buffer⟩
        else
          match p.reserve_entries (entries metadata p.current) with
          | .error e => .error ⟨e, buffer⟩
          | .ok reserved_new =>
            match segment.append metadata with
            | .error e => .error ⟨.Segment e, buffer⟩
            | .ok segment =>
              .ok { write := ⟨ticket, entries metadata p.current, reserved_new, none⟩, segment
                    offset := p.base p.current + position.offset
                    len := metadata.header.frame_len, buffer }

/-- A prepared frame takes a slot, queues behind the earlier writes and goes to the device. -/
def Pipeline.launch (p : Pipeline) (f : Prepared) : Pipeline :=
  let p :=
    { p with
      segment := some f.segment
      pending_entries := p.pending_entries + f.write.entries.length
      pending_new := p.pending_new + f.write.reserved_new }
  let (slot, p) := p.take_slot (.Write f.write)
  let p := { p with writes := p.writes ++ [slot] }
  p.submit slot .Write f.offset f.len (some f.buffer)

def Pipeline.submit_frame (p : Pipeline) (buffer : Bytes) (encode : Encode) :
    Except (Rejected Bytes) (Nat × Pipeline) :=
  match p.prepare buffer encode with
  | .error r => .error r
  | .ok f => .ok (f.write.ticket, p.launch f)

def encode_frame (frame : FrameBuilder) : Encode := fun segment _ buffer =>
  match segment.position frame.encoded_len frame.metadata_len with
  | .error e => .error (.Segment e)
  | .ok position =>
    match frame.encode_into position buffer with
    | .error e => .error (.Frame e)
    | .ok (_, buffer) => .ok (position, buffer)

def encode_prepared (key : ChunkId) (lsn : UInt64) (value_len required : Nat) : Encode :=
  fun segment limits buffer =>
    match PreparedFrame.new limits value_len buffer with
    | .error e => .error (.Frame e)
    | .ok frame =>
      match segment.position required frame.metadata_len with
      | .error e => .error (.Segment e)
      | .ok position =>
        match frame.finish position key lsn with
        | .error e => .error (.Frame e)
        | .ok bytes => .ok (position, bytes ++ buffer.drop bytes.length)

def Pipeline.write (p : Pipeline) (frame : FrameBuilder) (buffer : Bytes) :
    Except (Rejected Bytes) (Nat × Pipeline) :=
  if frame.encoded_len > p.resources.frame_bytes then
    .error ⟨.ResourceLimit "frame bytes", buffer⟩
  else p.submit_frame buffer (encode_frame frame)

def Pipeline.write_prepared (p : Pipeline) (key : ChunkId) (lsn : UInt64) (value_len : Nat)
    (buffer : Bytes) : Except (Rejected Bytes) (Nat × Pipeline) :=
  match PreparedFrame.required_len p.limits value_len with
  | .error e => .error ⟨.Frame e, buffer⟩
  | .ok required =>
    if required > p.resources.frame_bytes then .error ⟨.ResourceLimit "frame bytes", buffer⟩
    else p.submit_frame buffer (encode_prepared key lsn value_len required)

/-! ## Flushes -/

def Pipeline.flush (p : Pipeline) : Except Error (Nat × Pipeline) :=
  match p.admission false with
  | .error e => .error e
  | .ok ticket =>
    match p.failed_at with
    | some failed => .error (.WriteFailed failed)
    | none =>
      if p.flush_slot.isSome = true then .error .Backpressure
      else
        let (slot, p) := p.take_slot (.Flush ticket false)
        .ok (ticket, { p with flush_slot := some slot })

/-! ## Reads -/

def Pipeline.stat (p : Pipeline) (key : ChunkId) : Option (UInt64 × Nat) :=
  match p.index.get key with
  | some loc => if loc.kind = .Data then some (loc.lsn, loc.value_len) else none
  | none => none

def Pipeline.contains (p : Pipeline) (key : ChunkId) : Bool :=
  match p.index.get key with
  | some loc => decide (loc.kind = .Data)
  | none => false

def Pipeline.location (p : Pipeline) (key : ChunkId) : Except Error Location :=
  match p.index.get key with
  | some loc => if loc.kind = .Data then .ok loc else .error .NotFound
  | none => .error .NotFound

def Pipeline.direct_extent (p : Pipeline) (key : ChunkId) (range : Range) :
    Except Error ReadExtent :=
  match p.location key with
  | .error e => .error e
  | .ok loc =>
    match frame.validate_range loc.value_len range.start range.end_ with
    | .error e => .error (.Frame e)
    | .ok () =>
      .ok (ReadExtent.new (p.base loc.segment + loc.frame_offset + loc.value_offset) range)

def Pipeline.read_direct (p : Pipeline) (key : ChunkId) (range : Range) (buffers : ReadBuffers) :
    Except (Rejected ReadBuffers) (Nat × Pipeline) :=
  match p.admission false with
  | .error e => .error ⟨e, buffers⟩
  | .ok ticket =>
    match p.direct_extent key range with
    | .error e => .error ⟨e, buffers⟩
    | .ok extent =>
      if buffers.value.length < extent.len then
        .error ⟨.Frame (.BufferTooSmall extent.len buffers.value.length), buffers⟩
      else if extent.len = 0 then
        let (slot, p) := p.take_slot (.EmptyRead ticket buffers)
        .ok (ticket, { p with ready_reads := p.ready_reads ++ [slot] })
      else
        let read : Read :=
          ⟨ticket, ⟨extent.front, extent.front + (range.end_ - range.start)⟩, buffers.metadata⟩
        let (slot, p) := p.take_slot (.Read read)
        .ok (ticket, p.submit slot .Read extent.offset extent.len (some buffers.value))

def Pipeline.plan_verified (p : Pipeline) (ticket : Nat) (key : ChunkId) (range : Range) :
    Except Error VerifiedRead :=
  match p.location key with
  | .error e => .error e
  | .ok loc => VerifiedRead.plan ticket key loc range (p.base loc.segment)

def Pipeline.read_verified (p : Pipeline) (key : ChunkId) (range : Range) (buffers : ReadBuffers) :
    Except (Rejected ReadBuffers) (Nat × Pipeline) :=
  match p.admission false with
  | .error e => .error ⟨e, buffers⟩
  | .ok ticket =>
    match p.plan_verified ticket key range with
    | .error e => .error ⟨e, buffers⟩
    | .ok read =>
      let metadata_available := (buffers.metadata.map List.length).getD 0
      if read.metadata_len > metadata_available then
        .error ⟨.Frame (.BufferTooSmall read.metadata_len metadata_available), buffers⟩
      else if read.value_buffer_len > buffers.value.length then
        .error ⟨.Frame (.BufferTooSmall read.value_buffer_len buffers.value.length), buffers⟩
      else
        let offset := p.base read.location.segment + read.location.frame_offset
        let (slot, p) := p.take_slot (.VerifiedRead { read with value := some buffers.value })
        .ok (ticket, p.submit slot .Read offset read.metadata_len buffers.metadata)

def Pipeline.read (p : Pipeline) (key : ChunkId) (range : Range) (verify : Bool)
    (buffers : ReadBuffers) : Except (Rejected ReadBuffers) (Nat × Pipeline) :=
  if verify = true then p.read_verified key range buffers else p.read_direct key range buffers

def Pipeline.read_requirements (p : Pipeline) (key : ChunkId) (range : Range) (verify : Bool) :
    Except Error ReadRequirements :=
  if verify = true then
    (p.plan_verified p.next_ticket key range).map
      (fun read => ⟨read.metadata_len, read.value_buffer_len⟩)
  else (p.direct_extent key range).map (fun extent => ⟨0, extent.len⟩)

/-! ## Maintenance -/

def Pipeline.writes_pending (p : Pipeline) : Bool := !p.writes.isEmpty || p.flush_slot.isSome

def Pipeline.data_end (p : Pipeline) : Option Nat := p.segment.map (·.data_end)

/-- `next_ticket` of the source: a ticket for a lifecycle request. -/
def Pipeline.draw_ticket (p : Pipeline) : Except Error (Nat × Pipeline) :=
  if p.next_ticket = 2 ^ 64 - 1 then .error (.InvalidArgument "ticket counter exhausted")
  else .ok (p.next_ticket, { p with next_ticket := p.next_ticket + 1 })

def Pipeline.control_io (p : Pipeline) (operation : Operation) (offset len : Nat)
    (buffer : Option Bytes) : Except Error Pipeline :=
  if p.queue_failed = true then .error .QueueFailed
  else if p.control.isSome = true ∨ p.control_active = true ∨ p.control_done.isSome = true then
    .error .Backpressure
  else .ok { p with control := some ⟨CONTROL_TOKEN, operation, offset, len, buffer⟩ }

def Pipeline.position_in (p : Pipeline) (segment offset : Nat) : Except Error FramePosition :=
  match p.extents[segment]? with
  | none => .error (.InvalidArgument "segment is not attached")
  | some extent =>
    match extent.header.position offset with
    | .error e => .error (.Frame e)
    | .ok position => .ok position

/-- Adds recovered metadata to the index, under the rules of publication. -/
def Pipeline.restore (p : Pipeline) (metadata : Metadata) : Except Error Pipeline :=
  if p.segment.isSome = true ∨ p.serving = true then
    .error (.InvalidArgument "restore is only valid before serving reads")
  else
    match p.extents[p.current]?, p.position_in p.current metadata.header.position.offset with
    | none, _ => .error (.InvalidArgument "segment is not attached")
    | _, .error e => .error e
    | some extent, .ok position =>
      if position.segment_seq ≠ metadata.header.position.segment_seq ∨
          metadata.header.position.offset + metadata.header.frame_len >
            (extent.header.seal_.map (·.data_end)).getD extent.header.segment_len then
        .error (.InvalidArgument "recovered frame is outside the assigned segment")
      else
        match Metadata.decode metadata.bytes p.limits position with
        | .error e => .error (.Frame e)
        | .ok metadata =>
          match p.reserve_entries (entries metadata p.current) with
          | .error e => .error e
          | .ok _ =>
            .ok { p with
              index := apply p.index (entries metadata p.current)
              applied := p.applied ++ [entries metadata p.current] }

def Pipeline.attach (p : Pipeline) (header : SegmentHeader) (base : Nat) (writable : Bool) :
    Except Error Pipeline :=
  if p.writes ≠ [] ∨ p.flush_slot.isSome = true ∨ p.segment.isSome = true ∨
      p.queue_failed = true ∨ p.failed_at.isSome = true ∨ p.extents.length ≥ 2 ^ 32 - 1 then
    .error (.InvalidArgument "pipeline cannot switch segment")
  else
    let builder : Except Error (Option SegmentBuilder) :=
      if writable = true then
        match SegmentBuilder.new header with
        | .error e => .error (.Segment e)
        | .ok b => .ok (some b)
      else .ok none
    match builder with
    | .error e => .error e
    | .ok segment =>
      .ok { p with
        current := p.extents.length, extents := p.extents ++ [⟨header, base⟩], segment }

def Pipeline.take_segment (p : Pipeline) : Except Error (Option SegmentBuilder × Pipeline) :=
  if p.writes ≠ [] ∨ p.flush_slot.isSome = true then .error .Backpressure
  else if p.queue_failed = true then .error .QueueFailed
  else
    match p.failed_at with
    | some ticket => .error (.WriteFailed ticket)
    | none => .ok (p.segment, { p with segment := none })

/-- Bytes of an `Extent` and a `bool`, as `size_of` gives them on a 64-bit target. -/
def ROUTE_LEN : Nat := 65

def route_capacity (metadata_bytes : Nat) : Nat := metadata_bytes / ROUTE_LEN

end moat_engine.pipeline
