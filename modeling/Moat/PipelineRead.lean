-- Reads of published values: the pages a range needs, the buffers, and the two
-- phases of a verified read (`pipeline/read.rs`, `pipeline/verify.rs`).
import Moat.PipelineIndex

namespace moat_engine.pipeline

open byte_list moat_common
open moat_engine.frame (FrameHeader FrameLimits FramePosition Metadata RecordKind)

/-- A half-open range of bytes. -/
structure Range where
  start : Nat
  end_ : Nat
deriving DecidableEq, Repr

def Range.is_empty (r : Range) : Bool := decide (r.end_ ≤ r.start)

def Range.len (r : Range) : Nat := r.end_ - r.start

/-- Caller buffers: space for front metadata, and space for the pages of the value. -/
structure ReadBuffers where
  metadata : Option Bytes
  value : Bytes
deriving DecidableEq

structure ReadRequirements where
  metadata_len : Nat
  value_len : Nat
deriving DecidableEq

/-- Where in the returned buffers the requested bytes are. -/
inductive ReadRange where
  | Metadata (range : Range)
  | Value (range : Range)
deriving DecidableEq, Repr

def ReadBuffers.view (b : ReadBuffers) : ReadRange → Bytes
  | .Metadata r => slice (b.metadata.getD []) r.start r.end_
  | .Value r => slice b.value r.start r.end_

/-! ## Extents -/

/-- The pages that hold a range of a value, and where in them the range begins. -/
structure ReadExtent where
  offset : Nat
  len : Nat
  front : Nat
deriving DecidableEq

def ReadExtent.new (value_start : Nat) (range : Range) : ReadExtent :=
  let start := value_start + range.start
  let offset := align_down start PAGE_SIZE
  let front := start - offset
  ⟨offset, if range.is_empty then 0 else align_up (front + (range.end_ - range.start)) PAGE_SIZE,
    front⟩

/-- A read in flight whose bytes are returned as they come. -/
structure Read where
  ticket : Nat
  range : Range
  metadata : Option Bytes

/-! ## Verified reads -/

/-- A read in flight that checks front metadata first and then whole checksum blocks. A buffer is
`none` while the queue owns it. -/
structure VerifiedRead where
  ticket : Nat
  key : ChunkId
  location : Location
  requested : Range
  verified : Range
  io_offset : Nat
  io_len : Nat
  front : Nat
  metadata : Option Bytes
  value : Option Bytes
  validated_header : Option FrameHeader

def VerifiedRead.plan (ticket : Nat) (key : ChunkId) (location : Location) (requested : Range)
    (base : Nat) : Except Error VerifiedRead :=
  match frame.verification_range location.value_len requested.start requested.end_ with
  | .error e => .error (.Frame e)
  | .ok verified =>
    let verified : Range := ⟨verified.1, verified.2⟩
    let extent := ReadExtent.new (base + location.frame_offset + location.value_offset) verified
    .ok { ticket, key, location, requested, verified, io_offset := extent.offset,
          io_len := extent.len, front := extent.front, metadata := none, value := none,
          validated_header := none }

def VerifiedRead.metadata_len (r : VerifiedRead) : Nat := align_up r.location.metadata_len PAGE_SIZE

def VerifiedRead.value_buffer_len (r : VerifiedRead) : Nat :=
  if r.requested.is_empty = true ∨ r.location.value_offset + r.verified.end_ ≤ r.metadata_len then 0
  else r.io_len

/-- The metadata that came back must be that of the indexed record. -/
def VerifiedRead.validate_metadata (r : VerifiedRead) (limits : FrameLimits)
    (position : FramePosition) : Except Error VerifiedRead :=
  match Metadata.decode (r.metadata.getD []) limits position with
  | .error e => .error (.Frame e)
  | .ok metadata =>
    match metadata.record r.location.ordinal with
    | none => .error (.Frame (.Corrupt "indexed record is missing"))
    | some record =>
      let d := record.descriptor
      if metadata.header.frame_len ≠ r.location.frame_len ∨
          metadata.header.metadata_len ≠ r.location.metadata_len ∨ d.key ≠ r.key ∨
          d.lsn ≠ r.location.lsn ∨ d.value_len ≠ r.location.value_len ∨
          d.value_offset ≠ r.location.value_offset ∨ d.kind ≠ .Data then
        .error (.Frame (.Corrupt "indexed record identity"))
      else .ok { r with validated_header := some metadata.header }

/-- The record behind a validated header. Rust unwraps all three options: the metadata phase has
set them. -/
def VerifiedRead.record (r : VerifiedRead) : Option frame.Record :=
  match r.validated_header, r.metadata with
  | some header, some bytes =>
    (Metadata.mk (bytes.take header.metadata_len) header).record r.location.ordinal
  | _, _ => none

/-- Checks `bytes` against the record's checksums. -/
def VerifiedRead.check (r : VerifiedRead) (bytes : Bytes) : Except Error Unit :=
  match r.record with
  | none => .error (.Frame (.Corrupt "indexed record is missing"))
  | some record =>
    match record.verify r.verified.start r.verified.end_ bytes with
    | .error e => .error (.Frame e)
    | .ok () => .ok ()

/-- The end of the metadata phase. `none` asks for a second read, of the value's pages. -/
def VerifiedRead.finish_metadata (r : VerifiedRead) (limits : FrameLimits)
    (position : FramePosition) : Except Error (VerifiedRead × Option ReadRange) :=
  match r.validate_metadata limits position with
  | .error e => .error e
  | .ok r =>
    if r.requested.is_empty = true then .ok (r, some (.Value ⟨0, 0⟩))
    else
      let start := r.location.value_offset + r.verified.start
      let end_ := r.location.value_offset + r.verified.end_
      if end_ > r.metadata_len then .ok (r, none)
      else
        match r.check (slice (r.metadata.getD []) start end_) with
        | .error e => .error e
        | .ok () =>
          let start := r.location.value_offset + r.requested.start
          .ok (r, some (.Metadata ⟨start, start + r.requested.len⟩))

/-- The end of the value phase. -/
def VerifiedRead.verify (r : VerifiedRead) : Except Error ReadRange :=
  match r.check (slice (r.value.getD []) r.front (r.front + r.verified.len)) with
  | .error e => .error e
  | .ok () =>
    let start := r.front + (r.requested.start - r.verified.start)
    .ok (.Value ⟨start, start + r.requested.len⟩)

def VerifiedRead.buffers (r : VerifiedRead) : ReadBuffers := ⟨r.metadata, r.value.getD []⟩

end moat_engine.pipeline
