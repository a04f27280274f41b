-- The state of an engine, its lifecycle jobs, and the two kinds of work that a
-- job does: recovery and segment transitions (`engine/mod.rs`, `lifecycle.rs`,
-- `recovery.rs`).
import Moat.Layout
import Moat.PipelineDriver
import Moat.SegmentFooter
import Moat.SegmentScan

namespace moat_engine.engine

open byte_list moat_common
open moat_engine.frame (FrameHeader FrameLimits FramePosition Metadata)
open moat_engine.io (Operation Queue)
open moat_engine.pipeline (Pipeline PollBudget ResourceLimits)
open moat_engine.segment (FooterEncoder FooterTrailer FooterValidator Scanner SegmentHeader)

structure Options where
  sync_mode : SyncMode
  resources : ResourceLimits
  poll : PollBudget

inductive State where
  | Opening
  | Ready
  | Closing
  | Closed
  | Failed
deriving DecidableEq, Repr

/-- Lifecycle operation of a job. -/
inductive Lifecycle where
  | Open
  | Seal
  | Rollover
  | Close
deriving DecidableEq, Repr

/-- What the engine tells its owner. `Data` passes a completion of the pipeline on. -/
inductive Completion where
  | Lifecycle (ticket : Nat) (operation : Lifecycle) (result : Except Error Unit)
  | Data (completion : pipeline.Completion)

def Completion.ticket : Completion → Nat
  | .Lifecycle ticket _ _ => ticket
  | .Data completion => completion.ticket

/-! ## Jobs -/

/-- What a step of a job asks for. -/
inductive Progress where
  | Continue
  | Wait
  | Done
  | Io (operation : Operation) (offset len : Nat) (buffer : Option Bytes)

def Progress.read (offset : Nat) (buffer : Bytes) (len : Nat) : Progress :=
  .Io .Read offset len (some buffer)

def Progress.write (offset : Nat) (buffer : Bytes) : Progress :=
  .Io .Write offset buffer.length (some buffer)

def Progress.sync : SyncMode → Progress
  | .Disabled => .Continue
  | .Enabled => .Io .Sync 0 0 none

inductive TransitionStage where
  | Drain
  | Footer
  | LastWrite
  | LastSync
  | Allocate
  | HeaderSync
  | Attach
  | Closed
deriving DecidableEq, Repr

structure Transition where
  stage : TransitionStage
  next : Option Nat
  footer : Option FooterEncoder
  base : Nat
  last : Option (Nat × Bytes)

inductive RecoveryStage where
  | Start
  | SuperA
  | SuperB
  | Header
  | HeaderDone
  | Tail
  | FooterRead
  | FooterValidate
  | Restore
  | Scan
  | ScanHeader
  | ScanBody
deriving DecidableEq, Repr

structure Recovery where
  stage : RecoveryStage
  found : Option Layout
  number : Nat
  header : Option SegmentHeader
  page : Option Bytes
  bytes : Option Bytes
  validator : Option FooterValidator
  scanner : Option Scanner
  metadata_at : Nat
  frame_offset : Nat
  frame_len : Nat

def Recovery.new : Recovery :=
  ⟨.Start, none, 0, none, none, none, none, none, 0, PAGE_SIZE, 0⟩

inductive Work where
  | Open (recovery : Recovery)
  | Transition (transition : Transition)

structure Job where
  ticket : Option Nat
  kind : Lifecycle
  waiting : Bool
  blocked : Bool
  work : Work

def Job.open_ (ticket : Nat) : Job := ⟨some ticket, .Open, false, false, .Open .new⟩

def Job.transition (ticket : Option Nat) (kind : Lifecycle) (next : Option Nat) : Job :=
  ⟨ticket, kind, false, false, .Transition ⟨.Drain, next, none, 0, none⟩⟩

/-- One owner of a device. `panicked` is for the statements only: the source has come to an
`expect`, an `unreachable!` or an index that panics in the code of the engine itself. -/
structure Engine where
  capacity : Nat
  layout : Option Layout
  pipeline : Pipeline
  used : List Bool
  next : Nat
  allocated : Nat
  active : Option Nat
  state : State
  opened : Bool
  job : Option Job
  options : Options
  panicked : Bool

/-- A step ends the engine in a panic. The answer is never used. -/
def Engine.panic {α : Type} (e : Engine) (work : α) : α × Engine × Except Error Progress :=
  (work, { e with panicked := true }, .error .Failed)

/-! ## Segment transitions -/

/-- All preceding writes are delivered: the active segment is sealed, if there is one. -/
def Transition.drain (t : Transition) (e : Engine) (kind : Lifecycle) (layout : Layout) :
    Transition × Engine × Except Error Progress :=
  if e.pipeline.writes_pending = true ∨ (kind = .Close ∧ e.pipeline.in_flight ≠ 0) then
    (t, e, .ok .Wait)
  else
    match e.active with
    | some number =>
      match e.pipeline.take_segment with
      | .error err => (t, e, .error (.Pipeline err))
      | .ok (none, _) => e.panic t
      | .ok (some builder, pipeline) =>
        let e := { e with pipeline, active := none }
        match layout.segment_base number with
        | .error err => (t, e, .error err)
        | .ok base =>
          ({ t with base, footer := some builder.into_footer, stage := .Footer }, e, .ok .Continue)
    | none =>
      if kind = .Close then
        ({ t with stage := .Closed }, e, .ok (.sync e.options.sync_mode))
      else ({ t with stage := .Allocate }, e, .ok .Continue)

/-- The next chunk of the footer. The last page waits for a sync of all the others. -/
def Transition.write_footer (t : Transition) (e : Engine) :
    Transition × Engine × Except Error Progress :=
  match t.footer with
  | none => e.panic t
  | some encoder =>
    match encoder.next with
    | none => e.panic t
    | some ((offset, bytes, last), encoder) =>
      let t := { t with footer := some encoder }
      if last = true then
        ({ t with last := some (offset, bytes), stage := .LastWrite }, e,
          .ok (.sync e.options.sync_mode))
      else (t, e, .ok (.write (t.base + offset) bytes))

/-- Marks the slot as used for good and writes its header. -/
def Transition.allocate (t : Transition) (e : Engine) (layout : Layout) :
    Transition × Engine × Except Error Progress :=
  let t := { t with footer := none }
  match t.next with
  | none => (t, e, .ok .Done)
  | some number =>
    match layout.header number with
    | .error err => (t, e, .error err)
    | .ok header =>
      match header.encode_into (zeros PAGE_SIZE) with
      | .error err => (t, e, .error (.Segment err))
      | .ok bytes =>
        if e.used.length ≤ number then e.panic t
        else
          let e := { e with used := e.used.set number true, allocated := e.allocated + 1 }
          let t := { t with stage := .HeaderSync }
          match layout.segment_base number with
          | .error err => (t, e, .error err)
          | .ok base => (t, e, .ok (.write base bytes))

def Transition.attach (t : Transition) (e : Engine) (layout : Layout) :
    Transition × Engine × Except Error Progress :=
  match t.next with
  | none => e.panic t
  | some number =>
    match layout.header number, layout.segment_base number with
    | .error err, _ => (t, e, .error err)
    | _, .error err => (t, e, .error err)
    | .ok header, .ok base =>
      match e.pipeline.attach header base true with
      | .error err => (t, e, .error (.Pipeline err))
      | .ok pipeline => (t, { e with pipeline, active := some number }, .ok .Done)

def Transition.step (t : Transition) (e : Engine) (kind : Lifecycle) :
    Transition × Engine × Except Error Progress :=
  if e.opened = false then (t, e, .error .Failed)
  else
    match e.layout with
    | none => e.panic t
    | some layout =>
      match t.stage with
      | .Drain => t.drain e kind layout
      | .Footer => t.write_footer e
      | .LastWrite =>
        match t.last with
        | none => e.panic t
        | some (offset, buffer) =>
          ({ t with last := none, stage := .LastSync }, e, .ok (.write (t.base + offset) buffer))
      | .LastSync => ({ t with stage := .Allocate }, e, .ok (.sync e.options.sync_mode))
      | .Allocate => t.allocate e layout
      | .HeaderSync => ({ t with stage := .Attach }, e, .ok (.sync e.options.sync_mode))
      | .Attach => t.attach e layout
      | .Closed => (t, e, .ok .Done)

/-! ## Recovery -/

def Recovery.page_read (offset : Nat) : Progress := .read offset (zeros PAGE_SIZE) PAGE_SIZE

def Recovery.superblock (r : Recovery) (bytes : Bytes) : Except Error Recovery :=
  match Layout.decode bytes with
  | .ok layout =>
    if r.found.isSome = true ∧ r.found ≠ some layout then .error (.Corrupt "superblocks disagree")
    else .ok { r with found := some layout }
  | .error .NotFormatted => .ok r
  | .error e => .error e

/-- Goes on to the scanner, whatever the footer says. -/
def Recovery.scan (r : Recovery) (limits : FrameLimits) (e : Engine) :
    Recovery × Engine × Except Error Progress :=
  match r.header with
  | none => e.panic r
  | some header =>
    ({ r with
      bytes := none, validator := none, scanner := some (Scanner.new header limits)
      stage := .Scan }, e, .ok .Continue)

def Recovery.next (r : Recovery) (e : Engine) : Recovery × Engine × Except Error Progress :=
  ({ r with
    number := r.number + 1, header := none, page := none, bytes := none, validator := none
    scanner := none, stage := .Header }, e, .ok .Continue)

/-- Both superblocks are read: the geometry becomes the engine's, if its bounds allow. -/
def Recovery.geometry (r : Recovery) (e : Engine) : Recovery × Engine × Except Error Progress :=
  match r.found with
  | none => (r, e, .error .NotFormatted)
  | some layout =>
    if e.capacity < layout.capacity then (r, e, .error (.Corrupt "device was truncated"))
    else if layout.segments > pipeline.route_capacity e.options.resources.metadata_bytes then
      (r, e, .error (.Pipeline (.ResourceLimit "segment routing metadata")))
    else if layout.limits.max_frame_len > e.options.resources.frame_bytes then
      (r, e, .error (.Pipeline (.ResourceLimit "configured frame buffer bound")))
    else
      ({ r with stage := .Header },
        { e with
          used := List.replicate layout.segments false
          pipeline := { e.pipeline with limits := layout.limits }
          layout := some layout }, .ok .Continue)

/-- The header that recovery goes by: the allocation header, or the trailer of the same
incarnation. -/
def Recovery.judge (header : SegmentHeader) (tail : Bytes) : Except Error SegmentHeader :=
  if allZero tail = true then .ok header
  else
    match FooterTrailer.decode tail header.segment_len header.len_u32 with
    | .ok trailer =>
      if trailer.header.id.device_id ≠ header.id.device_id ∨
          trailer.header.id.segment_no ≠ header.id.segment_no ∨
          trailer.header.id.sequence > header.id.sequence then
        .error (.Corrupt "footer allocation identity or future generation")
      else if trailer.header.id.sequence = header.id.sequence then .ok trailer.header
      else .ok header
    | .error (.UnsupportedVersion v) => .error (.Segment (.UnsupportedVersion v))
    | .error _ => .ok header

/-- The slot is attached; its footer is read if it is within the bound, else it is scanned. -/
def Recovery.enter (r : Recovery) (e : Engine) (header : SegmentHeader) (tail : Bytes) (base : Nat)
    (limits : FrameLimits) : Recovery × Engine × Except Error Progress :=
  if e.used.length ≤ r.number then e.panic r
  else
    let e := { e with used := e.used.set r.number true, allocated := e.allocated + 1 }
    match e.pipeline.attach header base false with
    | .error err => (r, e, .error (.Pipeline err))
    | .ok pipeline =>
      let e := { e with pipeline }
      let r := { r with header := some header }
      match header.footer_range with
      | none => r.scan limits e
      | some (start, end_) =>
        let len := end_ - start
        if len > e.options.resources.metadata_bytes then r.scan limits e
        else
          let r := { r with stage := .FooterRead }
          if len = PAGE_SIZE then ({ r with bytes := some tail }, e, .ok .Continue)
          else
            let split := len - PAGE_SIZE
            (r, e, .ok (.read (base + start) (zeros split ++ tail) split))

/-- Header and tail page of a slot have come in. -/
def Recovery.tail (r : Recovery) (e : Engine) (layout : Layout) (base : Nat)
    (input : Option Bytes) : Recovery × Engine × Except Error Progress :=
  match input, r.page with
  | some tail, some page =>
    let r := { r with page := none }
    if allZero page = true then
      if allZero tail = true then r.next e
      else (r, e, .error (.Corrupt "footer without allocation header"))
    else
      if hn : r.number < 2 ^ 32 then
        match SegmentHeader.decode page layout.id r.number layout.segment_size hn
          layout.size_u32 with
        | .error err => (r, e, .error (.Segment err))
        | .ok header =>
          match Recovery.judge header tail with
          | .error err => (r, e, .error err)
          | .ok header => r.enter e header tail base layout.limits
      else e.panic r
  | _, _ => e.panic r

def unsupported : segment.Error → Bool
  | .UnsupportedVersion _ => true
  | .Frame _ (.UnsupportedVersion _) => true
  | _ => false

/-- A footer that is damaged gives way to the scanner; an unsupported version does not. -/
def Recovery.fallback (r : Recovery) (e : Engine) (limits : FrameLimits) (err : segment.Error) :
    Recovery × Engine × Except Error Progress :=
  if unsupported err = true then (r, e, .error (.Segment err)) else r.scan limits e

def Recovery.footer_read (r : Recovery) (e : Engine) (limits : FrameLimits)
    (input : Option Bytes) : Recovery × Engine × Except Error Progress :=
  let r := { r with bytes := input.or r.bytes }
  match r.bytes, r.header with
  | some bytes, some header =>
    match FooterValidator.new bytes header limits with
    | .ok validator =>
      ({ r with validator := some validator, stage := .FooterValidate }, e, .ok .Continue)
    | .error err => r.fallback e limits err
  | _, _ => e.panic r

def Recovery.footer_validate (r : Recovery) (e : Engine) (limits : FrameLimits) :
    Recovery × Engine × Except Error Progress :=
  match r.validator, r.bytes with
  | some validator, some bytes =>
    match validator.step bytes with
    | .ok (validator, true) =>
      ({ r with
        validator := some validator, metadata_at := 0, frame_offset := PAGE_SIZE
        stage := .Restore }, e, .ok .Continue)
    | .ok (validator, false) => ({ r with validator := some validator }, e, .ok .Continue)
    | .error err => r.fallback e limits err
  | _, _ => e.panic r

/-- Restores one frame of a validated footer. -/
def Recovery.restore (r : Recovery) (e : Engine) (limits : FrameLimits) :
    Recovery × Engine × Except Error Progress :=
  match r.header, r.bytes with
  | some header, some bytes =>
    match header.seal_ with
    | none => e.panic r
    | some seal_ =>
      if r.frame_offset = seal_.data_end then r.next e
      else
        match FramePosition.new header.id.sequence r.frame_offset seal_.data_end header.seq_u64
            seal_.end_u32 with
        | .error err => (r, e, .error (.Frame err))
        | .ok position =>
          match Metadata.decode (bytes.drop r.metadata_at) limits position with
          | .error err => (r, e, .error (.Frame err))
          | .ok metadata =>
            match e.pipeline.restore metadata with
            | .error err => (r, e, .error (.Pipeline err))
            | .ok pipeline =>
              ({ r with
                metadata_at := r.metadata_at + metadata.bytes.length
                frame_offset := r.frame_offset + metadata.header.frame_len },
                { e with pipeline }, .ok .Continue)
  | _, _ => e.panic r

def Recovery.start_scan (r : Recovery) (e : Engine) (base : Nat) :
    Recovery × Engine × Except Error Progress :=
  match r.scanner with
  | none => e.panic r
  | some scanner =>
    match scanner.position with
    | none => r.next e
    | some position =>
      ({ r with stage := .ScanHeader }, e, .ok (Recovery.page_read (base + position.offset)))

/-- Gives a candidate to the scanner and restores the frame that it finds. -/
def Recovery.take_frame (r : Recovery) (e : Engine) (scanner : Scanner) (bytes : Bytes) :
    Recovery × Engine × Except Error Progress :=
  match scanner.next_frame bytes with
  | (scanner, .error err) => ({ r with scanner := some scanner }, e, .error (.Segment err))
  | (_, .ok none) => r.next e
  | (scanner, .ok (some frame)) =>
    match e.pipeline.restore frame.metadata with
    | .error err => ({ r with scanner := some scanner }, e, .error (.Pipeline err))
    | .ok pipeline =>
      ({ r with scanner := some scanner, stage := .Scan }, { e with pipeline }, .ok .Continue)

/-- The first page of a candidate. A header that does not decode ends the scan, or is an error of
the scanner; a longer frame asks for the rest of its bytes. -/
def Recovery.scan_header (r : Recovery) (e : Engine) (limits : FrameLimits) (base : Nat)
    (input : Option Bytes) : Recovery × Engine × Except Error Progress :=
  match input, r.scanner with
  | some page, some scanner =>
    match scanner.position with
    | none => e.panic r
    | some position =>
      match FrameHeader.decode page limits position with
      | .error _ =>
        match scanner.next_frame page with
        | (scanner, .error err) => ({ r with scanner := some scanner }, e, .error (.Segment err))
        | (_, .ok _) => r.next e
      | .ok header =>
        let r := { r with frame_len := header.frame_len }
        if header.frame_len = PAGE_SIZE then r.take_frame e scanner page
        else
          let len := header.frame_len - PAGE_SIZE
          ({ r with page := some page, stage := .ScanBody }, e,
            .ok (.read (base + position.offset + PAGE_SIZE) (zeros len) len))
  | _, _ => e.panic r

def Recovery.scan_body (r : Recovery) (e : Engine) (input : Option Bytes) :
    Recovery × Engine × Except Error Progress :=
  match input, r.page, r.scanner with
  | some body, some page, some scanner =>
    { r with page := none }.take_frame e scanner (page ++ body)
  | _, _, _ => e.panic r

/-- The stages after the superblocks, for the slot that recovery is at. -/
def Recovery.slot_step (r : Recovery) (e : Engine) (layout : Layout) (input : Option Bytes) :
    Recovery × Engine × Except Error Progress :=
  match layout.segment_base r.number with
  | .error err => (r, e, .error err)
  | .ok base =>
    match r.stage with
    | .Header => ({ r with stage := .HeaderDone }, e, .ok (Recovery.page_read base))
    | .HeaderDone =>
      match layout.footer_tail_offset r.number with
      | .error err => ({ r with page := input, stage := .Tail }, e, .error err)
      | .ok offset => ({ r with page := input, stage := .Tail }, e, .ok (Recovery.page_read offset))
    | .Tail => r.tail e layout base input
    | .FooterRead => r.footer_read e layout.limits input
    | .FooterValidate => r.footer_validate e layout.limits
    | .Restore => r.restore e layout.limits
    | .Scan => r.start_scan e base
    | .ScanHeader => r.scan_header e layout.limits base input
    | .ScanBody => r.scan_body e input
    | .Start | .SuperA | .SuperB => e.panic r

def Recovery.step (r : Recovery) (e : Engine) (input : Option Bytes) :
    Recovery × Engine × Except Error Progress :=
  match r.stage with
  | .Start => ({ r with stage := .SuperA }, e, .ok (Recovery.page_read 0))
  | .SuperA =>
    match input with
    | none => e.panic r
    | some page =>
      match r.superblock page with
      | .error err => (r, e, .error err)
      | .ok r => ({ r with stage := .SuperB }, e, .ok (Recovery.page_read PAGE_SIZE))
  | .SuperB =>
    match input with
    | none => e.panic r
    | some page =>
      match r.superblock page with
      | .error err => (r, e, .error err)
      | .ok r => r.geometry e
  | stage =>
    match e.layout with
    | none => e.panic r
    | some layout =>
      if stage = .Header ∧ r.number = layout.segments then (r, e, .ok .Done)
      else r.slot_step e layout input

/-! ## One step of a job -/

/-- A job with its work replaced. -/
def Job.step (j : Job) (e : Engine) (input : Option Bytes) :
    Job × Engine × Except Error Progress :=
  match j.work with
  | .Open recovery =>
    match recovery.step e input with
    | (recovery, e, progress) => ({ j with work := .Open recovery }, e, progress)
  | .Transition transition =>
    match transition.step e j.kind with
    | (transition, e, progress) => ({ j with work := .Transition transition }, e, progress)

end moat_engine.engine
