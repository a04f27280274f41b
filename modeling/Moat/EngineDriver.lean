-- What the owner of an engine calls: open, poll, reads, writes, flushes and the
-- lifecycle requests (`engine/mod.rs`).
import Moat.Engine

namespace moat_engine.engine

open byte_list moat_common
open moat_engine.frame (FrameBuilder FrameLimits)
open moat_engine.io (Queue Script)
open moat_engine.pipeline (Pipeline Range ReadBuffers ReadRequirements)

/-! ## Driving the job -/

/-- The end of a job, with its completion if a caller holds a ticket for it. -/
def Engine.finish_job (e : Engine) (job : Job) (result : Except Error Unit) :
    Engine × List Completion :=
  let e :=
    if job.kind = .Close then { e with state := .Closed }
    else
      match result with
      | .error _ => { e with state := .Failed }
      | .ok () => { e with state := .Ready, opened := e.opened || decide (job.kind = .Open) }
  ({ e with pipeline := { e.pipeline with maintenance := false }, job := none },
    match job.ticket with
    | some ticket => [.Lifecycle ticket job.kind result]
    | none => [])

/-- Takes the completion that a waiting job waits for: its buffer, or the failure. -/
def control_result (completion : io.Completion) : Except Error (Option Bytes) :=
  let request := completion.request
  match completion.result with
  | .ok actual =>
    if actual = request.len then .ok request.buffer
    else
      .error (.Pipeline (.ShortIo request.operation request.offset request.len actual))
  | .error source => .error (.Pipeline (.Io request.operation request.offset source))

/-- One step of a job that waits for nothing, and what its answer asks for. The last component
says whether there was progress. -/
def Engine.step_job (e : Engine) (job : Job) (input : Option Bytes) :
    Engine × List Completion × Bool :=
  match { job with blocked := false }.step e input with
  | (job, e, .ok .Done) =>
    let (e, out) := e.finish_job job (.ok ())
    (e, out, true)
  | (job, e, .ok .Continue) => ({ e with job := some job }, [], true)
  | (job, e, .ok .Wait) => ({ e with job := some { job with blocked := true } }, [], false)
  | (job, e, .ok (.Io operation offset len buffer)) =>
    match e.pipeline.control_io operation offset len buffer with
    | .ok pipeline =>
      ({ e with pipeline, job := some { job with waiting := true } }, [], true)
    | .error err =>
      let (e, out) := e.finish_job job (.error (.Pipeline err))
      (e, out, true)
  | (job, e, .error err) =>
    let (e, out) := e.finish_job job (.error err)
    (e, out, true)

def Engine.drive_job (e : Engine) : Engine × List Completion × Bool :=
  match e.job with
  | none => (e, [], false)
  | some job =>
    let e := { e with job := none }
    if e.pipeline.queue_failed = true ∧ (job.kind ≠ .Close ∨ job.waiting = true) then
      let (e, out) := e.finish_job job (.error (.Pipeline .QueueFailed))
      (e, out, true)
    else if job.waiting = true then
      match e.pipeline.control_done with
      | none => ({ e with job := some job }, [], false)
      | some completion =>
        let e := { e with pipeline := { e.pipeline with control_done := none } }
        let job := { job with waiting := false }
        match control_result completion with
        | .ok input => e.step_job job input
        | .error err =>
          let (e, out) := e.finish_job job (.error err)
          (e, out, true)
    else e.step_job job none

/-- One progress turn against what the device does meanwhile. -/
def Engine.poll (e : Engine) (script : Script) : Engine × List Completion :=
  let (e, out, _) := e.drive_job
  let turn := e.pipeline.poll script
  let e := { e with pipeline := turn.pipe }
  let e := if turn.pipe.queue_failed = true ∧ e.state ≠ .Closed then
    { e with state := .Failed } else e
  let (e, last, _) := e.drive_job
  (e, out ++ turn.out.map .Data ++ last)

/-! ## Opening -/

/-- `FrameLimits::new(4096, 0)`, until the superblock is read. -/
def openLimits : FrameLimits := { frame.onePage with max_value_len := 0, value_le := Nat.zero_le _ }

def Engine.open_with_options (capacity : Nat) (queue : Queue) (options : Options) :
    Except Error (Engine × Nat) :=
  match Pipeline.empty queue openLimits with
  | .error err => .error (.Pipeline err)
  | .ok pipeline =>
    match pipeline.configure options.resources options.poll with
    | .error err => .error (.Pipeline err)
    | .ok pipeline =>
      let pipeline :=
        { pipeline with sync_enabled := decide (options.sync_mode = SyncMode.Enabled) }
      match pipeline.draw_ticket with
      | .error err => .error (.Pipeline err)
      | .ok (ticket, pipeline) =>
        .ok ({ capacity, layout := none, pipeline := { pipeline with maintenance := true }
               used := [], next := 0, allocated := 0, active := none, state := .Opening
               opened := false, job := some (.open_ ticket), options, panicked := false }, ticket)

/-! ## Admission -/

def Engine.check_readable (e : Engine) : Except Error Unit :=
  if e.opened = false then
    .error (if e.state = .Opening then .NotReady else .Failed)
  else if e.state = .Closing ∨ e.state = .Closed then .error .Closed
  else .ok ()

def Engine.check_writable (e : Engine) : Except Error Unit :=
  match e.check_readable with
  | .error err => .error err
  | .ok () =>
    if e.state = .Failed then .error .Failed
    else if e.job.isSome = true then .error (.Pipeline .Backpressure)
    else .ok ()

def Engine.read (e : Engine) (key : ChunkId) (range : Range) (verify : Bool)
    (buffers : ReadBuffers) : Except Error (Engine × Nat) :=
  match e.check_readable with
  | .error err => .error err
  | .ok () =>
    match e.pipeline.read key range verify buffers with
    | .error r => .error (.Pipeline r.error)
    | .ok (ticket, pipeline) => .ok ({ e with pipeline }, ticket)

def Engine.flush (e : Engine) : Except Error (Engine × Nat) :=
  match e.check_writable with
  | .error err => .error err
  | .ok () =>
    match e.pipeline.flush with
    | .error err => .error (.Pipeline err)
    | .ok (ticket, pipeline) => .ok ({ e with pipeline }, ticket)

/-- The first slot from `next` on that is not used, within `fuel` slots. -/
def next_unused (used : List Bool) (segments : Nat) : (fuel next : Nat) → Nat
  | 0, next => next
  | fuel + 1, next =>
    if next < segments ∧ used.getD next false = true then next_unused used segments fuel (next + 1)
    else next

/-- Chooses a slot and starts the transition to it. The cursor stays where the search ended. -/
def Engine.start_rollover (e : Engine) (number ticket : Option Nat) : Engine × Except Error Unit :=
  match e.layout with
  | none => ({ e with panicked := true }, .error .Failed)
  | some layout =>
    let next :=
      if number.isSome = true then e.next else next_unused e.used layout.segments layout.segments
        e.next
    let e := { e with next }
    if number = none ∧ next = layout.segments then (e, .error .OutOfSpace)
    else
      let number := number.getD next
      match layout.segment_base number with
      | .error err => (e, .error err)
      | .ok _ =>
        if e.used.length ≤ number then ({ e with panicked := true }, .error .Failed)
        else if e.used.getD number false = true then
          (e, .error (.InvalidArgument "segment is already allocated"))
        else
          ({ e with
            pipeline := { e.pipeline with maintenance := true }
            job := some (.transition ticket .Rollover (some number)) }, .ok ())

/-- What a write that needs another segment answers, once the rollover has started. -/
def Engine.roll (e : Engine) : Engine × Error :=
  match e.start_rollover none none with
  | (e, .error err) => (e, err)
  | (e, .ok ()) => (e, .Pipeline .Backpressure)

def rolls_over : pipeline.Error → Bool
  | .Segment (.Full _ _) => true
  | .MetadataFull => true
  | _ => false

/-- Hands a frame to the pipeline. A full segment, or none, starts a rollover; the input then goes
back to the caller with the engine that has changed. -/
def Engine.submit (e : Engine)
    (submit : Pipeline → Except (pipeline.Rejected Bytes) (Nat × Pipeline)) :
    Engine × Except Error Nat :=
  match e.check_writable with
  | .error err => (e, .error err)
  | .ok () =>
    if e.active.isNone = true then
      if e.pipeline.writes_pending = true then (e, .error (.Pipeline .Backpressure))
      else
        let (e, err) := e.roll
        (e, .error err)
    else
      match submit e.pipeline with
      | .ok (ticket, pipeline) => ({ e with pipeline }, .ok ticket)
      | .error r =>
        if rolls_over r.error = true ∧ (e.pipeline.data_end.any (· > PAGE_SIZE)) = true then
          let (e, err) := e.roll
          (e, .error err)
        else (e, .error (.Pipeline r.error))

def Engine.write (e : Engine) (frame : FrameBuilder) (buffer : Bytes) : Engine × Except Error Nat :=
  e.submit (fun p => p.write frame buffer)

def Engine.write_prepared (e : Engine) (key : ChunkId) (lsn : UInt64) (len : Nat) (buffer : Bytes) :
    Engine × Except Error Nat :=
  e.submit (fun p => p.write_prepared key lsn len buffer)

/-! ## Lifecycle requests -/

/-- `rollover` and `rollover_to`. A slot that cannot be used costs the ticket that was drawn. -/
def Engine.rollover_to (e : Engine) (number : Option Nat) : Engine × Except Error Nat :=
  match e.check_writable with
  | .error err => (e, .error err)
  | .ok () =>
    match e.pipeline.draw_ticket with
    | .error err => (e, .error (.Pipeline err))
    | .ok (ticket, pipeline) =>
      match { e with pipeline }.start_rollover number (some ticket) with
      | (e, .error err) => (e, .error err)
      | (e, .ok ()) => (e, .ok ticket)

/-- Starts a transition that takes no new slot. -/
def Engine.start_transition (e : Engine) (kind : Lifecycle) (state : State) :
    Except Error (Engine × Nat) :=
  match e.pipeline.draw_ticket with
  | .error err => .error (.Pipeline err)
  | .ok (ticket, pipeline) =>
    .ok ({ e with
      pipeline := { pipeline with maintenance := true }
      state, job := some (.transition (some ticket) kind none) }, ticket)

def Engine.seal_ (e : Engine) : Except Error (Engine × Nat) :=
  match e.check_writable with
  | .error err => .error err
  | .ok () => e.start_transition .Seal e.state

def Engine.close (e : Engine) : Except Error (Engine × Nat) :=
  if e.state = .Opening ∨ e.state = .Closing ∨ e.state = .Closed ∨ e.job.isSome = true then
    .error (if e.state = .Closed then .Closed else .Pipeline .Backpressure)
  else e.start_transition .Close .Closing

/-- `queue_ready` is the answer of the queue's own `has_ready`. -/
def Engine.has_ready (e : Engine) (queue_ready : Bool) : Bool :=
  e.pipeline.has_ready queue_ready || e.job.any (fun job => !job.waiting && !job.blocked)

end moat_engine.engine
