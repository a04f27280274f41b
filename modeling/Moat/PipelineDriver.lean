-- One poll of the pipeline: retiring writes in order, starting a flush or a
-- control request, and handling what the queue gives back (`pipeline/driver.rs`).
import Moat.Pipeline

namespace moat_engine.pipeline

open byte_list moat_common
open moat_engine.io (Operation Queue Request Script)

/-! ## Work -/

structure Work where
  operations : Nat
  bytes : Nat
  records : Nat
deriving DecidableEq, Repr

def Work.zero : Work := ⟨0, 0, 0⟩

def Work.exhausted (w : Work) (budget : PollBudget) : Bool :=
  decide (w.operations ≥ budget.operations ∨ w.bytes ≥ budget.bytes ∨ w.records ≥ budget.records)

/-- The locals of a poll. `failed` is kept for the statements: the tickets of the writes and syncs
that the device did not carry out in full. -/
structure Turn where
  pipe : Pipeline
  out : List Completion
  work : Work
  failed : List Nat

def Turn.exhausted (t : Turn) : Bool := t.work.exhausted t.pipe.budget

/-! ## Writes and flushes -/

/-- The result that a write reports: an earlier failure takes it down. -/
def Pipeline.retired (p : Pipeline) (ticket : Nat) (result : Except Error Unit) :
    Except Error Unit :=
  match p.failed_at with
  | some failed => if ticket > failed then .error (.WriteFailed failed) else result
  | none => result

/-- One turn of the loop of `retire_writes`: the oldest write, once its I/O has come back. -/
def Turn.retire_write (t : Turn) : Option Turn :=
  match t.pipe.writes with
  | [] => none
  | slot :: rest =>
    match t.pipe.slot slot with
    | some (.Write w) =>
      match w.completed with
      | none => none
      | some (result, buffer) =>
        let p := t.pipe
        let result := p.retired w.ticket result
        some { t with
          pipe := { p with
            writes := rest
            slots := p.slots.set slot none
            free := slot :: p.free
            pending_entries := p.pending_entries - w.entries.length
            pending_new := p.pending_new - w.reserved_new
            index := if result.isOk then apply p.index w.entries else p.index
            applied := if result.isOk then p.applied ++ [w.entries] else p.applied }
          out := t.out ++ [.Write w.ticket result buffer]
          work := { t.work with
            operations := t.work.operations + 1
            records := t.work.records + w.entries.length } }
    | _ => none

def Turn.retire_loop : (fuel : Nat) → Turn → Turn
  | 0, t => t
  | fuel + 1, t =>
    if t.exhausted = true then t
    else
      match t.retire_write with
      | none => t
      | some t => Turn.retire_loop fuel t

/-- Each turn takes one write from the queue of writes, so their number bounds the turns. -/
def Turn.retire_writes (t : Turn) : Turn := t.retire_loop t.pipe.writes.length

/-- The flush leaves its slot without I/O. -/
def Pipeline.drop_flush (p : Pipeline) (slot : Nat) : Pipeline :=
  { p with slots := p.slots.set slot none, free := slot :: p.free, flush_slot := none }

def Turn.start_flush (t : Turn) : Turn :=
  match t.pipe.flush_slot with
  | none => t
  | some slot =>
    if t.pipe.writes ≠ [] then t
    else
      match t.pipe.slot slot with
      | some (.Flush ticket submitted) =>
        if submitted = true then t
        else
          match t.pipe.failed_at with
          | some failed =>
            { t with
              pipe := t.pipe.drop_flush slot
              out := t.out ++ [.Flush ticket (.error (.WriteFailed failed))] }
          | none =>
            if t.pipe.sync_enabled = false then
              { t with
                pipe := t.pipe.drop_flush slot
                out := t.out ++ [.Flush ticket (.ok ())] }
            else
              let p := { t.pipe with
                slots := t.pipe.slots.set slot (some (.Flush ticket true)) }
              { t with pipe := p.submit slot .Sync 0 0 none }
      | _ => { t with pipe := { t.pipe with panicked := true } }

def Pipeline.start_control (p : Pipeline) : Pipeline :=
  if p.queue_failed = true then p
  else
    match p.control with
    | none => p
    | some request =>
      match p.queue.try_submit request with
      | .ok queue => { p with queue, control := none, control_active := true }
      | .error _ => p

def Turn.start_control (t : Turn) : Turn := { t with pipe := t.pipe.start_control }

/-! ## Empty reads -/

/-- The oldest read of an empty range, which needs no I/O. -/
def Turn.empty_read (t : Turn) : Option Turn :=
  match t.pipe.ready_reads with
  | [] => none
  | slot :: rest =>
    match t.pipe.slot slot with
    | some (.EmptyRead ticket buffers) =>
      some { t with
        pipe := { t.pipe with
          ready_reads := rest
          slots := t.pipe.slots.set slot none
          free := slot :: t.pipe.free }
        out := t.out ++ [.Read ticket (.ok (.Value ⟨0, 0⟩)) buffers]
        work := { t.work with operations := t.work.operations + 1 } }
    | _ => some { t with pipe := { t.pipe with ready_reads := rest, panicked := true } }

def Turn.empty_reads : (fuel : Nat) → Turn → Turn
  | 0, t => t
  | fuel + 1, t =>
    if t.exhausted = true then t
    else
      match t.empty_read with
      | none => t
      | some t => Turn.empty_reads fuel t

/-! ## A fatal queue failure -/

def Pending.ticket : Pending → Nat
  | .Write w => w.ticket
  | .Read r => r.ticket
  | .VerifiedRead r => r.ticket
  | .EmptyRead ticket _ => ticket
  | .Flush ticket _ => ticket

/-- One turn of the loop of `retire_failed`: the next slot, occupied or not. -/
def Turn.retire_slot (t : Turn) : Turn :=
  let p := t.pipe
  let slot := p.failed_cursor
  let p := { p with failed_cursor := slot + 1 }
  let t := { t with work := { t.work with operations := t.work.operations + 1 } }
  match p.slot slot with
  | none => { t with pipe := p }
  | some pending =>
    let p :=
      match pending with
      | .Write w =>
        { p with
          pending_entries := p.pending_entries - w.entries.length
          pending_new := p.pending_new - w.reserved_new }
      | _ => p
    { t with
      pipe := { p with
        slots := p.slots.set slot none
        free := slot :: p.free
        panicked := p.panicked || p.fatal.isNone }
      out := t.out ++ [.Failed pending.ticket (p.fatal.getD .QueueFailed)] }

def Turn.retire_slots : (fuel : Nat) → Turn → Turn
  | 0, t => t
  | fuel + 1, t =>
    if t.pipe.failed_cursor < t.pipe.slots.length ∧ ¬ t.exhausted = true then
      Turn.retire_slots fuel t.retire_slot
    else t

def Turn.retire_failed (t : Turn) : Turn :=
  let t := t.retire_slots t.pipe.slots.length
  { t with pipe := { t.pipe with ready_reads := [], writes := [], flush_slot := none } }

/-! ## Completions of the queue -/

/-- What the pipeline makes of a transfer: anything but the full length is an error. -/
def transfer_result (completion : io.Completion) : Except Error Unit :=
  let request := completion.request
  match completion.result with
  | .ok actual =>
    if actual = request.len then .ok ()
    else .error (.ShortIo request.operation request.offset request.len actual)
  | .error source => .error (.Io request.operation request.offset source)

/-- The next phase of a verified read whose I/O came back. `none` asks for the value. -/
def Pipeline.advance_read (p : Pipeline) (read : VerifiedRead) (metadata_phase : Bool)
    (result : Except Error Unit) : VerifiedRead × Except Error (Option ReadRange) :=
  match result with
  | .error e => (read, .error e)
  | .ok () =>
    match p.position_in read.location.segment read.location.frame_offset with
    | .error e => (read, .error e)
    | .ok position =>
      if metadata_phase = true then
        match read.finish_metadata p.limits position with
        | .error e => (read, .error e)
        | .ok (read, range) => (read, .ok range)
      else
        match read.verify with
        | .error e => (read, .error e)
        | .ok range => (read, .ok (some range))

/-- The pipeline with a slot given back. -/
def Pipeline.free_slot (p : Pipeline) (slot : Nat) : Pipeline :=
  { p with slots := p.slots.set slot none, free := slot :: p.free }

/-- The verified read with the buffer that came back: metadata in the first phase, then value. -/
def VerifiedRead.returned (read : VerifiedRead) (buffer : Option Bytes) : VerifiedRead :=
  if read.metadata.isNone = true then { read with metadata := buffer }
  else { read with value := buffer }

/-- A verified read goes on to its value, or is delivered. -/
def Pipeline.finish_read (p : Pipeline) (slot : Nat) :
    VerifiedRead × Except Error (Option ReadRange) → Pipeline × List Completion
  | (read, .ok none) =>
    let p := { p with slots := p.slots.set slot (some (.VerifiedRead { read with value := none })) }
    (p.submit slot .Read read.io_offset read.io_len read.value, [])
  | (read, .ok (some range)) => (p.free_slot slot, [.Read read.ticket (.ok range) read.buffers])
  | (read, .error e) => (p.free_slot slot, [.Read read.ticket (.error e) read.buffers])

def Pipeline.complete (p : Pipeline) (completion : io.Completion) :
    Except Error (Pipeline × List Completion) :=
  let request := completion.request
  let slot := request.token
  let result := transfer_result completion
  match p.slot slot with
  | none => .error (.InvalidArgument "completion token is not live")
  | some (.Read read) =>
    .ok (p.free_slot slot,
      [.Read read.ticket (result.map (fun _ => .Value read.range))
        ⟨read.metadata, request.buffer.getD []⟩])
  | some (.EmptyRead _ _) => .ok (p, [])  -- unreachable: an empty read submits no I/O
  | some (.Write w) =>
    let failed_at :=
      if result.isOk then p.failed_at
      else some (p.failed_at.elim w.ticket (fun old => min old w.ticket))
    let w := { w with completed := some (result, request.buffer.getD []) }
    .ok ({ p with failed_at, slots := p.slots.set slot (some (.Write w)) }, [])
  | some (.VerifiedRead read) =>
    .ok (p.finish_read slot
      (p.advance_read (read.returned request.buffer) read.metadata.isNone result))
  | some (.Flush ticket _) =>
    .ok ({ p.free_slot slot with
        failed_at := if result.isOk then p.failed_at else some ticket
        flush_slot := none },
      [.Flush ticket result])

/-- The ticket of the write or sync that a completion is for, if the device did not transfer the
requested length. -/
def Pipeline.unfinished (p : Pipeline) (completion : io.Completion) : List Nat :=
  if io.fullTransfer completion.result completion.request.len then []
  else
    match p.slot completion.request.token with
    | some (.Write w) => [w.ticket]
    | some (.Flush ticket _) => [ticket]
    | _ => []

/-- Whether the metadata phase would validate a record and then not find it again. -/
def Pipeline.metadata_panics (p : Pipeline) (read : VerifiedRead) : Bool :=
  match p.position_in read.location.segment read.location.frame_offset with
  | .error _ => false
  | .ok position =>
    match read.validate_metadata p.limits position with
    | .error _ => false
    | .ok read => read.record.isNone

/-- Whether `complete` would take a buffer or a record that is not there. -/
def Pipeline.complete_panics (p : Pipeline) (completion : io.Completion) : Bool :=
  let request := completion.request
  match p.slot request.token with
  | none => false
  | some (.Read _) => request.buffer.isNone
  | some (.Write _) => request.buffer.isNone
  | some (.EmptyRead _ _) => true
  | some (.VerifiedRead read) =>
    let back := read.returned request.buffer
    back.metadata.isNone || back.value.isNone ||
      ((transfer_result completion).isOk &&
        (if read.metadata.isNone then p.metadata_panics back else back.record.isNone))
  | some (.Flush _ _) => false

/-- One completion of the queue. `none` ends the loop: there is none, or the queue broke its
contract. -/
def Turn.pop (t : Turn) (choice : io.Pop) : Turn × Bool :=
  match t.pipe.queue.pop choice with
  | none => (t, false)
  | some (completion, queue) =>
    let request := completion.request
    let p := { t.pipe with queue }
    let t := { t with
      work := { t.work with
        operations := t.work.operations + 1
        bytes := if request.operation = Operation.Write then t.work.bytes
          else t.work.bytes + request.len } }
    if request.token = CONTROL_TOKEN then
      ({ t with
        pipe := { p with control_active := false, control_done := some completion } }, true)
    else
      match p.complete completion with
      | .error e =>
        ({ t with pipe := { p with queue_failed := true, fatal := some e } }, false)
      | .ok (q, out) =>
        ({ t with
          pipe := { q with panicked := q.panicked || p.complete_panics completion }
          out := t.out ++ out, failed := t.failed ++ p.unfinished completion }, true)

def Turn.pops : List io.Pop → Turn → Turn
  | [], t => t
  | choice :: rest, t =>
    if t.exhausted = true then t
    else
      match t.pop choice with
      | (t, false) => t
      | (t, true) => Turn.pops rest t

/-! ## Rules for the loops -/

section
variable {P : Turn → Prop} {t : Turn}

theorem Turn.retire_loop_induct (step : ∀ {t t'}, P t → t.retire_write = some t' → P t')
    (fuel : Nat) (h : P t) : P (Turn.retire_loop fuel t) := by
  induction fuel generalizing t with
  | zero => exact h
  | succ fuel ih =>
    unfold Turn.retire_loop
    repeat' split
    · exact h
    · exact h
    · rename_i hs
      exact ih (step h hs)

theorem Turn.empty_reads_induct (step : ∀ {t t'}, P t → t.empty_read = some t' → P t')
    (fuel : Nat) (h : P t) : P (Turn.empty_reads fuel t) := by
  induction fuel generalizing t with
  | zero => exact h
  | succ fuel ih =>
    unfold Turn.empty_reads
    repeat' split
    · exact h
    · exact h
    · rename_i hs
      exact ih (step h hs)

theorem Turn.retire_slots_induct (step : ∀ {t}, P t → P t.retire_slot) (fuel : Nat) (h : P t) :
    P (Turn.retire_slots fuel t) := by
  induction fuel generalizing t with
  | zero => exact h
  | succ _ ih =>
    unfold Turn.retire_slots
    split
    · exact ih (step h)
    · exact h

theorem Turn.pops_induct (step : ∀ {t} choice, P t → P (t.pop choice).1) (pops : List io.Pop)
    (h : P t) : P (Turn.pops pops t) := by
  induction pops generalizing t with
  | nil => exact h
  | cons choice rest ih =>
    have h1 := step choice h
    unfold Turn.pops
    split
    · exact h
    split <;> rename_i hs <;> rw [hs] at h1
    · exact h1
    · exact ih h1

end

/-! ## Poll -/

def Turn.settle (t : Turn) : Turn := t.retire_writes.start_flush.start_control

/-- One poll against what the device does meanwhile. `wait` only blocks, so it is left out. -/
def Pipeline.poll (p : Pipeline) (script : Script) : Turn :=
  let t : Turn := ⟨p, [], .zero, []⟩
  if p.queue_failed = true then t.retire_failed
  else
    let t := t.settle
    let t := t.empty_reads t.pipe.ready_reads.length
    match script.fatal with
    | some e =>
      Turn.retire_failed { t with
        pipe := { t.pipe with queue_failed := true, fatal := some (.Queue e) } }
    | none =>
      let t := Turn.pops script.pops t
      if t.pipe.queue_failed = true then t.retire_failed else t.settle

/-- The device gives nothing back. -/
def quiet : Script := ⟨none, []⟩

/-- Whether the oldest write has come back. -/
def Pipeline.front_completed (p : Pipeline) : Bool :=
  match p.writes with
  | [] => false
  | slot :: _ =>
    match p.slot slot with
    | some (.Write w) => w.completed.isSome
    | _ => false

/-- `queue_ready` is the answer of the queue's own `has_ready`. -/
def Pipeline.has_ready (p : Pipeline) (queue_ready : Bool) : Bool :=
  if p.queue_failed = true then p.in_flight != 0
  else
    queue_ready || (p.control.isSome && p.queue.vacant != 0) || !p.ready_reads.isEmpty ||
      p.control_done.isSome || p.front_completed

end moat_engine.pipeline
