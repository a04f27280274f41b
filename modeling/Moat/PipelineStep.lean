-- The pipeline as a transition system: every call and every poll is a sequence
-- of the steps below, so that an invariant is checked once per step.
import Moat.PipelineDriver

namespace moat_engine.io

open moat_common

/-! ## The queue, accepting and giving back -/

/-- The queue with one more request. -/
def Queue.push (q : Queue) (request : Request) : Queue :=
  { q with
    accepted := q.accepted ++ [(q.next_serial, request)]
    next_serial := q.next_serial + 1
    log := q.log ++ [.submitted q.next_serial request] }

/-- The queue without the request that `choice` picks. -/
def Queue.popped (q : Queue) (choice : Pop) (serial : Nat) (request : Request) : Queue :=
  { q with
    accepted := q.accepted.eraseIdx choice.index
    log := q.log ++
      [.completed serial (fullTransfer choice.result request.len) choice.data] }

/-- What comes back for `request` under `choice`. -/
def Pop.completion (choice : Pop) (request : Request) : Completion :=
  ⟨{ request with buffer := returnedBuffer request choice.data }, choice.result⟩

theorem Queue.try_submit_eq {q : Queue} (h : q.accepted.length < q.depth) (r : Request) :
    q.try_submit r = .ok (q.push r) := by
  unfold Queue.try_submit Queue.vacant
  rw [if_neg (by omega)]
  rfl

theorem Queue.try_submit_full {q : Queue} (h : q.depth ≤ q.accepted.length) (r : Request) :
    q.try_submit r = .error r := by
  unfold Queue.try_submit Queue.vacant
  rw [if_pos (by omega)]

theorem Queue.pop_eq {q : Queue} {choice : Pop} {serial : Nat} {request : Request}
    (h : q.accepted[choice.index]? = some (serial, request)) :
    q.pop choice = some (choice.completion request, q.popped choice serial request) := by
  unfold Queue.pop
  rw [h]
  rfl

theorem Queue.pop_cases (q : Queue) (choice : Pop) :
    q.pop choice = none ∨ ∃ serial request,
      q.accepted[choice.index]? = some (serial, request) ∧
      q.pop choice = some (choice.completion request, q.popped choice serial request) := by
  cases h : q.accepted[choice.index]? with
  | none => left; unfold Queue.pop; rw [h]
  | some e => right; exact ⟨e.1, e.2, rfl, Queue.pop_eq h⟩

end moat_engine.io

namespace moat_engine.pipeline

open byte_list moat_common
open moat_engine.io (Operation Queue Request Script)

/-! ## Slots -/

theorem slot_of_set {p p' : Pipeline} {s : Nat} {q : Option Pending}
    (h : p'.slots = p.slots.set s q) (t : Nat) :
    p'.slot t = if t = s ∧ s < p.slots.length then q else p.slot t := by
  unfold Pipeline.slot
  rw [h, List.getElem?_set]
  by_cases h : s = t
  · subst h
    by_cases hl : s < p.slots.length
    · rw [if_pos rfl, if_pos hl, if_pos ⟨rfl, hl⟩]
      cases q <;> rfl
    · rw [if_pos rfl, if_neg hl, if_neg (fun hc => hl hc.2), List.getElem?_eq_none (by omega)]
  · rw [if_neg h, if_neg (fun hc => h hc.1.symm)]

/-- An occupied slot is one of the table. -/
theorem slot_lt {p : Pipeline} {s : Nat} {q : Pending} (h : p.slot s = some q) :
    s < p.slots.length := by
  unfold Pipeline.slot at h
  by_contra hl
  rw [List.getElem?_eq_none (by omega)] at h
  cases h

/-! ## Steps -/

/-- The pipeline after `take_slot`, when slot `s` is on top of the free stack. -/
def Pipeline.placed (p : Pipeline) (s : Nat) (rest : List Nat) (q : Pending) : Pipeline :=
  { p with
    serving := true, free := rest, slots := p.slots.set s (some q)
    next_ticket := p.next_ticket + 1 }

/-- What a step shows: an admission, a completion of I/O, or a delivery. -/
inductive Act where
  | launched (f : Prepared)
  | flush_begun (ticket : Nat)
  | read_begun (ticket : Nat)
  | retired (w : Write) (result : Except Error Unit) (buffer : Bytes)
  | flush_dropped (ticket : Nat) (result : Except Error Unit)
  | sync_submitted
  | empty_read (ticket : Nat) (buffers : ReadBuffers)
  | write_done (ticket : Nat) (ok : Bool)
  | read_done (ticket : Nat) (result : Except Error ReadRange) (buffers : ReadBuffers)
  | read_continued
  | sync_done (ticket : Nat) (result : Except Error Unit)
  | control_submitted
  | control_done

/-- The completions that a step delivers. -/
def Act.out : Act → List Completion
  | .retired w result buffer => [.Write w.ticket result buffer]
  | .flush_dropped ticket result => [.Flush ticket result]
  | .empty_read ticket buffers => [.Read ticket (.ok (.Value ⟨0, 0⟩)) buffers]
  | .read_done ticket result buffers => [.Read ticket result buffers]
  | .sync_done ticket result => [.Flush ticket result]
  | _ => []

/-- The ticket of a write or sync whose I/O failed in this step. -/
def Act.failed : Act → List Nat
  | .write_done ticket ok => if ok then [] else [ticket]
  | .sync_done ticket result => if result.isOk then [] else [ticket]
  | _ => []

/-- The request that waits in a slot. An empty read, a finished write and a flush that still waits
for its writes have none. -/
def Pending.Carries : Pending → Request → Prop
  | .Write w, r => w.completed = none ∧ r.operation = .Write
  | .Read _, r => r.operation = .Read
  | .VerifiedRead _, r => r.operation = .Read
  | .EmptyRead _ _, _ => False
  | .Flush _ submitted, r => submitted = true ∧ r.operation = .Sync ∧ r.len = 0

/-- The pipeline after `launch`, when slot `s` is on top of the free stack. -/
def Pipeline.launched (p : Pipeline) (s : Nat) (rest : List Nat) (f : Prepared) : Pipeline :=
  { p.placed s rest (.Write f.write) with
    segment := some f.segment
    pending_entries := p.pending_entries + f.write.entries.length
    pending_new := p.pending_new + f.write.reserved_new
    writes := p.writes ++ [s]
    queue := p.queue.push ⟨s, .Write, f.offset, f.len, some f.buffer⟩ }

inductive Does : Pipeline → Act → Pipeline → Prop
  /-- A frame is admitted and goes to the device. -/
  | launch {p : Pipeline} {buffer : Bytes} {encode : Encode} {f : Prepared} {s : Nat}
      {rest : List Nat} (hp : p.prepare buffer encode = .ok f) (hf : p.free = s :: rest) :
      Does p (.launched f) (p.launched s rest f)
  | flush {p : Pipeline} {s : Nat} {rest : List Nat} (ha : p.admission false = .ok p.next_ticket)
      (hx : p.failed_at = none) (hn : p.flush_slot = none) (hc : p.control = none)
      (hi : p.control_active = false) (hf : p.free = s :: rest) :
      Does p (.flush_begun p.next_ticket)
        { p.placed s rest (.Flush p.next_ticket false) with flush_slot := some s }
  | read_empty {p : Pipeline} {key : ChunkId} {range : Range} {extent : ReadExtent}
      {buffers : ReadBuffers} {s : Nat} {rest : List Nat}
      (ha : p.admission false = .ok p.next_ticket) (he : p.direct_extent key range = .ok extent)
      (h0 : extent.len = 0) (hf : p.free = s :: rest) :
      Does p (.read_begun p.next_ticket)
        { p.placed s rest (.EmptyRead p.next_ticket buffers) with
          ready_reads := p.ready_reads ++ [s] }
  | read_direct {p : Pipeline} {key : ChunkId} {range : Range} {extent : ReadExtent}
      {buffers : ReadBuffers} {s : Nat} {rest : List Nat}
      (ha : p.admission false = .ok p.next_ticket) (he : p.direct_extent key range = .ok extent)
      (hb : extent.len ≤ buffers.value.length) (h0 : extent.len ≠ 0) (hf : p.free = s :: rest) :
      Does p (.read_begun p.next_ticket)
        { p.placed s rest (.Read ⟨p.next_ticket,
            ⟨extent.front, extent.front + (range.end_ - range.start)⟩, buffers.metadata⟩) with
          queue := p.queue.push ⟨s, .Read, extent.offset, extent.len, some buffers.value⟩ }
  | read_verified {p : Pipeline} {key : ChunkId} {range : Range} {read : VerifiedRead}
      {buffers : ReadBuffers} {s : Nat} {rest : List Nat}
      (ha : p.admission false = .ok p.next_ticket)
      (hr : p.plan_verified p.next_ticket key range = .ok read)
      (hm : read.metadata_len ≤ (buffers.metadata.map List.length).getD 0)
      (hv : read.value_buffer_len ≤ buffers.value.length) (hf : p.free = s :: rest) :
      Does p (.read_begun p.next_ticket)
        { p.placed s rest (.VerifiedRead { read with value := some buffers.value }) with
          queue := p.queue.push
            ⟨s, .Read, p.base read.location.segment + read.location.frame_offset,
            read.metadata_len, buffers.metadata⟩ }
  /-- The oldest write is published, or reported failed. -/
  | retire {p : Pipeline} {s : Nat} {rest : List Nat} {w : Write} {result : Except Error Unit}
      {buffer : Bytes} (hw : p.writes = s :: rest) (hs : p.slot s = some (.Write w))
      (hc : w.completed = some (result, buffer)) :
      Does p (.retired w (p.retired w.ticket result) buffer)
        { p with
          writes := rest
          slots := p.slots.set s none
          free := s :: p.free
          pending_entries := p.pending_entries - w.entries.length
          pending_new := p.pending_new - w.reserved_new
          index := if (p.retired w.ticket result).isOk then apply p.index w.entries else p.index
          applied := if (p.retired w.ticket result).isOk then p.applied ++ [w.entries]
            else p.applied }
  | flush_failed {p : Pipeline} {s ticket failed : Nat} (hf : p.flush_slot = some s)
      (hw : p.writes = []) (hs : p.slot s = some (.Flush ticket false))
      (hx : p.failed_at = some failed) :
      Does p (.flush_dropped ticket (.error (.WriteFailed failed))) (p.drop_flush s)
  | flush_fence {p : Pipeline} {s ticket : Nat} (hf : p.flush_slot = some s)
      (hw : p.writes = []) (hs : p.slot s = some (.Flush ticket false)) (hx : p.failed_at = none)
      (hm : p.sync_enabled = false) :
      Does p (.flush_dropped ticket (.ok ())) (p.drop_flush s)
  | submit_sync {p : Pipeline} {s ticket : Nat} (hf : p.flush_slot = some s) (hw : p.writes = [])
      (hs : p.slot s = some (.Flush ticket false)) (hx : p.failed_at = none)
      (hm : p.sync_enabled = true) :
      Does p .sync_submitted
        { p with
          slots := p.slots.set s (some (.Flush ticket true))
          queue := p.queue.push ⟨s, .Sync, 0, 0, none⟩ }
  | empty_read {p : Pipeline} {s ticket : Nat} {rest : List Nat} {buffers : ReadBuffers}
      (hr : p.ready_reads = s :: rest) (hs : p.slot s = some (.EmptyRead ticket buffers)) :
      Does p (.empty_read ticket buffers)
        { p with ready_reads := rest, slots := p.slots.set s none, free := s :: p.free }
  /-- The I/O of a write came back. -/
  | write_done {p : Pipeline} {choice : io.Pop} {serial : Nat} {request : Request} {w : Write}
      {panicked : Bool} (hq : p.queue.accepted[choice.index]? = some (serial, request))
      (hk : request.token ≠ CONTROL_TOKEN) (hs : p.slot request.token = some (.Write w))
      (hz : panicked = (p.panicked || p.complete_panics (choice.completion request))) :
      Does p (.write_done w.ticket (transfer_result (choice.completion request)).isOk)
        { p with
          queue := p.queue.popped choice serial request
          failed_at := if (transfer_result (choice.completion request)).isOk then p.failed_at
            else some (p.failed_at.elim w.ticket (fun old => min old w.ticket))
          slots := p.slots.set request.token (some (.Write { w with
            completed := some (transfer_result (choice.completion request),
              (choice.completion request).request.buffer.getD []) }))
          panicked }
  | direct_done {p : Pipeline} {choice : io.Pop} {serial : Nat} {request : Request} {read : Read}
      {panicked : Bool} (hq : p.queue.accepted[choice.index]? = some (serial, request))
      (hk : request.token ≠ CONTROL_TOKEN) (hs : p.slot request.token = some (.Read read))
      (hz : panicked = (p.panicked || p.complete_panics (choice.completion request))) :
      Does p (.read_done read.ticket
          ((transfer_result (choice.completion request)).map (fun _ => .Value read.range))
          ⟨read.metadata, (choice.completion request).request.buffer.getD []⟩)
        { Pipeline.free_slot { p with queue := p.queue.popped choice serial request }
            request.token with panicked }
  | verified_done {p : Pipeline} {choice : io.Pop} {serial : Nat} {request : Request}
      {read read' : VerifiedRead} {r : Except Error ReadRange} {panicked : Bool}
      (hq : p.queue.accepted[choice.index]? = some (serial, request))
      (hk : request.token ≠ CONTROL_TOKEN)
      (hs : p.slot request.token = some (.VerifiedRead read))
      (ha : p.advance_read (read.returned (choice.completion request).request.buffer)
        read.metadata.isNone (transfer_result (choice.completion request)) =
          (read', r.map some))
      (hz : panicked = (p.panicked || p.complete_panics (choice.completion request))) :
      Does p (.read_done read'.ticket r read'.buffers)
        { Pipeline.free_slot { p with queue := p.queue.popped choice serial request }
            request.token with panicked }
  | verified_more {p : Pipeline} {choice : io.Pop} {serial : Nat} {request : Request}
      {read read' : VerifiedRead} {panicked : Bool}
      (hq : p.queue.accepted[choice.index]? = some (serial, request))
      (hk : request.token ≠ CONTROL_TOKEN)
      (hs : p.slot request.token = some (.VerifiedRead read))
      (ha : p.advance_read (read.returned (choice.completion request).request.buffer)
        read.metadata.isNone (transfer_result (choice.completion request)) = (read', .ok none))
      (hz : panicked = (p.panicked || p.complete_panics (choice.completion request))) :
      Does p .read_continued
        { p with
          slots := p.slots.set request.token (some (.VerifiedRead { read' with value := none }))
          queue := (p.queue.popped choice serial request).push
            ⟨request.token, .Read, read'.io_offset, read'.io_len, read'.value⟩
          panicked }
  | sync_done {p : Pipeline} {choice : io.Pop} {serial ticket : Nat} {request : Request}
      {submitted panicked : Bool} (hq : p.queue.accepted[choice.index]? = some (serial, request))
      (hk : request.token ≠ CONTROL_TOKEN)
      (hs : p.slot request.token = some (.Flush ticket submitted))
      (hz : panicked = (p.panicked || p.complete_panics (choice.completion request))) :
      Does p (.sync_done ticket (transfer_result (choice.completion request)))
        { Pipeline.free_slot { p with queue := p.queue.popped choice serial request }
            request.token with
          failed_at := if (transfer_result (choice.completion request)).isOk then p.failed_at
            else some ticket
          flush_slot := none
          panicked }
  | control_submit {p : Pipeline} {request : Request} (hc : p.control = some request)
      (hv : p.queue.accepted.length < p.queue.depth) :
      Does p .control_submitted
        { p with queue := p.queue.push request, control := none, control_active := true }
  | control_done {p : Pipeline} {choice : io.Pop} {serial : Nat} {request : Request}
      (hq : p.queue.accepted[choice.index]? = some (serial, request))
      (hk : request.token = CONTROL_TOKEN) :
      Does p .control_done
        { p with
          queue := p.queue.popped choice serial request
          control_active := false
          control_done := some (choice.completion request) }

/-- A sequence of steps. -/
inductive Runs : Pipeline → List Act → Pipeline → Prop
  | nil (p : Pipeline) : Runs p [] p
  | cons {p q r : Pipeline} {a : Act} {as : List Act} (h : Does p a q) (t : Runs q as r) :
      Runs p (a :: as) r

theorem Runs.one {p q : Pipeline} {a : Act} (h : Does p a q) : Runs p [a] q := .cons h (.nil q)

theorem Runs.append {p q r : Pipeline} {as bs : List Act} (h : Runs p as q) (k : Runs q bs r) :
    Runs p (as ++ bs) r := by
  induction h with
  | nil => exact k
  | cons h t ih => exact .cons h (ih k)

/-- What holds at the start and is kept by every step holds at the end. -/
theorem Runs.induct {P : Pipeline → Prop} {p q : Pipeline} {as : List Act} (h : Runs p as q)
    (step : ∀ {a b : Pipeline} {x : Act}, P a → Does a x b → P b) (hp : P p) : P q := by
  induction h with
  | nil => exact hp
  | cons h t ih => exact ih (step hp h)

end moat_engine.pipeline
