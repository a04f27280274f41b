-- The io_uring queue (`moat-engine/src/io/uring.rs`, `uring/transfer.rs`): a
-- request is issued in pieces of bounded length, and the kernel returns the
-- pieces in any order and with any results.
import Moat.Checked
import Moat.Common
import Moat.Io

namespace moat_engine.io.uring

open checked moat_common Function

/-! ## Requests -/

/-- The bytes that a buffer owns. -/
structure Memory where
  ptr : Nat
  len : Nat
  in_range : ptr + len < 2 ^ 64
deriving DecidableEq

/-- Pools are told apart by a number. -/
inductive Buffer where
  | Heap (memory : Memory)
  | Pooled (pool arena_index : Nat) (memory : Memory)
deriving DecidableEq

def Buffer.memory : Buffer → Memory
  | .Heap memory | .Pooled _ _ memory => memory

structure Request where
  token : Nat
  operation : Operation
  offset : Nat
  len : Nat
  buffer : Option Buffer
deriving DecidableEq

inductive Error where
  | Os (code : Nat)
  | InvalidInput (msg : String)
deriving DecidableEq, Repr

structure Completion where
  request : Request
  result : Except Error Nat

def Request.validate (request : Request) : Except Error Unit :=
  let valid : Bool := match request.operation with
    | .Sync => request.buffer.isNone && request.len == 0 && request.offset == 0
    | .Read | .Write =>
      decide (0 < request.len) && decide (request.len ≤ 2 ^ 31 - 1) &&
        is_aligned request.len PAGE_SIZE && is_aligned request.offset PAGE_SIZE &&
        decide (request.offset + request.len < 2 ^ 64) &&
        request.buffer.any (fun buffer => decide (request.len ≤ buffer.memory.len))
  if valid then .ok () else .error (.InvalidInput "invalid aligned I/O request")

/-! ## Transfers -/

inductive Entry where
  | ReadFixed (ptr len index offset : Nat)
  | WriteFixed (ptr len index offset : Nat)
  | Read (ptr len offset : Nat)
  | Write (ptr len offset : Nat)
  | Fsync
deriving DecidableEq, Repr

def Entry.len : Entry → Nat
  | .ReadFixed _ len _ _ | .WriteFixed _ len _ _ | .Read _ len _ | .Write _ len _ => len
  | .Fsync => 0

/-- The match of `Transfer::next`. -/
def Entry.new (operation : Operation) (fixed : Option Nat) (ptr len offset : Nat) : Entry :=
  match operation, fixed with
  | .Read, some index => .ReadFixed ptr len index offset
  | .Write, some index => .WriteFixed ptr len index offset
  | .Read, none => .Read ptr len offset
  | .Write, none => .Write ptr len offset
  | .Sync, _ => .Fsync

structure Transfer where
  request : Request
  ptr : Nat
  fixed : Option Nat
  submitted : Nat
  in_flight : Nat
  result : Except Error Nat

namespace Transfer

/-- A request without a buffer has the null pointer. -/
def new (request : Request) (fixed : Option Nat) : Transfer :=
  ⟨request, request.buffer.elim 0 (fun buffer => buffer.memory.ptr), fixed, 0, 0, .ok 0⟩

def has_remaining (t : Transfer) : Bool := decide (t.submitted < t.request.len)

/-- `none` is an overflow, here and below. -/
def next (t : Transfer) (limit : Nat) : Option (Entry × Transfer) :=
  (sub? t.request.len t.submitted).bind fun rest =>
  (fits? 64 (t.request.offset + t.submitted)).map fun offset =>
    let len := min limit rest % 2 ^ 32
    let ptr := (t.ptr + t.submitted) % 2 ^ 64
    (Entry.new t.request.operation t.fixed ptr len offset,
      { t with submitted := t.submitted + len, in_flight := t.in_flight + 1 })

/-- The result of the transfer after one more piece. -/
def add_result (actual : Int) : Except Error Nat → Option (Except Error Nat)
  | .error error => some (.error error)
  | .ok bytes =>
    if actual < 0 then some (.error (.Os (-actual).toNat))
    else (fits? 64 (bytes + actual.toNat)).map .ok

/-- Whether this was the last piece. -/
def complete (t : Transfer) (actual : Int) : Option (Bool × Transfer) :=
  (sub? t.in_flight 1).bind fun in_flight =>
  (add_result actual t.result).map fun result =>
    (!t.has_remaining && in_flight == 0, { t with in_flight, result })

def finish (t : Transfer) : Completion := ⟨t.request, t.result⟩

end Transfer

/-! ## The ring -/

variable {depth : Nat}

/-- `user_data` is the slot of the request. -/
structure Sqe (depth : Nat) where
  entry : Entry
  user_data : Fin depth
deriving DecidableEq

/-- The result of an entry. The queue sees its `user_data` only. -/
structure Cqe (depth : Nat) where
  sqe : Sqe depth
  result : Int

/-- `submitted` are the entries that the kernel has taken and not yet returned. -/
structure Ring (depth : Nat) where
  entries : Nat
  sq : List (Sqe depth)
  submitted : List (Sqe depth)
  cq : List (Cqe depth)

/-- The kernel picks the entry at `index` for this result. -/
structure Arrival where
  index : Nat
  result : Int

namespace Ring

/-- The kernel takes up to `count` entries. -/
def submit (ring : Ring depth) (count : Nat) : Ring depth :=
  { ring with sq := ring.sq.drop count, submitted := ring.submitted ++ ring.sq.take count }

/-- The kernel returns an entry, with an error or with at most its length. -/
def arrive (ring : Ring depth) (arrival : Arrival) : Ring depth :=
  match ring.submitted[arrival.index]? with
  | none => ring
  | some sqe =>
    if arrival.result ≤ sqe.entry.len then
      { ring with
        submitted := ring.submitted.eraseIdx arrival.index
        cq := ring.cq ++ [⟨sqe, arrival.result⟩] }
    else ring

end Ring

/-! ## The queue -/

/-- What happens to the slots, in order. -/
inductive Event (depth : Nat) where
  | accepted (slot : Fin depth) (request : Request)
  | issued (slot : Fin depth) (entry : Entry)
  | reaped (slot : Fin depth) (entry : Entry) (result : Int)
  | finished (slot : Fin depth) (completion : Completion)
  | popped (slot : Fin depth) (completion : Completion)

/-- The top of `free` comes first. `log` is what the proofs are about, no operation reads it. -/
structure UringQueue (depth : Nat) where
  ring : Ring depth
  pool : Option Nat
  deferred : Bool
  notification : Bool
  pending : Nat
  max_io_len : Nat
  slots : Fin depth → Option Transfer
  free : List (Fin depth)
  ready : List (Fin depth)
  completed : List (Fin depth × Completion)
  log : List (Event depth)

def next_power_of_two (n : Nat) : Nat := if n ≤ 1 then 1 else 2 ^ (Nat.log2 (n - 1) + 1)

namespace UringQueue

/-- The end of `build`. -/
def build (depth max_io_len : Nat) (pool : Option Nat) (deferred notification : Bool) :
    UringQueue depth :=
  ⟨⟨next_power_of_two depth, [], [], []⟩, pool, deferred, notification, 0, max_io_len,
    fun _ => none, List.finRange depth, [], [], []⟩

/-- The index of the arena, for a buffer of the registered pool. -/
def buffer_index (pool : Option Nat) (request : Request) : Except Error (Option Nat) :=
  match pool, request.buffer with
  | some pool, some (.Pooled owner arena_index _) =>
    if owner = pool then .ok (some arena_index)
    else .error (.InvalidInput "buffer belongs to another pool")
  | _, _ => .ok none

/-- One round of the loop in `stage`. -/
def stage_one (q : UringQueue depth) (slot : Fin depth) (ready : List (Fin depth)) :
    Option (UringQueue depth) :=
  (q.slots slot).bind fun transfer =>
  (transfer.next q.max_io_len).bind fun (entry, transfer) =>
    if q.ring.sq.length < q.ring.entries then
      some { q with
        ring := { q.ring with sq := q.ring.sq ++ [⟨entry, slot⟩] }
        pending := q.pending + 1
        slots := update q.slots slot (some transfer)
        ready := if transfer.has_remaining = true then ready ++ [slot] else ready
        log := q.log ++ [.issued slot entry] }
    else none

/-- `rounds` more entries may be pending. -/
def stage_loop : Nat → UringQueue depth → Option (UringQueue depth)
  | 0, q => some q
  | rounds + 1, q =>
    match q.ready with
    | [] => some q
    | slot :: ready => (q.stage_one slot ready).bind (stage_loop rounds)

def stage (q : UringQueue depth) : Option (UringQueue depth) := stage_loop (depth - q.pending) q

/-- One round of the loop in `reap`. -/
def reap_one (q : UringQueue depth) (cqe : Cqe depth) : Option (UringQueue depth) :=
  let slot := cqe.sqe.user_data
  (sub? q.pending 1).bind fun pending =>
  (q.slots slot).bind fun transfer =>
  (transfer.complete cqe.result).map fun (done, transfer) =>
    let q : UringQueue depth :=
      { q with pending, log := q.log ++ [.reaped slot cqe.sqe.entry cqe.result] }
    if done = true then
      { q with
        slots := update q.slots slot none
        completed := q.completed ++ [(slot, transfer.finish)]
        log := q.log ++ [.finished slot transfer.finish] }
    else { q with slots := update q.slots slot (some transfer) }

def reap (q : UringQueue depth) : Option (UringQueue depth) :=
  q.ring.cq.foldlM reap_one { q with ring := { q.ring with cq := [] } }

def has_ready (q : UringQueue depth) : Bool :=
  (!q.ready.isEmpty && decide (q.pending < depth)) || !q.completed.isEmpty

def vacant (q : UringQueue depth) : Nat := q.free.length

/-- A full queue gives the request back. -/
def try_submit (q : UringQueue depth) (request : Request) : Except Request (UringQueue depth) :=
  match q.free with
  | [] => .error request
  | slot :: free =>
    let q : UringQueue depth := { q with free, log := q.log ++ [.accepted slot request] }
    match request.validate.bind (fun _ => buffer_index q.pool request) with
    | .error error =>
      .ok { q with
        completed := q.completed ++ [(slot, ⟨request, .error error⟩)]
        log := q.log ++ [.finished slot ⟨request, .error error⟩] }
    | .ok fixed =>
      .ok { q with
        slots := update q.slots slot (some (Transfer.new request fixed))
        ready := q.ready ++ [slot] }

def pop (q : UringQueue depth) : Option (Completion × UringQueue depth) :=
  match q.completed with
  | [] => none
  | (slot, completion) :: completed =>
    some (completion, { q with
      completed, free := slot :: q.free, log := q.log ++ [.popped slot completion] })

/-- What the kernel does while the queue is in it. -/
structure Entered where
  count : Nat
  arrivals : List Arrival
  result : Except Error Unit

/-- The read of the notification, and the enter, which waits for as many completions as it is
told to. -/
structure Kernel where
  read : Except Error Unit
  enter : Nat → Entered

/-- `EINTR` and `EAGAIN`. -/
def interrupted (error : Error) : Bool := error = .Os 4
def would_block (error : Error) : Bool := error = .Os 11

/-- The enter of `poll`, and what follows. -/
def poll_enter (q : UringQueue depth) (entered : Entered) :
    Option (Except Error Unit × UringQueue depth) :=
  let q := { q with ring := entered.arrivals.foldl Ring.arrive (q.ring.submit entered.count) }
  match entered.result with
  | .error error => if interrupted error then q.reap.map (.ok (), ·) else some (.error error, q)
  | .ok () => q.reap.map (.ok (), ·)

/-- The read at the start of `poll`. -/
def read_notification (q : UringQueue depth) (read : Except Error Unit) : Except Error Unit :=
  match q.notification, read with
  | true, .error error =>
    if would_block error || interrupted error then .ok () else .error error
  | _, _ => .ok ()

def poll (q : UringQueue depth) (wait : Bool) (kernel : Kernel) :
    Option (Except Error Unit × UringQueue depth) :=
  match q.read_notification kernel.read with
  | .error error => some (.error error, q)
  | .ok () =>
    (if q.deferred = true then some q else q.reap).bind fun q =>
    q.stage.bind fun q =>
      if q.pending = 0 then some (.ok (), q)
      else q.poll_enter (kernel.enter (if wait = true ∧ q.completed = [] then 1 else 0))

end UringQueue

/-! ## Runs -/

/-- The owner calls the queue, or the kernel returns an entry between two calls. -/
inductive Action where
  | try_submit (request : Request)
  | poll (wait : Bool) (kernel : UringQueue.Kernel)
  | pop
  | arrive (arrival : Arrival)

namespace UringQueue

def act (q : UringQueue depth) : Action → Option (UringQueue depth)
  | .try_submit request =>
    match q.try_submit request with
    | .ok q => some q
    | .error _ => some q
  | .poll wait kernel => (q.poll wait kernel).map Prod.snd
  | .pop =>
    match q.pop with
    | some (_, q) => some q
    | none => some q
  | .arrive arrival => some { q with ring := q.ring.arrive arrival }

def run (q : UringQueue depth) (actions : List Action) : Option (UringQueue depth) :=
  actions.foldlM act q

end UringQueue

end moat_engine.io.uring
