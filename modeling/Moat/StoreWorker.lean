-- The disk worker of the chunk store (`moat-cache-store/src/worker.rs` and
-- `command.rs`): commands are chained by chunk, one operation of a chain is
-- active at a time, and equal reads next to each other share one operation.
import Moat.StoreSession

namespace moat_cache_store

open moat_common moat_server

inductive Error where
  | Busy
  | Closed
  | Invalid (msg : String)
  | Engine (source : storage.Error)
deriving DecidableEq, Repr

inductive DeleteResult where
  | Deleted (lsn : Nat)
  | Missing
  | Changed
deriving DecidableEq, Repr

/-! ## Permits -/

/-- The credit of a request (`budget.rs`), as its disk worker handles it. `owner` is the request, by
the number of its reply channel. -/
structure Permit where
  owner : Nat
  bytes : Nat
  request : Bool
deriving DecidableEq, Repr

/-- Tells whether the permit covers `bytes`; `room` is what the budget says to a larger claim. -/
def Permit.grow (p : Permit) (bytes : Nat) (room : Bool) : Bool × Permit :=
  if bytes ≤ p.bytes then (true, p)
  else if room = true then (true, { p with bytes })
  else (false, p)

/-- `none` is a failed assertion. -/
def Permit.resize (p : Permit) (bytes : Nat) : Option Permit :=
  if bytes ≤ p.bytes then some { p with bytes } else none

/-- The requests that this lets go, and the permit afterwards. -/
def Permit.finish_request (p : Permit) : List Nat × Permit :=
  if p.request = true then ([p.owner], { p with request := false }) else ([], p)

/-- The requests that a dropped permit lets go. Its bytes go back to the budget too. -/
def Permit.drop (p : Permit) : List Nat := p.finish_request.1

def dropped (permit : Option Permit) : List Nat := permit.elim [] Permit.drop

/-- The permit of a chunk has finished its request, and keeps the credit for the buffer. -/
structure Chunk where
  bytes : Bytes
  lsn : Nat
  permit : Permit
deriving DecidableEq, Repr

structure InventoryEntry where
  id : ChunkId
  lsn : Nat
  len : Nat
deriving DecidableEq

/-- What a caller gets on its reply channel. `Canceled` is a sender dropped without a reply, after
the caller dropped the receiver. -/
inductive Reply where
  | Read (result : Except Error (Option Chunk))
  | Put (result : Except Error Nat)
  | Delete (result : Except Error DeleteResult)
  | Flush (result : Except Error Unit)
  | Inventory (result : Except Error (List InventoryEntry))
  | Close (result : Except Error Unit)
  | Canceled
deriving DecidableEq

/-! ## Commands and operations -/

/-- Channels are numbers. -/
inductive FenceReply where
  | Flush (reply : Nat)
  | Inventory (reply : Nat)
  | Close (reply : Option Nat)
deriving DecidableEq

inductive Command where
  | Read (id : ChunkId) (range : Option (Nat × Nat)) (reply : Nat) (permit : Permit)
  | Put (id : ChunkId) (value : Bytes) (reply : Nat) (permit : Permit)
  | Delete (id : ChunkId) (expected_lsn : Option Nat) (reply : Nat) (permit : Permit)
  | Fence (reply : FenceReply) (permit : Option Permit)
deriving DecidableEq

/-- What a command asks for. -/
inductive Order where
  | Read (id : ChunkId) (range : Option (Nat × Nat)) (reply : Nat)
  | Put (id : ChunkId) (value : Bytes) (reply : Nat)
  | Delete (id : ChunkId) (expected_lsn : Option Nat) (reply : Nat)
  | Fence (reply : FenceReply)
deriving DecidableEq

def Command.order : Command → Order
  | .Read id range reply _ => .Read id range reply
  | .Put id value reply _ => .Put id value reply
  | .Delete id expected_lsn reply _ => .Delete id expected_lsn reply
  | .Fence reply _ => .Fence reply

structure Waiter where
  reply : Nat
  permit : Option Permit
deriving DecidableEq

inductive Operation where
  | Read (range : Option (Nat × Nat)) (lsn : Nat) (waiters : List Waiter)
  | Put (value : Bytes) (reply : Nat) (permit : Permit)
  | Delete (expected_lsn : Option Nat) (reply : Nat) (permit : Permit)
deriving DecidableEq

structure Fence where
  reply : FenceReply
  permit : Option Permit
  ticket : Option Nat
deriving DecidableEq

/-- Replies with the channels that they go to. -/
abbrev Replies := List (Nat × Reply)

/-- What goes out at an end: the requests whose permits are let go, and the replies. -/
structure Outcome where
  released : List Nat
  replies : Replies

def FenceReply.fail : FenceReply → Error → Replies
  | .Flush reply, e => [(reply, .Flush (.error e))]
  | .Inventory reply, e => [(reply, .Inventory (.error e))]
  | .Close (some reply), e => [(reply, .Close (.error e))]
  | .Close none, _ => []

def Fence.fail (f : Fence) (e : Error) : Outcome := ⟨dropped f.permit, f.reply.fail e⟩

def Command.fail : Command → Error → Outcome
  | .Read _ _ reply permit, e => ⟨permit.drop, [(reply, .Read (.error e))]⟩
  | .Put _ _ reply permit, e => ⟨permit.drop, [(reply, .Put (.error e))]⟩
  | .Delete _ _ reply permit, e => ⟨permit.drop, [(reply, .Delete (.error e))]⟩
  | .Fence reply permit, e => ⟨dropped permit, reply.fail e⟩

/-- `for waiter in waiters { drop(waiter.permit); waiter.reply.send(..) }`. -/
def answer_all (waiters : List Waiter) (reply : Reply) : Outcome :=
  ⟨waiters.flatMap (fun x => dropped x.permit),
    (waiters.map Waiter.reply).map (fun r => (r, reply))⟩

def Operation.fail : Operation → Error → Outcome
  | .Read _ _ waiters, e => answer_all waiters (.Read (.error e))
  | .Put _ reply permit, e => ⟨permit.drop, [(reply, .Put (.error e))]⟩
  | .Delete _ reply permit, e => ⟨permit.drop, [(reply, .Delete (.error e))]⟩

/-- The bytes come with the length of their buffer, for which the leader's permit stays with the
chunk. The result is `none` where the source panics: no read, no leader, or a leader whose permit
is gone or too small. -/
def Operation.read_done : Operation → Except Error (Bytes × Nat) → Option Outcome
  | .Read _ _ waiters, .error e => some (answer_all waiters (.Read (.error e)))
  | .Read _ lsn (⟨reply, some permit⟩ :: waiters), .ok (bytes, len) =>
    (permit.resize len).map fun permit =>
      let (finished, permit) := permit.finish_request
      let out := answer_all (⟨reply, none⟩ :: waiters) (.Read (.ok (some ⟨bytes, lsn, permit⟩)))
      { out with released := finished ++ out.released }
  | _, _ => none

def Operation.miss (waiters : List Waiter) : Outcome := answer_all waiters (.Read (.ok none))

def Operation.write_done : Operation → Except Error Nat → Option Outcome
  | .Put _ reply permit, result => some ⟨permit.drop, [(reply, .Put result)]⟩
  | .Delete _ reply permit, result => some ⟨permit.drop, [(reply, .Delete (result.map .Deleted))]⟩
  | .Read .., _ => none

def Operation.deleted (reply : Nat) (permit : Permit) (result : DeleteResult) : Outcome :=
  ⟨permit.drop, [(reply, .Delete (.ok result))]⟩

structure Chain where
  active : Option Operation
  pending : List Operation
deriving DecidableEq

/-! ## The worker -/

/-- The pool that reads take their buffers from (`options.queue.pool`). It decides how long the
buffer of a ticket is. -/
structure ReadPool where
  max_class : Nat
  buf_len : Nat → Nat
  le_class : ∀ ticket, buf_len ticket ≤ max_class

/-- `sent` lists the replies in the order in which they were handed to delivery, `released` the
requests whose permits were let go, and `accepted` what the commands taken from the receiver asked
for; no function reads them. -/
structure Worker where
  session : storage.Session
  pool : ReadPool
  receiver : List Command
  connected : Bool
  chains : AList (fun _ : ChunkId => Chain)
  ready : List ChunkId
  reads : AList (fun _ : Nat => ChunkId)
  writes : AList (fun _ : Nat => ChunkId × Nat)
  fence : Option Fence
  closing : Bool
  close_reply : Option Nat
  write_error : Option Error
  sent : Replies
  released : List Nat
  accepted : List Order

def Worker.new (session : storage.Session) (pool : ReadPool) : Worker :=
  ⟨session, pool, [], true, ∅, [], ∅, ∅, none, false, none, none, [], [], []⟩

def Worker.send (w : Worker) (out : Outcome) : Worker :=
  { w with sent := w.sent ++ out.replies, released := w.released ++ out.released }

def Worker.inventory (w : Worker) : List InventoryEntry :=
  w.session.visit.map (fun e => ⟨e.1, e.2.1, e.2.2⟩)

/-- `write_error.get_or_insert`. -/
def Worker.keep_error (w : Worker) (e : Error) : Worker :=
  { w with write_error := some (w.write_error.getD e) }

def Worker.chain (w : Worker) (id : ChunkId) : Chain := (w.chains.lookup id).getD ⟨none, []⟩

/-- The last operation of a chain: a read that comes next may join it. -/
def Chain.last (c : Chain) : Option Operation :=
  if c.pending = [] then c.active else c.pending.getLast?

def Chain.set_last (c : Chain) (op : Operation) : Chain :=
  if c.pending = [] then { c with active := some op }
  else { c with pending := c.pending.dropLast ++ [op] }

/-- The end of `accept`: a chain that was idle becomes ready. -/
def Worker.push (w : Worker) (id : ChunkId) (operation : Operation) : Worker :=
  let chain := w.chain id
  { w with
    ready := if chain.active = none ∧ chain.pending = [] then w.ready ++ [id] else w.ready
    chains := w.chains.insert id { chain with pending := chain.pending ++ [operation] } }

/-- `waiter.permit.as_mut().expect("new read credit").resize(0)`. `none` is a failed `expect` or
assertion, here and below. -/
def Waiter.join (x : Waiter) : Option Waiter :=
  x.permit.bind fun permit => (permit.resize 0).map fun permit => { x with permit := some permit }

/-- Queues an operation of `id`; a read joins an equal one that is last in the chain. -/
def Worker.enqueue (w : Worker) (id : ChunkId) (operation : Operation) : Option Worker :=
  match operation, (w.chain id).last with
  | .Read range lsn waiters, some (.Read previous previous_lsn previous_waiters) =>
    if previous = range then
      (waiters.mapM Waiter.join).map fun waiters =>
        let joined := Operation.Read previous previous_lsn (previous_waiters ++ waiters)
        { w with chains := w.chains.insert id ((w.chain id).set_last joined) }
    else some (w.push id (.Read range lsn waiters))
  | operation, _ => some (w.push id operation)

def Worker.accept (w : Worker) (command : Command) : Option Worker :=
  let w := { w with accepted := w.accepted ++ [command.order] }
  match command with
  | .Read id range reply permit => w.enqueue id (.Read range 0 [⟨reply, some permit⟩])
  | .Put id value reply permit => w.enqueue id (.Put value reply permit)
  | .Delete id expected_lsn reply permit => w.enqueue id (.Delete expected_lsn reply permit)
  | .Fence reply permit => some { w with fence := some ⟨reply, permit, none⟩ }

def Worker.disconnected (w : Worker) : Worker :=
  { w with fence := some ⟨.Close none, none, none⟩ }

/-- Takes up to `n` commands, up to a fence; tells whether it took one. -/
def Worker.receive (w : Worker) : Nat → Option (Bool × Worker)
  | 0 => some (false, w)
  | n + 1 =>
    match w.receiver with
    | command :: rest =>
      match ({ w with receiver := rest } : Worker).accept command with
      | none => none
      | some w =>
        if w.fence.isSome then some (true, w) else (w.receive n).map (fun r => (true, r.2))
    | [] => some (false, if w.connected = true then w else w.disconnected)

/-! ## Starting operations -/

/-- What one `start` meets: the callers that have gone, whether the byte credit grows, and what
the session says. -/
structure Start where
  canceled : List Nat
  grows : Bool
  admission : storage.Admission

inductive Started where
  | Active (operation : Operation)
  | Retry (operation : Operation)
  | Done

def Operation.is_read : Operation → Bool
  | .Read .. => true
  | _ => false

/-- The end of `start`: backpressure is retried, and any other error is the operation's result. -/
def Worker.refused (w : Worker) (operation : Operation) : storage.Error → Started × Worker
  | .Busy => (.Retry operation, w)
  | e =>
    let w := if operation.is_read = true then w else w.keep_error (.Engine e)
    (.Done, w.send (operation.fail (.Engine e)))

def Worker.start_write (w : Worker) (id : ChunkId) (operation : Operation) (value : Option Bytes)
    (t : Start) : Started × Worker :=
  match w.session.write id value t.admission with
  | (.ok (ticket, lsn), session) =>
    (.Active operation, { w with session, writes := w.writes.insert ticket (id, lsn) })
  | (.error e, session) => ({ w with session } : Worker).refused operation e

/-- `waiters[0].permit.as_mut().expect("leader byte credit").grow(bytes)`: whether it grew, and the
waiters afterwards. -/
def grow_leader (bytes : Nat) (room : Bool) : List Waiter → Option (Bool × List Waiter)
  | ⟨reply, some permit⟩ :: waiters =>
    let (grown, permit) := permit.grow bytes room
    some (grown, ⟨reply, some permit⟩ :: waiters)
  | _ => none

/-- A read whose leader has its byte credit. -/
def Worker.start_read (w : Worker) (id : ChunkId) (range : Option (Nat × Nat))
    (operation : Operation) (t : Start) : Started × Worker :=
  match w.session.read id range t.admission with
  | (.ok ticket, session) =>
    (.Active operation, { w with session, reads := w.reads.insert ticket id })
  | (.error e, session) => ({ w with session } : Worker).refused operation e

def Worker.start (w : Worker) (id : ChunkId) (operation : Operation) (t : Start) :
    Option (Started × Worker) :=
  match operation with
  | .Read range _ waiters =>
    let w := w.send (answer_all (waiters.filter (·.reply ∈ t.canceled)) .Canceled)
    let waiters := waiters.filter (·.reply ∉ t.canceled)
    if waiters = [] then some (.Done, w)
    else
      match w.session.stat id with
      | none => some (.Done, w.send (Operation.miss waiters))
      | some stat =>
        (grow_leader w.pool.max_class t.grows waiters).map fun (grown, waiters) =>
          let operation := Operation.Read range stat.1 waiters
          if grown = false then (.Retry operation, w) else w.start_read id range operation t
  | .Put value reply permit => some (w.start_write id (.Put value reply permit) (some value) t)
  | .Delete expected_lsn reply permit =>
    match w.session.stat id with
    | none => some (.Done, w.send (Operation.deleted reply permit .Missing))
    | some stat =>
      if ∃ expected ∈ expected_lsn, expected ≠ stat.1 then
        some (.Done, w.send (Operation.deleted reply permit .Changed))
      else some (w.start_write id (.Delete expected_lsn reply permit) none t)

/-- The chain after its first pending operation was started. -/
def Started.chain (active : Option Operation) (rest : List Operation) : Started → Chain
  | .Active operation => ⟨some operation, rest⟩
  | .Retry operation => ⟨active, operation :: rest⟩
  | .Done => ⟨active, rest⟩

def Started.progress : Started → Bool
  | .Retry _ => false
  | _ => true

/-- Puts a chain back, and back in the ready queue if it has work that nothing waits for. -/
def Worker.put_back (w : Worker) (id : ChunkId) (chain : Chain) : Worker :=
  { w with
    ready := if chain.active = none ∧ chain.pending ≠ [] then w.ready ++ [id] else w.ready
    chains := if chain.active = none ∧ chain.pending = [] then w.chains
      else w.chains.insert id chain }

/-- Starts the first operation of the first ready chain. -/
def Worker.start_next (w : Worker) (t : Start) : Option (Bool × Worker) :=
  match w.ready with
  | [] => none
  | id :: ready =>
    match w.chains.lookup id with
    | some ⟨active, operation :: pending⟩ =>
      (({ w with ready, chains := w.chains.erase id } : Worker).start id operation t).map
        fun (started, w) => (started.progress, w.put_back id (started.chain active pending))
    | _ => none

/-- One turn for each chain that was ready when the loop began. -/
def Worker.start_ready (w : Worker) : Nat → List Start → Option (Bool × Worker)
  | 0, _ => some (false, w)
  | n + 1, ts =>
    match w.start_next (ts.headD ⟨[], true, .NoBuffer⟩) with
    | none => none
    | some (progress, w) =>
      match w.start_ready n ts.tail with
      | none => none
      | some (more, w) => some (progress || more, w)

/-! ## Completions and fences -/

/-- Ends the active operation of a chain. -/
def Worker.complete (w : Worker) (id : ChunkId) : Option (Operation × Worker) :=
  match w.chains.lookup id with
  | some ⟨some operation, pending⟩ =>
    some (operation,
      { w with
        chains := if pending = [] then w.chains.erase id else w.chains.insert id ⟨none, pending⟩
        ready := if pending = [] then w.ready else w.ready ++ [id] })
  | _ => none

def Worker.finish_fence (w : Worker) (result : Except Error Unit) :
    Option (Except Error Unit × Worker) :=
  match w.fence with
  | none => none
  | some ⟨.Flush reply, permit, _⟩ =>
    let result := match result, w.write_error with
      | .error e, _ => .error e
      | .ok (), some e => .error e
      | .ok (), none => .ok ()
    some (.ok (), ({ w with fence := none, write_error := none } : Worker).send
      ⟨dropped permit, [(reply, .Flush result)]⟩)
  | some ⟨.Close reply, permit, _⟩ =>
    some (result, { w with
      fence := none
      close_reply := reply
      closing := true
      released := w.released ++ dropped permit })
  | some ⟨.Inventory _, _, _⟩ => none

/-- `assert_eq!` of a completion's ticket with the fence's. -/
def Worker.fence_ticket (w : Worker) : Option Nat := w.fence.bind (·.ticket)

/-- Ends the active operation of a chain with what `reply` sends to its callers. -/
def Worker.answer_active (w : Worker) (id : ChunkId) (reply : Operation → Option Outcome) :
    Option (Except Error Unit × Worker) :=
  match w.complete id with
  | none => none
  | some (operation, w) => (reply operation).map (fun out => (.ok (), w.send out))

def Worker.handle (w : Worker) : storage.Completion → Option (Except Error Unit × Worker)
  | .Failed ticket error =>
    let error := Error.Engine (.Engine (.Aborted error))
    let w := w.keep_error error
    match w.reads.lookup ticket, w.writes.lookup ticket with
    | some id, _ =>
      ({ w with reads := w.reads.erase ticket } : Worker).answer_active id
        (fun operation => some (operation.fail error))
    | none, some (id, _) =>
      ({ w with writes := w.writes.erase ticket } : Worker).answer_active id
        (fun operation => some (operation.fail error))
    | none, none =>
      if w.fence_ticket = some ticket then w.finish_fence (.error error) else none
  | .Read ticket result =>
    match w.reads.lookup ticket with
    | none => none
    | some id =>
      ({ w with reads := w.reads.erase ticket } : Worker).answer_active id
        (fun operation => operation.read_done
          ((result.mapError (fun e => .Engine (.Engine (.Pipeline e)))).map
            (fun bytes => (bytes, w.pool.buf_len ticket))))
  | .Write ticket result =>
    match w.writes.lookup ticket with
    | none => none
    | some (id, lsn) =>
      let result := (result.mapError (fun e => Error.Engine (.Engine (.Pipeline e)))).map
        (fun _ => lsn)
      let w := match result with
        | .error e => w.keep_error e
        | .ok _ => w
      ({ w with writes := w.writes.erase ticket } : Worker).answer_active id
        (fun operation => operation.write_done result)
  | .Flush ticket result =>
    if w.fence_ticket = some ticket then
      w.finish_fence (result.mapError (fun e => .Engine (.Engine (.Pipeline e))))
    else none

def Worker.handle_all (w : Worker) : List storage.Completion → Option (Except Error Unit × Worker)
  | [] => some (.ok (), w)
  | c :: cs =>
    match w.handle c with
    | none => none
    | some (.error e, w) => some (.error e, w)
    | some (.ok (), w) => w.handle_all cs

/-- What one turn of the loop meets. -/
structure Turn where
  /-- How many commands the receiver has by now. -/
  received : Nat
  starts : List Start
  events : List storage.Event
  /-- The error of the queue's own poll. -/
  poll_error : Option storage.Error
  flush : storage.Admission
  seal_ : Except storage.Error Unit
  /-- A transition of the engine is in progress. -/
  job : Bool
  /-- The idle wait ends with a command or a disconnect. -/
  wakes : Bool

/-- Moves a fence on once every chain is done; tells whether it moved. -/
def Worker.advance_fence (w : Worker) (t : Turn) : Option (Except Error Bool × Worker) :=
  match w.fence with
  | none => none
  | some ⟨_, _, some _⟩ => some (.ok false, w)
  | some ⟨.Inventory reply, permit, none⟩ =>
    some (.ok true, ({ w with fence := none } : Worker).send
      ⟨dropped permit, [(reply, .Inventory (.ok w.inventory))]⟩)
  | some ⟨.Flush reply, permit, none⟩ =>
    match w.session.flush t.flush with
    | (.ok ticket, session) =>
      some (.ok true, { w with session, fence := some ⟨.Flush reply, permit, some ticket⟩ })
    | (.error .Busy, session) => some (.ok false, { w with session })
    | (.error e, session) =>
      (({ w with session } : Worker).finish_fence (.error (.Engine e))).map
        (fun r => (r.1.map (fun _ => true), r.2))
  | some ⟨.Close _, _, none⟩ =>
    (w.finish_fence (t.seal_.mapError .Engine)).map (fun r => (r.1.map (fun _ => true), r.2))

/-! ## The loop -/

/-- The wait of an idle worker: one more command, if it gets one. -/
def Worker.idle (w : Worker) (t : Turn) : Option Worker :=
  if w.fence = none ∧ w.closing = false ∧ t.wakes = true then
    match w.receiver with
    | command :: rest => ({ w with receiver := rest } : Worker).accept command
    | [] => some (if w.connected = true then w else w.disconnected)
  else some w

/-- The end of a turn: the loop returns once the worker has closed, else it waits if idle. -/
def Worker.end_turn (w : Worker) (t : Turn) (progress : Bool) :
    Option (Option (Except Error Unit) × Worker) :=
  if w.closing = true ∧ w.session.in_flight = 0 ∧ t.job = false then
    some (some (match w.write_error with
      | some e => .error e
      | none => .ok ()), { w with write_error := none })
  else if progress = true then some (none, w)
  else (w.idle t).map (fun w => (none, w))

/-- The fence's part of a turn. -/
def Worker.turn_fence (w : Worker) (t : Turn) (progress : Bool) :
    Option (Option (Except Error Unit) × Worker) :=
  if w.fence.isSome ∧ w.chains.entries = [] then
    match w.advance_fence t with
    | none => none
    | some (.error e, w) => some (some (.error e), w)
    | some (.ok moved, w) => w.end_turn t (progress || moved)
  else w.end_turn t progress

/-- One turn of `run`; with a result once the loop returns. -/
def Worker.turn (w : Worker) (t : Turn) : Option (Option (Except Error Unit) × Worker) :=
  match if w.fence = none ∧ w.closing = false then w.receive (min t.received 128)
    else some (false, w) with
  | none => none
  | some (received, w) =>
    match w.start_ready w.ready.length t.starts with
    | none => none
    | some (started, w) =>
      let (completions, session) := w.session.poll t.events
      let w := { w with session }
      match t.poll_error with
      | some e => some (some (.error (.Engine e)), w)
      | none =>
        match w.handle_all completions with
        | none => none
        | some (.error e, w) => some (some (.error e), w)
        | some (.ok (), w) =>
          w.turn_fence t (received || started || !completions.isEmpty)

/-- After the loop: whatever was not answered gets the error. -/
def Worker.finish (w : Worker) (result : Except Error Unit) : Worker :=
  let error := match result with
    | .error e => e
    | .ok () => .Closed
  let chains := w.chains.entries.flatMap (fun e =>
    (e.2.active.toList ++ e.2.pending).map (·.fail error))
  let fence := w.fence.toList.map (·.fail error)
  let receiver := w.receiver.map (·.fail error)
  let closed := w.close_reply.toList.map (fun reply => ⟨[], [(reply, .Close result)]⟩)
  let outs : List Outcome := chains ++ fence ++ receiver ++ closed
  ({ w with chains := ∅, fence := none, receiver := [], close_reply := none } : Worker).send
    ⟨outs.flatMap (·.released), outs.flatMap (·.replies)⟩

end moat_cache_store
