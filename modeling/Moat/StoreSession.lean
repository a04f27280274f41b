-- The storage session that a disk worker owns (`moat-server/src/storage/mod.rs`),
-- over an engine that is seen only through what it has published and what it
-- has accepted and not yet completed.
import Moat.PipelineRead

namespace moat_server.storage

open byte_list moat_common

inductive Error where
  | Busy
  | Invalid (msg : String)
  | Engine (source : moat_engine.engine.Error)
deriving DecidableEq, Repr

/-- A published version of a chunk. A tombstone has no value. -/
structure Version where
  lsn : Nat
  value : Option Bytes
deriving DecidableEq, Repr

/-- The published versions, by chunk. -/
abbrev Versions := AList (fun _ : ChunkId => Version)

/-- `apply` of the pipeline's index: a newer LSN replaces, a new key is added. -/
def Versions.publish (index : Versions) (id : ChunkId) (v : Version) : Versions :=
  match index.lookup id with
  | some old => if old.lsn < v.lsn then index.insert id v else index
  | none => index.insert id v

/-- An operation that the engine has accepted: a read with the bytes of the version that it
captured, a write with the version that it will publish, or a flush. -/
inductive Flight where
  | read (bytes : Bytes)
  | write (id : ChunkId) (v : Version)
  | flush
deriving DecidableEq

structure Session where
  index : Versions
  flights : AList (fun _ : Nat => Flight)
  next_ticket : Nat
  next_lsn : Nat

def map_error : moat_engine.engine.Error → Error
  | .Pipeline .Backpressure => .Busy
  | error => .Engine error

/-- What comes of a request: a ticket, behind those that the engine's own transitions have drawn;
no buffer in the pool; or an error of the engine. -/
inductive Admission where
  | Accepted (skipped : Nat)
  | NoBuffer
  | Rejected (error : moat_engine.engine.Error)
deriving DecidableEq

def Admission.ticket (a : Admission) (next_ticket : Nat) : Except Error Nat :=
  match a with
  | .Accepted skipped => .ok (next_ticket + skipped)
  | .NoBuffer => .error .Busy
  | .Rejected e => .error (map_error e)

/-- The session of a recovered engine: the next LSN is behind every recovered one. -/
def Session.open (index : Versions) : Except Error Session :=
  let max_lsn := index.entries.foldl (fun m e => max m e.2.lsn) 0
  if max_lsn + 1 < 2 ^ 64 then .ok ⟨index, ∅, 0, max_lsn + 1⟩
  else .error (.Invalid "LSN space exhausted")

/-- Published record version and length. -/
def Session.stat (s : Session) (id : ChunkId) : Option (Nat × Nat) :=
  match s.index.lookup id with
  | some ⟨lsn, some value⟩ => some (lsn, value.length)
  | _ => none

/-- The live records: chunk, LSN and length. -/
def Session.visit (s : Session) : List (ChunkId × Nat × Nat) :=
  s.index.entries.filterMap (fun e => e.2.value.map (fun v => (e.1, e.2.lsn, v.length)))

def Session.in_flight (s : Session) : Nat := s.flights.entries.length

/-- Accepts an operation under its ticket. -/
def Session.launch (s : Session) (ticket : Nat) (f : Flight) : Session :=
  { s with flights := s.flights.insert ticket f, next_ticket := ticket + 1 }

/-- Appends a record, or a tombstone when there is no value; gives its ticket and LSN. -/
def Session.write (s : Session) (id : ChunkId) (value : Option Bytes) (a : Admission) :
    Except Error (Nat × Nat) × Session :=
  let lsn := s.next_lsn
  if ¬ lsn + 1 < 2 ^ 64 then (.error (.Invalid "LSN space exhausted"), s)
  else if ∃ v ∈ value, ¬ v.length < 2 ^ 32 then
    (.error (.Invalid "value length exceeds u32"), s)
  else
    match a.ticket s.next_ticket with
    | .error e => (.error e, s)
    | .ok ticket =>
      (.ok (ticket, lsn), { s.launch ticket (.write id ⟨lsn, value⟩) with next_lsn := lsn + 1 })

/-- The part of a value that a read asks for, clamped to the value's length. -/
def view (value : Bytes) (range : Option (Nat × Nat)) : Bytes :=
  let range := range.getD (0, value.length)
  slice value (min range.1 value.length) (min range.2 value.length)

def Session.read (s : Session) (id : ChunkId) (range : Option (Nat × Nat)) (a : Admission) :
    Except Error Nat × Session :=
  match s.index.lookup id with
  | some ⟨_, some value⟩ =>
    let r := range.getD (0, value.length)
    if r.1 > r.2 then (.error (.Invalid "reversed read range"), s)
    else
      match a.ticket s.next_ticket with
      | .error e => (.error e, s)
      | .ok ticket => (.ok ticket, s.launch ticket (.read (view value range)))
  | _ => (.error (.Engine (.Pipeline .NotFound)), s)

/-- Orders a durable barrier after earlier writes. -/
def Session.flush (s : Session) (a : Admission) : Except Error Nat × Session :=
  match a.ticket s.next_ticket with
  | .error e => (.error e, s)
  | .ok ticket => (.ok ticket, s.launch ticket .flush)

/-! ## Completions -/

inductive Completion where
  | Write (ticket : Nat) (result : Except moat_engine.pipeline.Error Unit)
  | Read (ticket : Nat) (result : Except moat_engine.pipeline.Error Bytes)
  | Flush (ticket : Nat) (result : Except moat_engine.pipeline.Error Unit)
  | Failed (ticket : Nat) (error : moat_engine.pipeline.Error)

/-- What the engine does next: it completes an accepted operation with some result, or ends it
because its queue has failed. -/
inductive Event where
  | complete (ticket : Nat) (result : Except moat_engine.pipeline.Error Unit)
  | fail (ticket : Nat) (error : moat_engine.pipeline.Error)

/-- How a flight completes with `result`. -/
def Flight.completion (ticket : Nat) (result : Except moat_engine.pipeline.Error Unit) :
    Flight → Completion
  | .read bytes => .Read ticket (result.map (fun _ => bytes))
  | .write _ _ => .Write ticket result
  | .flush => .Flush ticket result

/-- What a flight that completed with `result` leaves in the index. -/
def Flight.land (index : Versions) (result : Except moat_engine.pipeline.Error Unit) :
    Flight → Versions
  | .write id v =>
    match result with
    | .ok () => index.publish id v
    | .error _ => index
  | _ => index

/-- The session after the flight of `ticket` has ended and has left `index`. -/
def Session.retire (s : Session) (ticket : Nat) (index : Versions) : Session :=
  { s with flights := s.flights.erase ticket, index }

/-- One event. A write is published exactly when it completes with success, and a read resolves to
the bytes that it captured. Nothing happens for a ticket that is not in flight. -/
def Session.happen (s : Session) : Event → Option (Completion × Session)
  | .complete ticket result =>
    (s.flights.lookup ticket).map (fun f =>
      (f.completion ticket result, s.retire ticket (f.land s.index result)))
  | .fail ticket error =>
    (s.flights.lookup ticket).map (fun _ => (.Failed ticket error, s.retire ticket s.index))

/-- Drives the owner's queue through `events`. -/
def Session.poll (s : Session) : List Event → List Completion × Session
  | [] => ([], s)
  | e :: es =>
    match s.happen e with
    | none => s.poll es
    | some (c, s') => ((c :: (s'.poll es).1), (s'.poll es).2)

end moat_server.storage
