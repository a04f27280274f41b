-- Requests, completions and the queue contract of `moat-engine/src/io`, and
-- the errors of the pipeline and the engine that carry them.
import Moat.SegmentHeader

namespace moat_engine

open byte_list moat_common

namespace io

/-- An operating system failure. Only that there is one matters here. -/
structure IoError where
  code : Nat
deriving DecidableEq, Repr

inductive Operation where
  | Read
  | Write
  | Sync
deriving DecidableEq, Repr

structure Request where
  token : Nat
  operation : Operation
  offset : Nat
  len : Nat
  buffer : Option Bytes
deriving DecidableEq

/-- A request that came back, with the bytes transferred or the failure. -/
structure Completion where
  request : Request
  result : Except IoError Nat

/-! ## The queue

A queue accepts requests up to its depth and gives them back in any order, with any outcome. The
log keeps what was submitted and what came back, in order: it is what a crash depends on. -/

inductive Event where
  | submitted (serial : Nat) (request : Request)
  | completed (serial : Nat) (ok : Bool) (data : Bytes)

structure Queue where
  depth : Nat
  accepted : List (Nat × Request)
  next_serial : Nat
  log : List Event

def Queue.empty (depth : Nat) : Queue := ⟨depth, [], 0, []⟩

def Queue.vacant (q : Queue) : Nat := q.depth - q.accepted.length

def Queue.try_submit (q : Queue) (request : Request) : Except Request Queue :=
  if q.vacant = 0 then .error request
  else
    .ok { q with
      accepted := q.accepted ++ [(q.next_serial, request)]
      next_serial := q.next_serial + 1
      log := q.log ++ [.submitted q.next_serial request] }

/-- One choice of the device: which accepted request comes back, with which result, and what a
read left in its buffer. -/
structure Pop where
  index : Nat
  result : Except IoError Nat
  data : Bytes

/-- A transfer of the whole requested length. -/
def fullTransfer (result : Except IoError Nat) (len : Nat) : Bool :=
  match result with
  | .ok actual => actual == len
  | .error _ => false

/-- The buffer of a request that came back. Only a read changes it, in the requested prefix. -/
def returnedBuffer (request : Request) (data : Bytes) : Option Bytes :=
  match request.operation with
  | .Read => request.buffer.map (fun b => patch b 0 (data.take request.len))
  | _ => request.buffer

def Queue.pop (q : Queue) (choice : Pop) : Option (Completion × Queue) :=
  match q.accepted[choice.index]? with
  | none => none
  | some (serial, request) =>
    some (⟨{ request with buffer := returnedBuffer request choice.data }, choice.result⟩,
      { q with
        accepted := q.accepted.eraseIdx choice.index
        log := q.log ++
          [.completed serial (fullTransfer choice.result request.len) choice.data] })

/-- What the device does during one poll: a fatal failure, or completions in some order. -/
structure Script where
  fatal : Option IoError
  pops : List Pop

end io

namespace pipeline

inductive Error where
  | Backpressure
  | MetadataFull
  | ResourceLimit (msg : String)
  | ReadOnly
  | WriteFailed (ticket : Nat)
  | NotFound
  | InvalidArgument (msg : String)
  | Frame (source : frame.Error)
  | Segment (source : segment.Error)
  | Io (operation : io.Operation) (offset : Nat) (source : io.IoError)
  | ShortIo (operation : io.Operation) (offset expected actual : Nat)
  | Queue (source : io.IoError)
  | QueueFailed
deriving DecidableEq, Repr

end pipeline

namespace engine

inductive Error where
  | Aborted (source : pipeline.Error)
  | NotReady
  | Closed
  | InvalidArgument (msg : String)
  | NotFormatted
  | Corrupt (msg : String)
  | UnsupportedVersion (version : Nat)
  | OutOfSpace
  | Failed
  | Io (source : io.IoError)
  | Pipeline (source : pipeline.Error)
  | Segment (source : segment.Error)
  | Frame (source : frame.Error)
deriving DecidableEq, Repr

end engine

end moat_engine
