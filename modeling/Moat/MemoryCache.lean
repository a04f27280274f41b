-- The memory cache as any number of threads see it: shards behind locks, handles
-- with counts that change outside the locks, and notifications delivered later.
-- Each action is one atomic step of a call.
import Moat.MemoryCommit

namespace moat_cache_memory

open slab Function

/-! ## Configuration -/

/-- The configuration of a cache. -/
structure Builder (K V P : Type) where
  hash : K → UInt64
  capacity : Nat
  shards : Nat
  policy : Policy
  weigher : K → V → P → Nat
  admission : K → V → P → Bool
  listener : Bool

def partition (capacity shards index : Nat) : Nat :=
  capacity / shards + if index < capacity % shards then 1 else 0

/-! ## The cache -/

/-- The state of a cache. A version is the place of its record in `records`. -/
structure Cache (K V P : Type) where
  shards : List (Shard K V P)
  /-- Every record that was ever allocated. -/
  records : List (Record K V P)
  /-- Preparations not used yet, with their admission; each owns a handle. -/
  prepared : Nat → Option Bool
  /-- Handles that release their version when the last one goes. -/
  held : Nat → Nat
  /-- Handles that do not. -/
  bare : Nat → Nat
  /-- Last handles that were dropped, before they look at the flag. -/
  dropping : List Nat
  /-- Last handles that saw the flag set, before the release takes the lock. -/
  releasing : List Nat
  /-- What calls and changes still have to deliver. -/
  pending : List (Removed K V P)

variable {K V P : Type}

def Builder.build (b : Builder K V P) : Except String (Cache K V P) :=
  if b.shards = 0 then .error "shards must be nonzero"
  else
    b.policy.validate.map fun _ =>
      { shards := (List.range b.shards).map fun i =>
      Shard.new b.policy (partition b.capacity b.shards i)
        records := []
        prepared := fun _ => none
        held := fun _ => 0
        bare := fun _ => 0
        dropping := []
        releasing := []
        pending := [] }

/-- What can be seen of a step. -/
inductive Event (K : Type)
  /-- A version was committed, admitted or not. -/
  | committed (key : K) (version : Nat)
  /-- A promotion that was not admitted. -/
  | declined (version : Nat)
  | got (key : K) (version : Option Nat)
  | removed (key : K)
  | cleared (shard : Nat)
  /-- A version left its shard, or was refused. -/
  | left (version : Nat) (reason : RemovalReason)
  /-- A removal was dispatched. -/
  | notified (version : Nat) (reason : RemovalReason)
  deriving DecidableEq

inductive Act (K V P : Type)
  | prepare (key : K) (value : V) (properties : P) (priority : Priority)
  | reject_residency (version : Nat)
  | commit (version : Nat)
  | promote (version : Nat)
  /-- A preparation is dropped unused: its handle is an ordinary one from now on. -/
  | abandon (version : Nat)
  | get (key : K)
  | clone (version : Nat)
  | clone_bare (version : Nat)
  /-- The decrement of a handle's drop. -/
  | drop (version : Nat)
  | drop_bare (version : Nat)
  /-- The look at the flag, after a decrement to zero. -/
  | is_resident (version : Nat)
  /-- The critical section of a release. -/
  | release (version : Nat)
  | remove (key : K)
  /-- The critical sections of `clear` and `resize` on one shard. -/
  | clear (shard : Nat)
  | resize (shard capacity : Nat)
  /-- The next notification of a change or of a call. -/
  | notify (change : Nat)

namespace Cache

def shard (c : Cache K V P) (hash : UInt64) : Nat := hash.toNat % c.shards.length

/-- `record.references`. -/
def references (c : Cache K V P) (version : Nat) : Nat :=
  c.held version + c.bare version + if (c.prepared version).isSome then 1 else 0

/-- `Entry::acquire` with the cache's own release, which only LRU has. -/
def acquire (c : Cache K V P) (b : Builder K V P) (version : Nat) : Cache K V P :=
  if b.policy.pins then { c with held := update c.held version (c.held version + 1) }
  else { c with bare := update c.bare version (c.bare version + 1) }

/-- `Entry::acquire(record, None)`. -/
def acquire_bare (c : Cache K V P) (version : Nat) : Cache K V P :=
  { c with bare := update c.bare version (c.bare version + 1) }

/-- Runs a critical section on a shard; what it takes out is delivered later. -/
def locked (c : Cache K V P) (i : Nat) (f : Shard K V P → Option (Shard K V P × Removed K V P)) :
    Option (Cache K V P × Removed K V P) :=
  (c.shards[i]?).bind fun s =>
  (f s).map fun (s, removed) =>
    ({ c with shards := c.shards.set i s, pending := c.pending ++ [removed] }, removed)

/-- The versions that left, as events. -/
def leaves (removed : Removed K V P) : List (Event K) :=
  removed.map fun e => .left e.1.version e.2

variable [DecidableEq K]

def commit_entry (c : Cache K V P) (b : Builder K V P) (record : Record K V P) (admitted : Bool) :
    Option (Cache K V P × List (Event K)) :=
  (c.locked (c.shard record.hash) fun s => s.commit record admitted).map fun (c, removed) =>
    (acquire { c with prepared := update c.prepared record.version none } b record.version,
      .committed record.key record.version :: leaves removed)

/-- One atomic step; an action that is not possible changes nothing. -/
def act (b : Builder K V P) (c : Cache K V P) : Act K V P → Option (Cache K V P × List (Event K))
  | .prepare key value properties priority =>
    let version := c.records.length
    some ({ c with
        records := c.records ++ [⟨version, key, value, properties, b.hash key,
          max (b.weigher key value properties) 1, priority⟩]
        prepared := update c.prepared version (some (b.admission key value properties)) }, [])
  | .reject_residency v =>
    some ({ c with prepared := update c.prepared v ((c.prepared v).map fun _ => false) }, [])
  | .commit v =>
    match c.prepared v, c.records[v]? with
    | some admitted, some record => c.commit_entry b record admitted
    | _, _ => some (c, [])
  | .promote v =>
    match c.prepared v, c.records[v]? with
    | some true, some record => c.commit_entry b record true
    | some false, some record =>
      some (acquire { c with
          prepared := update c.prepared v none
          pending := c.pending ++ [[(record, .Rejected)]] } b v,
        [.declined v, .left v .Rejected])
    | _, _ => some (c, [])
  | .abandon v =>
    match c.prepared v with
    | some _ => some (acquire { c with prepared := update c.prepared v none } b v, [])
    | none => some (c, [])
  | .get key =>
    (c.shards[c.shard (b.hash key)]?).bind fun s =>
    (s.get (b.hash key) key).map fun (found, s) =>
      let c := { c with shards := c.shards.set (c.shard (b.hash key)) s }
      match found with
      | none => (c, [.got key none])
      | some record => (c.acquire b record.version, [.got key (some record.version)])
  | .clone v =>
    if 0 < c.held v ∨ b.policy.pins = true ∧ (c.prepared v).isSome then
      some ({ c with held := update c.held v (c.held v + 1) }, [])
    else some (c, [])
  | .clone_bare v =>
    if 0 < c.bare v ∨ b.policy.pins = false ∧ (c.prepared v).isSome then some (c.acquire_bare v, [])
    else some (c, [])
  | .drop v =>
    if 0 < c.held v then
      let c := { c with held := update c.held v (c.held v - 1) }
      some (if c.references v = 0 then { c with dropping := c.dropping ++ [v] } else c, [])
    else some (c, [])
  | .drop_bare v => some ({ c with bare := update c.bare v (c.bare v - 1) }, [])
  | .is_resident v =>
    match c.records[v]? with
    | some record =>
      if v ∈ c.dropping then
        (c.shards[c.shard record.hash]?).map fun s =>
          ({ c with
            dropping := c.dropping.erase v
            releasing := if s.resident v then c.releasing ++ [v] else c.releasing }, [])
      else some (c, [])
    | none => some (c, [])
  | .release v =>
    match c.records[v]? with
    | some record =>
      if v ∈ c.releasing then
        (c.locked (c.shard record.hash) fun s => s.release record.hash v (c.references v)).map
          fun (c, removed) => ({ c with releasing := c.releasing.erase v }, leaves removed)
      else some (c, [])
    | none => some (c, [])
  | .remove key =>
    (c.locked (c.shard (b.hash key)) fun s => s.remove (b.hash key) key).map fun (c, removed) =>
      (removed.foldl (fun c e => c.acquire_bare e.1.version) c, .removed key :: leaves removed)
  | .clear i =>
    if i < c.shards.length then
      (c.locked i Shard.clear).map fun (c, removed) => (c, .cleared i :: leaves removed)
    else some (c, [])
  | .resize i capacity =>
    if i < c.shards.length then
      (c.locked i fun s => s.resize (partition capacity c.shards.length i)).map fun (c, removed) =>
        (c, leaves removed)
    else some (c, [])
  | .notify i =>
    match c.pending[i]? with
    | some ((record, reason) :: rest) =>
      let c := { c with pending := c.pending.set i rest }
      some (if b.listener then c.acquire_bare record.version else c,
        [.notified record.version reason])
    | _ => some (c, [])

/-- A run of atomic steps, with what was seen; `none` is a panic. -/
def run (b : Builder K V P) : Cache K V P → List (Act K V P) → Option (Cache K V P × List (Event K))
  | c, [] => some (c, [])
  | c, a :: acts =>
    (c.act b a).bind fun (c, seen) => (run b c acts).map fun (c, rest) => (c, seen ++ rest)

end Cache

end moat_cache_memory
