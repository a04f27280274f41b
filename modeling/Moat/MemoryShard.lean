-- One shard of the memory cache: the hash index and the slab of nodes beside the
-- policy, with the operations that run under the shard's lock.
import Moat.MemoryVictims

namespace moat_cache_memory

open checked slab links Function

/-- Why a version left the cache, or was not let in. -/
inductive RemovalReason
  | Evicted
  | Replaced
  | Removed
  | Cleared
  | Rejected
  deriving DecidableEq, Repr

/-- A shard. `resident` are the flags of the records this shard has held. -/
structure Shard (K V P : Type) where
  index : List (UInt64 × Nat)
  nodes : Nodes K V P
  state : State
  weight : Nat
  capacity : Nat
  resident : Nat → Bool

/-- The versions an operation took out, in order. -/
abbrev Removed (K V P : Type) := List (Record K V P × RemovalReason)

namespace Shard

variable {K V P : Type}

def new (policy : Policy) (capacity : Nat) : Shard K V P :=
  ⟨[], Slab.new, State.new policy capacity, 0, capacity, fun _ => false⟩

/-- `index.find(hash, ..)`: the table compares among the entries of that hash. -/
def lookup (s : Shard K V P) (hash : UInt64) (same : Record K V P → Bool) : Option Nat :=
  (s.index.find? fun e => e.1 == hash && (s.nodes.get e.2).any fun n => same n.record).map Prod.snd

def find [DecidableEq K] (s : Shard K V P) (hash : UInt64) (key : K) : Option Nat :=
  s.lookup hash fun r => r.key = key

/-- Takes a node out of the lists, the slab and the index. -/
def detach (s : Shard K V P) (id : Nat) : Option (Record K V P × Shard K V P) :=
  (s.state.remove s.nodes id).bind fun (state, nodes) =>
  (nodes.remove id).bind fun (node, nodes) =>
  -- `expect("indexed node")`
  if (node.record.hash, id) ∈ s.index then
    (sub? s.weight node.record.weight).map fun weight =>
      (node.record,
        { s with
          index := s.index.erase (node.record.hash, id)
          nodes := nodes
          state := state
          weight := weight
          resident := update s.resident node.record.version false })
  else none

/-- Evicts while the shard is too heavy and a victim is found. -/
def trimming : Nat → Shard K V P → Removed K V P → Option (Shard K V P × Removed K V P)
  | 0, _, _ => none
  | fuel + 1, s, removed =>
    if s.capacity < s.weight then
      (s.state.victim s.nodes).bind fun (victim, state, nodes) =>
      match victim with
      | none => some ({ s with state := state, nodes := nodes }, removed)
      | some id =>
        (detach { s with state := state, nodes := nodes } id).bind fun (record, s) =>
          trimming fuel s (removed ++ [(record, .Evicted)])
    else some (s, removed)

def trim (s : Shard K V P) (removed : Removed K V P) : Option (Shard K V P × Removed K V P) :=
  trimming (s.nodes.entries.length + 1) s removed

/-- The version of the same key that is resident, if any, is taken out first. -/
def replace [DecidableEq K] (s : Shard K V P) (record : Record K V P) :
    Option (Shard K V P × Removed K V P) :=
  match s.find record.hash record.key with
  | none => some (s, [])
  | some id => (s.detach id).map fun (old, s) => (s, [(old, .Replaced)])

/-- The new version gets a node, and the shard is trimmed; where only pinned entries are left and
they are too heavy, the new version goes again. -/
def settle (s : Shard K V P) (record : Record K V P) (removed : Removed K V P) :
    Option (Shard K V P × Removed K V P) :=
  let (id, nodes) := s.nodes.insert ⟨record, none, none, none, 0⟩
  (s.state.insert nodes id).bind fun (state, nodes) =>
  (trim { s with
      index := (record.hash, id) :: s.index
      nodes := nodes
      state := state
      weight := s.weight + record.weight
      resident := update s.resident record.version true } removed).bind fun (s, removed) =>
  if s.capacity < s.weight ∧ s.resident record.version = true then
    (s.detach id).map fun (record, s) => (s, removed ++ [(record, .Rejected)])
  else some (s, removed)

/-- The critical section of `commit_entry`. -/
def commit [DecidableEq K] (s : Shard K V P) (record : Record K V P) (admitted : Bool) :
    Option (Shard K V P × Removed K V P) :=
  (s.replace record).bind fun (s, removed) =>
  if admitted = true ∧ record.weight ≤ s.capacity ∧ s.weight + record.weight < 2 ^ 64 then
    s.settle record removed
  else some (s, removed ++ [(record, .Rejected)])

/-- The critical section of `get_hashed`. -/
def get [DecidableEq K] (s : Shard K V P) (hash : UInt64) (key : K) :
    Option (Option (Record K V P) × Shard K V P) :=
  match s.find hash key with
  | none => some (none, s)
  | some id =>
    (s.nodes.get id).bind fun node =>
    if s.state.policy.mutable_hits then
      (s.state.access s.nodes id).map fun (state, nodes) =>
        (some node.record, { s with state := state, nodes := nodes })
    else
      (s.state.access_shared s.nodes id).map fun nodes =>
      (some node.record, { s with nodes := nodes })

/-- The critical section of `remove_deferred`. -/
def remove [DecidableEq K] (s : Shard K V P) (hash : UInt64) (key : K) :
    Option (Shard K V P × Removed K V P) :=
  match s.find hash key with
  | none => some (s, [])
  | some id => (s.detach id).map fun (record, s) => (s, [(record, .Removed)])

/-- `for id in ids { removed.push((shard.detach(id), Cleared)) }`. -/
def detachAll : List Nat → Shard K V P → Option (Shard K V P × Removed K V P)
  | [], s => some (s, [])
  | id :: ids, s =>
    (s.detach id).bind fun (record, s) =>
      (detachAll ids s).map fun (s, removed) => (s, (record, .Cleared) :: removed)

/-- The critical section of `clear` on one shard. -/
def clear (s : Shard K V P) : Option (Shard K V P × Removed K V P) :=
  (detachAll s.nodes.ids s).map fun (s, removed) =>
    ({ s with state := s.state.clear_history }, removed)

/-- The critical section of `resize` on one shard. -/
def resize (s : Shard K V P) (capacity : Nat) : Option (Shard K V P × Removed K V P) :=
  (s.state.resize s.nodes capacity).bind fun (state, nodes) =>
    trim { s with state := state, nodes := nodes, capacity := capacity } []

/-- The critical section of `release`, for a record with that many handles. -/
def release (s : Shard K V P) (hash : UInt64) (version references : Nat) :
    Option (Shard K V P × Removed K V P) :=
  if references ≠ 0 then some (s, [])
  else
    match s.lookup hash fun r => r.version = version with
    | none => some (s, [])
    | some id =>
      (s.state.release s.nodes id).bind fun (state, nodes) =>
        trim { s with state := state, nodes := nodes } []

end Shard

end moat_cache_memory
