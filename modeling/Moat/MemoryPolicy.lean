-- The replacement policies of the memory cache: three intrusive lists over the
-- slab of nodes, and what each policy does with them. `none` is a panic: a vacant
-- slab index, an `expect` that fails, or a weight below zero.
import Moat.Links
import Moat.MemoryHistory
import Moat.Slab

namespace moat_cache_memory

open checked slab links

/-! ## Configuration -/

inductive Priority
  | Normal
  | High
  deriving DecidableEq, Repr

structure LruConfig where
  high_priority_percent : Nat
  deriving DecidableEq, Repr

structure LfuConfig where
  window_percent : Nat
  protected_percent : Nat
  sketch_width : Nat
  deriving DecidableEq, Repr

structure S3FifoConfig where
  small_percent : Nat
  ghost_entries : Nat
  deriving DecidableEq, Repr

inductive Policy
  | Fifo
  | Lru (c : LruConfig)
  | Lfu (c : LfuConfig)
  | S3Fifo (c : S3FifoConfig)
  | Sieve
  deriving DecidableEq, Repr

namespace Policy

def validate : Policy → Except String Unit
  | Lru c =>
    if 100 < c.high_priority_percent then .error "LRU priority percentage exceeds 100" else .ok ()
  | Lfu c =>
    if c.window_percent = 0 ∨ c.protected_percent = 0 ∨
        100 ≤ c.window_percent + c.protected_percent then
      .error "TinyLFU requires positive window/protected percentages summing to less than 100"
    else if ¬ 2 ^ c.sketch_width.log2 = c.sketch_width ∨ 2 ^ 24 < c.sketch_width then
      .error "TinyLFU sketch width must be a power of two no larger than 2^24"
    else .ok ()
  | S3Fifo c =>
    if c.small_percent = 0 ∨ 100 ≤ c.small_percent then
      .error "S3FIFO small percentage must be between 1 and 99"
    else .ok ()
  | _ => .ok ()

def mutable_hits : Policy → Bool
  | Lru _ | Lfu _ => true
  | _ => false

/-- Whether handles pin: only LRU takes releases. -/
def pins : Policy → Bool
  | Lru _ => true
  | _ => false

end Policy

/-- `portion`: a share of a capacity, without overflow near the top. -/
def portion (capacity percent : Nat) : Nat :=
  capacity / 100 * percent + capacity % 100 * percent / 100

/-! ## Nodes and lists -/

scoped instance three : NeZero 3 := ⟨nofun⟩

/-- A version of a key. `version` is the identity of the allocation, for `Arc::ptr_eq`; the flags
and counts other threads change are kept beside the record. -/
structure Record (K V P : Type) where
  version : Nat
  key : K
  value : V
  properties : P
  hash : UInt64
  weight : Nat
  priority : Priority

structure Node (K V P : Type) where
  record : Record K V P
  prev : Option Nat
  next : Option Nat
  queue : Option (Fin 3)
  frequency : Nat

/-- `List` in the source: both ends of an intrusive list, and its weight. -/
structure Ends where
  head : Option Nat
  tail : Option Nat
  weight : Nat

structure State where
  policy : Policy
  lists : Fin 3 → Ends
  capacity : Nat
  hand : Option Nat
  ghost : Ghost
  sketch : Option Sketch

abbrev Nodes (K V P : Type) := Slab (Node K V P)

variable {K V P : Type}

/-- `if let Some(id) = id { f(&mut nodes[id]) }`. -/
def Nodes.touch (nodes : Nodes K V P) (id : Option Nat) (f : Node K V P → Node K V P) :
    Option (Nodes K V P) :=
  match id with
  | none => some nodes
  | some id => (nodes.get id).map fun _ => nodes.modify id f

/-- `nodes[id].next = next`, for an `id` that is there. -/
def Nodes.link_next (nodes : Nodes K V P) (id next : Option Nat) : Option (Nodes K V P) :=
  nodes.touch id fun n => { n with next := next }

/-- `nodes[id].prev = prev`, for an `id` that is there. -/
def Nodes.link_prev (nodes : Nodes K V P) (id prev : Option Nat) : Option (Nodes K V P) :=
  nodes.touch id fun n => { n with prev := prev }

/-- `nodes[id].frequency = frequency`. -/
def Nodes.count (nodes : Nodes K V P) (id frequency : Nat) : Nodes K V P :=
  nodes.modify id fun n => { n with frequency := frequency }

namespace State

def new (policy : Policy) (capacity : Nat) : State where
  policy := policy
  lists := fun _ => ⟨none, none, 0⟩
  capacity := capacity
  hand := none
  ghost := Ghost.new (match policy with | .S3Fifo c => c.ghost_entries | _ => 0) capacity
  sketch := match policy with | .Lfu c => some (Sketch.new c.sketch_width) | _ => none

/-- `self.lists[queue] = list`. -/
def set (st : State) (queue : Fin 3) (list : Ends) : State :=
  { st with lists := Function.update st.lists queue list }

def push (st : State) (nodes : Nodes K V P) (id : Nat) (queue : Fin 3) :
    Option (State × Nodes K V P) :=
  let list := st.lists queue
  (nodes.link_next list.tail (some id)).bind fun nodes =>
  (nodes.get id).map fun node =>
    (st.set queue
        { head := if list.tail = none then some id else list.head
          tail := some id
          weight := list.weight + node.record.weight },
      nodes.modify id fun n => { n with prev := list.tail, next := none, queue := some queue })

def remove (st : State) (nodes : Nodes K V P) (id : Nat) : Option (State × Nodes K V P) :=
  (nodes.get id).bind fun node =>
  match node.queue with
  | none => some (st, nodes)
  | some queue =>
    let list := st.lists queue
    (nodes.link_next node.prev node.next).bind fun nodes =>
    (nodes.link_prev node.next node.prev).bind fun nodes =>
    (sub? list.weight node.record.weight).map fun weight =>
      (set { st with hand := if st.hand = some id then node.next else st.hand } queue
          { head := if node.prev = none then node.next else list.head
            tail := if node.next = none then node.prev else list.tail
            weight := weight },
        nodes.modify id fun n => { n with prev := none, next := none, queue := none })

def move_to (st : State) (nodes : Nodes K V P) (id : Nat) (queue : Fin 3) :
    Option (State × Nodes K V P) :=
  (st.remove nodes id).bind fun (st, nodes) => st.push nodes id queue

def total_weight (st : State) : Nat :=
  (st.lists 0).weight + (st.lists 1).weight + (st.lists 2).weight

/-- A loop that moves the head of one list to another while `go` holds: the warm-up loop of
`insert` and the loop of `demote`. -/
def moveWhile (go : State → Bool) (src dst : Fin 3) :
    Nat → State → Nodes K V P → Option (State × Nodes K V P)
  | 0, _, _ => none
  | fuel + 1, st, nodes =>
    if go st then
      match (st.lists src).head with
      | none => some (st, nodes)
      | some id =>
        (st.move_to nodes id dst).bind fun (st, nodes) => moveWhile go src dst fuel st nodes
    else some (st, nodes)

/-- The list a new node goes to. -/
def entrance (st : State) (hash : UInt64) : Fin 3 :=
  match st.policy with
  | .Lru _ => 2
  | .S3Fifo _ => if st.ghost.contains hash then 1 else 0
  | _ => 0

/-- `sketch.record(hash)`, where there is a sketch. -/
def sighted (st : State) (hash : UInt64) : Option State :=
  match st.sketch with
  | none => some st
  | some sketch => (sketch.record hash).map fun sketch => { st with sketch := some sketch }

/-- The warm-up of TinyLFU: the window overflows into the main queue while all fits. -/
def warm (st : State) (nodes : Nodes K V P) : Option (State × Nodes K V P) :=
  match st.policy with
  | .Lfu c =>
    moveWhile (fun st => st.total_weight ≤ st.capacity &&
      portion st.capacity c.window_percent < (st.lists 0).weight) 0 1
      (nodes.entries.length + 1) st nodes
  | _ => some (st, nodes)

def insert (st : State) (nodes : Nodes K V P) (id : Nat) : Option (State × Nodes K V P) :=
  (nodes.get id).bind fun node =>
  (st.sighted node.record.hash).bind fun st' =>
  (st'.push nodes id (st.entrance node.record.hash)).bind fun (st, nodes) => st.warm nodes

/-- `none` is the `unreachable!` of a policy with mutable hits. -/
def access_shared (st : State) (nodes : Nodes K V P) (id : Nat) : Option (Nodes K V P) :=
  (nodes.get id).bind fun node =>
  match st.policy with
  | .Sieve => some (nodes.count id 1)
  | .S3Fifo _ => some (nodes.count id (min (node.frequency + 1) 3))
  | .Fifo => some nodes
  | _ => none

def demote (st : State) (nodes : Nodes K V P) (src dst : Fin 3) (limit : Nat) :
    Option (State × Nodes K V P) :=
  moveWhile (fun st => limit < (st.lists src).weight) src dst (nodes.entries.length + 1) st nodes

/-- `none` is also the `unreachable!` of a policy with shared hits. -/
def access (st : State) (nodes : Nodes K V P) (id : Nat) : Option (State × Nodes K V P) :=
  (nodes.get id).bind fun node =>
  match st.policy with
  | .Lru _ => if node.queue = some 2 then some (st, nodes) else st.move_to nodes id 2
  | .Lfu c =>
    st.sketch.bind fun sketch =>
    (sketch.record node.record.hash).bind fun sketch =>
    (move_to { st with sketch := some sketch } nodes id (if node.queue = some 0 then 0 else 2)).bind
      fun (st, nodes) => st.demote nodes 2 1 (portion st.capacity c.protected_percent)
  | _ => none

def release (st : State) (nodes : Nodes K V P) (id : Nat) : Option (State × Nodes K V P) :=
  match st.policy with
  | .Lru c =>
    (nodes.get id).bind fun node =>
    if node.queue = some 2 then
      (st.move_to nodes id (if node.record.priority = .High then 1 else 0)).bind fun (st, nodes) =>
        st.demote nodes 1 0 (portion st.capacity c.high_priority_percent)
    else some (st, nodes)
  | _ => some (st, nodes)

/-- The sum of all frequencies: each second chance lowers it. -/
def heat (nodes : Nodes K V P) : Nat := nodes.total Node.frequency

/-- The sweep of SIEVE's hand. -/
def sweep : Nat → State → Nodes K V P → Option (Option Nat × State × Nodes K V P)
  | 0, _, _ => none
  | fuel + 1, st, nodes =>
    match st.hand.or (st.lists 0).head with
    | none => some (none, st, nodes)
    | some id =>
      (nodes.get id).bind fun node =>
      let st := { st with hand := node.next }
      if node.frequency = 0 then some (some id, st, nodes.count id 0)
      else sweep fuel st (nodes.count id 0)

/-- The second chances of S3FIFO; `small` is the weight the small queue may have. -/
def second (small : Nat) : Nat → State → Nodes K V P → Option (Option Nat × State × Nodes K V P)
  | 0, _, _ => none
  | fuel + 1, st, nodes =>
    -- the head of the small queue, where its turn comes
    match if small < (st.lists 0).weight ∨ (st.lists 1).head = none then (st.lists 0).head
      else none with
    | some id =>
      (nodes.get id).bind fun node =>
      if 1 < node.frequency then
        (st.move_to (nodes.count id 0) id 1).bind fun (st, nodes) => second small fuel st nodes
      else
        (st.ghost.push node.record.hash node.record.weight).map fun ghost =>
          (some id, { st with ghost := ghost }, nodes.count id 0)
    | none =>
      match (st.lists 1).head with
      | none => some (none, st, nodes)
      | some id =>
        (nodes.get id).bind fun node =>
        if node.frequency = 0 then some (some id, st, nodes)
        else
          (st.move_to (nodes.count id (node.frequency - 1)) id 1).bind fun (st, nodes) =>
            second small fuel st nodes

/-- The contest of TinyLFU: the window's oldest against the main queue's oldest. -/
def contest (st : State) (nodes : Nodes K V P) (candidate victim : Nat) :
    Option (Option Nat × State × Nodes K V P) :=
  st.sketch.bind fun sketch =>
  (nodes.get candidate).bind fun c =>
  (nodes.get victim).bind fun v =>
  (sketch.estimate c.record.hash).bind fun fresh =>
  (sketch.estimate v.record.hash).bind fun old =>
    if old < fresh then
      (st.move_to nodes candidate 1).map fun (st, nodes) => (some victim, st, nodes)
    else some (some candidate, st, nodes)

/-- A linked node to evict; the shard takes it out of the lists and the index. -/
def victim (st : State) (nodes : Nodes K V P) : Option (Option Nat × State × Nodes K V P) :=
  match st.policy with
  | .Fifo => some ((st.lists 0).head, st, nodes)
  | .Lru _ => some ((st.lists 0).head.or (st.lists 1).head, st, nodes)
  | .Sieve => sweep (heat nodes + 1) st nodes
  | .Lfu c =>
    match if portion st.capacity c.window_percent < (st.lists 0).weight then (st.lists 0).head
        else none with
    | some candidate =>
      match (st.lists 1).head with
      | none => some (some candidate, st, nodes)
      | some victim => st.contest nodes candidate victim
    | none =>
      some (((st.lists 1).head.or (st.lists 2).head).or (st.lists 0).head, st, nodes)
  | .S3Fifo c => second (portion st.capacity c.small_percent) (heat nodes + 1) st nodes

def resize (st : State) (nodes : Nodes K V P) (capacity : Nat) : Option (State × Nodes K V P) :=
  (Ghost.trim { st.ghost with capacity := capacity }).bind fun ghost =>
  let st := { st with capacity := capacity, ghost := ghost }
  match st.policy with
  | .Lru c => st.demote nodes 1 0 (portion capacity c.high_priority_percent)
  | .Lfu c => st.demote nodes 2 1 (portion capacity c.protected_percent)
  | _ => some (st, nodes)

def clear_history (st : State) : State :=
  { st with
    hand := none
    ghost := { st.ghost with queue := [], counts := fun _ => none, weight := 0 }
    sketch := st.sketch.map Sketch.clear }

end State

end moat_cache_memory
