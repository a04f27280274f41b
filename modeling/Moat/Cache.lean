-- The hybrid cache (`moat-cache/src/cache.rs`): any number of callers, the jobs
-- that they have admitted, resident memory, the disk directory and the chunk
-- store. One step is one critical section or one request to the store.
import Moat.CacheCatalog
import Moat.CacheRegistry
import Moat.CacheScheduler
import Moat.StoreLane

namespace moat_cache

open moat_common moat_cache_store registry scheduler List Function
open moat_server.storage (Version Versions)

/-! ## Memory -/

/-- A version of a key, as the memory cache records it. -/
structure Entry where
  key : Bytes
  value : Bytes
  properties : Bytes
  priority : Priority
deriving DecidableEq, Repr

structure Prepared where
  entry : Entry
  admitted : Bool
deriving DecidableEq

/-- The resident versions, found by their own keys. -/
abbrev Memory := AList (fun _ : Bytes => Entry)

/-- What goes is the replacement policy's choice. -/
def Memory.trim (m : Memory) (victims : List Bytes) : Memory :=
  victims.foldl (fun m key => m.erase key) m

/-- A commit ends the residency of the old version, also when the new one is not admitted or does
not fit. -/
def Memory.commit_entry (m : Memory) (p : Prepared) (fits : Bool) (victims : List Bytes) : Memory :=
  if p.admitted && fits then
    Memory.trim ((m.erase p.entry.key).insert p.entry.key p.entry) victims
  else m.erase p.entry.key

def Memory.promote (m : Memory) (p : Prepared) (fits : Bool) (victims : List Bytes) : Memory :=
  if p.admitted then m.commit_entry p fits victims else m

/-! ## What the environment decides -/

structure Config where
  format : Format
  /-- The fingerprint under the cache's namespace and identity version. -/
  identify : Bytes → ChunkId
  disks : Nat
  disk_of : ChunkId → Nat
  disk_lt : ∀ id, disk_of id < disks
  chunk_max : Nat → Nat
  write_cost : Nat → Nat → Except moat_cache_store.Error Nat
  disk : Nat → catalog.Disk

/-- How the parts outside the cache answer in one step. -/
structure Choice where
  /-- The key budget is used up by operations in progress. -/
  refuse : Bool := false
  /-- The store answers with an error, -/
  fails : Option moat_cache_store.Error := none
  /-- although the request has been executed. -/
  executed : Bool := false
  /-- The LSN that the engine has drawn. -/
  lsn : Nat := 0
  free_segments : Nat := 0
  /-- The admission filter and the retention budget accept the version. -/
  admitted : Bool := true
  fits : Bool := true
  victims : List Bytes := []
  /-- A callback panics, or the job is dropped. -/
  unwinds : Bool := false

/-! ## The store -/

/-- The chunks of one disk. A session draws every LSN once: no two chunks have the same. -/
structure Store where
  chunks : Versions
  drawn : List Nat
  nodup : drawn.Nodup
  range : ∀ n ∈ drawn, 0 < n ∧ n < 2 ^ 64
  recorded : ∀ id v, chunks.lookup id = some v → v.lsn ∈ drawn
  distinct : ∀ id id' v v', chunks.lookup id = some v → chunks.lookup id' = some v' →
    v.lsn = v'.lsn → id = id'

/-- The engine may draw `lsn` for a new version of `id`. -/
def Store.draws (s : Store) (id : ChunkId) (lsn : Nat) : Prop :=
  lsn ∉ s.drawn ∧ 0 < lsn ∧ lsn < 2 ^ 64 ∧ ∀ v ∈ s.chunks.lookup id, v.lsn < lsn

instance (s : Store) (id : ChunkId) (lsn : Nat) : Decidable (s.draws id lsn) :=
  inferInstanceAs (Decidable (_ ∧ _ ∧ _ ∧ _))

/-- A new version, or a tombstone, takes the place of what was there. -/
def Store.publish (s : Store) (id : ChunkId) (v : Version) (h : s.draws id v.lsn) : Store where
  chunks := s.chunks.insert id v
  drawn := v.lsn :: s.drawn
  nodup := nodup_cons.mpr ⟨h.1, s.nodup⟩
  range := by
    intro n hn
    rcases mem_cons.mp hn with rfl | hn
    · exact ⟨h.2.1, h.2.2.1⟩
    · exact s.range n hn
  recorded := by
    intro i w hw
    by_cases hi : i = id
    · subst hi
      rw [AList.lookup_insert] at hw
      cases hw
      exact mem_cons_self
    · rw [AList.lookup_insert_ne hi] at hw
      exact mem_cons_of_mem _ (s.recorded i w hw)
  distinct := by
    intro i i' w w' hw hw' he
    by_cases hi : i = id <;> by_cases hi' : i' = id
    · rw [hi, hi']
    · subst hi
      rw [AList.lookup_insert] at hw
      rw [AList.lookup_insert_ne hi'] at hw'
      cases hw
      exact absurd (he ▸ s.recorded i' w' hw') h.1
    · subst hi'
      rw [AList.lookup_insert] at hw'
      rw [AList.lookup_insert_ne hi] at hw
      cases hw'
      exact absurd (he ▸ s.recorded i w hw) h.1
    · rw [AList.lookup_insert_ne hi] at hw
      rw [AList.lookup_insert_ne hi'] at hw'
      exact s.distinct i i' w w' hw hw' he

/-- The live version of a chunk. -/
def Store.live (s : Store) (id : ChunkId) : Option (Nat × Bytes) :=
  (s.chunks.lookup id).bind (fun v => v.value.map (fun value => (v.lsn, value)))

/-- Whose permit a chunk keeps is of no concern to the cache. -/
def Store.get (s : Store) (id : ChunkId) (o : Choice) :
    Except moat_cache_store.Error (Option Chunk) :=
  match o.fails with
  | some e => .error e
  | none => .ok ((s.live id).map (fun (lsn, value) => ⟨value, lsn, ⟨0, value.length, false⟩⟩))

/-- `none` is an LSN that the engine would not draw. -/
def Store.put (s : Store) (id : ChunkId) (value : Bytes) (o : Choice) :
    Option (Except moat_cache_store.Error Nat × Store) :=
  match o.fails with
  | some e =>
    if o.executed then
      if h : s.draws id o.lsn then some (.error e, s.publish id ⟨o.lsn, some value⟩ h) else none
    else some (.error e, s)
  | none =>
    if h : s.draws id o.lsn then some (.ok o.lsn, s.publish id ⟨o.lsn, some value⟩ h) else none

def Store.delete (s : Store) (id : ChunkId) (expected : Nat) (o : Choice) :
    Option (Except moat_cache_store.Error DeleteResult × Store) :=
  match s.live id with
  | some (lsn, _) =>
    match o.fails with
    | some e =>
      if o.executed ∧ expected = lsn then
        if h : s.draws id o.lsn then some (.error e, s.publish id ⟨o.lsn, none⟩ h) else none
      else some (.error e, s)
    | none =>
      if expected ≠ lsn then some (.ok .Changed, s)
      else if h : s.draws id o.lsn then
        some (.ok (.Deleted o.lsn), s.publish id ⟨o.lsn, none⟩ h)
      else none
  | none =>
    match o.fails with
    | some e => some (.error e, s)
    | none => some (.ok .Missing, s)

/-! ## Callers and jobs -/

/-- Where a lookup is. -/
inductive LookupStage where
  | Probe
  | Acquire
  | Capture
  | Waiting
  | Open (generation : Nat)
  | Again (generation : Nat)
  | Version (generation : Nat)
  | Get (generation : Nat)
  | Validate (generation lsn : Nat) (prepared : Prepared)
  | Promote (prepared : Prepared)
  | Recheck (generation : Nat)
deriving DecidableEq

/-- Where a caller is. `Leaving` has its result and a lease to drop. -/
inductive Call where
  | GetMemory (key : Bytes)
  | Lookup (key : Bytes) (stage : LookupStage)
  | Token (key : Bytes) (generation : Nat)
  | Insert (prepared : Prepared)
  | Reserve (prepared : Prepared) (expected : Option Nat)
  | Admit (prepared : Prepared) (expected : Option Nat) (encoded : Bytes)
  | Invalidate (key : Bytes)
  | ReserveRemoval (key : Bytes)
  | AdmitRemoval (key : Bytes)
  | Leaving (key : Bytes)
  | Done
deriving DecidableEq

/-- How an admitted mutation ends. `Unwound` is a panic, which drops the reply. -/
inductive Outcome where
  | Inserted
  | Invalidated (removed : Bool)
  | Failed (error : Error)
  | Unwound
deriving DecidableEq

inductive Task where
  | Write (prepared : Prepared) (encoded : Bytes)
  | Remove (memory_removed : Bool)
deriving DecidableEq

/-- Where a job is. `Deciding` to `Parked` and `Versioning` to `Removing` hold the disk's
control. -/
inductive JobStage where
  | Submitted
  | Control
  | Deciding
  | Evicting (victim : ChunkId) (lsn : Nat)
  | Evicted (victim : ChunkId)
  | Parked
  | Putting
  | Stored (lsn : Nat)
  | Written
  | Versioning
  | Reading (lsn : Nat)
  | Deleting (lsn : Nat)
  | Removing (lsn : Nat) (removed : Bool)
  | Finishing (outcome : Outcome)
  | Released (outcome : Outcome)
  | Replying (outcome : Outcome)
  | Finished (outcome : Outcome)
deriving DecidableEq

/-- An admitted mutation: its key, the generation that it was given, what it does and where it
is. -/
structure Mutation where
  key : Bytes
  generation : Nat
  task : Task
  stage : JobStage
deriving DecidableEq

/-- What callers can observe, and when a version becomes resident. Mutations are numbered in the
order of their admission, callers in the order of their calls. -/
inductive Event where
  /-- Mutation `n` writes `entry`, or invalidates; `token` is the caller whose token it used. -/
  | admitted (n : Nat) (key : Bytes) (entry : Option Entry) (token : Option Nat)
  | succeeded (n : Nat)
  | failed (n : Nat)
  | committed (n : Nat)
  /-- Invalidation `n` has deleted this chunk from the disk. -/
  | deleted (n : Nat) (chunk : Bytes)
  | started (i : Nat) (key : Bytes)
  | captured (i : Nat)
  | promoted (i : Nat) (entry : Entry)
  | hit (i : Nat) (key : Bytes) (entry : Entry)
  | missed (i : Nat)
  /-- A miss with a token. -/
  | granted (i : Nat) (key : Bytes)
  | stale (i : Nat)
  | refused (i : Nat) (error : Error)
  /-- The cache takes no more calls. -/
  | closed
deriving DecidableEq

structure System where
  registry : Registry
  memory : Memory
  disks : Nat → catalog.State
  control : Nat → Option Nat
  store : Nat → Store
  scheduler : Scheduler
  /-- The flag behind the admission lock. -/
  closed : Bool
  failures : Option Error
  calls : List Call
  jobs : List Mutation
  log : List Event

def System.emit (s : System) (e : Event) : System := { s with log := s.log ++ [e] }

def System.set_call (s : System) (i : Nat) (x : Call) : System :=
  { s with calls := s.calls.set i x }

def System.to_stage (s : System) (n : Nat) (j : Mutation) (stage : JobStage) : System :=
  { s with jobs := s.jobs.set n { j with stage } }

def System.set_disk (s : System) (d : Nat) (state : catalog.State) : System :=
  { s with disks := update s.disks d state }

def System.set_store (s : System) (d : Nat) (store : Store) : System :=
  { s with store := update s.store d store }

def System.set_control (s : System) (d : Nat) (holder : Option Nat) : System :=
  { s with control := update s.control d holder }

/-- The disk of a key. -/
def Config.place (c : Config) (key : Bytes) : Nat := c.disk_of (c.identify key)

/-! ## Steps of a caller -/

/-- A call ends with an error and drops its lease. -/
def System.refuse (s : System) (i : Nat) (key : Bytes) (e : Error) : System :=
  (s.set_call i (.Leaving key)).emit (.refused i e)

def System.acquire (s : System) (i : Nat) (key : Bytes) (o : Choice) (next : Call) : System :=
  if o.refuse then (s.set_call i .Done).emit (.refused i .Busy)
  else
    match s.registry.acquire key with
    | .error e => (s.set_call i .Done).emit (.refused i e)
    | .ok registry => { s with registry }.set_call i next

/-- One step of `Cache::lookup`. Validation and promotion keep the key's state locked. -/
def System.lookup (c : Config) (s : System) (i : Nat) (key : Bytes) (o : Choice) :
    LookupStage → Option System
  | .Probe =>
    match s.memory.lookup key with
    | some e => some ((s.set_call i .Done).emit (.hit i key e))
    | none => some (s.set_call i (.Lookup key .Acquire))
  | .Acquire => some (s.acquire i key o (.Lookup key .Capture))
  | .Capture =>
    match s.registry.keys.lookup key with
    | none => none
    | some r =>
      if r.holder.isSome then none
      else if r.pending = 0 then
        some ((s.set_call i (.Lookup key (.Open r.generation))).emit (.captured i))
      else some (s.set_call i (.Lookup key .Waiting))
  | .Waiting => some (s.set_call i (.Lookup key .Capture))
  | .Open g =>
    if s.registry.closed then some (s.refuse i key .Closed)
    else some (s.set_call i (.Lookup key (.Again g)))
  | .Again g =>
    match s.memory.lookup key with
    | some e => some ((s.set_call i (.Leaving key)).emit (.hit i key e))
    | none => some (s.set_call i (.Lookup key (.Version g)))
  | .Version g =>
    match (s.disks (c.place key)).version_on (c.identify key) with
    | some _ => some (s.set_call i (.Lookup key (.Get g)))
    | none => some (s.set_call i (.Lookup key (.Recheck g)))
  | .Get g =>
    match (s.store (c.place key)).get (c.identify key) o with
    | .error e => some (s.refuse i key (.Store e))
    | .ok none => some (s.set_call i (.Lookup key (.Recheck g)))
    | .ok (some chunk) =>
      match c.format.decode chunk.bytes with
      | .error e => some (s.refuse i key e)
      | .ok envelope =>
        if envelope.generation = 0 then
          some (s.refuse i key (.Corrupt "invalid entry generation"))
        else if envelope.key = key then
          some (s.set_call i (.Lookup key (.Validate g chunk.lsn
            ⟨⟨envelope.key, envelope.value, envelope.properties, envelope.priority⟩, o.admitted⟩)))
        else some (s.set_call i (.Lookup key (.Recheck g)))
  | .Validate g lsn p =>
    match s.registry.keys.lookup key with
    | none => none
    | some r =>
      if r.holder.isSome then none
      else if r.generation = g ∧ r.pending = 0 ∧ s.registry.closed = false then
        match (s.disks (c.place key)).validate_hit (c.identify key) lsn with
        | (true, state) =>
          some (({ s with
            registry := s.registry.update key (fun r => { r with holder := some i }) }.set_disk
              (c.place key) state).set_call i (.Lookup key (.Promote p)))
        | (false, state) =>
          some ((s.set_disk (c.place key) state).set_call i (.Lookup key .Capture))
      else some (s.set_call i (.Lookup key .Capture))
  | .Promote p =>
    let promoted := (({ s with
      memory := s.memory.promote p o.fits o.victims
      registry := s.registry.update key (fun r => { r with holder := none }) }.set_call i
        (.Leaving key)).emit (.promoted i p.entry))
    some (if o.unwinds then promoted else promoted.emit (.hit i key p.entry))
  | .Recheck g =>
    match s.registry.keys.lookup key with
    | none => none
    | some r =>
      if r.holder.isSome then none
      else if r.generation = g ∧ r.pending = 0 then
        some ((s.set_call i (.Token key g)).emit (.granted i key))
      else some (s.set_call i (.Lookup key .Capture))

/-- A call that has a permit of `bytes` ends without a mutation. -/
def System.withdraw (s : System) (i : Nat) (key : Bytes) (bytes : Nat) (e : Event) : System :=
  ({ s with scheduler := s.scheduler.release bytes }.set_call i (.Leaving key)).emit e

/-- The critical section of `insert_prepared` and `invalidate`. The key's state is locked
throughout: nobody sees it between the new generation and the removal from memory. -/
def System.admit (c : Config) (s : System) (i : Nat) (key : Bytes) (expected : Option Nat)
    (bytes : Nat) (entry : Option Entry) (task : Nat → Bool → Task) : Option System :=
  if s.closed then some (s.withdraw i key bytes (.refused i .Closed))
  else
    match s.registry.keys.lookup key with
    | none => none
    | some r =>
      if r.holder.isSome then none
      else if expected.any (· ≠ r.generation) then some (s.withdraw i key bytes (.stale i))
      else
        match r.advance with
        | .error e => some (s.withdraw i key bytes (.refused i e))
        | .ok r =>
          some (({ s with
            registry := s.registry.update key (fun _ => { r with pending := r.pending + 1 })
            memory := s.memory.erase key
            jobs := s.jobs ++
              [Mutation.mk key r.generation (task r.generation (s.memory.lookup key).isSome)
                .Submitted]
            scheduler := s.scheduler.submit ⟨some (c.identify key), s.jobs.length⟩ }.set_call i
              .Done).emit (.admitted s.jobs.length key entry (expected.map (fun _ => i))))

/-- One step of a caller. -/
def System.call (c : Config) (s : System) (i : Nat) (o : Choice) : Call → Option System
  | .GetMemory key =>
    match s.memory.lookup key with
    | some e => some ((s.set_call i .Done).emit (.hit i key e))
    | none => some ((s.set_call i .Done).emit (.missed i))
  | .Lookup key stage => s.lookup c i key o stage
  | .Token _ _ => none
  | .Insert p => some (s.acquire i p.entry.key o (.Reserve p none))
  | .Reserve p expected =>
    match c.format.encode ⟨p.entry.key, p.entry.value, p.entry.properties, 1, p.entry.priority⟩
      (c.chunk_max (c.place p.entry.key)) with
    | .error e => some (s.refuse i p.entry.key e)
    | .ok encoded =>
      match s.scheduler.reserve encoded.length with
      | .error e => some (s.refuse i p.entry.key e)
      | .ok scheduler => some ({ s with scheduler }.set_call i (.Admit p expected encoded))
  | .Admit p expected encoded =>
    s.admit c i p.entry.key expected encoded.length (some p.entry)
      (fun generation _ => .Write p (Format.set_generation encoded generation))
  | .Invalidate key => some (s.acquire i key o (.ReserveRemoval key))
  | .ReserveRemoval key =>
    match s.scheduler.reserve 0 with
    | .error e => some (s.refuse i key e)
    | .ok scheduler => some ({ s with scheduler }.set_call i (.AdmitRemoval key))
  | .AdmitRemoval key =>
    s.admit c i key none 0 none (fun _ memory_removed => .Remove memory_removed)
  | .Leaving key => some ({ s with registry := s.registry.release key }.set_call i .Done)
  | .Done => none

/-! ## Steps of a job -/

def System.fail (s : System) (n : Nat) (j : Mutation) (e : Error) : System :=
  ({ s with failures := s.failures.or (some e) }.to_stage n j (.Finishing (.Failed e))).emit
    (.failed n)

def System.unwind (s : System) (n : Nat) (j : Mutation) : System :=
  (s.to_stage n j (.Finishing .Unwound)).emit (.failed n)

/-- One step of `Catalog::write` and of the residency that follows it. -/
def System.write (c : Config) (s : System) (n : Nat) (j : Mutation) (p : Prepared) (encoded : Bytes)
    (o : Choice) : JobStage → Option System
  | .Submitted =>
    match c.write_cost (c.place j.key) encoded.length with
    | .error e => some (s.fail n j (.Store e))
    | .ok _ =>
      if (c.disk (c.place j.key)).capacity < encoded.length then some (s.fail n j .NoSpace)
      else some (s.to_stage n j .Control)
  | .Control =>
    if (s.control (c.place j.key)).isSome then none
    else some ((s.set_control (c.place j.key) (some n)).to_stage n j .Deciding)
  | .Deciding =>
    match o.fails, c.write_cost (c.place j.key) encoded.length with
    | some e, _ | none, .error e =>
      some ((s.set_control (c.place j.key) none).fail n j (.Store e))
    | none, .ok allocation =>
      match (s.disks (c.place j.key)).decide (c.disk (c.place j.key)) (c.identify j.key)
        encoded.length allocation o.free_segments with
      | (.error e, state) =>
        some (((s.set_disk (c.place j.key) state).set_control (c.place j.key) none).fail n j e)
      | (.ok .Reserved, state) =>
        some (((s.set_disk (c.place j.key) state).set_control (c.place j.key) none).to_stage n j
          .Putting)
      | (.ok (.Evict victim lsn), state) =>
        some ((s.set_disk (c.place j.key) state).to_stage n j (.Evicting victim lsn))
      | (.ok .Wait, state) => some ((s.set_disk (c.place j.key) state).to_stage n j .Parked)
  | .Evicting victim lsn =>
    match (s.store (c.place j.key)).delete victim lsn o with
    | none => none
    | some (.error e, store) =>
      some (((s.set_store (c.place j.key) store).set_control (c.place j.key) none).fail n j
        (.Store e))
    | some (.ok .Changed, store) =>
      some (((s.set_store (c.place j.key) store).set_control (c.place j.key) none).fail n j
        (.Corrupt "catalog version changed outside cache ownership"))
    | some (.ok _, store) =>
      some ((s.set_store (c.place j.key) store).to_stage n j (.Evicted victim))
  | .Evicted victim =>
    some ((s.set_disk (c.place j.key) ((s.disks (c.place j.key)).remove victim)).to_stage n j
      .Deciding)
  | .Parked => some (s.to_stage n j .Deciding)
  | .Putting =>
    if o.unwinds then
      some ((s.set_disk (c.place j.key)
        ((s.disks (c.place j.key)).finish (c.identify j.key))).unwind n j)
    else
      match (s.store (c.place j.key)).put (c.identify j.key) encoded o with
      | none => none
      | some (.error e, store) =>
        some (((s.set_store (c.place j.key) store).set_disk (c.place j.key)
          ((s.disks (c.place j.key)).finish (c.identify j.key))).fail n j (.Store e))
      | some (.ok lsn, store) =>
        some ((s.set_store (c.place j.key) store).to_stage n j (.Stored lsn))
  | .Stored lsn =>
    match (s.disks (c.place j.key)).insert (c.identify j.key) lsn encoded.length with
    | (state, true) =>
      some ((s.set_disk (c.place j.key) (state.finish (c.identify j.key))).to_stage n j .Written)
    | (state, false) =>
      some ((s.set_disk (c.place j.key) (state.finish (c.identify j.key))).unwind n j)
  | .Written =>
    match s.registry.keys.lookup j.key with
    | none => none
    | some r =>
      if r.holder.isSome then none
      else
        let committed :=
          if r.generation = j.generation ∧ s.registry.closed = false then
            { s with memory := s.memory.commit_entry p o.fits o.victims }.emit (.committed n)
          else s
        some (if o.unwinds then committed.unwind n j
          else committed.to_stage n j (.Finishing .Inserted))
  | _ => none

/-- The chunk that a request has deleted. -/
def deletion (n : Nat) (id : ChunkId) (before after : Store) : List Event :=
  match before.live id with
  | some (_, chunk) => if (after.live id).isNone then [.deleted n chunk] else []
  | none => []

/-- One step of the job of `Cache::invalidate`. -/
def System.remove (c : Config) (s : System) (n : Nat) (j : Mutation) (memory_removed : Bool)
    (o : Choice) : JobStage → Option System
  | .Submitted => some (s.to_stage n j .Control)
  | .Control =>
    if (s.control (c.place j.key)).isSome then none
    else some ((s.set_control (c.place j.key) (some n)).to_stage n j .Versioning)
  | .Versioning =>
    match (s.disks (c.place j.key)).version_on (c.identify j.key) with
    | none =>
      some ((s.set_control (c.place j.key) none).to_stage n j
        (.Finishing (.Invalidated memory_removed)))
    | some lsn => some (s.to_stage n j (.Reading lsn))
  | .Reading lsn =>
    match (s.store (c.place j.key)).get (c.identify j.key) o with
    | .error e => some ((s.set_control (c.place j.key) none).fail n j (.Store e))
    | .ok none => some (s.to_stage n j (.Removing lsn memory_removed))
    | .ok (some chunk) =>
      if chunk.lsn ≠ lsn then
        some ((s.set_control (c.place j.key) none).fail n j
          (.Corrupt "catalog version mismatch during invalidation"))
      else
        match c.format.decode chunk.bytes with
        | .error e => some ((s.set_control (c.place j.key) none).fail n j e)
        | .ok envelope =>
          if envelope.key ≠ j.key then
            some ((s.set_control (c.place j.key) none).to_stage n j
              (.Finishing (.Invalidated memory_removed)))
          else some (s.to_stage n j (.Deleting lsn))
  | .Deleting lsn =>
    match (s.store (c.place j.key)).delete (c.identify j.key) lsn o with
    | none => none
    | some (result, store) =>
      let s := { s.set_store (c.place j.key) store with
        log := s.log ++ deletion n (c.identify j.key) (s.store (c.place j.key)) store }
      match result with
      | .error e => some ((s.set_control (c.place j.key) none).fail n j (.Store e))
      | .ok .Changed =>
        some ((s.set_control (c.place j.key) none).fail n j
          (.Corrupt "catalog changed during invalidation"))
      | .ok _ => some (s.to_stage n j (.Removing lsn true))
  | .Removing lsn removed =>
    some (((s.set_disk (c.place j.key)
      ((s.disks (c.place j.key)).remove_version (c.identify j.key) lsn)).set_control (c.place j.key)
        none).to_stage n j (.Finishing (.Invalidated removed)))
  | _ => none

/-- The result that the caller of a mutation gets. -/
def System.reply (s : System) (n : Nat) : Outcome → System
  | .Inserted | .Invalidated _ => s.emit (.succeeded n)
  | .Failed _ | .Unwound => s

/-- One step of a job: its disk work, then the drop of its mutation and its reply. -/
def System.job (c : Config) (s : System) (n : Nat) (j : Mutation) (o : Choice) : Option System :=
  match j.stage with
  | .Finishing outcome =>
    match s.registry.keys.lookup j.key with
    | none => none
    | some r =>
      if r.holder.isSome then none
      else some ({ s with
        registry := s.registry.update j.key
          (fun r => { r with pending := r.pending - 1 }) }.to_stage
          n j (.Released outcome))
  | .Released outcome =>
    some ({ s with registry := s.registry.release j.key }.to_stage n j (.Replying outcome))
  | .Replying outcome => some ((s.to_stage n j (.Finished outcome)).reply n outcome)
  | .Finished _ => none
  | stage =>
    match j.task with
    | .Write p encoded => s.write c n j p encoded o stage
    | .Remove memory_removed => s.remove c n j memory_removed o stage

/-! ## The whole cache -/

inductive Action where
  | get_memory (key : Bytes)
  | lookup (key : Bytes)
  | insert (prepared : Prepared)
  | invalidate (key : Bytes)
  | populate (i : Nat) (value properties : Bytes) (priority : Priority) (admitted : Bool)
  | drop_token (i : Nat)
  /-- The future of a lookup is dropped where it awaits. -/
  | drop_lookup (i : Nat)
  | call (i : Nat) (o : Choice)
  | job (n : Nat) (o : Choice)
  | receive
  | completed (n : Nat)
  | fenced
  /-- A shard of `clear_memory`, of `resize_memory` or of the release of a pinned entry. -/
  | shrink (victims : List Bytes)
  | flush
  | close

/-- A new caller, at its first step. -/
def System.begin_ (s : System) (x : Call) : System := { s with calls := s.calls ++ [x] }

/-- `Cache::populate_with`: the token is checked once before the admission. A closed cache answers
as if it were stale. -/
def System.populate (s : System) (i : Nat) (key : Bytes) (generation : Nat) (p : Prepared) :
    Option System :=
  if s.registry.closed then some ((s.set_call i (.Leaving key)).emit (.stale i))
  else
    match s.registry.keys.lookup key with
    | none => none
    | some r =>
      if r.holder.isSome then none
      else if r.generation = generation then some (s.set_call i (.Reserve p (some generation)))
      else some ((s.set_call i (.Leaving key)).emit (.stale i))

/-- The bytes of a job's permit. -/
def Task.permit : Task → Nat
  | .Write _ encoded => encoded.length
  | .Remove _ => 0

def System.act (c : Config) (s : System) : Action → Option System
  | .get_memory key =>
    let s := s.emit (.started s.calls.length key)
    if s.registry.closed then some ((s.begin_ .Done).emit (.missed s.calls.length))
    else some (s.begin_ (.GetMemory key))
  | .lookup key =>
    let s := s.emit (.started s.calls.length key)
    if s.registry.closed then some ((s.begin_ .Done).emit (.refused s.calls.length .Closed))
    else some (s.begin_ (.Lookup key .Probe))
  | .insert p =>
    if s.registry.closed then some ((s.begin_ .Done).emit (.refused s.calls.length .Closed))
    else some (s.begin_ (.Insert p))
  | .invalidate key => some (s.begin_ (.Invalidate key))
  | .populate i value properties priority admitted =>
    match s.calls[i]? with
    | some (.Token key g) =>
      s.populate i key g ⟨⟨key, value, properties, priority⟩, admitted⟩
    | _ => none
  | .drop_token i =>
    match s.calls[i]? with
    | some (.Token key _) => some (s.set_call i (.Leaving key))
    | _ => none
  | .drop_lookup i =>
    match s.calls[i]? with
    | some (.Lookup key .Waiting) | some (.Lookup key (.Get _)) =>
      some (s.set_call i (.Leaving key))
    | _ => none
  | .call i o =>
    match s.calls[i]? with
    | some x => s.call c i o x
    | none => none
  | .job n o =>
    match s.jobs[n]? with
    | some j => if ⟨some (c.identify j.key), n⟩ ∈ s.scheduler.running then s.job c n j o else none
    | none => none
  | .receive =>
    match s.scheduler.receive with
    | some scheduler => some { s with scheduler }
    | none => none
  | .completed n =>
    match s.jobs[n]? with
    | some ⟨key, _, task, .Finished _⟩ =>
      if ⟨some (c.identify key), n⟩ ∈ s.scheduler.running then
        some { s with
          scheduler := (s.scheduler.completed ⟨some (c.identify key), n⟩ (c.identify key)).release
            task.permit }
      else none
    | _ => none
  | .fenced =>
    match s.scheduler.fenced with
    | some (⟨_, 0⟩, scheduler) => some { s with scheduler := scheduler.release 0, failures := none }
    | some (⟨_, _⟩, scheduler) => some { s with scheduler, memory := ∅, failures := none }
    | none => none
  | .shrink victims => some { s with memory := s.memory.trim victims }
  | .flush =>
    match s.scheduler.reserve 0 with
    | .error _ => some s
    | .ok scheduler =>
      if s.closed then some s else some { s with scheduler := scheduler.submit ⟨none, 0⟩ }
  | .close =>
    if s.closed then some s
    else
      let s := s.emit .closed
      some { s with
        closed := true
        registry := { s.registry with closed := true }
        scheduler := s.scheduler.submit ⟨none, 1⟩ }

def System.run (c : Config) (s : System) : List Action → Option System
  | [] => some s
  | a :: as =>
    match s.act c a with
    | none => none
    | some s => s.run c as

/-! ## Opening -/

/-- The live chunks of a disk in the order of their LSNs. -/
def Store.inventory (s : Store) : List InventoryEntry :=
  (s.chunks.entries.filterMap (fun e =>
    e.2.value.map (fun value => InventoryEntry.mk e.1 e.2.lsn value.length))).mergeSort
      (fun a b => a.lsn ≤ b.lsn)

/-- The loop of `Catalog::new` over the inventory of disk `d`. -/
def load (c : Config) (d : Nat) : List InventoryEntry → catalog.State → Except Error catalog.State
  | [], state => .ok state
  | entry :: inventory, state =>
    if c.disk_of entry.id ≠ d then
      .error (.Invalid
        "inventory does not match this disk placement; migration or rebuild is required")
    else if entry.id ∈ state.slots then .error (.Invalid "duplicate live inventory identity")
    else
      match state.insert entry.id entry.lsn entry.len with
      | (state, true) => load c d inventory state
      | (_, false) => .error (.Invalid "disk policy clock exhausted")

/-- `Catalog::trim` of one disk. Without a choice the store does not answer. -/
def trim (disk : catalog.Disk) : List Choice → catalog.State → Store →
    Except Error (catalog.State × Store)
  | choices, state, store =>
    if state.bytes ≤ disk.capacity ∧ state.slots.entries.length ≤ disk.entries then
      .ok (state, store)
    else
      match choices with
      | [] => .error (.Store .Closed)
      | o :: choices =>
        match state.victim disk.policy none with
        | (none, _) => .error .NoSpace
        | (some (id, lsn), state) =>
          match store.delete id lsn o with
          | none => .error (.Store .Closed)
          | some (.error e, _) => .error (.Store e)
          | some (.ok .Changed, _) =>
            .error (.Corrupt "catalog version changed outside cache ownership")
          | some (.ok _, store) => trim disk choices (state.remove id) store

def openDisk (c : Config) (d : Nat) (choices : List Choice) (store : Store) :
    Except Error (catalog.State × Store) :=
  match load c d store.inventory .empty with
  | .error e => .error e
  | .ok state => trim (c.disk d) choices state store

/-- The first `n` disks, opened one after the other. -/
def openDisks (c : Config) (choices : Nat → List Choice) (stores : Nat → Store) :
    Nat → Except Error (Nat → catalog.State × Store)
  | 0 => .ok (fun d => (.empty, stores d))
  | n + 1 =>
    match openDisks c choices stores n with
    | .error e => .error e
    | .ok opened =>
      match openDisk c n (choices n) (stores n) with
      | .error e => .error e
      | .ok disk => .ok (update opened n disk)

/-- The budgets of the cache options. -/
structure Budgets where
  pending_operations : Nat
  pending_bytes : Nat
  key_leases : Nat
  key_bytes : Nat

/-- `Cache::new`: the catalog starts from the inventory, trimmed to its limits. -/
def System.new (c : Config) (b : Budgets) (choices : Nat → List Choice) (stores : Nat → Store) :
    Except Error System :=
  if b.key_leases = 0 ∨ b.key_bytes = 0 then
    .error (.Invalid "key-state budgets must be nonzero")
  else
    match openDisks c choices stores c.disks with
    | .error e => .error e
    | .ok opened =>
      match Scheduler.new b.pending_operations b.pending_bytes with
      | .error e => .error e
      | .ok scheduler =>
        .ok {
          registry := Registry.new b.key_leases b.key_bytes
          memory := ∅
          disks := fun d => (opened d).1
          control := fun _ => none
          store := fun d => (opened d).2
          scheduler
          closed := false
          failures := none
          calls := []
          jobs := []
          log := [] }

end moat_cache
