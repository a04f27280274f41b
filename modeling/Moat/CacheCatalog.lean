-- The disk directory of the cache (`moat-cache/src/catalog.rs`): one slot per
-- live chunk with its LSN, the reservations of writes in flight, and the choice
-- of what to evict.
import Moat.CacheEnvelope

namespace moat_cache.catalog

open moat_common

inductive DiskPolicy where
  | Fifo
  | Sieve
deriving DecidableEq

structure Slot where
  lsn : Nat
  len : Nat
  position : Nat
  visited : Bool
deriving DecidableEq

structure Active where
  extra : Nat
  new : Bool
  allocation : Nat
deriving DecidableEq

/-- `order` is the map from positions to ids, in the order of the positions. -/
structure State where
  slots : AList (fun _ : ChunkId => Slot)
  order : List (Nat × ChunkId)
  clock : Nat
  hand : Nat
  bytes : Nat
  active : AList (fun _ : ChunkId => Active)
  extra : Nat
  new : Nat
  allocation : Nat

def State.empty : State := ⟨∅, [], 0, 0, 0, ∅, 0, 0, 0⟩

def State.remove (s : State) (id : ChunkId) : State :=
  match s.slots.lookup id with
  | none => s
  | some old =>
    { s with
      slots := s.slots.erase id
      order := s.order.filter (fun e => e.1 ≠ old.position)
      bytes := s.bytes - old.len }

/-- The second component says whether the slot went in: the clock's `expect` comes after the old
slot has gone. -/
def State.insert (s : State) (id : ChunkId) (lsn len : Nat) : State × Bool :=
  let s := s.remove id
  if s.clock + 1 < 2 ^ 64 then
    ({ s with
      clock := s.clock + 1
      slots := s.slots.insert id ⟨lsn, len, s.clock + 1, false⟩
      order := s.order ++ [(s.clock + 1, id)]
      bytes := s.bytes + len }, true)
  else (s, false)

/-- The turns of the sweeping hand. -/
def State.sweep (exclude : Option ChunkId) : Nat → State → Option (ChunkId × Nat) × State
  | 0, s => (none, s)
  | turns + 1, s =>
    match (s.order.find? (fun e => s.hand < e.1)).or s.order.head? with
    | none => (none, s)
    | some (position, id) =>
      let s := { s with hand := position }
      if some id = exclude ∨ id ∈ s.active then sweep exclude turns s
      else
        match s.slots.lookup id with
        | none => (none, s)
        | some slot =>
          if slot.visited then
            sweep exclude turns { s with slots := s.slots.insert id { slot with visited := false } }
          else (some (id, slot.lsn), s)

def State.victim (s : State) (policy : DiskPolicy) (exclude : Option ChunkId) :
    Option (ChunkId × Nat) × State :=
  match policy with
  | .Fifo =>
    ((s.order.find? (fun e => some e.2 ≠ exclude ∧ e.2 ∉ s.active)).bind
      (fun e => (s.slots.lookup e.2).map (fun slot => (e.2, slot.lsn))), s)
  | .Sieve => s.sweep exclude (s.slots.entries.length * 2)

/-- A reservation is done or dropped. -/
def State.finish (s : State) (id : ChunkId) : State :=
  match s.active.lookup id with
  | none => s
  | some active =>
    { s with
      active := s.active.erase id
      extra := s.extra - active.extra
      new := s.new - active.new.toNat
      allocation := s.allocation - active.allocation }

/-- The constants of a disk. -/
structure Disk where
  capacity : Nat
  entries : Nat
  reserve : Nat
  segment_size : Nat
  policy : DiskPolicy

inductive Action where
  | Reserved
  | Evict (id : ChunkId) (lsn : Nat)
  | Wait
deriving DecidableEq

def saturating_add (a b : Nat) : Nat := min (a + b) (2 ^ 64 - 1)

def State.version_on (s : State) (id : ChunkId) : Option Nat :=
  if id ∈ s.active then none else (s.slots.lookup id).map (·.lsn)

def State.validate_hit (s : State) (id : ChunkId) (lsn : Nat) : Bool × State :=
  if id ∈ s.active then (false, s)
  else
    match s.slots.lookup id with
    | none => (false, s)
    | some slot =>
      if slot.lsn = lsn then
        (true, { s with slots := s.slots.insert id { slot with visited := true } })
      else (false, s)

/-- `Catalog::remove`: the slot goes only while it has the expected LSN. -/
def State.remove_version (s : State) (id : ChunkId) (expected : Nat) : State :=
  if (s.slots.lookup id).any (fun slot => slot.lsn = expected) then s.remove id else s

/-- One turn of the loop of `Catalog::write`: reserve, evict, wait or give up. -/
def State.decide (s : State) (disk : Disk) (id : ChunkId) (len allocation free_segments : Nat) :
    Except Error Action × State :=
  if id ∈ s.active then (.error .Busy, s)
  else
    let old_len := ((s.slots.lookup id).map (·.len)).getD 0
    let extra := len - old_len
    let new := (s.slots.lookup id).isNone
    let fits := s.bytes + s.extra + extra ≤ disk.capacity ∧
      s.slots.entries.length + s.new + new.toNat ≤ disk.entries
    let headroom := saturating_add (saturating_add disk.reserve s.allocation) allocation ≤
      free_segments * disk.segment_size
    if fits ∧ headroom then
      (.ok .Reserved,
        { s with
          active := s.active.insert id ⟨extra, new, allocation⟩
          extra := s.extra + extra
          new := s.new + new.toNat
          allocation := s.allocation + allocation })
    else if ¬ headroom then
      if s.active.entries ≠ [] then (.ok .Wait, s) else (.error .NoSpace, s)
    else
      match s.victim disk.policy (some id) with
      | (some (victim, lsn), s) => (.ok (.Evict victim lsn), s)
      | (none, s) => if s.active.entries ≠ [] then (.ok .Wait, s) else (.error .NoSpace, s)

/-! ## The LSNs of the slots -/

def State.lsn (s : State) (id : ChunkId) : Option Nat := (s.slots.lookup id).map (·.lsn)

variable {id : ChunkId} {s : State}

/-- A valid hit is a hit of the version in the slot. -/
theorem State.validate_hit_lsn {lsn : Nat}
    (h : (s.validate_hit id lsn).1 = true) : s.lsn id = some lsn := by
  unfold State.validate_hit at h
  split at h
  · cases h
  · split at h
    · cases h
    · rename_i slot hslot
      split at h
      · rename_i hl
        rw [State.lsn, hslot, Option.map_some, hl]
      · cases h

/-! ## The reservations -/

theorem State.active_remove (s : State) (id : ChunkId) : (s.remove id).active = s.active := by
  unfold State.remove
  split <;> rfl

theorem State.active_insert (s : State) (id : ChunkId) (lsn len : Nat) :
    (s.insert id lsn len).1.active = s.active := by
  have h := s.active_remove id
  unfold State.insert
  dsimp only
  split <;> exact h

theorem State.active_remove_version (s : State) (id : ChunkId) (expected : Nat) :
    (s.remove_version id expected).active = s.active := by
  unfold State.remove_version
  split
  · exact s.active_remove id
  · rfl

theorem State.mem_finish {i : ChunkId} (h : i ∈ (s.finish id).active) : i ∈ s.active ∧ i ≠ id := by
  unfold State.finish at h
  split at h
  · rename_i hnone
    refine ⟨h, ?_⟩
    rintro rfl
    exact AList.lookup_eq_none.mp hnone h
  · obtain ⟨h1, h2⟩ := AList.mem_erase.mp h
    exact ⟨h2, h1⟩

/-- Without a reservation, the directory's answer is the slot's LSN. -/
theorem State.version_on_of_not_active (h : id ∉ s.active) :
    s.version_on id = s.lsn id := if_neg h

/-- A version that is answered is the slot's. -/
theorem State.version_on_lsn {lsn : Nat}
    (h : s.version_on id = some lsn) : s.lsn id = some lsn := by
  unfold State.version_on at h
  split at h
  · cases h
  · exact h

end moat_cache.catalog
