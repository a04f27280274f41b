-- The transient key states of the cache (`moat-cache/src/registry.rs`): a key
-- has a state, with its generation and its count of pending mutations, for as
-- long as somebody holds a lease on it.
import Moat.CacheEnvelope

namespace moat_cache.registry

open moat_common Option

/-- A registered key. `holder` is the caller that keeps the state locked from one step to
another. -/
structure Registered where
  generation : Nat
  pending : Nat
  leases : Nat
  holder : Option Nat
deriving DecidableEq, Repr

structure Registry where
  keys : AList (fun _ : Bytes => Registered)
  leases : Nat
  bytes : Nat
  max_leases : Nat
  max_key_bytes : Nat
  closed : Bool

def Registry.new (max_leases max_key_bytes : Nat) : Registry :=
  ⟨∅, 0, 0, max_leases, max_key_bytes, false⟩

/-- `State::advance`. -/
def Registered.advance (r : Registered) : Except Error Registered :=
  if r.generation + 1 < 2 ^ 64 then .ok { r with generation := r.generation + 1 }
  else .error (.Invalid "key generation exhausted")

def Registry.acquire (r : Registry) (key : Bytes) : Except Error Registry :=
  if r.closed then .error .Closed
  else if r.max_leases - r.leases < 1 then .error .Busy
  else
    match r.keys.lookup key with
    | some registered =>
      .ok { r with
        keys := r.keys.insert key { registered with leases := registered.leases + 1 }
        leases := r.leases + 1 }
    | none =>
      if r.max_key_bytes - r.bytes < key.length then .error .Busy
      else .ok { r with
        keys := r.keys.insert key ⟨0, 0, 1, none⟩
        leases := r.leases + 1
        bytes := r.bytes + key.length }

/-- `Lease::drop`. Every lease is registered. -/
def Registry.release (r : Registry) (key : Bytes) : Registry :=
  match r.keys.lookup key with
  | none => r
  | some registered =>
    if registered.leases - 1 = 0 then
      { r with keys := r.keys.erase key, leases := r.leases - 1, bytes := r.bytes - key.length }
    else
      { r with
        keys := r.keys.insert key { registered with leases := registered.leases - 1 }
        leases := r.leases - 1 }

/-- What a caller that has locked the state of `key` does to it. -/
def Registry.update (r : Registry) (key : Bytes) (f : Registered → Registered) : Registry :=
  match r.keys.lookup key with
  | none => r
  | some registered => { r with keys := r.keys.insert key (f registered) }

theorem Registry.closed_acquire {r r' : Registry} {key : Bytes} (h : r.acquire key = .ok r') :
    r'.closed = r.closed := by
  unfold Registry.acquire at h
  repeat' split at h
  all_goals cases h <;> rfl

theorem Registry.closed_release (r : Registry) (key : Bytes) :
    (r.release key).closed = r.closed := by
  unfold Registry.release
  repeat' split
  all_goals rfl

theorem Registry.closed_update (r : Registry) (key : Bytes) (f : Registered → Registered) :
    (r.update key f).closed = r.closed := by
  unfold Registry.update
  split <;> rfl

/-! ## Lookups after each operation -/

/-- The leases of a key. -/
def Registry.count (r : Registry) (key : Bytes) : Nat :=
  ((r.keys.lookup key).map (·.leases)).getD 0

theorem Registry.acquire_ok {r r' : Registry} {key : Bytes} (h : r.acquire key = .ok r') :
    r'.count key = r.count key + 1 ∧
      (∀ other, other ≠ key → r'.keys.lookup other = r.keys.lookup other) ∧
      r'.keys.lookup key =
        some (match r.keys.lookup key with
          | some registered => { registered with leases := registered.leases + 1 }
          | none => ⟨0, 0, 1, none⟩) := by
  unfold Registry.acquire at h
  unfold Registry.count
  split at h
  · cases h
  split at h
  · cases h
  split at h
  · rename_i registered hl
    cases h
    refine ⟨?_, fun other ho => AList.lookup_insert_ne ho, ?_⟩
    · simp only [AList.lookup_insert, hl, map_some, getD_some]
    · simp only [AList.lookup_insert]
  · rename_i hl
    split at h
    · cases h
    · cases h
      refine ⟨?_, fun other ho => AList.lookup_insert_ne ho, ?_⟩
      · simp only [AList.lookup_insert, hl, map_some, getD_some, map_none,
          getD_none]
      · simp only [AList.lookup_insert]

theorem Registry.release_lookup (r : Registry) (key : Bytes) (other : Bytes) :
    (r.release key).keys.lookup other =
      if other = key then
        (r.keys.lookup key).bind (fun registered =>
          if registered.leases - 1 = 0 then none
          else some { registered with leases := registered.leases - 1 })
      else r.keys.lookup other := by
  unfold Registry.release
  by_cases ho : other = key
  · subst ho
    rw [if_pos rfl]
    cases hl : r.keys.lookup other with
    | none => simp only [hl, bind_none]
    | some =>
      simp only [bind_some]
      split
      · exact AList.lookup_erase ..
      · exact AList.lookup_insert ..
  · rw [if_neg ho]
    cases hl : r.keys.lookup key with
    | none => rfl
    | some =>
      simp only
      split
      · exact AList.lookup_erase_ne ho
      · exact AList.lookup_insert_ne ho

theorem Registry.update_lookup (r : Registry) (key : Bytes) (f : Registered → Registered)
    (other : Bytes) :
    (r.update key f).keys.lookup other =
      if other = key then (r.keys.lookup key).map f else r.keys.lookup other := by
  unfold Registry.update
  by_cases ho : other = key
  · subst ho
    rw [if_pos rfl]
    cases hl : r.keys.lookup other with
    | none => simp only [hl, map_none]
    | some => simp only [AList.lookup_insert, map_some]
  · rw [if_neg ho]
    cases hl : r.keys.lookup key with
    | none => rfl
    | some => simp only [AList.lookup_insert_ne ho]

end moat_cache.registry
