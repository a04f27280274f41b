-- What the shards of a memory cache hold together, what is seen of its steps, and
-- what a step may do to who is resident, pinned and notified.
import Moat.MemoryCache

namespace moat_cache_memory

open slab List

variable {K V P : Type} {removed : Removed K V P}

/-! ## What the shards hold together -/

/-- Some shard holds the record. -/
def Held (shards : List (Shard K V P)) (r : Record K V P) : Prop :=
  ∃ (i : Nat) (s : Shard K V P), shards[i]? = some s ∧ s.Holds r

/-- The version is resident. -/
def Resident (c : Cache K V P) (v : Nat) : Prop := ∃ r, Held c.shards r ∧ r.version = v

/-- The version is in the pinned list of its shard. -/
def Pinned (c : Cache K V P) (v : Nat) : Prop :=
  ∃ (i : Nat) (s : Shard K V P), c.shards[i]? = some s ∧ s.Pins v

/-- Every shard is in order and holds only records of its own hashes, under their own versions. -/
structure Placed (b : Builder K V P) (shards : List (Shard K V P)) (records : List (Record K V P)) :
    Prop where
  count : shards.length = b.shards
  some_shard : 0 < b.shards
  good : ∀ (i : Nat) (s : Shard K V P), shards[i]? = some s → (∃ q, s.Good b.hash q) ∧
    s.state.policy = b.policy
  held : ∀ (i : Nat) (s : Shard K V P) (r : Record K V P), shards[i]? = some s → s.Holds r →
    r.hash.toNat % b.shards = i ∧ records[r.version]? = some r
  recorded : ∀ (v : Nat) (r : Record K V P), records[v]? = some r → r.version = v ∧
    r.hash = b.hash r.key

namespace Placed

variable {b : Builder K V P} {shards : List (Shard K V P)} {records : List (Record K V P)}

/-- The shard of a hash is there. -/
theorem get (h : Placed b shards records) (hash : UInt64) :
    ∃ s, shards[hash.toNat % shards.length]? = some s :=
  ⟨_, List.getElem?_eq_getElem (Nat.mod_lt _ (by rw [h.count]; exact h.some_shard))⟩

/-- New records do not disturb the shards. -/
theorem extend (h : Placed b shards records) {record : Record K V P}
    (hv : record.version = records.length) (hh : record.hash = b.hash record.key) :
    Placed b shards (records ++ [record]) where
  count := h.count
  some_shard := h.some_shard
  good := h.good
  held := fun i s r hi hs => by
    obtain ⟨h1, h2⟩ := h.held i s r hi hs
    refine ⟨h1, ?_⟩
    rw [List.getElem?_append_left (List.getElem?_eq_some_iff.mp h2).1]
    exact h2
  recorded := fun v r hr => by
    rcases Nat.lt_or_ge v records.length with hlt | hge
    · rw [List.getElem?_append_left hlt] at hr
      exact h.recorded v r hr
    · rw [List.getElem?_append_right hge] at hr
      have hz : v - records.length = 0 := by
        by_contra hne
        rw [List.getElem?_eq_none (by simp; omega)] at hr
        cases hr
      rw [hz] at hr
      cases hr
      exact ⟨by omega, hh⟩

/-- A section on one shard that keeps it in order keeps all in order; what is held changes by the
section's books. -/
theorem set (h : Placed b shards records) {i : Nat} {s s' : Shard K V P} {q : Fin 3 → List Nat}
    {new : List (Record K V P)} (hi : shards[i]? = some s)
    (hg : s'.Good b.hash q) (hb : Shard.Books s s' new removed)
    (hnew : ∀ r ∈ new, r.hash.toNat % b.shards = i ∧ records[r.version]? = some r) :
    Placed b (shards.set i s') records ∧
      (∀ r, (Held shards r ∨ r ∈ new) ↔ (Held (shards.set i s') r ∨ r ∈ removed.map Prod.fst)) ∧
      ∀ r ∈ removed.map Prod.fst, ¬ Held (shards.set i s') r ∧ records[r.version]? = some r := by
  have hlt : i < shards.length := (List.getElem?_eq_some_iff.mp hi).1
  have hget : ∀ j, (shards.set i s')[j]? = if j = i then some s' else shards[j]? := by
    intro j
    by_cases hj : j = i
    · rw [hj, List.getElem?_set_self hlt, if_pos rfl]
    · rw [List.getElem?_set_ne (Ne.symm hj), if_neg hj]
  have hcases : ∀ r, Held (shards.set i s') r ↔ s'.Holds r ∨
      ∃ (j : Nat) (t : Shard K V P), j ≠ i ∧ shards[j]? = some t ∧ t.Holds r := by
    intro r
    constructor
    · rintro ⟨j, t, hj, ht⟩
      rw [hget] at hj
      split at hj
      · cases hj
        exact .inl ht
      · rename_i hne
        exact .inr ⟨j, t, hne, hj, ht⟩
    · rintro (ht | ⟨j, t, hne, hj, ht⟩)
      · exact ⟨i, s', by rw [hget, if_pos rfl], ht⟩
      · exact ⟨j, t, by rw [hget, if_neg hne]; exact hj, ht⟩
  have hcases0 : ∀ r, Held shards r ↔ s.Holds r ∨
      ∃ (j : Nat) (t : Shard K V P), j ≠ i ∧ shards[j]? = some t ∧ t.Holds r := by
    intro r
    constructor
    · rintro ⟨j, t, hj, ht⟩
      by_cases hne : j = i
      · subst hne
        rw [hi] at hj
        cases hj
        exact .inl ht
      · exact .inr ⟨j, t, hne, hj, ht⟩
    · rintro (ht | ⟨j, t, -, hj, ht⟩)
      · exact ⟨i, s, hi, ht⟩
      · exact ⟨j, t, hj, ht⟩
  have hplace : ∀ r, s'.Holds r ∨ r ∈ removed.map Prod.fst →
      r.hash.toNat % b.shards = i ∧ records[r.version]? = some r := by
    intro r hr
    rcases (hb.held r).mpr hr with hr | hr
    · exact h.held i s r hi hr
    · exact hnew r hr
  refine ⟨⟨by rw [length_set]; exact h.count, h.some_shard, ?_, ?_, h.recorded⟩, ?_, ?_⟩
  · intro j t hj
    rw [hget] at hj
    split at hj
    · cases hj
      exact ⟨⟨q, hg⟩, hb.policy.trans (h.good i s hi).2⟩
    · exact h.good j t hj
  · intro j t r hj hr
    rw [hget] at hj
    split at hj
    · rename_i he
      cases hj
      rw [he]
      exact hplace r (.inl hr)
    · exact h.held j t r hj hr
  · intro r
    rw [hcases, hcases0, or_right_comm, hb.held, or_right_comm]
  · intro r hr
    refine ⟨fun hheld => ?_, (hplace r (.inr hr)).2⟩
    rcases (hcases r).mp hheld with ht | ⟨j, t, hne, hj, ht⟩
    · exact hb.gone r hr ht
    · exact hne ((h.held j t r hj ht).1.symm.trans (hplace r (.inr hr)).1)

end Placed

/-! ## Traces -/

/-- The versions offered to the cache: committed, or promoted in vain. -/
def offered (seen : List (Event K)) : List Nat :=
  seen.filterMap fun
    | .committed _ v => some v
    | .declined v => some v
    | _ => none

/-- Who left, and why. -/
def leavers (seen : List (Event K)) : List (Nat × RemovalReason) :=
  seen.filterMap fun
    | .left v reason => some (v, reason)
    | _ => none

/-- What was dispatched. -/
def notices (seen : List (Event K)) : List (Nat × RemovalReason) :=
  seen.filterMap fun
    | .notified v reason => some (v, reason)
    | _ => none

/-- What is still to be dispatched. -/
def waiting (c : Cache K V P) : List (Nat × RemovalReason) :=
  c.pending.flatten.map fun e => (e.1.version, e.2)

/-- The newest version of a key: the last one committed, unless the key was removed or its shard
cleared since. `shard` is the shard of the key. -/
def latest [DecidableEq K] (shard : K → Nat) (key : K) : Option Nat → List (Event K) → Option Nat
  | newest, [] => newest
  | newest, e :: seen =>
    latest shard key
      (match e with
        | .committed k v => if k = key then some v else newest
        | .removed k => if k = key then none else newest
        | .cleared i => if i = shard key then none else newest
        | _ => newest) seen

theorem latest_append [DecidableEq K] (shard : K → Nat) (key : K) (newest : Option Nat)
    (seen rest : List (Event K)) :
    latest shard key newest (seen ++ rest) =
      latest shard key (latest shard key newest seen) rest := by
  induction seen generalizing newest with
  | nil => rfl
  | cons _ _ ih => exact ih _

theorem latest_leaves [DecidableEq K] (shard : K → Nat) (key : K) (newest : Option Nat)
    (removed : Removed K V P) : latest shard key newest (Cache.leaves removed) = newest := by
  induction removed with
  | nil => rfl
  | cons _ _ ih => exact ih

theorem offered_append (seen rest : List (Event K)) :
    offered (seen ++ rest) = offered seen ++ offered rest :=
  filterMap_append ..

theorem leavers_append (seen rest : List (Event K)) :
    leavers (seen ++ rest) = leavers seen ++ leavers rest :=
  filterMap_append ..

theorem notices_append (seen rest : List (Event K)) :
    notices (seen ++ rest) = notices seen ++ notices rest :=
  filterMap_append ..

@[simp] theorem offered_leaves (removed : Removed K V P) : offered (Cache.leaves removed) = [] := by
  induction removed with
  | nil => rfl
  | cons _ _ ih => exact ih

@[simp] theorem notices_leaves (removed : Removed K V P) : notices (Cache.leaves removed) = [] := by
  induction removed with
  | nil => rfl
  | cons _ _ ih => exact ih

@[simp] theorem leavers_leaves (removed : Removed K V P) :
    leavers (Cache.leaves removed) = removed.map fun e => (e.1.version, e.2) := by
  induction removed with
  | nil => rfl
  | cons _ _ ih => exact congrArg _ ih

/-! ## One step -/

def keyOf (c : Cache K V P) (v : Nat) : Option K := (c.records[v]?).map Record.key

/-- The shard of a key. -/
def shardOf (b : Builder K V P) (key : K) : Nat := (b.hash key).toNat % b.shards

/-- Which reason goes with which step: a version is replaced by a newer one of its key, removed by
its key, cleared with its shard, rejected by its own commit or promotion, or evicted by a step that
trims, which for a policy with pins is never its own commit. -/
def Because (b : Builder K V P) (c : Cache K V P) (act : Act K V P) (v : Nat) : RemovalReason → Prop
  | .Replaced => ∃ w, (act = .commit w ∨ act = .promote w) ∧ w ≠ v ∧ keyOf c w = keyOf c v
  | .Removed => ∃ key, act = .remove key ∧ keyOf c v = some key
  | .Cleared => ∃ r, c.records[v]? = some r ∧ act = .clear (shardOf b r.key)
  | .Rejected => act = .commit v ∨ act = .promote v
  | .Evicted =>
    (∃ w, (act = .commit w ∨ act = .promote w) ∧ (w = v → b.policy.pins = false) ∧
      (w ≠ v → keyOf c w ≠ keyOf c v)) ∨
    (∃ i n, act = .resize i n) ∨ ∃ w, act = .release w

/-- The versions that what is seen shows to be pinned: committed, or found. -/
def PinnedBy (seen : List (Event K)) (v : Nat) : Prop :=
  ∃ key, Event.committed key v ∈ seen ∨ Event.got key (some v) ∈ seen

/-- The version that a step unpins: the one it releases, with no handle left. -/
def UnpinnedBy (c : Cache K V P) (act : Act K V P) (v : Nat) : Prop :=
  act = .release v ∧ v < c.records.length ∧ v ∈ c.releasing ∧ c.references v = 0

/-- The shards are in order, and a version that is prepared is not resident. -/
structure Whole (b : Builder K V P) (c : Cache K V P) : Prop where
  placed : Placed b c.shards c.records
  fresh : ∀ v, (c.prepared v).isSome = true → v < c.records.length ∧ ¬ Resident c v

/-- What a step does to who is resident, and what is seen of it. -/
structure Steps [DecidableEq K] (b : Builder K V P) (c : Cache K V P) (act : Act K V P)
    (c' : Cache K V P) (seen : List (Event K)) : Prop where
  whole : Whole b c'
  books : ∀ v, (Resident c v ∨ v ∈ offered seen) ↔ (Resident c' v ∨ v ∈ (leavers seen).map Prod.fst)
  gone : ∀ v ∈ (leavers seen).map Prod.fst, ¬ Resident c' v
  once : ((leavers seen).map Prod.fst).Nodup
  offers : ∀ v ∈ offered seen, (c.prepared v).isSome = true ∧ c'.prepared v = none
  prepares : ∀ v, (c'.prepared v).isSome = true → (c.prepared v).isSome = true ∨
    v = c.records.length
  grows : c.records.length ≤ c'.records.length
  records : ∀ (v : Nat) (r : Record K V P), c.records[v]? = some r → c'.records[v]? = some r
  tally : (waiting c' ++ notices seen).Perm (waiting c ++ leavers seen)
  because : ∀ v reason, (v, reason) ∈ leavers seen → Because b c act v reason
  newest : ∀ m : K → Option Nat, (∀ r, Held c.shards r → m r.key = some r.version) →
    ∀ r, Held c'.shards r → latest (shardOf b) r.key (m r.key) seen = some r.version
  got : ∀ pre k v post, seen = pre ++ .got k (some v) :: post →
    pre = [] ∧ ∃ r, Held c.shards r ∧ r.key = k ∧ r.version = v
  weight : ∀ (i : Nat) (s s' : Shard K V P), c.shards[i]? = some s → c'.shards[i]? = some s' →
    s'.weight ≤ max s.capacity s.weight
  pins : b.policy.pins = true → ∀ v,
    Pinned c' v ↔ (PinnedBy seen v ∨ Pinned c v ∧ ¬ UnpinnedBy c act v) ∧ Resident c' v
  evicted : b.policy.pins = true → ∀ v, (v, .Evicted) ∈ leavers seen → Pinned c v →
    UnpinnedBy c act v

/-- Taking a handle changes no shard. -/
theorem acquire_fields (c : Cache K V P) (b : Builder K V P) (v : Nat) :
    (c.acquire b v).shards = c.shards ∧ (c.acquire b v).records = c.records ∧
      (c.acquire b v).prepared = c.prepared ∧ (c.acquire b v).pending = c.pending := by
  unfold Cache.acquire
  split <;> exact ⟨rfl, rfl, rfl, rfl⟩

theorem acquire_all_fields (c : Cache K V P) (removed : Removed K V P) :
    (removed.foldl (fun c e => c.acquire_bare e.1.version) c).shards = c.shards ∧
      (removed.foldl (fun c e => c.acquire_bare e.1.version) c).records = c.records ∧
      (removed.foldl (fun c e => c.acquire_bare e.1.version) c).prepared = c.prepared ∧
      (removed.foldl (fun c e => c.acquire_bare e.1.version) c).pending = c.pending := by
  induction removed generalizing c with
  | nil => exact ⟨rfl, rfl, rfl, rfl⟩
  | cons _ _ ih => exact ih _

variable {c' c : Cache K V P} {i : Nat} {s : Shard K V P}

theorem waiting_concat (c : Cache K V P) (removed : Removed K V P)
    (h : c'.pending = c.pending ++ [removed]) :
    waiting c' = waiting c ++ removed.map fun e => (e.1.version, e.2) := by
  rw [waiting, waiting, h, flatten_append, map_append]
  simp

theorem weight_same (h : c'.shards = c.shards) (i : Nat) (s s' : Shard K V P)
    (hs : c.shards[i]? = some s) (hs' : c'.shards[i]? = some s') :
    s'.weight ≤ max s.capacity s.weight := by
  rw [h, hs] at hs'
  cases hs'
  exact Nat.le_max_right _ _

theorem Pinned.resident {v : Nat} (h : Pinned c v) : Resident c v := by
  obtain ⟨i, s, hi, hs⟩ := h
  obtain ⟨r, hr, hv⟩ := hs.held
  exact ⟨r, ⟨i, s, hi, hr⟩, hv⟩

/-- A step that touches no shard and releases nothing pins nothing. -/
theorem pins_same {act : Act K V P} {seen : List (Event K)} (h : c'.shards = c.shards)
    (hact : ∀ v, ¬ UnpinnedBy c act v) (hseen : ∀ v, ¬ PinnedBy seen v) (v : Nat) :
    Pinned c' v ↔ (PinnedBy seen v ∨ Pinned c v ∧ ¬ UnpinnedBy c act v) ∧ Resident c' v := by
  have hp : Pinned c' v ↔ Pinned c v := by rw [Pinned, Pinned, h]
  have hr : Resident c' v ↔ Resident c v := by rw [Resident, Resident, h]
  rw [hp, hr]
  constructor
  · exact fun hv => ⟨.inr ⟨hv, hact v⟩, hv.resident⟩
  · rintro ⟨hv | hv, -⟩
    · exact absurd hv (hseen v)
    · exact hv.1

theorem not_pinnedBy_nil (v : Nat) : ¬ PinnedBy ([] : List (Event K)) v := by
  rintro ⟨key, h | h⟩ <;> cases h

/-- A version that is pinned is pinned in the shard of its record. -/
theorem Placed.pins_here (h : Placed b c.shards records) (hi : c.shards[i]? = some s)
    {r : Record K V P} (hr : records[r.version]? = some r) (hpl : r.hash.toNat % b.shards = i)
    (hpin : Pinned c r.version) : s.Pins r.version := by
  obtain ⟨j, t, hj, ht⟩ := hpin
  obtain ⟨r', hr', hv⟩ := ht.held
  obtain ⟨hpl', hrec⟩ := h.held j t r' hj hr'
  rw [hv, hr] at hrec
  cases hrec
  obtain rfl := hpl'.symm.trans hpl
  rw [hi] at hj
  cases hj
  exact ht

/-- What a section on one shard pins and unpins is what the cache pins and unpins. -/
theorem Placed.repins
    (h : Placed b c.shards records) (h' : Placed b c'.shards records) {s' : Shard K V P}
    {pin unpin : Nat → Prop} (hi : c.shards[i]? = some s)
    (hshards : c'.shards = c.shards.set i s') (hpins : Shard.Repins s s' pin unpin removed)
    (hlocal : ∀ v, pin v ∨ unpin v → ∃ r, records[v]? = some r ∧ r.hash.toNat % b.shards = i)
    (v : Nat) : Pinned c' v ↔ (pin v ∨ Pinned c v ∧ ¬ unpin v) ∧ Resident c' v := by
  have hi' : c'.shards[i]? = some s' := by
    rw [hshards, List.getElem?_set_self (List.getElem?_eq_some_iff.mp hi).1]
  have hget : ∀ {j : Nat}, j ≠ i → c'.shards[j]? = c.shards[j]? := fun {j} hji => by
    rw [hshards, List.getElem?_set_ne (Ne.symm hji)]
  -- a version of another shard is neither pinned nor unpinned here
  have hother : ∀ {j : Nat} {t : Shard K V P} {r : Record K V P}, j ≠ i → c.shards[j]? = some t →
      t.Holds r → r.version = v → ¬ (pin v ∨ unpin v) := by
    intro j t r hji hj hr hv hloc
    obtain ⟨r', hr', hpl⟩ := hlocal v hloc
    obtain ⟨hpl', hrec⟩ := h.held j t r hj hr
    rw [hv, hr'] at hrec
    cases hrec
    exact hji (hpl'.symm.trans hpl)
  constructor
  · intro hpin
    refine ⟨?_, hpin.resident⟩
    obtain ⟨j, t, hj, ht⟩ := hpin
    by_cases hji : j = i
    · subst hji
      rw [hi'] at hj
      cases hj
      exact ((hpins.pins v).mp ht).1.imp id fun hs => ⟨⟨j, s, hi, hs.1⟩, hs.2⟩
    · rw [hget hji] at hj
      obtain ⟨r, hr, hv⟩ := ht.held
      exact .inr ⟨⟨j, t, hj, ht⟩, fun hu => hother hji hj hr hv (.inr hu)⟩
  · rintro ⟨hwhich, r, ⟨j, t, hj, hr⟩, rfl⟩
    obtain ⟨hpl, hrec⟩ := h'.held j t r hj hr
    refine ⟨j, t, hj, ?_⟩
    by_cases hji : j = i
    · subst hji
      rw [hi'] at hj
      cases hj
      refine (hpins.pins _).mpr ⟨?_, r, hr, rfl⟩
      exact hwhich.imp id fun hs => ⟨h.pins_here hi hrec hpl hs.1, hs.2⟩
    · rw [hget hji] at hj
      rcases hwhich with hb | ⟨hpin, -⟩
      · exact absurd (.inl hb) (hother hji hj hr rfl)
      · exact h.pins_here hj hrec hpl hpin

theorem pinnedBy_leaves (lead : List (Event K)) (removed : Removed K V P) (v : Nat) :
    PinnedBy (lead ++ Cache.leaves removed) v ↔ PinnedBy lead v := by
  have hno : ∀ e ∈ Cache.leaves removed, ∃ w reason, e = Event.left w reason := by
    intro e he
    obtain ⟨x, -, rfl⟩ := mem_map.mp he
    exact ⟨_, _, rfl⟩
  have hmem : ∀ e : Event K, (∀ w reason, e ≠ .left w reason) →
      (e ∈ lead ++ Cache.leaves removed ↔ e ∈ lead) := by
    intro e he
    rw [mem_append, or_iff_left_of_imp]
    intro hm
    obtain ⟨w, reason, heq⟩ := hno e hm
    exact absurd heq (he w reason)
  unfold PinnedBy
  refine exists_congr fun key => ?_
  rw [hmem _ (fun _ _ h => by cases h), hmem _ (fun _ _ h => by cases h)]

theorem locked_eq {s' : Shard K V P}
    (f : Shard K V P → Option (Shard K V P × Removed K V P)) (hi : c.shards[i]? = some s)
    (hf : f s = some (s', removed)) :
    c.locked i f = some ({ c with
      shards := c.shards.set i s'
      pending := c.pending ++ [removed] }, removed) := by
  rw [Cache.locked, hi, Option.bind_some, hf]
  rfl

end moat_cache_memory
