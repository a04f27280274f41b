-- What the replacement policies of the memory cache remember about keys: the
-- bounded ghosts of S3FIFO and the decaying frequency sketch of TinyLFU.
import Moat.Checked

namespace moat_cache_memory

open checked List Function Option

/-! ## Ghosts -/

/-- Fingerprints and weights of evicted entries, oldest first, with a count for each fingerprint. -/
structure Ghost where
  queue : List (UInt64 × Nat)
  counts : UInt64 → Option Nat
  weight : Nat
  capacity : Nat
  limit : Nat

namespace Ghost

def new (limit capacity : Nat) : Ghost := ⟨[], fun _ => none, 0, capacity, limit⟩

def contains (g : Ghost) (hash : UInt64) : Bool := (g.counts hash).isSome

/-- Drops the oldest ghost. `none` is the panic of a missing count or of a count or weight below
zero. -/
def pop (g : Ghost) : Option Ghost :=
  match g.queue with
  | [] => some g
  | (hash, weight) :: queue =>
    (sub? g.weight weight).bind fun left =>
    (g.counts hash).bind fun count =>
    (sub? count 1).map fun count =>
      { g with
        queue := queue
        weight := left
        counts := update g.counts hash (if count = 0 then none else some count) }

/-- `while go { self.pop() }`, for at most as many rounds as `fuel` has. -/
def popWhile (go : Ghost → Bool) : Nat → Ghost → Option Ghost
  | 0, _ => none
  | fuel + 1, g => if go g then g.pop.bind (popWhile go fuel) else some g

def push (g : Ghost) (hash : UInt64) (weight : Nat) : Option Ghost :=
  if g.limit = 0 ∨ g.capacity < weight then some g
  else
    (popWhile (fun g => g.capacity - weight < g.weight || g.limit ≤ g.queue.length)
      (g.queue.length + 1) g).map fun g =>
      { g with
        queue := g.queue ++ [(hash, weight)]
        counts := update g.counts hash (some ((g.counts hash).getD 0 + 1))
        weight := g.weight + weight }

def trim (g : Ghost) : Option Ghost :=
  popWhile (fun g => g.capacity < g.weight || g.limit < g.queue.length) (g.queue.length + 1) g

/-- The books of the ghosts: the weight is the sum over the queue, and each count is the number of
queued ghosts with that fingerprint, with no count of zero kept. -/
structure Kept (g : Ghost) : Prop where
  weighed : g.weight = (g.queue.map Prod.snd).sum
  counted : ∀ h, g.counts h =
    if (g.queue.map Prod.fst).count h = 0 then none else some ((g.queue.map Prod.fst).count h)

/-- The books are right and within the limits. -/
structure Good (g : Ghost) : Prop extends Kept g where
  within : g.weight ≤ g.capacity
  few : g.queue.length ≤ g.limit

theorem new_good (limit capacity : Nat) : (new limit capacity).Good :=
  ⟨⟨rfl, fun _ => rfl⟩, Nat.zero_le _, Nat.zero_le _⟩

variable {g : Ghost}

/-- Dropping the oldest ghost works out and keeps the books. -/
theorem Kept.pop (h : g.Kept) :
    ∃ g', g.pop = some g' ∧ g'.Kept ∧ g'.queue = g.queue.tail ∧ g'.weight ≤ g.weight ∧
      g'.capacity = g.capacity ∧ g'.limit = g.limit := by
  rcases hq : g.queue with _ | ⟨⟨hash, weight⟩, queue⟩
  · exact ⟨g, by rw [Ghost.pop, hq], h, by rw [hq]; rfl, Nat.le_refl _, rfl, rfl⟩
  · have hw := h.weighed
    have hc := h.counted
    simp only [hq, map_cons, sum_cons] at hw hc
    have hcount : g.counts hash = some ((queue.map Prod.fst).count hash + 1) := by
      rw [hc hash, count_cons_self]
      exact if_neg (Nat.succ_ne_zero _)
    have hpop : g.pop = some { g with
        queue := queue
        weight := g.weight - weight
        counts := update g.counts hash
          (if (queue.map Prod.fst).count hash = 0 then none
            else some ((queue.map Prod.fst).count hash)) } := by
      unfold Ghost.pop
      rw [hq]
      simp only [sub?_eq (show weight ≤ g.weight by omega), hcount, bind_some,
        sub?_eq (Nat.le_add_left 1 _), Nat.add_sub_cancel, map_some]
    refine ⟨_, hpop, ⟨?_, fun h' => ?_⟩, rfl, Nat.sub_le _ _, rfl, rfl⟩
    · show g.weight - weight = (queue.map Prod.snd).sum
      omega
    · by_cases he : h' = hash
      · subst he
        simp only [update_self]
      · simp only [update_of_ne he]
        rw [hc h', count_cons_of_ne (Ne.symm he)]

/-- A loop that drops ghosts ends: no later than when no ghost is left. -/
theorem Kept.popWhile (h : g.Kept) (go : Ghost → Bool) {fuel : Nat} (hfuel : g.queue.length < fuel)
    (hempty : ∀ g' : Ghost, g'.Kept → g'.queue = [] → g'.capacity = g.capacity →
    g'.limit = g.limit →
      go g' = false) :
    ∃ g', popWhile go fuel g = some g' ∧ g'.Kept ∧ go g' = false ∧ g'.capacity = g.capacity ∧
      g'.limit = g.limit := by
  induction fuel generalizing g with
  | zero => omega
  | succ fuel ih =>
    unfold Ghost.popWhile
    by_cases hgo : go g = true
    · rw [if_pos hgo]
      obtain ⟨g1, h1, hk1, hq1, -, hc1, hl1⟩ := h.pop
      have hne : g.queue ≠ [] := by
        intro he
        rw [hempty g h he rfl rfl] at hgo
        cases hgo
      have hlen : g1.queue.length < fuel := by
        have hpos := length_pos_iff.mpr hne
        rw [hq1, length_tail]
        omega
      obtain ⟨g2, h2, hk2, hgo2, hc2, hl2⟩ := ih hk1 hlen
        (fun g' hk he hc hl => hempty g' hk he (hc.trans hc1) (hl.trans hl1))
      exact ⟨g2, by rw [h1]; exact h2, hk2, hgo2, hc2.trans hc1, hl2.trans hl1⟩
    · rw [if_neg hgo]
      exact ⟨g, rfl, h, by simpa using hgo, rfl, rfl⟩

/-- A ghost that is pushed makes room for itself. -/
theorem Good.push (h : g.Good) (hash : UInt64) (weight : Nat) :
    ∃ g', g.push hash weight = some g' ∧ g'.Good ∧ g'.capacity = g.capacity ∧
      g'.limit = g.limit := by
  unfold Ghost.push
  by_cases hskip : g.limit = 0 ∨ g.capacity < weight
  · rw [if_pos hskip]
    exact ⟨g, rfl, h, rfl, rfl⟩
  · rw [if_neg hskip]
    rw [not_or, Nat.not_lt] at hskip
    obtain ⟨g1, h1, hk1, hgo1, hc1, hl1⟩ := h.toKept.popWhile
      (fun g => g.capacity - weight < g.weight || g.limit ≤ g.queue.length) (Nat.lt_succ_self _)
      (fun g' hk he hc hl => by
        have hw := hk.weighed
        rw [he] at hw
        simp only [Bool.or_eq_false_iff, decide_eq_false_iff_not, Nat.not_lt, Nat.not_le, he, hl,
          hw, map_nil, sum_nil, length_nil]
        omega)
    simp only [Bool.or_eq_false_iff, decide_eq_false_iff_not, Nat.not_lt, Nat.not_le] at hgo1
    rw [h1]
    refine ⟨_, rfl, ⟨⟨?_, fun h' => ?_⟩, ?_, ?_⟩, hc1, hl1⟩
    · simp only [map_append, map_cons, map_nil, sum_append, sum_cons,
        sum_nil, hk1.weighed, Nat.add_zero]
    · simp only [map_append, map_cons, map_nil, count_append]
      by_cases he : h' = hash
      · subst he
        rw [update_self, count_singleton_self, if_neg (Nat.succ_ne_zero _), hk1.counted]
        split <;> simp_all
      · rw [update_of_ne he, count_singleton, hk1.counted]
        simp [Ne.symm he]
    · show g1.weight + weight ≤ g1.capacity
      omega
    · simp only [length_append, length_singleton]
      omega

/-- Trimming to new limits works out. -/
theorem Kept.trim (h : g.Kept) :
    ∃ g', g.trim = some g' ∧ g'.Good ∧ g'.capacity = g.capacity ∧ g'.limit = g.limit := by
  obtain ⟨g1, h1, hk1, hgo1, hc1, hl1⟩ := h.popWhile
    (fun g => g.capacity < g.weight || g.limit < g.queue.length) (Nat.lt_succ_self _)
    (fun g' hk he hc hl => by
      have hw := hk.weighed
      rw [he] at hw
      simp [he, hw])
  simp only [Bool.or_eq_false_iff, decide_eq_false_iff_not, Nat.not_lt] at hgo1
  exact ⟨g1, h1, ⟨hk1, hgo1.1, hgo1.2⟩, hc1, hl1⟩

/-- A ghost is known exactly while one with its fingerprint is queued. -/
theorem Kept.contains_iff (h : g.Kept) (hash : UInt64) :
    g.contains hash = true ↔ hash ∈ g.queue.map Prod.fst := by
  rw [contains, h.counted, ← count_pos_iff]
  split
  · simp_all
  · simp only [isSome_some, true_iff]
    omega

/-- What a policy does to its ghosts. -/
inductive Act
  | push (hash : UInt64) (weight : Nat)
  | resize (capacity : Nat)
  | trim
  | clear

def act (g : Ghost) : Act → Option Ghost
  | .push hash weight => g.push hash weight
  | .resize capacity => trim { g with capacity := capacity }
  | .trim => g.trim
  | .clear => some { g with queue := [], counts := fun _ => none, weight := 0 }

theorem Good.act (h : g.Good) (a : Act) :
    ∃ g', g.act a = some g' ∧ g'.Good ∧ g'.limit = g.limit := by
  cases a with
  | push hash weight =>
    obtain ⟨g', h', hg, -, hl⟩ := h.push hash weight
    exact ⟨g', h', hg, hl⟩
  | resize capacity =>
    obtain ⟨g', h', hg, -, hl⟩ :=
      Kept.trim (g := { g with capacity := capacity }) ⟨h.weighed, h.counted⟩
    exact ⟨g', h', hg, hl⟩
  | trim =>
    obtain ⟨g', h', hg, -, hl⟩ := h.toKept.trim
    exact ⟨g', h', hg, hl⟩
  | clear => exact ⟨_, rfl, ⟨⟨rfl, fun _ => rfl⟩, Nat.zero_le _, Nat.zero_le _⟩, rfl⟩

/-- Whatever is done to the ghosts, no loop runs on and no subtraction goes below zero, and the
books agree with the queue. -/
theorem ghost_history_is_consistent (limit capacity : Nat) (acts : List Act) :
    ∃ g, acts.foldlM Ghost.act (new limit capacity) = some g ∧
      g.weight = (g.queue.map Prod.snd).sum ∧ g.weight ≤ g.capacity ∧
      g.limit = limit ∧ g.queue.length ≤ limit ∧
      (∀ hash, (g.counts hash).getD 0 = (g.queue.map Prod.fst).count hash ∧
      g.counts hash ≠ some 0) ∧
      (∀ hash, g.contains hash = true ↔ hash ∈ g.queue.map Prod.fst) ∧
      -- past the guard of a push, every test of its loop subtracts from the same capacity
      ∀ weight ≤ g.capacity, ∀ g', Relation.ReflTransGen (fun a b => pop a = some b) g g' →
        weight ≤ g'.capacity := by
  obtain ⟨g, hrun, hg, hl⟩ := foldlM_keeps (f := Ghost.act) (I := fun g => g.Good ∧ g.limit = limit)
    (fun g a ⟨hg, hl⟩ => by
      obtain ⟨g', h', hg', hl'⟩ := hg.act a
      exact ⟨g', h', hg', hl'.trans hl⟩) ⟨new_good limit capacity, rfl⟩ acts
  refine ⟨g, hrun, hg.weighed, hg.within, hl, hl ▸ hg.few, fun hash => ?_, hg.contains_iff,
    fun weight hw g' hpops => ?_⟩
  · rw [hg.counted]
    split <;> simp_all
  · suffices hk : g'.Kept ∧ g'.capacity = g.capacity from hk.2 ▸ hw
    induction hpops with
    | refl => exact ⟨hg.toKept, rfl⟩
    | tail _ hstep ih =>
      obtain ⟨g1, h1, hk, -, -, hc, -⟩ := ih.1.pop
      cases h1.symm.trans hstep
      exact ⟨hk, hc.trans ih.2⟩

end Ghost

/-! ## Frequency sketch -/

/-- Four rows of saturating counters, one row after the other. -/
structure Sketch where
  counters : List Nat
  width : Nat
  samples : Nat

namespace Sketch

def new (width : Nat) : Sketch := ⟨List.replicate (width * 4) 0, width, 0⟩

/-- A hash as a row mixes it. -/
def mix (hash : UInt64) (row : Nat) : UInt64 :=
  let h := hash + UInt64.ofNat row * 0x9e3779b97f4a7c15
  let h := (h ^^^ (h >>> 30)) * 0xbf58476d1ce4e5b9
  let h := (h ^^^ (h >>> 27)) * 0x94d049bb133111eb
  h ^^^ (h >>> 31)

/-- The counter of a hash in a row. -/
def index (s : Sketch) (hash : UInt64) (row : Nat) : Nat :=
  ((mix hash row).toNat &&& (s.width - 1)) ||| (row * s.width)

/-- One more sighting in one row; `none` is an index out of range. -/
def bump (s : Sketch) (hash : UInt64) (row : Nat) : Option Sketch :=
  if s.index hash row < s.counters.length then
    some { s with counters := s.counters.modify (s.index hash row) (fun n => min (n + 1) 255) }
  else none

/-- Halves every counter once enough samples are in. -/
def decay (s : Sketch) : Sketch :=
  if s.width * 10 ≤ s.samples then
    { s with counters := s.counters.map (fun n => n / 2), samples := s.samples / 2 }
  else s

def record (s : Sketch) (hash : UInt64) : Option Sketch :=
  ([0, 1, 2, 3].foldlM (fun s row => bump s hash row) s).map fun s =>
    decay { s with samples := s.samples + 1 }

/-- The least of the four counters; `none` is an index out of range. -/
def estimate (s : Sketch) (hash : UInt64) : Option Nat :=
  ([0, 1, 2, 3].mapM (fun row => s.counters[s.index hash row]?)).bind List.min?

/-- `counters.fill(0); samples = 0`. -/
def clear (s : Sketch) : Sketch :=
  { s with counters := List.replicate s.counters.length 0, samples := 0 }

/-- Four rows of a power of two counters. -/
structure Good (s : Sketch) : Prop where
  rows : s.counters.length = s.width * 4
  power : ∃ k, s.width = 2 ^ k

theorem new_good {width : Nat} (h : ∃ k, width = 2 ^ k) : (new width).Good :=
  ⟨length_replicate, h⟩

variable {s : Sketch}

/-- Every index stays inside its own row. -/
theorem Good.index_row (h : s.Good) (hash : UInt64) (row : Nat) :
    row * s.width ≤ s.index hash row ∧ s.index hash row < (row + 1) * s.width := by
  obtain ⟨k, hk⟩ := h.power
  unfold index
  generalize (mix hash row).toNat = n
  rw [hk]
  have hlt : n &&& (2 ^ k - 1) < 2 ^ k := by
    rw [Nat.and_two_pow_sub_one_eq_mod]
    exact Nat.mod_lt _ (Nat.two_pow_pos k)
  have hor : (n &&& (2 ^ k - 1)) ||| (row * 2 ^ k) = 2 ^ k * row + (n &&& (2 ^ k - 1)) := by
    rw [Nat.or_comm, Nat.mul_comm row]
    exact (Nat.two_pow_add_eq_or_of_lt hlt row).symm
  rw [hor, Nat.add_mul, Nat.one_mul, Nat.mul_comm row]
  omega

theorem Good.index_lt (h : s.Good) (hash : UInt64) {row : Nat} (hr : row < 4) :
    s.index hash row < s.counters.length := by
  have hrow := (h.index_row hash row).2
  have hmul : (row + 1) * s.width ≤ 4 * s.width := Nat.mul_le_mul_right _ hr
  rw [h.rows]
  omega

theorem index_congr {s' : Sketch} (h : s.width = s'.width) {hash : UInt64} {row : Nat} :
    s.index hash row = s'.index hash row := by rw [index, index, h]

/-- The counter at an index is there, and counts at least that far. -/
def AtLeast (s : Sketch) (i n : Nat) : Prop := ∃ c, s.counters[i]? = some c ∧ n ≤ c

/-- The sightings of a hash in some rows: no counter goes back, and the hash's own go up. -/
theorem Good.bumps (h : s.Good) (hash : UInt64) (rows : List Nat) (hr : ∀ row ∈ rows, row < 4) :
    ∃ s', rows.foldlM (fun s row => bump s hash row) s = some s' ∧ s'.Good ∧ s'.width = s.width ∧
      s'.samples = s.samples ∧ ∀ i, ∀ n ≤ 255, s.AtLeast i n → s'.AtLeast i n ∧
        ∀ row ∈ rows, i = s.index hash row → s'.AtLeast i (min (n + 1) 255) := by
  induction rows generalizing s with
  | nil => exact ⟨s, rfl, h, rfl, rfl, fun i n _ hi => ⟨hi, nofun⟩⟩
  | cons row rows ih =>
    obtain ⟨hrow, hr⟩ := forall_mem_cons.mp hr
    obtain ⟨s₁, hs₁⟩ : ∃ s₁ : Sketch, { s with
        counters := s.counters.modify (s.index hash row) (fun n => min (n + 1) 255) } = s₁ :=
          ⟨_, rfl⟩
    have hb : s.bump hash row = some s₁ := by rw [bump, if_pos (h.index_lt hash hrow), hs₁]
    have hindex : ∀ r, s₁.index hash r = s.index hash r := fun r => index_congr (by rw [← hs₁])
    obtain ⟨s', hs', hg, hw, hsam, hup⟩ := ih (s := s₁)
      (by rw [← hs₁]; exact ⟨by rw [length_modify, h.rows], h.power⟩) hr
    rw [← hs₁] at hw hsam
    refine ⟨s', by rw [foldlM_cons, hb]; exact hs', hg, hw, hsam, fun i n hn ⟨c, hc, hle⟩ => ?_⟩
    -- the counter after this row
    have hat : ∀ m, m ≤ (if s.index hash row = i then min (c + 1) 255 else c) → s₁.AtLeast i m :=
      fun m hm => ⟨_, by simp only [← hs₁, getElem?_modify, hc, Option.map_eq_map, map_some], hm⟩
    have hkeep := hup i n hn (hat n (by split <;> omega))
    refine ⟨hkeep.1, fun r hmem he => ?_⟩
    rcases mem_cons.mp hmem with hr | hmem
    · rw [hr] at he
      have hm : min (n + 1) 255 ≤ min (c + 1) 255 := by omega
      exact (hup i (min (n + 1) 255) (by omega) (hat _ (by rwa [if_pos he.symm]))).1
    · exact hkeep.2 r hmem (he.trans (hindex r).symm)

/-- Beside the sketch, an exact count of the records of `x`, saturated as the counters are and
halved when they are. -/
def exact (x : UInt64) (s : Sketch) (n : Nat) (hash : UInt64) : Nat :=
  let n := if hash = x then min (n + 1) 255 else n
  if s.width * 10 ≤ s.samples + 1 then n / 2 else n

/-- No counter of the hash is behind. -/
def Covers (s : Sketch) (x : UInt64) (n : Nat) : Prop := ∀ row < 4, s.AtLeast (s.index x row) n

theorem decay_width (s : Sketch) : s.decay.width = s.width := by
  unfold decay
  split <;> rfl

theorem Good.decay (h : s.Good) : s.decay.Good := by
  unfold Sketch.decay
  split
  · exact ⟨by rw [length_map, h.rows], h.power⟩
  · exact h

/-- A sighting is always recorded, the samples stay few, and no count gets ahead of the counters. -/
theorem Good.record (h : s.Good) (hash : UInt64) :
    ∃ s', s.record hash = some s' ∧ s'.Good ∧ s'.width = s.width ∧
      (s.samples < s.width * 10 → s'.samples < s'.width * 10) ∧
      ∀ x, ∀ n ≤ 255, s.Covers x n → s'.Covers x (s.exact x n hash) ∧ s.exact x n hash ≤ 255 := by
  obtain ⟨s4, hfold, hg, hw, hsam, hup⟩ := h.bumps hash [0, 1, 2, 3] (by decide)
  have hgood : ({ s4 with samples := s4.samples + 1 } : Sketch).Good := ⟨hg.rows, hg.power⟩
  refine ⟨_, by rw [Sketch.record, hfold, map_some], hgood.decay, (decay_width _).trans hw, ?_,
    fun x n hn hcov => ?_⟩
  · unfold Sketch.decay
    split
    · simp only
      omega
    · omega
  -- before the decay
  · have hmid :
      ∀ row < 4, s4.AtLeast (s.index x row) (if hash = x then min (n + 1) 255 else n) := by
      intro row hr
      obtain ⟨hkeep, hmore⟩ := hup _ n hn (hcov row hr)
      split
      · rename_i he
        exact hmore row (by simp; omega) (by rw [he])
      · exact hkeep
    have hle : (if hash = x then min (n + 1) 255 else n) ≤ 255 := by split <;> omega
    unfold Sketch.Covers Sketch.exact Sketch.decay
    simp only [hsam, hw]
    generalize (if hash = x then min (n + 1) 255 else n) = m at hmid hle
    split
    · refine ⟨fun row hr => ?_, by omega⟩
      obtain ⟨c, hc, hm⟩ := hmid row hr
      refine ⟨c / 2, ?_, Nat.div_le_div_right hm⟩
      simp only [index] at hc ⊢
      rw [getElem?_map, hc, map_some]
    · refine ⟨fun row hr => ?_, hle⟩
      obtain ⟨c, hc, hm⟩ := hmid row hr
      exact ⟨c, by simpa only [index, hw] using hc, hm⟩

/-- A hash has an estimate, no less than what its counters cover. -/
theorem Covers.estimate {x : UInt64} {n : Nat} (h : s.Covers x n) :
    ∃ e, s.estimate x = some e ∧ n ≤ e := by
  obtain ⟨a, ha, hna⟩ := h 0 (by decide)
  obtain ⟨b, hb, hnb⟩ := h 1 (by decide)
  obtain ⟨c, hc, hnc⟩ := h 2 (by decide)
  obtain ⟨d, hd, hnd⟩ := h 3 (by decide)
  refine ⟨min (min (min a b) c) d, ?_, by omega⟩
  simp [Sketch.estimate, ha, hb, hc, hd, List.min?]

theorem Good.covers (h : s.Good) (x : UInt64) : s.Covers x 0 := fun _ hr =>
  ⟨_, getElem?_eq_getElem (h.index_lt x hr), Nat.zero_le _⟩

/-- A hash always has an estimate. -/
theorem Good.estimate (h : s.Good) (hash : UInt64) : ∃ n, s.estimate hash = some n := by
  obtain ⟨n, hn, -⟩ := (h.covers hash).estimate
  exact ⟨n, hn⟩

/-- One record, with the exact count of `x` beside it. -/
def record_beside (x : UInt64) (p : Sketch × Nat) (hash : UInt64) : Option (Sketch × Nat) :=
  (p.1.record hash).map fun s => (s, p.1.exact x p.2 hash)

/-- After any records, no hash is estimated below its exact count. -/
theorem sketch_never_underestimates (k : Nat) (x : UInt64) (hashes : List UInt64) :
    ∃ s n, hashes.foldlM (record_beside x) (new (2 ^ k), 0) = some (s, n) ∧
      (∃ e, s.estimate x = some e ∧ n ≤ e) ∧ s.samples < s.width * 10 ∧ s.width = 2 ^ k ∧
      ∀ hash, ∀ row < 4, row * s.width ≤ s.index hash row ∧
        s.index hash row < (row + 1) * s.width ∧ s.index hash row < s.counters.length := by
  have hnew := new_good ⟨k, rfl⟩
  obtain ⟨⟨s, n⟩, hrun, hg, hw, hsam, -, hcov⟩ := foldlM_keeps (f := record_beside x)
    (I := fun p => p.1.Good ∧ p.1.width = 2 ^ k ∧ p.1.samples < p.1.width * 10 ∧ p.2 ≤ 255 ∧
      p.1.Covers x p.2)
    (fun p hash ⟨hg, hw, hsam, hn, hcov⟩ => by
      obtain ⟨s', hs', hg', hw', hsam', hup⟩ := hg.record hash
      obtain ⟨hcov', hn'⟩ := hup x p.2 hn hcov
      exact ⟨_, by rw [record_beside, hs', map_some], hg', hw'.trans hw, hsam' hsam, hn', hcov'⟩)
    (s := (new (2 ^ k), 0)) ⟨hnew, rfl, Nat.mul_pos (Nat.two_pow_pos k) (by decide), Nat.zero_le _,
      hnew.covers x⟩ hashes
  exact ⟨s, n, hrun, hcov.estimate, hsam, hw, fun hash row hr =>
    ⟨(hg.index_row hash row).1, (hg.index_row hash row).2, hg.index_lt hash hr⟩⟩

theorem Good.clear (h : s.Good) : s.clear.Good :=
  ⟨by simpa [Sketch.clear] using h.rows, h.power⟩

end Sketch

end moat_cache_memory
