-- Who holds a lease on a key, and what a generation that somebody has seen says
-- later: the state of a key lives while it is leased, so its generation counts
-- the mutations admitted since.
import Moat.Cache

namespace moat_cache

open moat_common registry List Option

/-! ## Lists with one item replaced -/

variable {α : Type} {i : Nat} {x : Call} {key : Bytes} {mark : Event} {z : Registered}

theorem countP_set_add {l : List α} {x : α} (h : l[i]? = some x) (y : α)
    (p : α → Bool) : (l.set i y).countP p + (p x).toNat = l.countP p + (p y).toNat := by
  obtain ⟨hi, hx⟩ := List.getElem?_eq_some_iff.mp h
  have hpos : p x = true → 0 < l.countP p := fun hp =>
    countP_pos_iff.mpr ⟨x, hx ▸ getElem_mem hi, hp⟩
  rw [countP_set hi, hx]
  cases hp : p x <;> cases p y <;> simp_all

theorem getElem?_set_cases {l : List α} {j : Nat} {y z : α}
    (h : (l.set i y)[j]? = some z) : (j = i ∧ z = y) ∨ (j ≠ i ∧ l[j]? = some z) := by
  rw [List.getElem?_set] at h
  split at h
  · rename_i hij
    split at h
    · cases h; exact .inl ⟨hij.symm, rfl⟩
    · cases h
  · rename_i hij
    exact .inr ⟨Ne.symm hij, h⟩

theorem getElem?_append_cases {l : List α} {j : Nat} {y z : α}
    (h : (l ++ [y])[j]? = some z) : (j = l.length ∧ z = y) ∨ l[j]? = some z := by
  rcases Nat.lt_or_ge j l.length with hj | hj
  · rw [List.getElem?_append_left hj] at h
    exact .inr h
  · rw [List.getElem?_append_right hj] at h
    obtain ⟨h0, hz⟩ := List.getElem?_eq_some_iff.mp h
    have h1 : j - l.length = 0 := by simpa using h0
    refine .inl ⟨by omega, ?_⟩
    rw [← hz]
    simp

/-! ## What callers and jobs hold -/

def LookupStage.leased : LookupStage → Bool
  | .Probe | .Acquire => false
  | _ => true

/-- The generation that a lookup has captured. -/
def LookupStage.generation : LookupStage → Option Nat
  | .Open g | .Again g | .Version g | .Get g | .Validate g _ _ | .Recheck g => some g
  | _ => none

/-- The key on which a caller has a lease. -/
def Call.lease : Call → Option Bytes
  | .Lookup key stage => if stage.leased then some key else none
  | .Token key _ | .ReserveRemoval key | .AdmitRemoval key | .Leaving key => some key
  | .Reserve p _ | .Admit p _ _ => some p.entry.key
  | .GetMemory _ | .Insert _ | .Invalidate _ | .Done => none

/-- A generation that caller `i` has seen, of which key, and the event at which it saw it. -/
def Call.captured (i : Nat) : Call → Option (Bytes × Nat × Event)
  | .Lookup key stage => stage.generation.map (fun g => (key, g, .captured i))
  | .Token key g => some (key, g, .granted i key)
  | .Reserve p expected | .Admit p expected _ =>
    expected.map (fun g => (p.entry.key, g, .granted i p.entry.key))
  | _ => none

/-- What a lookup that keeps its key's state locked is about to make resident. -/
def Call.promoting : Call → Option (Bytes × Entry)
  | .Lookup key (.Promote p) => some (key, p.entry)
  | _ => none

/-- The job still holds its lease. -/
def JobStage.leased : JobStage → Bool
  | .Replying _ | .Finished _ => false
  | _ => true

/-- The job still counts as pending. -/
def JobStage.pending : JobStage → Bool
  | .Released _ | .Replying _ | .Finished _ => false
  | _ => true

theorem JobStage.leased_of_pending {stage : JobStage} (h : stage.pending = true) :
    stage.leased = true := by
  cases stage <;> first | rfl | cases h

def Mutation.holds (key : Bytes) (j : Mutation) : Bool := j.stage.leased && j.key = key

def Mutation.pends (key : Bytes) (j : Mutation) : Bool := j.stage.pending && j.key = key

def Call.holds (key : Bytes) (x : Call) : Bool := x.lease = some key

/-! ## Since an event -/

/-- One event more: `mark` starts anew, a mutation of `key` ends the quiet. -/
def quietStep (mark : Event) (key : Bytes) (quiet : Bool) (e : Event) : Bool :=
  if e = mark then true
  else
    match e with
    | .admitted _ k _ _ => quiet && k ≠ key
    | _ => quiet

/-- No mutation of `key` was admitted since the last `mark`. -/
def quiet (mark : Event) (key : Bytes) (log : List Event) : Bool :=
  log.foldl (quietStep mark key) false

@[simp] theorem quiet_append (mark : Event) (key : Bytes) (log : List Event) (e : Event) :
    quiet mark key (log ++ [e]) = quietStep mark key (quiet mark key log) e := by
  simp [quiet]

/-- An event that is neither a mark nor an admission. -/
def Event.neutral : Event → Bool
  | .admitted _ _ _ _ | .captured _ | .granted _ _ => false
  | _ => true

theorem Call.captured_mark {g : Nat} (h : x.captured i = some (key, g, mark)) :
    mark = .captured i ∨ mark = .granted i key := by
  cases x with
  | Lookup k stage =>
    cases hs : stage.generation with
    | none => rw [Call.captured, hs] at h; cases h
    | some => rw [Call.captured, hs] at h; cases h; exact .inl rfl
  | Token => cases h; exact .inr rfl
  | Reserve _ expected | Admit _ expected =>
    cases expected with
    | none => cases h
    | some => cases h; exact .inr rfl
  | GetMemory | Insert | Invalidate | ReserveRemoval | AdmitRemoval | Leaving | Done => cases h

theorem Call.lease_of_captured {g : Nat}
    (h : x.captured i = some (key, g, mark)) : x.lease = some key := by
  cases x with
  | Lookup k stage => cases stage <;> cases h <;> rfl
  | Token => cases h; rfl
  | Reserve _ expected | Admit _ expected =>
    cases expected with
    | none => cases h
    | some => cases h; rfl
  | GetMemory | Insert | Invalidate | ReserveRemoval | AdmitRemoval | Leaving | Done => cases h

theorem Call.lease_of_promoting {e : Entry}
    (h : x.promoting = some (key, e)) : x.lease = some key := by
  cases x with
  | Lookup k stage =>
    cases stage with
    | Promote => cases h; rfl
    | _ => cases h
  | _ => cases h

/-- The quiet goes on, unless a mutation of the key is admitted. -/
theorem quietStep_of_ne {q : Bool} {e : Event} (hne : e ≠ mark) :
    quietStep mark key q e = true ↔
      q = true ∧ ∀ n entry token, e ≠ .admitted n key entry token := by
  unfold quietStep
  rw [if_neg hne]
  cases e with
  | admitted n k entry token =>
    simp only [Bool.and_eq_true, decide_eq_true_eq, ne_eq, Event.admitted.injEq, not_and]
    refine ⟨fun h => ⟨h.1, fun _ _ _ _ hk => absurd hk h.2⟩, fun h => ⟨h.1, fun hk => ?_⟩⟩
    exact h.2 n entry token rfl hk rfl rfl
  | _ => simp

/-- Quiet since a mark, written out. -/
theorem quiet_iff {log : List Event} :
    quiet mark key log = true ↔
      ∃ before after, log = before ++ mark :: after ∧ mark ∉ after ∧
        ∀ n entry token, .admitted n key entry token ∉ after := by
  induction log using List.reverseRecOn with
  | nil => simp [quiet]
  | append_singleton log e ih =>
    rw [quiet_append]
    by_cases he : e = mark
    · subst he
      simp only [quietStep, if_true, true_iff]
      exact ⟨log, [], rfl, not_mem_nil, fun _ _ _ => not_mem_nil⟩
    · rw [quietStep_of_ne he, ih]
      constructor
      · rintro ⟨⟨before, after, rfl, hm, ha⟩, hn⟩
        refine ⟨before, after ++ [e], by simp, ?_, fun n entry token hmem => ?_⟩
        · rw [mem_append, mem_singleton]
          exact fun h => h.elim hm (fun h => he h.symm)
        · rcases mem_append.mp hmem with h | h
          · exact ha n entry token h
          · exact hn n entry token (mem_singleton.mp h).symm
      · rintro ⟨before, after, hlog, hm, ha⟩
        rcases eq_nil_or_concat after with rfl | ⟨after, x, rfl⟩
        · obtain ⟨-, hx⟩ := append_inj' hlog rfl
          cases hx
          exact absurd rfl he
        · rw [concat_eq_append] at hlog hm ha
          rw [← cons_append, ← append_assoc] at hlog
          obtain ⟨rfl, hx⟩ := append_inj' hlog rfl
          cases hx
          refine ⟨⟨before, after, rfl, fun h => hm (mem_append_left _ h),
            fun n entry token h => ha n entry token (mem_append_left _ h)⟩, ?_⟩
          rintro n entry token rfl
          exact ha n entry token (by simp)

/-! ## The invariant -/

/-- The counts of the registry are those of the holders, and a generation that somebody has seen is
still there exactly while no mutation of the key has been admitted since. -/
structure Leased (r : Registry) (calls : List Call) (jobs : List Mutation) (log : List Event) :
    Prop where
  count : ∀ k, r.count k = calls.countP (Call.holds k) + jobs.countP (Mutation.holds k)
  live : ∀ k x, r.keys.lookup k = some x → 0 < x.leases
  pending : ∀ k x, r.keys.lookup k = some x → x.pending = jobs.countP (Mutation.pends k)
  held : ∀ i (x : Call) k e, calls[i]? = some x → x.promoting = some (k, e) →
    quiet (.captured i) k log = true ∧ ∀ y, r.keys.lookup k = some y → y.holder = some i
  captured : ∀ i (x : Call) k g mark, calls[i]? = some x → x.captured i = some (k, g, mark) →
    ∀ y, r.keys.lookup k = some y → mark ∈ log ∧ g ≤ y.generation ∧
      (y.generation = g ↔ quiet mark k log = true) ∧
      (y.generation = g → ∀ j ∈ jobs, j.pends k = false)
  own : ∀ (n : Nat) (j : Mutation), jobs[n]? = some j → j.stage.leased = true →
    ∀ y, r.keys.lookup j.key = some y →
    j.generation ≤ y.generation ∧
      (y.generation = j.generation →
        ∀ (m : Nat) (j' : Mutation), n < m → jobs[m]? = some j' → j'.key ≠ j.key)

namespace Leased

variable {r r' : Registry} {calls : List Call} {jobs : List Mutation} {log : List Event}
  {i n : Nat} {x y : Call} {j : Mutation} {k : Bytes}

theorem registered_of_count (hc : 0 < r.count k) : ∃ z, r.keys.lookup k = some z := by
  unfold Registry.count at hc
  cases hl : r.keys.lookup k with
  | none => rw [hl] at hc; cases hc
  | some z => exact ⟨z, rfl⟩

section

variable (h : Leased r calls jobs log)
include h

/-- A leased key is registered. -/
theorem registered (hx : calls[i]? = some x) (hl : x.lease = some k) :
    ∃ z, r.keys.lookup k = some z := by
  refine registered_of_count ?_
  have : 0 < calls.countP (Call.holds k) :=
    countP_pos_iff.mpr ⟨x, mem_of_getElem? hx, by simp [Call.holds, hl]⟩
  rw [h.count k]
  omega

theorem registered_job (hj : jobs[n]? = some j)
    (hl : j.stage.leased = true) : ∃ z, r.keys.lookup j.key = some z := by
  refine registered_of_count ?_
  have : 0 < jobs.countP (Mutation.holds j.key) :=
    countP_pos_iff.mpr ⟨j, mem_of_getElem? hj, by simp [Mutation.holds, hl]⟩
  rw [h.count j.key]
  omega

/-- A caller goes on with the same lease; what it claims to have seen and to hold is so. -/
theorem set_call (hx : calls[i]? = some x) (hl : y.lease = x.lease)
    (hp : ∀ k e, y.promoting = some (k, e) →
      quiet (.captured i) k log = true ∧ ∀ z, r.keys.lookup k = some z → z.holder = some i)
    (hc : ∀ k g mark, y.captured i = some (k, g, mark) → ∀ z, r.keys.lookup k = some z →
      mark ∈ log ∧ g ≤ z.generation ∧ (z.generation = g ↔ quiet mark k log = true) ∧
        (z.generation = g → ∀ j ∈ jobs, j.pends k = false)) :
    Leased r (calls.set i y) jobs log := by
  refine ⟨fun k => ?_, h.live, h.pending, fun i' x' k e hx' => ?_, fun i' x' k g mark hx' => ?_,
    h.own⟩
  · have := countP_set_add hx y (Call.holds k)
    rw [show Call.holds k y = Call.holds k x from by simp [Call.holds, hl]] at this
    rw [h.count k]
    omega
  · rcases getElem?_set_cases hx' with ⟨rfl, rfl⟩ | ⟨-, hx'⟩
    · exact hp k e
    · exact h.held i' x' k e hx'
  · rcases getElem?_set_cases hx' with ⟨rfl, rfl⟩ | ⟨-, hx'⟩
    · exact hc k g mark
    · exact h.captured i' x' k g mark hx'

/-- A caller goes on, with no more in its hands than before. -/
theorem move (hx : calls[i]? = some x) (hl : y.lease = x.lease)
    (hp : y.promoting = none) (hc : y.captured i = none ∨ y.captured i = x.captured i) :
    Leased r (calls.set i y) jobs log := by
  refine h.set_call hx hl (fun k e he => ?_) (fun k g mark hm => ?_)
  · rw [hp] at he
    cases he
  · rcases hc with hc | hc
    · rw [hc] at hm
      cases hm
    · exact h.captured i x k g mark hx (hc ▸ hm)

/-- An event that is no admission, and at which no other caller has seen its generation. -/
theorem emit {e : Event} (ha : ∀ n k entry token, e ≠ .admitted n k entry token)
    (hm : ∀ i (x : Call) k g mark, calls[i]? = some x → x.captured i = some (k, g, mark) → e ≠ mark)
    (hp : ∀ i (x : Call) p, calls[i]? = some x → x.promoting = some p → e ≠ .captured i) :
    Leased r calls jobs (log ++ [e]) := by
  have hq : ∀ mark k, e ≠ mark → quiet mark k (log ++ [e]) = quiet mark k log := by
    intro mark k hne
    rw [quiet_append, Bool.eq_iff_iff, quietStep_of_ne hne]
    exact ⟨fun hq => hq.1, fun hq => ⟨hq, fun n entry token => ha n k entry token⟩⟩
  refine ⟨h.count, h.live, h.pending, fun i x k e' hx hpr => ?_, fun i x k g mark hx hc z hz => ?_,
    h.own⟩
  · rw [hq _ k (hp i x _ hx hpr)]
    exact h.held i x k e' hx hpr
  · rw [hq mark k (hm i x k g mark hx hc)]
    exact (h.captured i x k g mark hx hc z hz).imp_left (mem_append_left _)

theorem emit_neutral {e : Event} (he : e.neutral = true) : Leased r calls jobs (log ++ [e]) := by
  refine h.emit (fun n k entry token hn => ?_) (fun i x k g mark hx hc hm => ?_)
    (fun i x p hx hp hm => ?_)
  · subst hn; cases he
  · subst hm
    rcases Call.captured_mark hc with rfl | rfl <;> cases he
  · subst hm; cases he

/-- A new caller, which has nothing yet. -/
theorem begin_ (hl : y.lease = none) (hp : y.promoting = none)
    (hc : ∀ i, y.captured i = none) : Leased r (calls ++ [y]) jobs log := by
  refine ⟨fun k => ?_, h.live, h.pending, fun i x k e hx => ?_, fun i x k g mark hx => ?_, h.own⟩
  · rw [h.count k, countP_append]
    simp [Call.holds, hl]
  · rcases getElem?_append_cases hx with ⟨-, rfl⟩ | hx
    · rw [hp]; exact fun h => by cases h
    · exact h.held i x k e hx
  · rcases getElem?_append_cases hx with ⟨-, rfl⟩ | hx
    · rw [hc]; exact fun h => by cases h
    · exact h.captured i x k g mark hx

/-- The registry changes only where the keys' own states stay. -/
theorem registry_congr (hk : r'.keys = r.keys) : Leased r' calls jobs log := by
  obtain ⟨h1, h2, h3, h4, h5, h6⟩ := h
  refine ⟨fun k => ?_, ?_, ?_, ?_, ?_, ?_⟩
  · rw [← h1 k, Registry.count, Registry.count, hk]
  all_goals rw [hk]; assumption

theorem acquire (hr : r.acquire k = .ok r') (hx : calls[i]? = some x)
    (hl : x.lease = none) (hy : y.lease = some k) (hp : y.promoting = none)
    (hc : y.captured i = none) : Leased r' (calls.set i y) jobs log := by
  obtain ⟨hcount, hother, hself⟩ := Registry.acquire_ok hr
  -- The leases apart, a registered key keeps its state, and a new one starts with nothing pending.
  have hz : ∀ k' z, r'.keys.lookup k' = some z →
      (∃ z', r.keys.lookup k' = some z' ∧ z.generation = z'.generation ∧
        z.pending = z'.pending ∧ z.holder = z'.holder ∧ z'.leases ≤ z.leases) ∨
      (r.keys.lookup k' = none ∧ k' = k ∧ z = ⟨0, 0, 1, none⟩) := by
    intro k' z hz
    by_cases hk : k' = k
    · subst hk
      rw [hself] at hz
      cases hl : r.keys.lookup k' with
      | none => rw [hl] at hz; cases hz; exact .inr ⟨rfl, rfl, rfl⟩
      | some z' => rw [hl] at hz; cases hz; exact .inl ⟨z', rfl, rfl, rfl, rfl, by simp⟩
    · rw [hother k' hk] at hz
      exact .inl ⟨z, hz, rfl, rfl, rfl, Nat.le_refl _⟩
  have hnone : ∀ k', r.keys.lookup k' = none → r.count k' = 0 := by
    intro k' hk
    rw [Registry.count, hk]
    rfl
  refine ⟨fun k' => ?_, fun k' z hz' => ?_, fun k' z hz' => ?_, fun i' x' k' e hx' hpr => ?_,
    fun i' x' k' g mark hx' hcap z hz' => ?_, fun n j hj hlj z hz' => ?_⟩
  · have hset := countP_set_add hx y (Call.holds k')
    have hxn : Call.holds k' x = false := by simp [Call.holds, hl]
    rw [hxn] at hset
    by_cases hk : k' = k
    · subst hk
      rw [hcount, h.count k']
      rw [show Call.holds k' y = true from by simp [Call.holds, hy]] at hset
      simp only [Bool.toNat_false, Bool.toNat_true] at hset
      omega
    · rw [show Call.holds k' y = false from by simp [Call.holds, hy, Ne.symm hk]] at hset
      rw [Registry.count, hother k' hk, ← Registry.count, h.count k']
      simp only [Bool.toNat_false] at hset
      omega
  · rcases hz k' z hz' with ⟨z', hl', -, -, -, hle⟩ | ⟨-, -, rfl⟩
    · exact Nat.lt_of_lt_of_le (h.live k' z' hl') hle
    · exact Nat.one_pos
  · rcases hz k' z hz' with ⟨z', hl', -, hpe, -, -⟩ | ⟨hn, -, rfl⟩
    · rw [hpe]; exact h.pending k' z' hl'
    · -- Nobody held the key, so no job of it was pending.
      have h0 := hnone k' hn
      rw [h.count k'] at h0
      symm
      rw [countP_eq_zero]
      intro j hj
      have hh := countP_eq_zero.mp (show jobs.countP (Mutation.holds k') = 0 by omega) j hj
      simp only [Mutation.holds, Mutation.pends, Bool.and_eq_true, decide_eq_true_eq, not_and]
        at hh ⊢
      exact fun hpend => hh (JobStage.leased_of_pending hpend)
  · rcases getElem?_set_cases hx' with ⟨rfl, rfl⟩ | ⟨-, hx'⟩
    · rw [hp] at hpr; cases hpr
    · obtain ⟨hq, hh⟩ := h.held i' x' k' e hx' hpr
      refine ⟨hq, fun z hz' => ?_⟩
      rcases hz k' z hz' with ⟨z', hl', -, -, hho, -⟩ | ⟨hn, -, -⟩
      · rw [hho]; exact hh z' hl'
      · obtain ⟨z', hz'⟩ := h.registered hx' (Call.lease_of_promoting hpr)
        rw [hn] at hz'; cases hz'
  · rcases getElem?_set_cases hx' with ⟨rfl, rfl⟩ | ⟨-, hx'⟩
    · rw [hc] at hcap; cases hcap
    · rcases hz k' z hz' with ⟨z', hl', hge, -, -, -⟩ | ⟨hn, -, -⟩
      · rw [hge]; exact h.captured i' x' k' g mark hx' hcap z' hl'
      · obtain ⟨z', hz'⟩ := h.registered hx' (Call.lease_of_captured hcap)
        rw [hn] at hz'; cases hz'
  · rcases hz j.key z hz' with ⟨z', hl', hge, -, -, -⟩ | ⟨hn, -, -⟩
    · rw [hge]; exact h.own n j hj hlj z' hl'
    · obtain ⟨z', hz'⟩ := h.registered_job hj hlj
      rw [hn] at hz'; cases hz'

end

/-- A released key that stays registered keeps its state. -/
theorem lookup_release (hlive : ∀ k z, r.keys.lookup k = some z → 0 < z.leases) {k' : Bytes}
    (hz : (r.release k).keys.lookup k' = some z) :
    0 < z.leases ∧ ∃ z', r.keys.lookup k' = some z' ∧ z.generation = z'.generation ∧
      z.pending = z'.pending ∧ z.holder = z'.holder := by
  rw [Registry.release_lookup] at hz
  split at hz
  · rename_i hk
    subst hk
    cases hl : r.keys.lookup k' with
    | none => rw [hl] at hz; cases hz
    | some z' =>
      rw [hl, bind_some] at hz
      split at hz
      · cases hz
      · rename_i hpos
        cases hz
        exact ⟨Nat.pos_of_ne_zero hpos, z', rfl, rfl, rfl, rfl⟩
  · exact ⟨hlive k' z hz, z, hz, rfl, rfl, rfl⟩

theorem count_release (hc : 0 < r.count k) (hlive : ∀ z, r.keys.lookup k = some z → 0 < z.leases)
    (k' : Bytes) : (r.release k).count k' + (k' = k : Bool).toNat = r.count k' := by
  unfold Registry.count
  rw [Registry.release_lookup]
  by_cases hk : k' = k
  · subst hk
    obtain ⟨z, hz⟩ := registered_of_count hc
    have := hlive z hz
    simp only [if_true, hz, bind_some, map_some, getD_some, decide_true,
      Bool.toNat_true]
    split
    · simp only [map_none, getD_none]; omega
    · simp only [map_some, getD_some]; omega
  · simp [hk]

variable (h : Leased r calls jobs log)
include h

/-- A caller drops its lease. -/
theorem release (hx : calls[i]? = some x) (hl : x.lease = some k)
    (hy : y.lease = none) (hp : y.promoting = none) (hc : y.captured i = none) :
    Leased (r.release k) (calls.set i y) jobs log := by
  have hpos : 0 < r.count k := by
    have : 0 < calls.countP (Call.holds k) :=
      countP_pos_iff.mpr ⟨x, mem_of_getElem? hx, by simp [Call.holds, hl]⟩
    rw [h.count k]
    omega
  refine ⟨fun k' => ?_, fun k' z hz => (lookup_release h.live hz).1, fun k' z hz => ?_,
    fun i' x' k' e hx' hpr => ?_, fun i' x' k' g mark hx' hcap z hz => ?_,
    fun n j hj hlj z hz => ?_⟩
  · have hset := countP_set_add hx y (Call.holds k')
    have hcr := count_release hpos (h.live k) k'
    rw [h.count k'] at hcr
    rw [show Call.holds k' y = false from by simp [Call.holds, hy],
      show Call.holds k' x = decide (k' = k) from by simp [Call.holds, hl, eq_comm]] at hset
    simp only [Bool.toNat_false] at hset
    omega
  · obtain ⟨-, z', hz', -, hpe, -⟩ := lookup_release h.live hz
    rw [hpe]; exact h.pending k' z' hz'
  · rcases getElem?_set_cases hx' with ⟨rfl, rfl⟩ | ⟨-, hx'⟩
    · rw [hp] at hpr; cases hpr
    · refine ⟨(h.held i' x' k' e hx' hpr).1, fun z hz => ?_⟩
      obtain ⟨-, z', hz', -, -, hho⟩ := lookup_release h.live hz
      rw [hho]; exact (h.held i' x' k' e hx' hpr).2 z' hz'
  · rcases getElem?_set_cases hx' with ⟨rfl, rfl⟩ | ⟨-, hx'⟩
    · rw [hc] at hcap; cases hcap
    · obtain ⟨-, z', hz', hge, -, -⟩ := lookup_release h.live hz
      rw [hge]; exact h.captured i' x' k' g mark hx' hcap z' hz'
  · obtain ⟨-, z', hz', hge, -, -⟩ := lookup_release h.live hz
    rw [hge]; exact h.own n j hj hlj z' hz'

/-- The state of a key is locked or unlocked. -/
theorem relock (holder : Option Nat)
    (hfree : ∀ i x e, calls[i]? = some x → Call.promoting x = some (k, e) → holder = some i) :
    Leased (r.update k (fun z => { z with holder })) calls jobs log := by
  have hz : ∀ k' z, (r.update k (fun z => { z with holder })).keys.lookup k' = some z →
      ∃ z', r.keys.lookup k' = some z' ∧ z.generation = z'.generation ∧ z.pending = z'.pending ∧
        z.leases = z'.leases ∧ z.holder = if k' = k then holder else z'.holder := by
    intro k' z hz
    rw [Registry.update_lookup] at hz
    split at hz
    · rename_i hk
      subst hk
      cases hl : r.keys.lookup k' with
      | none => rw [hl] at hz; cases hz
      | some z' => rw [hl] at hz; cases hz; exact ⟨z', rfl, rfl, rfl, rfl, (if_pos rfl).symm⟩
    · rename_i hk
      exact ⟨z, hz, rfl, rfl, rfl, (if_neg hk).symm⟩
  refine ⟨fun k' => ?_, fun k' z hz' => ?_, fun k' z hz' => ?_, fun i x k' e hx hpr => ?_,
    fun i x k' g mark hx hcap z hz' => ?_, fun n j hj hlj z hz' => ?_⟩
  · rw [← h.count k', Registry.count, Registry.count, Registry.update_lookup]
    split
    · rename_i hk
      subst hk
      cases r.keys.lookup k' <;> rfl
    · rfl
  · obtain ⟨z', hl, -, -, hle, -⟩ := hz k' z hz'
    rw [hle]; exact h.live k' z' hl
  · obtain ⟨z', hl, -, hpe, -, -⟩ := hz k' z hz'
    rw [hpe]; exact h.pending k' z' hl
  · refine ⟨(h.held i x k' e hx hpr).1, fun z hz' => ?_⟩
    obtain ⟨z', hl, -, -, -, hho⟩ := hz k' z hz'
    rw [hho]
    split
    · rename_i hk
      exact hfree i x e hx (hk ▸ hpr)
    · exact (h.held i x k' e hx hpr).2 z' hl
  · obtain ⟨z', hl, hge, -, -, -⟩ := hz k' z hz'
    rw [hge]; exact h.captured i x k' g mark hx hcap z' hl
  · obtain ⟨z', hl, hge, -, -, -⟩ := hz j.key z hz'
    rw [hge]; exact h.own n j hj hlj z' hl

/-- A job goes on. It may stop to count as pending, or drop its lease, when the registry follows. -/
theorem set_job (hj : jobs[n]? = some j) {stage : JobStage}
    (hlease : stage.leased = true → j.stage.leased = true)
    (hpend : stage.pending = true → j.stage.pending = true)
    (hcount : ∀ k, r'.count k = calls.countP (Call.holds k) +
      (jobs.set n { j with stage }).countP (Mutation.holds k))
    (hlive : ∀ k z, r'.keys.lookup k = some z → 0 < z.leases)
    (hpending : ∀ k z, r'.keys.lookup k = some z →
      z.pending = (jobs.set n { j with stage }).countP (Mutation.pends k))
    (hkeep : ∀ k z, r'.keys.lookup k = some z → ∃ z', r.keys.lookup k = some z' ∧
      z.generation = z'.generation ∧ z.holder = z'.holder) :
    Leased r' calls (jobs.set n { j with stage }) log := by
  have hpast : ∀ (m : Nat) (j' : Mutation), (jobs.set n { j with stage })[m]? = some j' →
      ∃ j'' : Mutation, jobs[m]? = some j'' ∧ j'.key = j''.key ∧
        j'.generation = j''.generation ∧ (j'.stage.leased = true → j''.stage.leased = true) := by
    intro m j' hm
    rcases getElem?_set_cases hm with ⟨rfl, rfl⟩ | ⟨-, hm⟩
    · exact ⟨j, hj, rfl, rfl, hlease⟩
    · exact ⟨j', hm, rfl, rfl, id⟩
  refine ⟨hcount, hlive, hpending, fun i x k e hx hpr => ?_,
    fun i x k g mark hx hcap z hz => ?_, fun m j' hm hlm z hz => ?_⟩
  · refine ⟨(h.held i x k e hx hpr).1, fun z hz => ?_⟩
    obtain ⟨z', hl, -, hho⟩ := hkeep k z hz
    rw [hho]; exact (h.held i x k e hx hpr).2 z' hl
  · obtain ⟨z', hl, hge, -⟩ := hkeep k z hz
    obtain ⟨h0, h1, h2, h3⟩ := h.captured i x k g mark hx hcap z' hl
    rw [hge]
    refine ⟨h0, h1, h2, fun hg j' hm => ?_⟩
    rcases mem_or_eq_of_mem_set hm with hm | rfl
    · exact h3 hg j' hm
    · have := h3 hg j (mem_of_getElem? hj)
      simp only [Mutation.pends, Bool.and_eq_false_iff, decide_eq_false_iff_not] at this ⊢
      exact this.imp_left (fun hf => by
        cases hs : stage.pending with
        | false => rfl
        | true => rw [hpend hs] at hf; cases hf)
  · obtain ⟨j'', hm', hk, hg, hlj⟩ := hpast m j' hm
    rw [hk] at hz ⊢
    obtain ⟨z', hl, hge, -⟩ := hkeep j''.key z hz
    obtain ⟨h1, h2⟩ := h.own m j'' hm' (hlj hlm) z' hl
    rw [hge, hg]
    refine ⟨h1, fun he m' j3 hlt hm3 => ?_⟩
    obtain ⟨j4, hm4, hk4, -, -⟩ := hpast m' j3 hm3
    rw [hk4]
    exact h2 he m' j4 hlt hm4

/-- A job goes on with its lease, and still pending if it was. -/
theorem stage (hj : jobs[n]? = some j) {stage : JobStage}
    (hlease : stage.leased = j.stage.leased) (hpend : stage.pending = j.stage.pending) :
    Leased r calls (jobs.set n { j with stage }) log := by
  refine h.set_job hj (by rw [hlease]; exact id) (by rw [hpend]; exact id) (fun k => ?_) h.live
    (fun k z hz => ?_) (fun k z hz => ⟨z, hz, rfl, rfl⟩)
  · have := countP_set_add hj { j with stage } (Mutation.holds k)
    rw [show Mutation.holds k { j with stage } = Mutation.holds k j from by
      simp [Mutation.holds, hlease]] at this
    rw [h.count k]
    omega
  · have := countP_set_add hj { j with stage } (Mutation.pends k)
    rw [show Mutation.pends k { j with stage } = Mutation.pends k j from by
      simp [Mutation.pends, hpend]] at this
    rw [h.pending k z hz]
    omega

/-- A mutation is dropped: it no longer counts as pending. -/
theorem unpend (hj : jobs[n]? = some j) {stage : JobStage} (hl : j.stage.leased = true)
    (hlease : stage.leased = true) (hp : j.stage.pending = true) (hpend : stage.pending = false) :
    Leased (r.update j.key (fun z => { z with pending := z.pending - 1 })) calls
      (jobs.set n { j with stage }) log := by
  have hz : ∀ k z, (r.update j.key (fun z => { z with pending := z.pending - 1 })).keys.lookup k =
      some z → ∃ z', r.keys.lookup k = some z' ∧ z.generation = z'.generation ∧
        z.holder = z'.holder ∧ z.leases = z'.leases ∧
        z.pending = if k = j.key then z'.pending - 1 else z'.pending := by
    intro k z hz
    rw [Registry.update_lookup] at hz
    split at hz
    · rename_i hk
      subst hk
      cases hl : r.keys.lookup j.key with
      | none => rw [hl] at hz; cases hz
      | some z' => rw [hl] at hz; cases hz; exact ⟨z', rfl, rfl, rfl, rfl, (if_pos rfl).symm⟩
    · rename_i hk
      exact ⟨z, hz, rfl, rfl, rfl, (if_neg hk).symm⟩
  refine h.set_job hj (fun _ => hl) (fun hc => by rw [hpend] at hc; cases hc) (fun k => ?_)
    (fun k z hz' => ?_) (fun k z hz' => ?_) (fun k z hz' => ?_)
  · have hset := countP_set_add hj { j with stage } (Mutation.holds k)
    rw [show Mutation.holds k { j with stage } = Mutation.holds k j from by
      simp [Mutation.holds, hl, hlease]] at hset
    have hr : (r.update j.key (fun z => { z with pending := z.pending - 1 })).count k =
        r.count k := by
      rw [Registry.count, Registry.count, Registry.update_lookup]
      split
      · rename_i hk
        subst hk
        cases r.keys.lookup j.key <;> rfl
      · rfl
    rw [hr, h.count k]
    omega
  · obtain ⟨z', hl', -, -, hle, -⟩ := hz k z hz'
    rw [hle]; exact h.live k z' hl'
  · obtain ⟨z', hl', -, -, -, hpe⟩ := hz k z hz'
    have hset := countP_set_add hj { j with stage } (Mutation.pends k)
    rw [show Mutation.pends k { j with stage } = false from by simp [Mutation.pends, hpend],
      show Mutation.pends k j = decide (k = j.key) from by
        simp [Mutation.pends, hp, eq_comm]] at hset
    rw [hpe, h.pending k z' hl']
    by_cases hk : k = j.key
    · simp only [hk, decide_true, Bool.toNat_true, Bool.toNat_false] at hset ⊢
      simp only [if_true]
      omega
    · simp only [hk, decide_false, Bool.toNat_false] at hset ⊢
      simp only [if_false]
      omega
  · obtain ⟨z', hl', hge, hho, -, -⟩ := hz k z hz'
    exact ⟨z', hl', hge, hho⟩

/-- A job drops its lease. -/
theorem release_job (hj : jobs[n]? = some j) {stage : JobStage} (hl : j.stage.leased = true)
    (hlease : stage.leased = false) (hpend : stage.pending = j.stage.pending) :
    Leased (r.release j.key) calls (jobs.set n { j with stage }) log := by
  have hpos : 0 < r.count j.key := by
    have : 0 < jobs.countP (Mutation.holds j.key) :=
      countP_pos_iff.mpr ⟨j, mem_of_getElem? hj, by simp [Mutation.holds, hl]⟩
    rw [h.count j.key]
    omega
  refine h.set_job hj (fun _ => hl) (by rw [hpend]; exact id) (fun k => ?_)
    (fun k z hz => (lookup_release h.live hz).1) (fun k z hz => ?_) (fun k z hz => ?_)
  · have hset := countP_set_add hj { j with stage } (Mutation.holds k)
    have hcr := count_release hpos (h.live j.key) k
    rw [h.count k] at hcr
    rw [show Mutation.holds k { j with stage } = false from by simp [Mutation.holds, hlease],
      show Mutation.holds k j = decide (k = j.key) from by
        simp [Mutation.holds, hl, eq_comm]] at hset
    simp only [Bool.toNat_false] at hset
    omega
  · obtain ⟨-, z', hz', -, hpe, -⟩ := lookup_release h.live hz
    have hset := countP_set_add hj { j with stage } (Mutation.pends k)
    rw [show Mutation.pends k { j with stage } = Mutation.pends k j from by
      simp [Mutation.pends, hpend]] at hset
    rw [hpe, h.pending k z' hz']
    omega
  · obtain ⟨-, z', hz', hge, -, hho⟩ := lookup_release h.live hz
    exact ⟨z', hz', hge, hho⟩

/-- A lookup sees the generation of its key, with nothing pending, and marks it. -/
theorem see {g : Nat} (hx : calls[i]? = some x)
    (hz : r.keys.lookup k = some z) (hl : x.lease = some k) (hpend : z.pending = 0)
    (hy : y.lease = some k) (hp : y.promoting = none) (hc : y.captured i = some (k, g, mark))
    (hg : z.generation = g) : Leased r (calls.set i y) jobs (log ++ [mark]) := by
  have hmark := Call.captured_mark hc
  have hquiet : ∀ j ∈ jobs, j.pends k = false := by
    have h0 := h.pending k z hz
    rw [hpend] at h0
    intro j hj
    simpa using countP_eq_zero.mp h0.symm j hj
  -- The caller first forgets what it knew, so the mark is news to everybody.
  have hforget := h.move (y := .Leaving k) hx (by rw [hl]; rfl) rfl (.inl rfl)
  have hlen : (calls.set i (.Leaving k))[i]? = some (.Leaving k) := by
    rw [List.getElem?_set_self (List.getElem?_eq_some_iff.mp hx).1]
  have hemit : Leased r (calls.set i (.Leaving k)) jobs (log ++ [mark]) := by
    refine hforget.emit ?_ ?_ ?_
    · rintro n k' entry token rfl
      rcases hmark with h | h <;> cases h
    · rintro i' x' k' g' mark' hx' hc' rfl
      have hi : i' = i := by
        rcases hmark with rfl | rfl <;> rcases Call.captured_mark hc' with h | h <;> cases h <;> rfl
      subst hi
      rw [hlen] at hx'
      cases hx'
      cases hc'
    · rintro i' x' p hx' hp' rfl
      have hi : i' = i := by
        rcases hmark with h | h <;> cases h; rfl
      subst hi
      rw [hlen] at hx'
      cases hx'
      cases hp'
  have := hemit.set_call (y := y) hlen (by rw [hy]; rfl) (by rw [hp]; exact fun _ _ h => by cases h)
    (fun k' g' mark' hc' z' hz' => by
      rw [hc] at hc'
      cases hc'
      rw [hz] at hz'
      cases hz'
      refine ⟨mem_append_right _ (mem_singleton_self _), Nat.le_of_eq hg.symm, ?_,
        fun _ => hquiet⟩
      simp [quietStep, hg])
  rwa [set_set] at this

/-- A mutation of `k` is admitted by a caller that has the lease: the lease moves to the job. -/
theorem admission {entry : Option Entry}
    {token : Option Nat} {task : Task} (hx : calls[i]? = some x)
    (hl : x.lease = some k) (hz : r.keys.lookup k = some z) (hfree : z.holder = none) :
    Leased (r.update k (fun _ =>
        { z with generation := z.generation + 1, pending := z.pending + 1 }))
      (calls.set i .Done) (jobs ++ [⟨k, z.generation + 1, task, .Submitted⟩])
      (log ++ [.admitted n k entry token]) := by
  have hlook : ∀ k' z', (r.update k (fun _ =>
      { z with generation := z.generation + 1, pending := z.pending + 1 })).keys.lookup k' =
        some z' →
        (k' = k ∧ z' = { z with generation := z.generation + 1, pending := z.pending + 1 }) ∨
          (k' ≠ k ∧ r.keys.lookup k' = some z') := by
    intro k' z' hz'
    rw [Registry.update_lookup] at hz'
    split at hz'
    · rename_i hk
      rw [hz] at hz'
      cases hz'
      exact .inl ⟨hk, rfl⟩
    · rename_i hk
      exact .inr ⟨hk, hz'⟩
  refine ⟨fun k' => ?_, fun k' z' hz' => ?_, fun k' z' hz' => ?_, fun i' x' k' e hx' hpr => ?_,
    fun i' x' k' g mark hx' hcap z' hz' => ?_, fun m j' hm hlm z' hz' => ?_⟩
  · have hset := countP_set_add hx .Done (Call.holds k')
    have hr : (r.update k (fun _ =>
        { z with generation := z.generation + 1, pending := z.pending + 1 })).count k' =
          r.count k' := by
      rw [Registry.count, Registry.count, Registry.update_lookup]
      split
      · rename_i hk
        rw [hk, hz]
        rfl
      · rfl
    rw [show Call.holds k' Call.Done = false from by simp [Call.holds, Call.lease],
      show Call.holds k' x = decide (k = k') from by simp [Call.holds, hl]] at hset
    rw [hr, h.count k', countP_append, countP_singleton]
    by_cases hk : k = k'
    · simp only [hk, decide_true, Bool.toNat_true, Bool.toNat_false] at hset
      simp only [Mutation.holds, JobStage.leased, hk, decide_true, Bool.and_self, if_true]
      omega
    · simp only [hk, decide_false, Bool.toNat_false] at hset
      simp only [Mutation.holds, JobStage.leased, hk, decide_false, Bool.and_false]
      simp only [Bool.false_eq_true, if_false]
      omega
  · rcases hlook k' z' hz' with ⟨rfl, rfl⟩ | ⟨-, hz'⟩
    · exact h.live k' z hz
    · exact h.live k' z' hz'
  · rw [countP_append, countP_singleton]
    rcases hlook k' z' hz' with ⟨rfl, rfl⟩ | ⟨hk, hz'⟩
    · simp only [Mutation.pends, JobStage.pending, decide_true, Bool.and_self, if_true]
      rw [← h.pending k' z hz]
    · simp only [Mutation.pends, JobStage.pending, decide_eq_false (Ne.symm hk), Bool.and_false,
        Bool.false_eq_true, if_false]
      exact h.pending k' z' hz'
  · rcases getElem?_set_cases hx' with ⟨rfl, rfl⟩ | ⟨-, hx'⟩
    · cases hpr
    · obtain ⟨hq, hh⟩ := h.held i' x' k' e hx' hpr
      -- Somebody who keeps the state of `k` locked would have kept this admission out.
      have hk : k' ≠ k := by
        rintro rfl
        rw [hh z hz] at hfree
        cases hfree
      refine ⟨?_, fun z' hz' => ?_⟩
      · rw [quiet_append, quietStep_of_ne (by simp)]
        refine ⟨hq, fun n entry token he => ?_⟩
        cases he
        exact hk rfl
      · rcases hlook k' z' hz' with ⟨rfl, -⟩ | ⟨-, hz'⟩
        · exact absurd rfl hk
        · exact hh z' hz'
  · rcases getElem?_set_cases hx' with ⟨rfl, rfl⟩ | ⟨-, hx'⟩
    · cases hcap
    · have hne : Event.admitted n k entry token ≠ mark := by
        rcases Call.captured_mark hcap with rfl | rfl <;> simp
      rw [quiet_append, quietStep_of_ne hne]
      rcases hlook k' z' hz' with ⟨rfl, rfl⟩ | ⟨hk, hz'⟩
      · obtain ⟨h0, h1, h2, h3⟩ := h.captured i' x' k' g mark hx' hcap z hz
        refine ⟨mem_append_left _ h0, by simp only; omega, ⟨fun hg => ?_, fun hq => ?_⟩,
          fun hg => ?_⟩
        · simp only at hg; omega
        · exact absurd rfl (hq.2 n entry token)
        · simp only at hg; omega
      · obtain ⟨h0, h1, h2, h3⟩ := h.captured i' x' k' g mark hx' hcap z' hz'
        refine ⟨mem_append_left _ h0, h1,
          ⟨fun hg => ⟨h2.mp hg, fun n entry token he => ?_⟩, fun hq => h2.mpr hq.1⟩,
          fun hg j' hm => ?_⟩
        · cases he
          exact hk rfl
        · rcases mem_append.mp hm with hm | hm
          · exact h3 hg j' hm
          · rw [mem_singleton.mp hm]
            simp [Mutation.pends, Ne.symm hk]
  · rcases getElem?_append_cases hm with ⟨rfl, rfl⟩ | hm
    · rcases hlook k z' hz' with ⟨-, rfl⟩ | ⟨hk, -⟩
      · refine ⟨Nat.le_refl _, fun _ m j'' hlt hm' => ?_⟩
        rcases getElem?_append_cases hm' with ⟨hm', -⟩ | hm'
        · omega
        · have := (List.getElem?_eq_some_iff.mp hm').1
          omega
      · exact absurd rfl hk
    · rcases hlook j'.key z' hz' with ⟨hk, rfl⟩ | ⟨hk, hz'⟩
      · obtain ⟨h1, -⟩ := h.own m j' hm hlm z (hk ▸ hz)
        refine ⟨by simp only; omega, fun hg => ?_⟩
        simp only at hg
        omega
      · obtain ⟨h1, h2⟩ := h.own m j' hm hlm z' hz'
        refine ⟨h1, fun hg m' j'' hlt hm' => ?_⟩
        rcases getElem?_append_cases hm' with ⟨-, rfl⟩ | hm'
        · exact Ne.symm hk
        · exact h2 hg m' j'' hlt hm'

end Leased
end moat_cache
