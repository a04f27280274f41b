-- In every run of the cache the directory of a disk keeps its limits and its
-- totals, and it agrees with the store on every chunk that is not being worked on.
-- Keys are registered while they are held, and mutations of a chunk take turns.
import Moat.CacheCoherence
import Moat.CacheHistory

namespace moat_cache

open moat_common catalog registry scheduler List Function Option

/-! ## Callers -/

/-- What a step that no job takes does to the directories, the store and the jobs: a hit is marked,
or a new job is submitted. -/
structure System.Beside (c : Config) (s s' : System) : Prop where
  control : s'.control = s.control
  store : s'.store = s.store
  failures : s'.failures = s.failures ∨ s'.failures = none
  disks : s'.disks = s.disks ∨ ∃ key lsn, s'.disks = update s.disks (c.place key)
    ((s.disks (c.place key)).validate_hit (c.identify key) lsn).2
  jobs : s'.jobs = s.jobs ∨ ∃ j, j.stage = .Submitted ∧ s'.jobs = s.jobs ++ [j]

variable {a : Action}

section
variable {c : Config} {s s' : System} {o : Choice}

theorem System.Beside.same (hc : s'.control = s.control) (hst : s'.store = s.store)
    (hf : s'.failures = s.failures) (hd : s'.disks = s.disks) (hj : s'.jobs = s.jobs) :
    s.Beside c s' :=
  ⟨hc, hst, .inl hf, .inl hd, .inl hj⟩

theorem System.call_beside {i : Nat} {x : Call} (hs : s.call c i o x = some s') :
    s.Beside c s' := by
  cases x with
  | Lookup key stage =>
    cases stage with
    | Validate g lsn p =>
      simp only [System.call, System.lookup] at hs
      repeat' split at hs
      all_goals cases hs
      · rename_i he
        exact ⟨rfl, rfl, .inl rfl, .inr ⟨key, lsn, by rw [he]; rfl⟩, .inl rfl⟩
      · rename_i he
        exact ⟨rfl, rfl, .inl rfl, .inr ⟨key, lsn, by rw [he]; rfl⟩, .inl rfl⟩
      · exact .same rfl rfl rfl rfl rfl
    | Acquire =>
      simp only [System.call, System.lookup, System.acquire] at hs
      cases hs
      repeat' split
      all_goals exact .same rfl rfl rfl rfl rfl
    | Promote =>
      cases hs
      split <;> exact .same rfl rfl rfl rfl rfl
    | Probe | Capture | Waiting | Open | Again | Version | Get | Recheck =>
      simp only [System.call, System.lookup] at hs
      repeat' split at hs
      all_goals cases hs
      all_goals exact .same rfl rfl rfl rfl rfl
  | Insert | Invalidate =>
    simp only [System.call, System.acquire] at hs
    cases hs
    repeat' split
    all_goals exact .same rfl rfl rfl rfl rfl
  | Admit | AdmitRemoval =>
    simp only [System.call, System.admit] at hs
    repeat' split at hs
    all_goals cases hs
    all_goals first
      | exact .same rfl rfl rfl rfl rfl
      | exact ⟨rfl, rfl, .inl rfl, .inl rfl, .inr ⟨_, rfl, rfl⟩⟩
  | GetMemory | Reserve | ReserveRemoval | Leaving | Token | Done =>
    simp only [System.call] at hs
    repeat' split at hs
    all_goals cases hs
    all_goals exact .same rfl rfl rfl rfl rfl

/-- One step of the cache: a job goes on, or something happens beside the jobs. -/
theorem System.act_cases (hs : s.act c a = some s') :
    s.Beside c s' ∨ ∃ n o j, a = .job n o ∧ s.jobs[n]? = some j ∧
      jobOf c n j.key ∈ s.scheduler.running ∧ s.job c n j o = some s' := by
  cases a with
  | call =>
    simp only [System.act] at hs
    split at hs
    · exact .inl (System.call_beside hs)
    · cases hs
  | job n o =>
    simp only [System.act] at hs
    split at hs
    · rename_i j hj
      split at hs
      · rename_i hrun
        exact .inr ⟨n, o, j, rfl, hj, hrun, hs⟩
      · cases hs
    · cases hs
  | fenced =>
    simp only [System.act] at hs
    split at hs <;> cases hs <;> exact .inl ⟨rfl, rfl, .inr rfl, .inl rfl, .inl rfl⟩
  | get_memory | lookup | insert | invalidate | populate | drop_token | drop_lookup | receive
  | completed | shrink | flush | close =>
    simp only [System.act, System.populate] at hs
    repeat' split at hs
    all_goals cases hs
    all_goals exact .inl (.same rfl rfl rfl rfl rfl)

theorem Kept.beside {honest : Prop} (h : Kept c honest s) (hb : s.Beside c s') :
    Kept c honest s' := by
  have h₁ : Kept c honest { s with disks := s'.disks } := by
    rcases hb.disks with he | ⟨key, lsn, he⟩ <;> rw [he]
    · exact h
    · exact h.same (State.validate_hit_spec ..).1
        ((State.validate_hit_spec ..).2 (h.guarded.sound _))
  have hf : honest → ∀ e, s'.failures = some e → e ∉ coherenceErrors := by
    intro hh e he
    rcases hb.failures with hf | hf <;> rw [hf] at he
    · exact (h.clean hh).2 e he
    · cases he
  rcases hb.jobs with hj | ⟨j, hst, hj⟩
  · refine ⟨?_, ?_, fun hh => ⟨?_, hf hh⟩⟩
    · rw [hb.control, hj]; exact h₁.guarded
    · rw [hb.store, hj]; exact h₁.coherent
    · rw [hj]; exact (h.clean hh).1
  · refine ⟨?_, fun hh => ?_, fun hh => ⟨fun x hx e he => ?_, hf hh⟩⟩
    · rw [hb.control, hj]; exact h₁.guarded.admission hst
    · rw [hb.store, hj]; exact (h₁.coherent hh).admission hst
    · rw [hj] at hx
      rcases mem_append.mp hx with hx | hx
      · exact (h.clean hh).1 x hx e he
      · rw [mem_singleton.mp hx, hst] at he
        cases he

end

/-! ## Runs -/

/-- A request to the store that fails has had no effect. -/
def Action.honest : Action → Bool
  | .call _ o | .job _ o => !o.executed
  | _ => true

variable {choices : Nat → List Choice} {stores : Nat → Store} {state : State}

namespace Kept

variable {c : Config} {honest : Prop} {init : Nat → Store} {past : Past} {s s' : System}

theorem act (h : Kept c honest s) (hi : Inv c init past s)
    (ha : honest → a.honest = true) (hs : s.act c a = some s') : Kept c honest s' := by
  rcases System.act_cases hs with hb | ⟨n, o, j, rfl, hj, hrun, hs⟩
  · exact h.beside hb
  · exact h.job hj hi hrun (fun hh => by simpa [Action.honest] using ha hh) hs

theorem run (h : Kept c honest s) (hi : Inv c init past s) {as : List Action}
    (ha : honest → ∀ a ∈ as, a.honest = true) (hs : s.run c as = some s') : Kept c honest s' := by
  induction as generalizing s past with
  | nil => cases hs; exact h
  | cons a as ih =>
    simp only [System.run] at hs
    split at hs
    · cases hs
    · rename_i s₁ hact
      obtain ⟨past₁, hi₁⟩ := hi.act hact
      exact ih (h.act hi (fun hh => ha hh a mem_cons_self) hact) hi₁
        (fun hh x hx => ha hh x (mem_cons_of_mem _ hx)) hs

theorem new {b : Budgets} (h : System.new c b choices stores = .ok s) : Kept c honest s := by
  obtain ⟨hopen, -, -, -, -, hf, -, hjobs, -⟩ := System.new_spec h
  refine ⟨?_, fun _ => ?_, fun _ => ?_⟩
  · rw [hjobs]
    exact ⟨fun d => (hopen d).sound, fun d => (hopen d).within, fun d => (hopen d).placed,
      fun n j hj => (by cases hj), fun n j v hj => (by cases hj),
      fun d id hm => (by rw [(hopen d).idle] at hm; cases hm), fun n j hj => (by cases hj)⟩
  · rw [hjobs]
    exact ⟨fun id _ => (hopen _).agree id rfl, fun j hj => (by cases hj), fun d => (hopen d).clock⟩
  · rw [hjobs, hf]
    exact ⟨fun j hj => (by cases hj), fun e he => (by cases he)⟩

end Kept

/-! ## Reservations -/

section
variable {c : Config} {s s' : System} {n : Nat} {j : Mutation} {o : Choice}

theorem charged_update {disks : Nat → State} {d : Nat} (h : (disks d).Charged state)
    (e : Nat) : (disks e).Charged (update disks d state e) := by
  by_cases he : e = d
  · subst he
    rw [update_self]
    exact h
  · rw [update_of_ne he]
    exact .same rfl

theorem System.write_charged {p : Prepared} {encoded : Bytes} {stage : JobStage}
    (hs : s.write c n j p encoded o stage = some s') (d : Nat) :
    (s.disks d).Charged (s'.disks d) := by
  cases stage with
  | Submitted =>
    simp only [System.write] at hs
    split at hs
    · cases hs; exact .same rfl
    split at hs <;> cases hs <;> exact .same rfl
  | Control =>
    simp only [System.write] at hs
    split at hs <;> cases hs
    exact .same rfl
  | Deciding =>
    simp only [System.write] at hs
    split at hs
    · cases hs; exact .same rfl
    · cases hs; exact .same rfl
    rename_i allocation _ _
    have hd := (s.disks (c.place j.key)).charged_decide (c.disk (c.place j.key)) (c.identify j.key)
      encoded.length allocation o.free_segments
    split at hs <;> rename_i he <;> cases hs <;> rw [he] at hd <;> exact charged_update hd d
  | Evicting =>
    simp only [System.write] at hs
    split at hs <;> cases hs <;> exact .same rfl
  | Evicted victim =>
    cases hs
    exact charged_update (.same (State.active_remove _ victim)) d
  | Parked =>
    cases hs
    exact .same rfl
  | Putting =>
    have hf := (s.disks (c.place j.key)).charged_finish (c.identify j.key)
    simp only [System.write] at hs
    split at hs
    · cases hs
      exact charged_update hf d
    split at hs <;> cases hs
    · exact charged_update hf d
    · exact .same rfl
  | Stored lsn =>
    have hc : (s.disks (c.place j.key)).Charged
        (((s.disks (c.place j.key)).insert (c.identify j.key) lsn encoded.length).1.finish
          (c.identify j.key)) := by
      have hf := ((s.disks (c.place j.key)).insert (c.identify j.key) lsn
        encoded.length).1.charged_finish (c.identify j.key)
      have ha := (s.disks (c.place j.key)).active_insert (c.identify j.key) lsn encoded.length
      cases hf with
      | same h => exact .same (h.trans ha)
      | made id a hn h => exact .made id a (ha ▸ hn) (ha ▸ h)
      | ended id a hl h => exact .ended id a (ha ▸ hl) (ha ▸ h)
    simp only [System.write] at hs
    split at hs <;> rename_i hi <;> cases hs <;> rw [hi] at hc <;> exact charged_update hc d
  | Written =>
    simp only [System.write] at hs
    split at hs
    · cases hs
    split at hs
    · cases hs
    simp only [some.injEq] at hs
    subst hs
    split <;> split <;> exact .same rfl
  | Versioning | Reading | Deleting | Removing | Finishing | Released | Replying | Finished =>
    cases hs

theorem System.remove_charged {removed : Bool} {stage : JobStage}
    (hs : s.remove c n j removed o stage = some s') (d : Nat) :
    (s.disks d).Charged (s'.disks d) := by
  cases stage with
  | Submitted =>
    cases hs
    exact .same rfl
  | Control =>
    simp only [System.remove] at hs
    split at hs <;> cases hs
    exact .same rfl
  | Versioning =>
    simp only [System.remove] at hs
    split at hs <;> cases hs <;> exact .same rfl
  | Reading =>
    simp only [System.remove] at hs
    split at hs
    · cases hs; exact .same rfl
    · cases hs; exact .same rfl
    split at hs
    · cases hs; exact .same rfl
    split at hs
    · cases hs; exact .same rfl
    split at hs <;> cases hs <;> exact .same rfl
  | Deleting =>
    simp only [System.remove] at hs
    split at hs
    · cases hs
    split at hs <;> cases hs <;> exact .same rfl
  | Removing =>
    cases hs
    exact charged_update (.same (State.active_remove_version ..)) d
  | Deciding | Evicting | Evicted | Parked | Putting | Stored | Written | Finishing | Released
  | Replying | Finished => cases hs

theorem System.job_charged (hs : s.job c n j o = some s') (d : Nat) :
    (s.disks d).Charged (s'.disks d) := by
  unfold System.job at hs
  split at hs
  · split at hs
    · cases hs
    · split at hs <;> cases hs
      exact .same rfl
  · cases hs
    exact .same rfl
  · cases hs
    unfold System.reply
    split <;> exact .same rfl
  · cases hs
  · split at hs
    · exact System.write_charged hs d
    · exact System.remove_charged hs d

/-- Beside the jobs, nobody makes or ends a reservation. -/
theorem System.act_charged (hs : s.act c a = some s') (d : Nat) :
    (s.disks d).Charged (s'.disks d) := by
  rcases System.act_cases hs with hb | ⟨n, o, j, -, -, -, hs⟩
  · rcases hb.disks with he | ⟨key, lsn, he⟩ <;> rw [he]
    · exact .same rfl
    · exact charged_update (.same (State.validate_hit_spec ..).1.active) d
  · exact System.job_charged hs d

end

/-! ## Opening without a conflict -/

variable {c : Config} {e : Error}

/-- The trim deletes the versions that the inventory told it. -/
theorem Opening.trim_error {d : Nat} {init store : Store}
    {choices : List Choice} (h : Opening c d init state store)
    (ht : moat_cache.trim (c.disk d) choices state store = .error e) : e ∉ coherenceErrors := by
  induction choices generalizing state store with
  | nil =>
    unfold moat_cache.trim at ht
    split at ht <;> cases ht
    simp [coherenceErrors]
  | cons o choices ih =>
    unfold moat_cache.trim at ht
    split at ht
    · cases ht
    · simp only at ht
      split at ht
      · cases ht
        simp [coherenceErrors]
      · rename_i id lsn state₁ hv
        have hvic := (state.victim_spec (c.disk d).policy none).2.2 id lsn (by rw [hv])
        have h₁ := h.choose (c.disk d).policy
        rw [hv] at h₁
        split at ht
        · cases ht
          simp [coherenceErrors]
        · cases ht
          simp [coherenceErrors]
        · rename_i hd
          -- the slot of the victim has the version of the store, so nothing has changed
          exfalso
          obtain ⟨l, b, hl, hne⟩ := Store.delete_changed hd
          have hslot : id ∈ state.slots := by
            rw [← AList.lookup_isSome, ← isSome_map (f := Slot.lsn), ← State.lsn, hvic.1]
            rfl
          have hlsn := hvic.1
          rw [State.lsn_eq_record, h.agree id (h.placed id hslot), Store.record, hl] at hlsn
          cases hlsn
          exact hne rfl
        · rename_i hd
          exact ih (h₁.evict hd (by assumption)) ht

theorem load_error {d : Nat} {inventory : List moat_cache_store.InventoryEntry}
    (h : load c d inventory state = .error e) : e ∉ coherenceErrors := by
  induction inventory generalizing state with
  | nil => cases h
  | cons _ _ ih =>
    unfold load at h
    split at h
    · cases h
      simp [coherenceErrors]
    split at h
    · cases h
      simp [coherenceErrors]
    split at h
    · exact ih h
    · cases h
      simp [coherenceErrors]

theorem openDisks_error {n : Nat}
    (h : openDisks c choices stores n = .error e) : e ∉ coherenceErrors := by
  induction n with
  | zero => cases h
  | succ n ih =>
    unfold openDisks at h
    split at h
    · rename_i he
      cases h
      exact ih he
    · split at h
      · rename_i he
        cases h
        unfold openDisk at he
        split at he
        · rename_i hl
          cases he
          exact load_error hl
        · rename_i hl
          exact (Opening.load hl).trim_error he
      · cases h

theorem System.new_error {b : Budgets}
    (h : System.new c b choices stores = .error e) : e ∉ coherenceErrors := by
  unfold System.new at h
  split at h
  · cases h
    simp [coherenceErrors]
  split at h
  · rename_i he
    cases h
    exact openDisks_error he
  split at h
  · rename_i he
    cases h
    unfold Scheduler.new at he
    split at he <;> cases he
    simp [coherenceErrors]
  · cases h

/-! ## Main results -/

/-- No mutation of the chunk is under way, no write evicts it, and none holds a reservation of
it. -/
def System.resting (c : Config) (s : System) (id : ChunkId) : Prop :=
  (∀ j ∈ s.jobs, c.identify j.key = id → ∃ outcome, j.stage = .Finished outcome) ∧
    (∀ j ∈ s.jobs, j.stage.victim ≠ some id) ∧ id ∉ (s.disks (c.disk_of id)).active

/-- If the store fails only without effect, the directory of a resting chunk is the store's record
of it, and nobody finds the two at odds, at the opening or later. -/
theorem directory_and_store_agree {c : Config} {b : Budgets} {choices : Nat → List Choice}
    {stores : Nat → Store} {s₀ s : System} {as : List Action}
    (h : System.new c b choices stores = .ok s₀) (ha : ∀ a ∈ as, a.honest = true)
    (hr : s₀.run c as = some s) :
    (∀ id, s.resting c id →
      (s.disks (c.disk_of id)).record id = (s.store (c.disk_of id)).record id) ∧
    (∀ j ∈ s.jobs, ∀ e ∈ coherenceErrors, j.stage.outcome ≠ some (.Failed e)) ∧
    (∀ e ∈ coherenceErrors, s.failures ≠ some e) ∧
    ∀ c b choices stores, ∀ e ∈ coherenceErrors, System.new c b choices stores ≠ .error e := by
  have hk : Kept c True s := (Kept.new h).run (Inv.new h) (fun _ => ha) hr
  refine ⟨fun id hid => ?_, fun j hj e he hf => (hk.clean trivial).1 j hj e hf he,
    fun e he hf => (hk.clean trivial).2 e hf he, fun c b choices stores e he hn =>
      System.new_error hn he⟩
  refine (hk.coherent trivial).agree id (fun j hj => ?_)
  obtain ⟨hjobs, hvictims, -⟩ := hid
  have hdone := hjobs j hj
  have hv := hvictims j hj
  unfold Mutation.touches
  split
  · rename_i hst
    rw [decide_eq_false_iff_not]
    intro hid
    obtain ⟨outcome, ho⟩ := hdone hid
    rw [hst] at ho
    cases ho
  · rename_i hst
    rw [decide_eq_false_iff_not]
    intro hid
    obtain ⟨outcome, ho⟩ := hdone hid
    rw [hst] at ho
    cases ho
  · rename_i v hst
    rw [decide_eq_false_iff_not]
    rintro rfl
    exact hv (by rw [hst]; rfl)
  · rfl

theorem failedOverwrite_directory_agrees :
    ∃ s, smallCache.run oneChunk failedOverwrite = some s ∧
      (s.disks 0).record (oneChunk.identify [1]) = some (1, 58) ∧
      (s.store 0).record (oneChunk.identify [1]) = some (1, 58) := by
  have h : (smallCache.run oneChunk failedOverwrite).map (fun s =>
      (s.jobs.map (·.stage), (s.disks 0).active.entries, (s.disks 0).record
      (oneChunk.identify [1]))) =
      some ([.Finished .Inserted, .Finished (.Failed (.Store .Busy))], [], some (1, 58)) := by
    decide +kernel
  obtain ⟨s, hs, h⟩ := map_eq_some_iff.mp h
  obtain ⟨hjobs, hactive, hrec⟩ : s.jobs.map (·.stage) =
      [.Finished .Inserted, .Finished (.Failed (.Store .Busy))] ∧ (s.disks 0).active.entries = [] ∧
      (s.disks 0).record (oneChunk.identify [1]) = some (1, 58) := by
    simpa using h
  have hdone : ∀ j ∈ s.jobs, ∃ outcome, j.stage = .Finished outcome := fun j hj => by
    have : j.stage ∈ s.jobs.map (·.stage) := mem_map_of_mem hj
    rw [hjobs] at this
    rcases mem_pair.mp this with h | h <;> exact ⟨_, h⟩
  have hrest : s.resting oneChunk (oneChunk.identify [1]) := by
    refine ⟨fun j hj _ => hdone j hj, fun j hj hv => ?_, fun hm => ?_⟩
    · obtain ⟨outcome, ho⟩ := hdone j hj
      rw [ho] at hv
      cases hv
    · rw [AList.mem_keys, AList.keys, show (s.disks (oneChunk.disk_of _)).active.entries = [] from
        hactive] at hm
      cases hm
  have hagree := (directory_and_store_agree smallCache_new (by decide) hs).1 _ hrest
  exact ⟨s, hs, hrec, hagree.symm.trans hrec⟩

/-- A put that does not commit ends the reservation of its write, and leaves the slots alone. -/
theorem System.put_dropped {s s' : System} {n : Nat} {j : Mutation} {o : Choice}
    (hj : s.jobs[n]? = some j) (hst : j.stage = .Putting) (hs : s.act c (.job n o) = some s') :
    (∃ lsn, s'.jobs = s.jobs.set n { j with stage := .Stored lsn }) ∨
      s'.disks = update s.disks (c.place j.key)
        ((s.disks (c.place j.key)).finish (c.identify j.key)) := by
  simp only [System.act, hj] at hs
  split at hs
  · simp only [System.job, hst] at hs
    split at hs
    · simp only [System.write] at hs
      split at hs
      · cases hs
        exact .inr rfl
      split at hs <;> cases hs
      · exact .inr rfl
      · exact .inl ⟨_, rfl⟩
    · cases hs
  · cases hs

/-- In every run the directory of a disk stays below its limits. Its totals are the sums over the
slots and over the reservations, its order and its slots are inverse to each other, and it never
subtracts more than it has. A reservation charges the growth over the slot of its chunk, which stays
as it is; a step makes or ends at most one, and a put that does not commit takes back exactly what
its write was charged. -/
theorem directory_keeps_its_limits {c : Config} {b : Budgets} {choices : Nat → List Choice}
    {stores : Nat → Store} {s₀ s : System} {as : List Action}
    (h : System.new c b choices stores = .ok s₀) (hr : s₀.run c as = some s) (d : Nat) :
    ((s.disks d).Within (c.disk d) ∧ (s.disks d).Sound ∧
      (∀ position id id', (position, id) ∈ (s.disks d).order → (position, id') ∈ (s.disks d).order →
        id = id') ∧
      (s.disks d).Covered ∧ ∀ id lsn len, ((s.disks d).insert id lsn len).1.Covered) ∧
    (∀ (n : Nat) (j : Mutation), s.jobs[n]? = some j → j.stage.reserved = true → c.place j.key = d →
      ∃ p b allocation, j.task = .Write p b ∧ c.write_cost d b.length = .ok allocation ∧
        (s.disks d).active.lookup (c.identify j.key) =
          some ((s.disks d).charge (c.identify j.key) b.length allocation)) ∧
    (∀ a s', s.act c a = some s' →
      ((s'.disks d).active = (s.disks d).active ∧ (s'.disks d).extra = (s.disks d).extra ∧
        (s'.disks d).new = (s.disks d).new ∧ (s'.disks d).allocation = (s.disks d).allocation) ∨
      (∃ id r, (s.disks d).active.lookup id = none ∧
        (s'.disks d).active = (s.disks d).active.insert id r ∧
        (s'.disks d).extra = (s.disks d).extra + r.extra ∧
        (s'.disks d).new = (s.disks d).new + r.new.toNat ∧
        (s'.disks d).allocation = (s.disks d).allocation + r.allocation) ∨
      ∃ id r, (s.disks d).active.lookup id = some r ∧
        (s'.disks d).active = (s.disks d).active.erase id ∧
        (s'.disks d).extra + r.extra = (s.disks d).extra ∧
        (s'.disks d).new + r.new.toNat = (s.disks d).new ∧
        (s'.disks d).allocation + r.allocation = (s.disks d).allocation) ∧
    ∀ (n : Nat) (j : Mutation) o s', s.jobs[n]? = some j → j.stage = .Putting → c.place j.key = d →
      s.act c (.job n o) = some s' →
      (∃ lsn, s'.jobs = s.jobs.set n { j with stage := .Stored lsn }) ∨
      ∃ p b allocation, j.task = .Write p b ∧ c.write_cost d b.length = .ok allocation ∧
        (s'.disks d).active = (s.disks d).active.erase (c.identify j.key) ∧
        (s'.disks d).extra + (b.length - (s.disks d).len (c.identify j.key)) = (s.disks d).extra ∧
        (s'.disks d).new + ((s.disks d).slots.lookup (c.identify j.key)).isNone.toNat =
          (s.disks d).new ∧
        (s'.disks d).allocation + allocation = (s.disks d).allocation ∧
        (s'.disks d).slots = (s.disks d).slots ∧ (s'.disks d).order = (s.disks d).order ∧
        (s'.disks d).bytes = (s.disks d).bytes := by
  obtain ⟨past, hi⟩ := (Inv.new h).run hr
  have hk : Kept c False s := (Kept.new h).run (Inv.new h) (fun hh => hh.elim) hr
  have hsound := hk.guarded.sound d
  refine ⟨⟨hk.guarded.within d, hsound, fun position id id' => hsound.order_inj, hsound.covered,
    fun id lsn len => (hsound.insert id lsn len).covered⟩, fun n j hj hres hd => ?_,
    fun a s' hs => ?_, fun n j o s' hj hst hd hs => ?_⟩
  · rw [← hd]
    exact hk.guarded.reserved n j hj hres
  · exact (System.act_charged hs d).totals hsound
      ((hk.act hi (fun hh => hh.elim) hs).guarded.sound d)
  · rcases System.put_dropped hj hst hs with hcommit | hdisks
    · exact .inl hcommit
    obtain ⟨p, b, allocation, ht, hcost, hl⟩ := hk.guarded.reserved n j hj (by rw [hst]; rfl)
    rw [hd] at hcost hl
    obtain ⟨hextra, hnew, halloc⟩ := hsound.covered.2 _ _ hl
    have hs' : s'.disks d = (s.disks d).finish (c.identify j.key) := by
      rw [hdisks, hd, update_self]
    refine .inr ⟨p, b, allocation, ht, hcost, ?_⟩
    rw [hs', State.finish, hl]
    exact ⟨rfl, Nat.sub_add_cancel hextra, Nat.sub_add_cancel hnew, Nat.sub_add_cancel halloc, rfl,
      rfl, rfl⟩

/-- A write up to its put. -/
def reservedWrite : List Action := (inserting 0 0 firstVersion { free_segments := 1 } 3).take 8

/-- The put fails, and the write gives back the room for its 58 bytes. -/
theorem reservedWrite_keeps_its_limits :
    ∃ s s' allocation, smallCache.run oneChunk reservedWrite = some s ∧
      s.act oneChunk (.job 0 { fails := some .Closed }) = some s' ∧
      (s.disks 0).Within (oneChunk.disk 0) ∧ (s.disks 0).Sound ∧ (s.disks 0).extra = 58 ∧
      (s'.disks 0).allocation + allocation = (s.disks 0).allocation ∧
      (s'.disks 0).slots = (s.disks 0).slots := by
  have h : ((smallCache.run oneChunk reservedWrite).bind (fun s =>
      (s.act oneChunk (.job 0 { fails := some .Closed })).map (fun s' =>
        (s.jobs.map (fun j => (j.key, j.stage)), (s.disks 0).extra, s'.jobs.map (·.stage))))) =
      some ([([1], .Putting)], 58, [.Finishing (.Failed (.Store .Closed))]) := by decide +kernel
  obtain ⟨s, hs, h⟩ := bind_eq_some_iff.mp h
  obtain ⟨s', hs', h⟩ := map_eq_some_iff.mp h
  obtain ⟨hjobs, hextra, hstages⟩ : s.jobs.map (fun j => (j.key, j.stage)) = [([1], .Putting)] ∧
      (s.disks 0).extra = 58 ∧ s'.jobs.map (·.stage) = [.Finishing (.Failed (.Store .Closed))] := by
    simpa using h
  obtain ⟨j, hj, hkey⟩ := map_eq_singleton_iff.mp hjobs
  obtain ⟨⟨hw, hsound, -⟩, -, -, hdrop⟩ := directory_keeps_its_limits smallCache_new hs 0
  rcases hdrop 0 j _ s' (by rw [hj]; rfl) (Prod.mk.inj hkey).2 rfl hs' with ⟨lsn, hl⟩ | hdrop
  · rw [hl, hj] at hstages
    cases hstages
  · obtain ⟨p, b, allocation, -, -, -, -, -, ha, hslots, -⟩ := hdrop
    exact ⟨s, s', allocation, hs, hs', hw, hsound, hextra, ha, hslots⟩

/-! ## Leases and turns -/

variable {b : Budgets} {s₀ s : System} {as : List Action}

/-- A key is registered exactly while a caller or a mutation holds it, with a lease for each, and it
counts its mutations that are pending. When all are done, no key is left. -/
theorem keys_are_registered_while_held (h : System.new c b choices stores = .ok s₀)
    (hr : s₀.run c as = some s) :
    (∀ k, s.registry.count k = s.calls.countP (Call.holds k) + s.jobs.countP (Mutation.holds k)) ∧
    (∀ k, k ∈ s.registry.keys ↔ 0 < s.registry.count k) ∧
    (∀ k r, s.registry.keys.lookup k = some r → r.pending = s.jobs.countP (Mutation.pends k)) ∧
    ((∀ x ∈ s.calls, x.lease = none) → (∀ j ∈ s.jobs, j.stage.leased = false) →
      s.registry.keys = ∅) := by
  obtain ⟨past, hi⟩ := Inv.of_run h hr
  have hl := hi.leased
  have hmem : ∀ k, k ∈ s.registry.keys ↔ 0 < s.registry.count k := by
    intro k
    rw [← AList.lookup_isSome, Registry.count]
    cases hk : s.registry.keys.lookup k with
    | none => simp
    | some r => simpa using hl.live k r hk
  refine ⟨hl.count, hmem, hl.pending, fun hc hj => ?_⟩
  refine AList.ext (List.eq_nil_iff_forall_not_mem.mpr fun e he => ?_)
  have hpos := (hmem e.1).mp (AList.mem_keys.mpr (List.mem_keys_of_mem he))
  rw [hl.count, countP_eq_zero.mpr, countP_eq_zero.mpr] at hpos
  · cases hpos
  · intro j hm
    simp [Mutation.holds, hj j hm]
  · intro x hm
    simp [Call.holds, hc x hm]

/-- A lookup waits for a write of its key, and its future is dropped there. -/
def droppedLookup : List Action :=
  (inserting 0 0 firstVersion {} 2).dropLast ++ [.lookup [1]] ++ List.replicate 3 (.call 1 {}) ++
    [.drop_lookup 1]

/-- The write and the lookup hold the key. The lookup gives its lease back when it is dropped. -/
theorem a_dropped_lookup_releases_its_key :
    ∃ s s', smallCache.run oneChunk droppedLookup = some s ∧ s.registry.count [1] = 2 ∧
      s.act oneChunk (.call 1 {}) = some s' ∧ s'.registry.count [1] = 1 := by
  obtain ⟨s, s', j, hs, hs', ⟨hc, hj⟩, hc', hj'⟩ : ∃ s s' j,
      smallCache.run oneChunk droppedLookup = some s ∧
      smallCache.run oneChunk (droppedLookup ++ [.call 1 {}]) = some s' ∧
      (s.calls = [.Done, .Leaving [1]] ∧ s.jobs = [⟨[1], 1, j, .Deciding⟩]) ∧
      s'.calls = [.Done, .Done] ∧ s'.jobs = [⟨[1], 1, j, .Deciding⟩] :=
    ⟨_, _, _, rfl, rfl, ⟨rfl, rfl⟩, rfl, rfl⟩
  refine ⟨s, s', hs, ?_, ?_, ?_⟩
  · rw [(keys_are_registered_while_held smallCache_new hs).1, hc, hj]
    rfl
  · rw [System.run_append hs] at hs'
    simp only [System.run] at hs'
    split at hs'
    · cases hs'
    · rename_i ha
      rw [ha, hs']
  · rw [(keys_are_registered_while_held smallCache_new hs').1, hc', hj']
    rfl

/-- Mutations of one chunk take turns: until one is finished, those admitted after it have not
begun. Only one job at a time controls a disk, and a chunk that is being evicted is not being
written. -/
theorem mutations_take_turns (h : System.new c b choices stores = .ok s₀)
    (hr : s₀.run c as = some s) (n m : Nat) (j j' : Mutation) (hj : s.jobs[n]? = some j)
    (hj' : s.jobs[m]? = some j') :
    (c.identify j.key = c.identify j'.key → n < m → (∃ o, j.stage = .Finished o) ∨
      j'.stage = .Submitted) ∧
    (c.place j.key = c.place j'.key →
      (j.stage.controls = true → j'.stage.controls = true → n = m) ∧
      (j'.stage.reserved = true → j.stage.victim ≠ some (c.identify j'.key))) := by
  obtain ⟨past, hi⟩ := Inv.of_run h hr
  have hk : Kept c False s := (Kept.new h).run (Inv.new h) (fun hh => hh.elim) hr
  refine ⟨fun hid hlt => ?_, fun hp => ⟨fun hc hc' => ?_, fun hres hv => ?_⟩⟩
  · by_cases hline : jobOf c m j'.key ∈ s.scheduler.line (c.identify j'.key)
    · by_cases hrun : jobOf c m j'.key ∈ s.scheduler.running
      · rcases hi.lined.alone hrun hj hid hlt.ne with ⟨-, ho⟩ | ⟨hgt, -⟩
        · exact .inl ho
        · exact absurd hgt hlt.asymm
      · exact .inr (hi.lined.waiting _ _ hline hrun j' hj')
    -- a mutation that has left its line is finished, and so are those before it
    · have hafter := (hi.lined.rest m j' hj' hline).2
      refine .inl (hi.lined.rest n j hj fun hn => ?_).1
      rw [hid] at hn
      exact hlt.asymm (hafter _ hn)
  · exact (hk.guarded.alone hj hc hj' hc' hp.symm).symm
  · have hactive := hk.guarded.mem_active hj' hres
    rw [← hp] at hactive
    exact hk.guarded.victim n j _ hj hv hactive

/-- Two writes, of which the first has begun. -/
def twoWrites : List Action :=
  (inserting 0 0 firstVersion {} 2).dropLast ++ (inserting 1 1 secondVersion {} 0).dropLast

theorem a_second_write_waits :
    ∃ s j j', smallCache.run oneChunk twoWrites = some s ∧ s.jobs = [j, j'] ∧
      j.stage = .Deciding ∧ j'.stage = .Submitted := by
  obtain ⟨s, j, j', hs, hjobs, hst⟩ : ∃ s j j', smallCache.run oneChunk twoWrites = some s ∧
      s.jobs = [j, j'] ∧ j.stage = .Deciding := ⟨_, _, _, rfl, rfl, rfl⟩
  have hturns := mutations_take_turns smallCache_new hs 0 1 j j' (by rw [hjobs]; rfl)
    (by rw [hjobs]; rfl)
  refine ⟨s, j, j', hs, hjobs, hst, (hturns.1 rfl Nat.one_pos).resolve_left ?_⟩
  rw [hst]
  rintro ⟨o, ⟨⟩⟩

end moat_cache
