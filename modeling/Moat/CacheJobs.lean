-- The jobs of the cache in the coordinator's lines, and in the log: the running
-- job of a chunk is alone between those that are done and those that wait, and
-- the log has every admission and every failure.
import Moat.CacheLeases

namespace moat_cache

open moat_common scheduler List

/-! ## How a job ends -/

def Outcome.ok : Outcome → Bool
  | .Inserted | .Invalidated _ => true
  | .Failed _ | .Unwound => false

def JobStage.outcome : JobStage → Option Outcome
  | .Finishing o | .Released o | .Replying o | .Finished o => some o
  | _ => none

/-- The job has ended in an error, or a panic. -/
def JobStage.failed (stage : JobStage) : Bool := stage.outcome.any (fun o => !o.ok)

/-- The job has done its disk work. -/
def JobStage.settled (stage : JobStage) : Bool := stage = .Written || stage.outcome.any Outcome.ok

variable {stage : JobStage}

/-- A job that is no longer pending has ended, well or not. -/
theorem JobStage.settled_or_failed (h : stage.pending = false) :
    stage.settled = true ∨ stage.failed = true := by
  cases stage with
  | Released o | Replying o | Finished o => cases o <;> simp [settled, failed, outcome, Outcome.ok]
  | _ => cases h

theorem JobStage.not_settled_of_failed (h : stage.failed = true) : stage.settled = false := by
  cases stage with
  | Finishing o | Released o | Replying o | Finished o =>
    cases o <;> simp_all [settled, failed, outcome, Outcome.ok]
  | _ => cases h

/-- What a mutation writes. -/
def Task.entry : Task → Option Entry
  | .Write p _ => some p.entry
  | .Remove _ => none

/-! ## Lines -/

/-- The job of mutation `n`. -/
def jobOf (c : Config) (n : Nat) (key : Bytes) : Job := ⟨some (c.identify key), n⟩

structure Lined (c : Config) (s : Scheduler) (jobs : List Mutation) : Prop where
  ordered : s.Ordered
  known : ∀ id, ∀ job ∈ s.line id, ∃ j, jobs[job.task]? = some j ∧ job = jobOf c job.task j.key
  sorted : ∀ id, (s.line id).Pairwise (fun a b => a.task < b.task)
  waiting : ∀ id, ∀ job ∈ s.line id, job ∉ s.running →
    ∀ j, jobs[job.task]? = some j → j.stage = .Submitted
  rest : ∀ (n : Nat) (j : Mutation), jobs[n]? = some j → jobOf c n j.key ∉ s.line
    (c.identify j.key) →
    (∃ o, j.stage = .Finished o) ∧ ∀ job ∈ s.line (c.identify j.key), n < job.task

namespace Lined

variable {c : Config} {s s' : Scheduler} {jobs : List Mutation} {n : Nat} {j : Mutation}

variable (h : Lined c s jobs)
include h

/-- The running job of a chunk: the others are done if they came before, and wait if they came
after. -/
theorem alone (hrun : jobOf c n j.key ∈ s.running) {m : Nat} {j' : Mutation}
    (hm : jobs[m]? = some j') (hid : c.identify j'.key = c.identify j.key) (hne : m ≠ n) :
    (m < n ∧ ∃ o, j'.stage = .Finished o) ∨ (n < m ∧ j'.stage = .Submitted) := by
  have hline := h.ordered.line_running hrun rfl
  by_cases hmem : jobOf c m j'.key ∈ s.line (c.identify j'.key)
  · refine .inr ?_
    have hmem' := hmem
    rw [hid, hline] at hmem'
    have htail := (mem_cons.mp hmem').resolve_left (fun he => hne (by
      have := congrArg Job.task he
      exact this))
    have hsorted := h.sorted (c.identify j.key)
    rw [hline] at hsorted
    refine ⟨rel_of_pairwise_cons hsorted htail, ?_⟩
    refine h.waiting _ _ hmem (fun hr => hne ?_) j' hm
    have hs := h.ordered.running_single hrun rfl
    have : jobOf c m j'.key ∈ jobsOf (c.identify j.key) s.running :=
      mem_jobsOf.mpr ⟨hr, by rw [← hid]; rfl⟩
    rw [hs] at this
    exact congrArg Job.task (mem_singleton.mp this)
  · obtain ⟨hd, hlt⟩ := h.rest m j' hm hmem
    refine .inl ⟨?_, hd⟩
    have := hlt (jobOf c n j.key) (by rw [hid]; exact h.ordered.mem_line_running hrun rfl)
    exact this

/-- Nothing but the budget changes. -/
theorem congr (hl : ∀ id, s'.line id = s.line id) (ho : s'.Ordered)
    (hr : ∀ x ∈ s.running, x ∈ s'.running) : Lined c s' jobs := by
  refine ⟨ho, fun id => ?_, fun id => ?_, fun id job hm hn => ?_, fun n j hj hn => ?_⟩
  · rw [hl]; exact h.known id
  · rw [hl]; exact h.sorted id
  · rw [hl] at hm
    exact h.waiting id job hm (fun hx => hn (hr job hx))
  · rw [hl] at hn ⊢
    exact h.rest n j hj hn

theorem budget (used : Nat × Nat) : Lined c { s with used } jobs :=
  h.congr (fun _ => rfl) ⟨h.ordered.one, h.ordered.active, h.ordered.nodup, h.ordered.queued⟩
    (fun _ hx => hx)

theorem reserve {bytes : Nat} (hr : s.reserve bytes = .ok s') : Lined c s' jobs := by
  unfold Scheduler.reserve at hr
  split at hr
  · cases hr
  · cases hr
    exact h.budget _

theorem submit_fence (task : Nat) : Lined c (s.submit ⟨none, task⟩) jobs :=
  h.congr (fun id => by rw [Scheduler.Ordered.line_submit]; simp) (h.ordered.submit _)
    (fun _ hx => hx)

theorem receive (hr : s.receive = some s') : Lined c s' jobs := by
  obtain ⟨ho, hl, hrun⟩ := h.ordered.receive hr
  exact h.congr hl ho hrun

theorem fenced {job : Job} (hf : s.fenced = some (job, s')) : Lined c s' jobs := by
  have hl := fun id => (Scheduler.line_fenced hf id).1
  unfold Scheduler.fenced at hf
  split at hf
  · cases hfe : s.fence with
    | none => rw [hfe] at hf; cases hf
    | some =>
      rw [hfe] at hf
      cases hf
      exact h.congr hl ⟨h.ordered.one, h.ordered.active, h.ordered.nodup, h.ordered.queued⟩
        (fun _ hx => hx)
  · cases hf

/-- A running job goes on. -/
theorem set_job (hj : jobs[n]? = some j) (hrun : jobOf c n j.key ∈ s.running) (stage : JobStage) :
    Lined c s (jobs.set n { j with stage }) := by
  have hlen := (List.getElem?_eq_some_iff.mp hj).1
  have hself : (jobs.set n { j with stage })[n]? = some { j with stage } :=
    List.getElem?_set_self hlen
  have hmem := h.ordered.mem_line_running hrun rfl
  refine ⟨h.ordered, fun id job hm => ?_, h.sorted, fun id job hm hn j' hj' => ?_,
    fun m j' hj' hn => ?_⟩
  · obtain ⟨j', hj', he⟩ := h.known id job hm
    by_cases ht : job.task = n
    · rw [ht] at hj' he ⊢
      rw [hj] at hj'
      cases hj'
      exact ⟨_, hself, he⟩
    · exact ⟨j', by rw [List.getElem?_set_ne (Ne.symm ht)]; exact hj', he⟩
  · rcases getElem?_set_cases hj' with ⟨ht, rfl⟩ | ⟨-, hj'⟩
    · obtain ⟨j', hj', he⟩ := h.known id job hm
      rw [ht] at hj' he
      rw [hj] at hj'
      cases hj'
      rw [he] at hn
      exact absurd hrun hn
    · exact h.waiting id job hm hn j' hj'
  · rcases getElem?_set_cases hj' with ⟨rfl, rfl⟩ | ⟨-, hj'⟩
    · exact absurd hmem hn
    · exact h.rest m j' hj' hn

/-- A job is done and leaves its line. -/
theorem completed (hj : jobs[n]? = some j) (hrun : jobOf c n j.key ∈ s.running)
    {o : Outcome} (hd : j.stage = .Finished o) :
    Lined c (s.completed (jobOf c n j.key) (c.identify j.key)) jobs := by
  obtain ⟨ho, hline, hother, hkeep⟩ := h.ordered.completed hrun rfl
  have hsub : ∀ id, ∀ job ∈ (s.completed (jobOf c n j.key) (c.identify j.key)).line id,
      job ∈ s.line id := fun id job hm => by
    by_cases hid : id = c.identify j.key
    · subst hid; rw [hline]; exact mem_cons_of_mem _ hm
    · rw [← hother id hid]; exact hm
  refine ⟨ho, fun id job hm => h.known id job (hsub id job hm), fun id => ?_,
    fun id job hm hn => ?_, fun m j' hj' hn => ?_⟩
  · by_cases hid : id = c.identify j.key
    · subst hid
      have := h.sorted (c.identify j.key)
      rw [hline] at this
      exact this.of_cons
    · rw [hother id hid]; exact h.sorted id
  · refine h.waiting id job (hsub id job hm) (fun hr => ?_)
    by_cases he : job = jobOf c n j.key
    · subst he
      have hid := h.ordered.line_id (hsub id _ hm)
      cases hid
      have := h.sorted (c.identify j.key)
      rw [hline] at this
      exact absurd (rel_of_pairwise_cons this hm) (Nat.lt_irrefl _)
    · exact hn (hkeep job hr he)
  · by_cases hid : c.identify j'.key = c.identify j.key
    · by_cases hmn : m = n
      · subst hmn
        rw [hj] at hj'
        cases hj'
        refine ⟨⟨o, hd⟩, fun job hm => ?_⟩
        have := h.sorted (c.identify j.key)
        rw [hline] at this
        exact rel_of_pairwise_cons this hm
      · have hn' : jobOf c m j'.key ∉ s.line (c.identify j'.key) := by
          rw [hid] at hn ⊢
          rw [hline]
          exact fun hc => (mem_cons.mp hc).elim
            (fun he => hmn (congrArg Job.task he)) hn
        obtain ⟨h1, h2⟩ := h.rest m j' hj' hn'
        exact ⟨h1, fun job hm => h2 job (hsub _ job hm)⟩
    · rw [hother _ hid] at hn ⊢
      exact h.rest m j' hj' hn

/-- A mutation is admitted: its job goes to the end of its line. -/
theorem submit {key : Bytes} {generation : Nat} {task : Task} :
    Lined c (s.submit (jobOf c jobs.length key))
      (jobs ++ [⟨key, generation, task, .Submitted⟩]) := by
  have hold : ∀ id, ∀ job ∈ s.line id, job.task < jobs.length := fun id job hm => by
    obtain ⟨j, hj, -⟩ := h.known id job hm
    exact (List.getElem?_eq_some_iff.mp hj).1
  have hline : ∀ id, (s.submit (jobOf c jobs.length key)).line id =
      s.line id ++ if c.identify key = id then [jobOf c jobs.length key] else [] := fun id => by
    rw [Scheduler.Ordered.line_submit]
    simp [jobOf]
  have hmem : ∀ id, ∀ job ∈ (s.submit (jobOf c jobs.length key)).line id,
      job ∈ s.line id ∨ (job = jobOf c jobs.length key ∧ c.identify key = id) := fun id job hm => by
    rw [hline, mem_append] at hm
    refine hm.imp_right (fun hm => ?_)
    split at hm
    · rename_i hid; exact ⟨mem_singleton.mp hm, hid⟩
    · cases hm
  refine ⟨h.ordered.submit _, fun id job hm => ?_, fun id => ?_, fun id job hm hn j' hj' => ?_,
    fun m j' hj' hn => ?_⟩
  · rcases hmem id job hm with hm | ⟨rfl, -⟩
    · obtain ⟨j, hj, he⟩ := h.known id job hm
      exact ⟨j, by rw [List.getElem?_append_left (hold id job hm)]; exact hj, he⟩
    · exact ⟨_, List.getElem?_concat_length, rfl⟩
  · rw [hline]
    refine pairwise_append.mpr ⟨h.sorted id, ?_, fun a ha b hb => ?_⟩
    · split <;> simp
    · split at hb
      · rw [mem_singleton.mp hb]; exact hold id a ha
      · cases hb
  · rcases getElem?_append_cases hj' with ⟨-, rfl⟩ | hj'
    · rfl
    · rcases hmem id job hm with hm | ⟨rfl, -⟩
      · exact h.waiting id job hm hn j' hj'
      · have := (List.getElem?_eq_some_iff.mp hj').1
        exact absurd this (Nat.lt_irrefl _)
  · rcases getElem?_append_cases hj' with ⟨rfl, rfl⟩ | hj'
    · refine absurd ?_ hn
      rw [hline, if_pos rfl]
      exact mem_append_right _ (mem_singleton_self _)
    · have hn' : jobOf c m j'.key ∉ s.line (c.identify j'.key) := fun hc => hn (by
        rw [hline]; exact mem_append_left _ hc)
      obtain ⟨h1, h2⟩ := h.rest m j' hj' hn'
      refine ⟨h1, fun job hm => ?_⟩
      rcases hmem _ job hm with hm | ⟨rfl, -⟩
      · exact h2 job hm
      · exact (List.getElem?_eq_some_iff.mp hj').1

end Lined

/-! ## The log -/

/-- The number that a mutation is admitted under. -/
def Event.number : Event → Option Nat
  | .admitted n _ _ _ => some n
  | _ => none

/-- The event says nothing about the fate of a mutation. -/
def Event.plain : Event → Bool
  | .admitted _ _ _ _ | .failed _ | .succeeded _ => false
  | _ => true

structure Logged (log : List Event) (jobs : List Mutation) : Prop where
  numbers : log.filterMap Event.number = List.range jobs.length
  admitted : ∀ n key entry token, .admitted n key entry token ∈ log →
    ∃ j, jobs[n]? = some j ∧ j.key = key ∧ j.task.entry = entry
  known : ∀ (n : Nat) (j : Mutation), jobs[n]? = some j →
    ∃ token, .admitted n j.key j.task.entry token ∈ log
  failed : ∀ n, .failed n ∈ log ↔ ∃ j, jobs[n]? = some j ∧ j.stage.failed = true
  succeeded : ∀ n, .succeeded n ∈ log →
    ∃ j o, jobs[n]? = some j ∧ j.stage = .Finished o ∧ o.ok = true

namespace Logged

variable {log : List Event} {jobs : List Mutation} {n : Nat} {j : Mutation}

variable (h : Logged log jobs)
include h

theorem emit {e : Event} (he : e.plain = true) : Logged (log ++ [e]) jobs := by
  have hmem : ∀ x : Event, x.plain = false → (x ∈ log ++ [e] ↔ x ∈ log) := fun x hx => by
    rw [mem_append, mem_singleton, or_iff_left]
    rintro rfl
    rw [hx] at he
    cases he
  refine ⟨?_, fun n key entry token hm => ?_, fun n j hj => ?_, fun n => ?_, fun n hm => ?_⟩
  · rw [filterMap_append, h.numbers]
    cases e <;> first | (cases he; done) | simp [Event.number]
  · exact h.admitted n key entry token ((hmem _ rfl).mp hm)
  · obtain ⟨token, ht⟩ := h.known n j hj
    exact ⟨token, mem_append_left _ ht⟩
  · rw [hmem _ rfl]; exact h.failed n
  · exact h.succeeded n ((hmem _ rfl).mp hm)

/-- A job goes on, and does not fail. -/
theorem set_job (hj : jobs[n]? = some j) (hf : stage.failed = j.stage.failed)
    (hopen : ∀ o, j.stage ≠ .Finished o) : Logged log (jobs.set n { j with stage }) := by
  have hlen := (List.getElem?_eq_some_iff.mp hj).1
  have hget : ∀ (m : Nat) (j' : Mutation), jobs[m]? = some j' →
      ∃ j'', (jobs.set n { j with stage })[m]? = some j'' ∧ j''.key = j'.key ∧
        j''.task = j'.task ∧ j''.stage.failed = j'.stage.failed := by
    intro m j' hm
    by_cases hmn : m = n
    · subst hmn
      rw [hj] at hm
      cases hm
      exact ⟨_, List.getElem?_set_self hlen, rfl, rfl, hf⟩
    · exact ⟨j', by rw [List.getElem?_set_ne (Ne.symm hmn)]; exact hm, rfl, rfl, rfl⟩
  refine ⟨by rw [length_set]; exact h.numbers, fun m key entry token hm => ?_,
    fun m j' hm => ?_, fun m => ?_, fun m hm => ?_⟩
  · obtain ⟨j', hj', rfl, rfl⟩ := h.admitted m key entry token hm
    obtain ⟨j'', h1, h2, h3, -⟩ := hget m j' hj'
    exact ⟨j'', h1, h2, by rw [h3]⟩
  · rcases getElem?_set_cases hm with ⟨rfl, rfl⟩ | ⟨-, hm⟩
    · exact h.known m j hj
    · exact h.known m j' hm
  · rw [h.failed m]
    constructor
    · rintro ⟨j', hj', hs'⟩
      obtain ⟨j'', h1, -, -, h4⟩ := hget m j' hj'
      exact ⟨j'', h1, h4.trans hs'⟩
    · rintro ⟨j', hj', hs'⟩
      rcases getElem?_set_cases hj' with ⟨rfl, rfl⟩ | ⟨-, hj'⟩
      · exact ⟨j, hj, hf.symm.trans hs'⟩
      · exact ⟨j', hj', hs'⟩
  · obtain ⟨j', o, hj', hs', ho⟩ := h.succeeded m hm
    have hmn : m ≠ n := by
      rintro rfl
      rw [hj] at hj'
      cases hj'
      exact hopen o hs'
    exact ⟨j', o, by rw [List.getElem?_set_ne (Ne.symm hmn)]; exact hj', hs', ho⟩

/-- A job ends in an error. -/
theorem fail (hj : jobs[n]? = some j)
    (hf : stage.failed = true) (hopen : ∀ o, j.stage ≠ .Finished o) :
    Logged (log ++ [.failed n]) (jobs.set n { j with stage }) := by
  have hlen := (List.getElem?_eq_some_iff.mp hj).1
  have hmem : ∀ x : Event, x ≠ .failed n → (x ∈ log ++ [.failed n] ↔ x ∈ log) := fun x hx => by
    rw [mem_append, mem_singleton, or_iff_left hx]
  refine ⟨?_, fun m key entry token hm => ?_, fun m j' hm => ?_, fun m => ?_, fun m hm => ?_⟩
  · rw [filterMap_append, h.numbers, length_set]
    simp [Event.number]
  · obtain ⟨j', hj', rfl, rfl⟩ := h.admitted m key entry token ((hmem _ (by simp)).mp hm)
    by_cases hmn : m = n
    · subst hmn
      rw [hj] at hj'
      cases hj'
      exact ⟨_, List.getElem?_set_self hlen, rfl, rfl⟩
    · exact ⟨j', by rw [List.getElem?_set_ne (Ne.symm hmn)]; exact hj', rfl, rfl⟩
  · rcases getElem?_set_cases hm with ⟨rfl, rfl⟩ | ⟨-, hm⟩
    · obtain ⟨token, ht⟩ := h.known m j hj
      exact ⟨token, mem_append_left _ ht⟩
    · obtain ⟨token, ht⟩ := h.known m j' hm
      exact ⟨token, mem_append_left _ ht⟩
  · by_cases hmn : m = n
    · subst hmn
      exact iff_of_true (by simp) ⟨_, List.getElem?_set_self hlen, hf⟩
    · rw [hmem _ (by simpa using hmn), h.failed m, List.getElem?_set_ne (Ne.symm hmn)]
  · obtain ⟨j', o, hj', hs', ho⟩ := h.succeeded m ((hmem _ (by simp)).mp hm)
    have hmn : m ≠ n := by
      rintro rfl
      rw [hj] at hj'
      cases hj'
      exact hopen o hs'
    exact ⟨j', o, by rw [List.getElem?_set_ne (Ne.symm hmn)]; exact hj', hs', ho⟩

/-- The reply of a job that has done its work. -/
theorem succeed (hj : jobs[n]? = some j) {o : Outcome} (hs : j.stage = .Finished o)
    (ho : o.ok = true) : Logged (log ++ [.succeeded n]) jobs := by
  have hmem : ∀ x : Event, x ≠ .succeeded n → (x ∈ log ++ [.succeeded n] ↔ x ∈ log) :=
    fun x hx => by
    rw [mem_append, mem_singleton, or_iff_left hx]
  refine ⟨?_, fun m key entry token hm => ?_, fun m j' hm => ?_, fun m => ?_, fun m hm => ?_⟩
  · rw [filterMap_append, h.numbers]
    simp [Event.number]
  · exact h.admitted m key entry token ((hmem _ (by simp)).mp hm)
  · obtain ⟨token, ht⟩ := h.known m j' hm
    exact ⟨token, mem_append_left _ ht⟩
  · rw [hmem _ (by simp)]; exact h.failed m
  · by_cases hmn : m = n
    · subst hmn
      exact ⟨j, o, hj, hs, ho⟩
    · exact h.succeeded m ((hmem _ (by simpa using hmn)).mp hm)

theorem admission {key : Bytes} {generation : Nat} {task : Task} {token : Option Nat} :
    Logged (log ++ [.admitted jobs.length key task.entry token])
      (jobs ++ [⟨key, generation, task, .Submitted⟩]) := by
  have hold : ∀ (m : Nat) (j' : Mutation), jobs[m]? = some j' →
      (jobs ++ [⟨key, generation, task, .Submitted⟩])[m]? = some j' := fun m j' hm => by
    rw [List.getElem?_append_left (List.getElem?_eq_some_iff.mp hm).1]
    exact hm
  refine ⟨?_, fun m k entry t hm => ?_, fun m j' hm => ?_, fun m => ?_, fun m hm => ?_⟩
  · rw [filterMap_append, h.numbers, length_append, length_singleton,
      range_succ]
    rfl
  · rcases mem_append.mp hm with hm | hm
    · obtain ⟨j', hj', h1, h2⟩ := h.admitted m k entry t hm
      exact ⟨j', hold m j' hj', h1, h2⟩
    · cases mem_singleton.mp hm
      exact ⟨_, List.getElem?_concat_length, rfl, rfl⟩
  · rcases getElem?_append_cases hm with ⟨rfl, rfl⟩ | hm
    · exact ⟨token, mem_append_right _ (mem_singleton_self _)⟩
    · obtain ⟨t, ht⟩ := h.known m j' hm
      exact ⟨t, mem_append_left _ ht⟩
  · rw [mem_append, mem_singleton, or_iff_left (by simp), h.failed m]
    constructor
    · rintro ⟨j', hj', hf⟩
      exact ⟨j', hold m j' hj', hf⟩
    · rintro ⟨j', hj', hf⟩
      rcases getElem?_append_cases hj' with ⟨-, rfl⟩ | hj'
      · cases hf
      · exact ⟨j', hj', hf⟩
  · rw [mem_append, mem_singleton, or_iff_left (by simp)] at hm
    obtain ⟨j', o, hj', hs⟩ := h.succeeded m hm
    exact ⟨j', o, hold m j' hj', hs⟩

/-- What has succeeded has not failed. -/
theorem not_failed (hs : .succeeded n ∈ log) : .failed n ∉ log := by
  obtain ⟨j, o, hj, hst, ho⟩ := h.succeeded n hs
  rw [h.failed n]
  rintro ⟨j', hj', hf⟩
  rw [hj] at hj'
  cases hj'
  rw [hst] at hf
  simp [JobStage.failed, JobStage.outcome, ho] at hf

end Logged
end moat_cache
