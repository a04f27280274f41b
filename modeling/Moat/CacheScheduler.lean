-- The job coordinator of the cache (`moat-cache/src/scheduler.rs`): jobs of one
-- chunk run one at a time in the order submitted, jobs of different chunks run
-- side by side, and a fence runs alone.
import Moat.CacheEnvelope

namespace moat_cache.scheduler

open moat_common List Option

/-! ## The coordinator -/

/-- `task` names the future that the job runs. -/
structure Job where
  id : Option ChunkId
  task : Nat
deriving DecidableEq

structure Scheduler where
  receiver : List Job
  running : List Job
  active : List ChunkId
  pending : AList (fun _ : ChunkId => List Job)
  fence : Option Job
  disconnected : Bool
  used : Nat × Nat
  jobs : Nat
  bytes : Nat

def Scheduler.new (max_jobs max_bytes : Nat) : Except Error Scheduler :=
  if max_jobs = 0 then .error (.Invalid "pending operation count must be nonzero")
  else .ok ⟨[], [], [], ∅, none, false, (0, 0), max_jobs, max_bytes⟩

def Scheduler.reserve (s : Scheduler) (bytes : Nat) : Except Error Scheduler :=
  if s.jobs ≤ s.used.1 ∨ s.bytes - s.used.2 < bytes then .error .Busy
  else .ok { s with used := (s.used.1 + 1, s.used.2 + bytes) }

/-- A permit is dropped. -/
def Scheduler.release (s : Scheduler) (bytes : Nat) : Scheduler :=
  { s with used := (s.used.1 - 1, s.used.2 - bytes) }

def Scheduler.submit (s : Scheduler) (job : Job) : Scheduler :=
  { s with receiver := s.receiver ++ [job] }

def Scheduler.start (s : Scheduler) (job : Job) : Scheduler :=
  { s with running := s.running ++ [job] }

/-- The future of a running job is done: the next job of its chunk takes its place. -/
def Scheduler.completed (s : Scheduler) (job : Job) (id : ChunkId) : Scheduler :=
  match s.pending.lookup id with
  | some (next :: queue) =>
    Scheduler.start
      { s with
        running := s.running.erase job
        pending := if queue = [] then s.pending.erase id else s.pending.insert id queue }
      next
  | _ => { s with running := s.running.erase job, active := s.active.erase id }

/-- The coordinator takes a job out of its channel. It does not look at the channel while a fence
waits. -/
def Scheduler.receive (s : Scheduler) : Option Scheduler :=
  if s.fence.isSome ∨ s.disconnected = true then none
  else
    match s.receiver with
    | [] => none
    | job :: receiver =>
      match job.id with
      | none => some { s with receiver, fence := some job }
      | some id =>
        if id ∈ s.active then
          some { s with
            receiver
            pending := s.pending.insert id (((s.pending.lookup id).getD []) ++ [job]) }
        else some (Scheduler.start { s with receiver, active := s.active ++ [id] } job)

/-- The fence has run; nothing else was running. -/
def Scheduler.fenced (s : Scheduler) : Option (Job × Scheduler) :=
  if s.running = [] then s.fence.map (fun job => (job, { s with fence := none })) else none

/-! ## The line of a chunk -/

/-- The jobs of `id` in a list. -/
def jobsOf (id : ChunkId) (l : List Job) : List Job := l.filter (fun job => job.id = some id)

/-- The jobs of `id` that are not done, in the order in which they run. -/
def Scheduler.line (s : Scheduler) (id : ChunkId) : List Job :=
  jobsOf id s.running ++ (s.pending.lookup id).getD [] ++ jobsOf id s.receiver

/-- What holds of the coordinator between its steps. -/
structure Scheduler.Ordered (s : Scheduler) : Prop where
  one : ∀ id, (jobsOf id s.running).length ≤ 1
  active : ∀ id, id ∈ s.active ↔ jobsOf id s.running ≠ []
  nodup : s.active.Nodup
  queued : ∀ id queue, s.pending.lookup id = some queue →
    id ∈ s.active ∧ queue ≠ [] ∧ ∀ job ∈ queue, job.id = some id

theorem jobsOf_append (id : ChunkId) (a b : List Job) :
    jobsOf id (a ++ b) = jobsOf id a ++ jobsOf id b := filter_append ..

variable {id : ChunkId} {job : Job}

theorem jobsOf_single_self (h : job.id = some id) : jobsOf id [job] = [job] := by
  simp [jobsOf, h]

theorem jobsOf_single_other (h : job.id ≠ some id) : jobsOf id [job] = [] := by
  simp [jobsOf, h]

theorem mem_jobsOf {l : List Job} : job ∈ jobsOf id l ↔ job ∈ l ∧ job.id = some id := by
  simp [jobsOf]

theorem jobsOf_erase_other {l : List Job} (h : job.id ≠ some id) :
    jobsOf id (l.erase job) = jobsOf id l := by
  unfold jobsOf
  rw [← erase_filter, erase_of_not_mem]
  simp [h]

namespace Scheduler.Ordered

variable {s : Scheduler} {job : Job} {id : ChunkId}

section
variable (h : s.Ordered)
include h

/-- A running job is the only one of its chunk. -/
theorem running_single (hm : job ∈ s.running) (hid : job.id = some id) :
    jobsOf id s.running = [job] := by
  have hmem := mem_jobsOf.mpr ⟨hm, hid⟩
  match hl : jobsOf id s.running, h.one id with
  | [], _ => rw [hl] at hmem; cases hmem
  | [x], _ => rw [hl] at hmem; rw [mem_singleton.mp hmem]
  | _ :: _ :: _, h1 => simp at h1

/-- A running job is the first of its chunk's line. -/
theorem line_running (hm : job ∈ s.running) (hid : job.id = some id) :
    s.line id = job :: ((s.pending.lookup id).getD [] ++ jobsOf id s.receiver) := by
  rw [Scheduler.line, h.running_single hm hid, append_assoc, singleton_append]

theorem mem_line_running (hm : job ∈ s.running) (hid : job.id = some id) : job ∈ s.line id := by
  rw [h.line_running hm hid]
  exact mem_cons_self

theorem line_id (hm : job ∈ s.line id) : job.id = some id := by
  rw [Scheduler.line, append_assoc, mem_append, mem_append] at hm
  rcases hm with hm | hm | hm
  · exact (mem_jobsOf.mp hm).2
  · cases hq : s.pending.lookup id with
    | none => rw [hq] at hm; cases hm
    | some queue =>
      rw [hq] at hm
      exact (h.queued id queue hq).2.2 job hm
  · exact (mem_jobsOf.mp hm).2

/-- While nothing runs, no job is left pending. -/
theorem idle (hr : s.running = []) (id : ChunkId) : s.pending.lookup id = none := by
  cases hq : s.pending.lookup id with
  | none => rfl
  | some queue =>
    have hact := (h.active id).mp (h.queued id queue hq).1
    rw [hr] at hact
    exact absurd rfl hact

theorem submit (job : Job) : (s.submit job).Ordered :=
  ⟨h.one, h.active, h.nodup, h.queued⟩

end

theorem line_submit (job : Job) (id : ChunkId) :
    (s.submit job).line id = s.line id ++ if job.id = some id then [job] else [] := by
  simp only [Scheduler.line, Scheduler.submit, jobsOf_append, append_assoc]
  split
  · rename_i hid
    rw [jobsOf_single_self hid]
  · rename_i hid
    rw [jobsOf_single_other hid]

/-- A job that takes the place of the last one of its chunk. -/
theorem erase_start (h : s.Ordered) (hm : job ∈ s.running) (hid : job.id = some id) {next : Job}
    (hn : next.id = some id) :
    jobsOf id (s.running.erase job ++ [next]) = [next] ∧
      ∀ other, other ≠ id → jobsOf other (s.running.erase job ++ [next]) =
        jobsOf other s.running := by
  refine ⟨?_, fun other ho => ?_⟩
  · have he : jobsOf id (s.running.erase job) = [] := by
      unfold jobsOf
      rw [← erase_filter]
      have := h.running_single hm hid
      unfold jobsOf at this
      rw [this, erase_cons_head]
    rw [jobsOf_append, he, jobsOf_single_self hn, nil_append]
  · rw [jobsOf_append, jobsOf_erase_other (by rw [hid]; simpa using Ne.symm ho),
      jobsOf_single_other (by rw [hn]; simpa using Ne.symm ho), append_nil]

/-- A job is done: it leaves the front of its line, and the other lines stay. -/
theorem completed (h : s.Ordered) (hm : job ∈ s.running) (hid : job.id = some id) :
    (s.completed job id).Ordered ∧ s.line id = job :: (s.completed job id).line id ∧
      (∀ other, other ≠ id → (s.completed job id).line other = s.line other) ∧
      ∀ x ∈ s.running, x ≠ job → x ∈ (s.completed job id).running := by
  have hline := h.line_running hm hid
  unfold Scheduler.completed
  split
  · rename_i next queue hq
    obtain ⟨hact, -, hids⟩ := h.queued id _ hq
    have hn := hids next mem_cons_self
    obtain ⟨h1, h2⟩ := h.erase_start hm hid hn
    refine ⟨⟨fun i => ?_, fun i => ?_, h.nodup, fun i q hl => ?_⟩, ?_, fun i hi => ?_, ?_⟩
    · simp only [Scheduler.start]
      by_cases hi : i = id
      · rw [hi, h1]; rfl
      · rw [h2 i hi]; exact h.one i
    · simp only [Scheduler.start]
      by_cases hi : i = id
      · rw [hi, h1]; simpa using hact
      · rw [h2 i hi]; exact h.active i
    · simp only [Scheduler.start] at hl ⊢
      by_cases hi : i = id
      · subst hi
        split at hl
        · rw [AList.lookup_erase] at hl
          cases hl
        · rename_i hne
          rw [AList.lookup_insert] at hl
          cases hl
          exact ⟨hact, hne, fun j hj => hids j (mem_cons_of_mem _ hj)⟩
      · refine h.queued i q ?_
        split at hl
        · rwa [AList.lookup_erase_ne hi] at hl
        · rwa [AList.lookup_insert_ne hi] at hl
    · rw [hline]
      simp only [Scheduler.line, Scheduler.start, h1, hq, getD_some, cons_append,
        nil_append]
      split
      · rename_i hn0
        rw [hn0, AList.lookup_erase]
        rfl
      · rw [AList.lookup_insert, getD_some]
    · simp only [Scheduler.line, Scheduler.start, h2 i hi]
      split
      · rw [AList.lookup_erase_ne hi]
      · rw [AList.lookup_insert_ne hi]
    · intro x hx hne
      exact mem_append_left _ ((mem_erase_of_ne hne).mpr hx)
  · rename_i hq
    have hnone : s.pending.lookup id = none := by
      cases hl : s.pending.lookup id with
      | none => rfl
      | some queue =>
        cases queue with
        | nil => exact absurd rfl (h.queued id [] hl).2.1
        | cons next queue => exact absurd hl (hq next queue)
    have he : jobsOf id (s.running.erase job) = [] := by
      have := h.running_single hm hid
      unfold jobsOf at this ⊢
      rw [← erase_filter, this, erase_cons_head]
    have ho : ∀ other, other ≠ id → jobsOf other (s.running.erase job) = jobsOf other s.running :=
      fun other ho => jobsOf_erase_other (by rw [hid]; simpa using Ne.symm ho)
    refine ⟨⟨fun i => ?_, fun i => ?_, h.nodup.erase id, fun i q hl => ?_⟩, ?_, fun i hi => ?_, ?_⟩
    · by_cases hi : i = id
      · simp only [hi, he, length_nil]; omega
      · simp only [ho i hi]; exact h.one i
    · by_cases hi : i = id
      · simp only [hi, he, ne_eq, not_true_eq_false, iff_false]
        exact h.nodup.not_mem_erase
      · simp only [ho i hi]
        exact (mem_erase_of_ne hi).trans (h.active i)
    · have hi : i ≠ id := by
        rintro rfl
        rw [hnone] at hl
        cases hl
      obtain ⟨h1, h2, h3⟩ := h.queued i q hl
      exact ⟨(mem_erase_of_ne hi).mpr h1, h2, h3⟩
    · rw [hline]
      simp only [Scheduler.line, he, nil_append]
    · simp only [Scheduler.line, ho i hi]
    · intro x hx hne
      exact (mem_erase_of_ne hne).mpr hx

/-- Taking a job out of the channel changes no line. -/
theorem receive (h : s.Ordered) {s' : Scheduler} (hr : s.receive = some s') :
    s'.Ordered ∧ (∀ id, s'.line id = s.line id) ∧ ∀ x ∈ s.running, x ∈ s'.running := by
  unfold Scheduler.receive at hr
  split at hr
  · cases hr
  split at hr
  · cases hr
  rename_i job receiver hrec
  split at hr
  · rename_i hid
    cases hr
    refine ⟨⟨h.one, h.active, h.nodup, h.queued⟩, fun i => ?_, fun x hx => hx⟩
    simp only [Scheduler.line, hrec]
    rw [show jobsOf i (job :: receiver) = jobsOf i receiver from by simp [jobsOf, hid]]
  · rename_i id hid
    have hother : ∀ i, i ≠ id → jobsOf i (job :: receiver) = jobsOf i receiver :=
      fun i hi => by simp [jobsOf, hid, Ne.symm hi]
    have hself : jobsOf id (job :: receiver) = job :: jobsOf id receiver := by
      simp [jobsOf, hid]
    split at hr
    · rename_i hact
      cases hr
      refine ⟨⟨h.one, h.active, h.nodup, fun i q hl => ?_⟩, fun i => ?_, fun x hx => hx⟩
      · by_cases hi : i = id
        · subst hi
          simp only [AList.lookup_insert, some.injEq] at hl
          subst hl
          refine ⟨hact, by simp, fun j hj => ?_⟩
          rcases mem_append.mp hj with hj | hj
          · cases hq : s.pending.lookup i with
            | none => rw [hq] at hj; cases hj
            | some q => rw [hq] at hj; exact (h.queued i q hq).2.2 j hj
          · rw [mem_singleton.mp hj]; exact hid
        · simp only [AList.lookup_insert_ne hi] at hl
          exact h.queued i q hl
      · simp only [Scheduler.line, hrec]
        by_cases hi : i = id
        · subst hi
          rw [AList.lookup_insert, hself, getD_some]
          simp only [append_assoc, singleton_append]
        · rw [AList.lookup_insert_ne hi, hother i hi]
    · rename_i hact
      cases hr
      have hnone : s.pending.lookup id = none := by
        cases hl : s.pending.lookup id with
        | none => rfl
        | some queue => exact absurd (h.queued id queue hl).1 hact
      have hidle : jobsOf id s.running = [] := by
        by_contra hne
        exact hact ((h.active id).mpr hne)
      have hstart : ∀ i, i ≠ id → jobsOf i (s.running ++ [job]) = jobsOf i s.running :=
        fun i hi => by
        rw [jobsOf_append, jobsOf_single_other (by rw [hid]; simpa using Ne.symm hi), append_nil]
      have hstart' : jobsOf id (s.running ++ [job]) = [job] := by
        rw [jobsOf_append, hidle, jobsOf_single_self hid, nil_append]
      refine ⟨⟨fun i => ?_, fun i => ?_, ?_, fun i q hl => ?_⟩, fun i => ?_, fun x hx => ?_⟩
      · simp only [Scheduler.start]
        by_cases hi : i = id
        · rw [hi, hstart']; rfl
        · rw [hstart i hi]; exact h.one i
      · simp only [Scheduler.start]
        by_cases hi : i = id
        · rw [hi, hstart']; simp
        · rw [hstart i hi, mem_append, mem_singleton]
          exact ⟨fun hm => (h.active i).mp (hm.resolve_right hi),
            fun hm => .inl ((h.active i).mpr hm)⟩
      · exact nodup_append.mpr ⟨h.nodup, nodup_singleton id, fun a ha b hb hab => by
          rw [mem_singleton.mp hb] at hab
          exact hact (hab ▸ ha)⟩
      · obtain ⟨h1, h2, h3⟩ := h.queued i q hl
        exact ⟨mem_append_left _ h1, h2, h3⟩
      · simp only [Scheduler.line, Scheduler.start, hrec]
        by_cases hi : i = id
        · rw [hi, hstart', hself, hnone, hidle]
          rfl
        · rw [hstart i hi, hother i hi]
      · exact mem_append_left _ hx

end Scheduler.Ordered

theorem Scheduler.line_fenced {s s' : Scheduler} (h : s.fenced = some (job, s'))
    (id : ChunkId) : s'.line id = s.line id ∧ s'.running = s.running := by
  unfold Scheduler.fenced at h
  split at h
  · cases hf : s.fence with
    | none => rw [hf] at h; cases h
    | some => rw [hf] at h; cases h; exact ⟨rfl, rfl⟩
  · cases h

end moat_cache.scheduler
