-- The loop of the job coordinator (`run` in `moat-cache/src/scheduler.rs`) over
-- its whole life. Its log says when each job starts and when it is finished;
-- the order of the two is what callers rely on.
import Moat.CacheScheduler

namespace moat_cache.scheduler

open moat_common List Option

/-! ## The loop -/

inductive Event where
  | started (job : Job)
  | finished (job : Job)
deriving DecidableEq

/-- `barrier` is the fence whose future is awaited, `closed` says that every sender is gone, and
`panicked` that an `expect` or `unreachable!` was reached. `submitted` and `log` are for the
statements only. -/
structure Loop where
  s : Scheduler
  barrier : Option Job
  closed : Bool
  stopped : Bool
  panicked : Bool
  submitted : List Job
  log : List Event

def Loop.new (s : Scheduler) : Loop := ⟨s, none, false, false, false, [], []⟩

/-- What an `await` of the loop sees first. The future of a job may also end by unwinding:
`catch_unwind` drops how it ended. -/
inductive Ready where
  | message
  | finish (running : Nat) (unwinds : Bool)

/-- The coordinator goes on as `s`: what runs now and did not before has been started. -/
def Loop.goes (l : Loop) (events : List Event) (s : Scheduler) : Loop :=
  { l with
    s
    log := l.log ++ events ++ (s.running.filter (fun job => job ∉ l.s.running)).map .started }

/-- `receiver.next().await`. -/
def Loop.next_message (l : Loop) : Loop :=
  match l.s.receive with
  | some s => l.goes [] s
  | none =>
    if l.s.receiver = [] ∧ l.closed = true then { l with s := { l.s with disconnected := true } }
    else l

/-- `running.next().await`, with the job that is done first. -/
def Loop.next_running (l : Loop) (n : Nat) : Loop :=
  if l.s.running = [] then { l with panicked := true }
  else
    match l.s.running[n]? with
    | none => l
    | some job =>
      match job.id with
      | none => { l with panicked := true }
      | some id => l.goes [.finished job] (l.s.completed job id)

/-- One turn of the loop of `run`, as far as its next `await`. -/
def Loop.turn (l : Loop) (ready : Ready) : Loop :=
  if l.stopped = true ∨ l.panicked = true then l
  else
    match l.barrier with
    | some job =>
      match ready with
      | .message => l
      | .finish _ _ => { l with barrier := none, log := l.log ++ [.finished job] }
    | none =>
      match l.s.fenced with
      | some (job, s) => { l with s, barrier := some job, log := l.log ++ [.started job] }
      | none =>
        if l.s.running = [] ∧ l.s.disconnected = true then { l with stopped := true }
        else if l.s.fence.isSome = true ∨ l.s.disconnected = true then
          match ready with
          | .message => l
          | .finish n _ => l.next_running n
        else if l.s.running = [] then l.next_message
        else
          match ready with
          | .message => l.next_message
          | .finish n _ => l.next_running n

/-- Jobs are numbered as they are submitted. -/
def Loop.submit (l : Loop) (id : Option ChunkId) : Loop :=
  if l.closed = true ∨ l.stopped = true then l
  else
    { l with
      s := l.s.submit ⟨id, l.submitted.length⟩
      submitted := l.submitted ++ [⟨id, l.submitted.length⟩] }

inductive Act where
  | submit (id : Option ChunkId)
  | close
  | turn (ready : Ready)

def Loop.act (l : Loop) : Act → Loop
  | .submit id => l.submit id
  | .close => { l with closed := true }
  | .turn ready => l.turn ready

def Loop.run (l : Loop) (acts : List Act) : Loop := acts.foldl Loop.act l

/-- What is submitted until the last sender is gone. -/
def submitsOf : List Act → List (Option ChunkId)
  | [] => []
  | .submit id :: acts => id :: submitsOf acts
  | .close :: _ => []
  | .turn _ :: acts => submitsOf acts

/-! ## Logs -/

def startedOf (log : List Event) : List Job :=
  log.filterMap (fun | .started job => some job | .finished _ => none)

def finishedOf (log : List Event) : List Job :=
  log.filterMap (fun | .started _ => none | .finished job => some job)

@[simp] theorem startedOf_append (a b : List Event) :
    startedOf (a ++ b) = startedOf a ++ startedOf b := filterMap_append ..

@[simp] theorem finishedOf_append (a b : List Event) :
    finishedOf (a ++ b) = finishedOf a ++ finishedOf b := filterMap_append ..

@[simp] theorem finishedOf_map (jobs : List Job) : finishedOf (jobs.map .started) = [] := by
  simp [finishedOf, filterMap_map]

@[simp] theorem startedOf_nil : startedOf [] = [] := rfl

@[simp] theorem finishedOf_nil : finishedOf [] = [] := rfl

@[simp] theorem startedOf_started (job : Job) (log : List Event) :
    startedOf (.started job :: log) = job :: startedOf log := rfl

@[simp] theorem finishedOf_started (job : Job) (log : List Event) :
    finishedOf (.started job :: log) = finishedOf log := rfl

@[simp] theorem startedOf_finished (job : Job) (log : List Event) :
    startedOf (.finished job :: log) = startedOf log := rfl

@[simp] theorem finishedOf_finished (job : Job) (log : List Event) :
    finishedOf (.finished job :: log) = job :: finishedOf log := rfl

variable {log : List Event} {job : Job} {s : Scheduler} {id : ChunkId}

theorem mem_finishedOf : job ∈ finishedOf log ↔ Event.finished job ∈ log := by
  unfold finishedOf
  rw [mem_filterMap]
  constructor
  · rintro ⟨e, he, hj⟩
    cases e with
    | started => cases hj
    | finished => cases hj; exact he
  · exact fun h => ⟨_, h, rfl⟩

/-- The fences in a list. -/
def fencesOf (l : List Job) : List Job := l.filter (fun job => job.id = none)

@[simp] theorem fencesOf_append (a b : List Job) : fencesOf (a ++ b) = fencesOf a ++ fencesOf b :=
  filter_append ..

theorem mem_fencesOf {l : List Job} : job ∈ fencesOf l ↔ job ∈ l ∧ job.id = none := by
  simp [fencesOf]

theorem fencesOf_single (h : job.id = none) : fencesOf [job] = [job] := by
  simp [fencesOf, h]

theorem fencesOf_single_keyed (h : job.id = some id) : fencesOf [job] = [] := by
  simp [fencesOf, h]

/-- The first of two jobs has to be done before the second may start: both are of one chunk, or one
of them is a fence. -/
def Ahead (a b : Job) : Prop := a.task < b.task ∧ (a.id = b.id ∨ a.id = none ∨ b.id = none)

/-- Every job starts after the end of those ahead of it. -/
def Orderly (submitted : List Job) (log : List Event) : Prop :=
  ∀ pre b post, log = pre ++ Event.started b :: post →
    ∀ a ∈ submitted, Ahead a b → Event.finished a ∈ pre

theorem Orderly.append_finished {submitted : List Job}
    (h : Orderly submitted log) (job : Job) : Orderly submitted (log ++ [.finished job]) := by
  intro pre b post hlog
  rcases eq_nil_or_concat post with rfl | ⟨post', e, rfl⟩
  · have := append_inj_right' hlog rfl
    cases this
  · rw [concat_eq_append, ← cons_append, ← append_assoc] at hlog
    exact h pre b post' (append_inj_left' hlog rfl)

theorem Orderly.append_started {submitted : List Job} (h : Orderly submitted log) {jobs : List Job}
    (hj : ∀ b ∈ jobs, ∀ a ∈ submitted, Ahead a b → a ∈ finishedOf log) :
    Orderly submitted (log ++ jobs.map .started) := by
  intro pre b post hlog a ha hab
  rcases append_eq_append_iff.mp hlog with ⟨mid, rfl, hm⟩ | ⟨mid, rfl, hm⟩
  · -- it is one of the new ones
    obtain ⟨mid', rest, hjobs, hmid, hrest⟩ := map_eq_append_iff.mp hm
    cases rest with
    | nil => cases hrest
    | cons =>
      cases hrest
      have hb : b ∈ jobs := by rw [hjobs]; simp
      exact mem_append_left _ (mem_finishedOf.mp (hj b hb a ha hab))
  · cases mid with
    | nil =>
      cases jobs with
      | nil => cases hm
      | cons =>
        rw [nil_append, map_cons] at hm
        cases hm
        have := mem_finishedOf.mp (hj b mem_cons_self a ha hab)
        rwa [append_nil] at this
    | cons e mid =>
      rw [cons_append, List.cons.injEq] at hm
      obtain ⟨rfl, -⟩ := hm
      exact h pre b mid rfl a ha hab

/-! ## Where the jobs are -/

/-- Every job submitted is done, or is where it waits for its turn. `taken` is what the loop has
taken out of its channel. -/
structure Loop.Placed (l : Loop) : Prop where
  ordered : l.s.Ordered
  keyed : ∀ job ∈ l.s.running, job.id ≠ none
  numbered : l.submitted.Pairwise (fun a b => a.task < b.task)
  last : ∀ job ∈ l.submitted, job.task < l.submitted.length
  lines : ∀ id, jobsOf id (finishedOf l.log) ++ l.s.line id = jobsOf id l.submitted
  fences : fencesOf (finishedOf l.log) ++ l.barrier.toList ++ l.s.fence.toList ++
    fencesOf l.s.receiver = fencesOf l.submitted
  taken : ∃ taken, l.submitted = taken ++ l.s.receiver ∧
    (∀ f, l.barrier = some f ∨ l.s.fence = some f → taken.getLast? = some f)
  alone : ∀ f, l.barrier = some f → l.s.running = [] ∧ l.s.fence = none

theorem new_placed (h : s.Ordered) (hr : s.running = []) (hf : s.fence = none)
    (hm : s.receiver = []) : (Loop.new s).Placed := by
  refine ⟨h, ?_, .nil, (fun job hj => by cases hj), fun id => ?_, ?_, ⟨[], ?_, ?_⟩, ?_⟩
  · intro job hj
    rw [Loop.new, hr] at hj
    cases hj
  · simp [Loop.new, Scheduler.line, finishedOf, jobsOf, hr, hm, h.idle hr id]
  · simp [Loop.new, finishedOf, fencesOf, hf, hm]
  · simp [Loop.new, hm]
  · simp [Loop.new, hf]
  · intro f hb
    cases hb

namespace Loop.Placed

variable {l : Loop}

variable {a b : Job} {taken : List Job}

/-- What stands before `b` in a numbered list is what has a smaller number. -/
theorem mem_before {jobs p q : List Job} (hs : jobs.Pairwise (fun a b => a.task < b.task))
    (hl : jobs = p ++ b :: q) (ha : a ∈ jobs) (hlt : a.task < b.task) : a ∈ p := by
  subst hl
  rw [pairwise_append, pairwise_cons] at hs
  rcases mem_append.mp ha with ha | ha
  · exact ha
  · rcases mem_cons.mp ha with rfl | ha
    · omega
    · have := hs.2.1.1 a ha
      omega

variable (h : l.Placed)
include h

section
variable (ht : l.submitted = taken ++ l.s.receiver)
include ht

theorem jobsOf_taken (id : ChunkId) : jobsOf id taken =
      jobsOf id (finishedOf l.log) ++
        (jobsOf id l.s.running ++ (l.s.pending.lookup id).getD []) := by
  have hl := h.lines id
  rw [ht, jobsOf_append, Scheduler.line, ← append_assoc] at hl
  exact (append_cancel_right hl).symm

theorem fencesOf_taken :
    fencesOf taken = fencesOf (finishedOf l.log) ++ l.barrier.toList ++ l.s.fence.toList := by
  have hf := h.fences
  rw [ht, fencesOf_append] at hf
  exact (append_cancel_right hf).symm

/-- A job with a smaller number than one taken out of the channel has been taken too. -/
theorem mem_taken (hb : b ∈ taken) (ha : a ∈ l.submitted) (hlt : a.task < b.task) : a ∈ taken := by
  have hs := h.numbered
  rw [ht, pairwise_append] at hs
  rw [ht, mem_append] at ha
  rcases ha with ha | ha
  · exact ha
  · have := hs.2.2 b hb a ha
    omega

/-- The fence that waits or runs was taken out of the channel last. -/
theorem last_taken {f : Job} (hf : taken.getLast? = some f) (hb : b ∈ taken) : b.task ≤ f.task := by
  obtain ⟨front, rfl⟩ := List.getLast?_eq_some_iff.mp hf
  have hs := h.numbered
  rw [ht, pairwise_append, pairwise_append] at hs
  rcases mem_append.mp hb with hb | hb
  · exact (hs.1.2.2 b hb f mem_cons_self).le
  · rw [mem_singleton.mp hb]

end

/-- All that is ahead of a running job is done. -/
theorem ready (hb : b ∈ l.s.running) (ha : a ∈ l.submitted)
    (hab : Ahead a b) : a ∈ finishedOf l.log := by
  obtain ⟨hlt, hids⟩ := hab
  cases hid : b.id with
  | none => exact absurd hid (h.keyed b hb)
  | some id =>
    obtain ⟨taken, ht, hlast⟩ := h.taken
    have hbt : b ∈ taken := by
      refine (mem_jobsOf.mp ?_ : b ∈ taken ∧ b.id = some id).1
      rw [h.jobsOf_taken ht, h.ordered.running_single hb hid]
      simp
    rw [hid] at hids
    rcases hids with haid | haid | hbid
    · have hline := h.lines id
      rw [h.ordered.line_running hb hid] at hline
      have hs : (jobsOf id l.submitted).Pairwise (fun a b => a.task < b.task) :=
        h.numbered.filter _
      exact (mem_jobsOf.mp (mem_before hs hline.symm (mem_jobsOf.mpr ⟨ha, haid⟩) hlt)).1
    · have haf := mem_fencesOf.mpr ⟨h.mem_taken ht hbt ha hlt, haid⟩
      rw [h.fencesOf_taken ht, append_assoc, mem_append, mem_append] at haf
      rcases haf with haf | haf | haf
      · exact (mem_fencesOf.mp haf).1
      · have := h.last_taken ht (hlast a (.inl (mem_toList.mp haf))) hbt
        omega
      · have := h.last_taken ht (hlast a (.inr (mem_toList.mp haf))) hbt
        omega
    · cases hbid

/-- All that was submitted before a fence that runs is done. -/
theorem ready_fence {f : Job} (hf : l.barrier = some f) (ha : a ∈ l.submitted)
    (hlt : a.task < f.task) : a ∈ finishedOf l.log := by
  obtain ⟨taken, ht, hlast⟩ := h.taken
  obtain ⟨hr, hn⟩ := h.alone f hf
  have hat := h.mem_taken ht (mem_of_getLast? (hlast f (.inl hf))) ha hlt
  cases hid : a.id with
  | none =>
    have haf := mem_fencesOf.mpr ⟨hat, hid⟩
    rw [h.fencesOf_taken ht, hf, hn] at haf
    simp only [toList_some, toList_none, append_nil, mem_append,
      mem_singleton] at haf
    rcases haf with haf | rfl
    · exact (mem_fencesOf.mp haf).1
    · omega
  | some id =>
    have haj := mem_jobsOf.mpr ⟨hat, hid⟩
    rw [h.jobsOf_taken ht, hr, h.ordered.idle hr id] at haj
    exact (mem_jobsOf.mp (by simpa [jobsOf] using haj : a ∈ jobsOf id (finishedOf l.log))).1

end Loop.Placed

/-! ## What a step does with the jobs -/

/-- What is taken out of the channel: a fence, or a job that waits for its chunk or starts. -/
theorem Scheduler.receive_cases {s' : Scheduler} (h : s.receive = some s') :
    s.fence = none ∧ s.disconnected = false ∧ s'.disconnected = false ∧
      ∃ job, s.receiver = job :: s'.receiver ∧
        ((job.id = none ∧ s'.fence = some job ∧ s'.running = s.running) ∨
          ∃ id, job.id = some id ∧ s'.fence = none ∧
            (s'.running = s.running ∨ id ∉ s.active ∧ s'.running = s.running ++ [job])) := by
  unfold Scheduler.receive at h
  split at h
  · cases h
  rename_i hg
  simp only [not_or, Bool.not_eq_true, isSome_eq_false_iff, isNone_iff_eq_none] at hg
  split at h
  · cases h
  rename_i job receiver hrec
  split at h
  · rename_i hid
    cases h
    exact ⟨hg.1, hg.2, hg.2, job, hrec, .inl ⟨hid, rfl, rfl⟩⟩
  · rename_i id hid
    split at h
    · cases h
      exact ⟨hg.1, hg.2, hg.2, job, hrec, .inr ⟨id, hid, hg.1, .inl rfl⟩⟩
    · rename_i hact
      cases h
      exact ⟨hg.1, hg.2, hg.2, job, hrec, .inr ⟨id, hid, hg.1, .inr ⟨hact, rfl⟩⟩⟩

theorem Scheduler.receive_none (h : s.receive = none) (hf : s.fence = none)
    (hd : s.disconnected = false) : s.receiver = [] := by
  unfold Scheduler.receive at h
  rw [if_neg (by simp [hf, hd])] at h
  split at h
  · assumption
  · split at h
    · cases h
    · split at h <;> cases h

/-- A job that is done leaves its place to the first of those that wait behind it. -/
theorem Scheduler.completed_cases (s : Scheduler) (job : Job) (id : ChunkId) :
    (s.completed job id).receiver = s.receiver ∧ (s.completed job id).fence = s.fence ∧
      (s.completed job id).disconnected = s.disconnected ∧
      ((s.completed job id).running = s.running.erase job ∨
        ∃ next queue, s.pending.lookup id = some (next :: queue) ∧
          (s.completed job id).running = s.running.erase job ++ [next]) := by
  unfold Scheduler.completed
  split
  · rename_i next queue hq
    exact ⟨rfl, rfl, rfl, .inr ⟨next, queue, hq, rfl⟩⟩
  · exact ⟨rfl, rfl, rfl, .inl rfl⟩

theorem Scheduler.fenced_some {s' : Scheduler} (h : s.fenced = some (job, s')) :
    s.running = [] ∧ s.fence = some job ∧ s' = { s with fence := none } := by
  unfold Scheduler.fenced at h
  split at h
  · rename_i hr
    obtain ⟨j, hj, he⟩ := map_eq_some_iff.mp h
    cases he
    exact ⟨hr, hj, rfl⟩
  · cases h

theorem Scheduler.fenced_none (h : s.fenced = none) (hr : s.running = []) : s.fence = none := by
  unfold Scheduler.fenced at h
  rw [if_pos hr] at h
  exact map_eq_none_iff.mp h

@[simp] theorem finishedOf_goes (l : Loop) (events : List Event) (s : Scheduler) :
    finishedOf (l.goes events s).log = finishedOf l.log ++ finishedOf events := by
  simp [Loop.goes]

namespace Loop.Placed

variable {l : Loop} {events : List Event} {s : Scheduler}

theorem fence_keyless (h : l.Placed) {f : Job} (hf : l.barrier = some f ∨ l.s.fence = some f) :
    f.id = none := by
  have hm : f ∈ fencesOf l.submitted := by
    rw [← h.fences]
    rcases hf with hf | hf <;> simp [hf]
  exact (mem_fencesOf.mp hm).2

theorem submit (h : l.Placed) (id : Option ChunkId) : (l.submit id).Placed := by
  unfold Loop.submit
  split
  · exact h
  obtain ⟨taken, ht, hlast⟩ := h.taken
  refine ⟨h.ordered.submit _, h.keyed, ?_, ?_, fun i => ?_, ?_, ⟨taken, ?_, hlast⟩, h.alone⟩
  · refine pairwise_append.mpr ⟨h.numbered, pairwise_singleton .., ?_⟩
    intro a ha b hb
    rw [mem_singleton.mp hb]
    exact h.last a ha
  · intro job hj
    rw [length_append, length_singleton]
    rcases mem_append.mp hj with hj | hj
    · have := h.last job hj
      omega
    · rw [mem_singleton.mp hj]
      exact Nat.lt_succ_self _
  · simp only [Scheduler.Ordered.line_submit, jobsOf_append, ← append_assoc, h.lines i]
    split
    · rename_i hid
      rw [jobsOf_single_self hid]
    · rename_i hid
      rw [jobsOf_single_other hid]
  · simp only [Scheduler.submit, fencesOf_append, ← append_assoc, h.fences]
  · simp only [Scheduler.submit, ht, append_assoc]

theorem receive (h : l.Placed) (hb : l.barrier = none)
    (hr : l.s.receive = some s) : (l.goes [] s).Placed := by
  obtain ⟨hord, hlines, -⟩ := h.ordered.receive hr
  obtain ⟨hf, -, -, job, hrec, hcases⟩ := Scheduler.receive_cases hr
  obtain ⟨taken, ht, -⟩ := h.taken
  have hfences := h.fences
  rw [hb, hf, hrec, ← singleton_append, fencesOf_append] at hfences
  have htaken : l.submitted = taken ++ [job] ++ s.receiver := by
    rw [ht, hrec, append_assoc, singleton_append]
  refine ⟨hord, ?_, h.numbered, h.last, fun id => ?_, ?_, ⟨taken ++ [job], htaken, ?_⟩, ?_⟩
  · intro x hx
    rcases hcases with ⟨-, -, hrun⟩ | ⟨id, hid, -, hrun | ⟨-, hrun⟩⟩
    · exact h.keyed x (hrun ▸ hx)
    · exact h.keyed x (hrun ▸ hx)
    · rcases mem_append.mp (hrun ▸ hx : x ∈ l.s.running ++ [job]) with hx | hx
      · exact h.keyed x hx
      · rw [mem_singleton.mp hx, hid]
        exact some_ne_none _
  · rw [finishedOf_goes]
    simpa [Loop.goes, finishedOf, hlines] using h.lines id
  · rw [finishedOf_goes]
    rcases hcases with ⟨hid, hfence, -⟩ | ⟨id, hid, hfence, -⟩
    · simpa [Loop.goes, finishedOf, hb, hfence, fencesOf_single hid] using hfences
    · simpa [Loop.goes, finishedOf, hb, hfence, fencesOf_single_keyed hid] using hfences
  · rintro f (hbf | hff)
    · rw [Loop.goes, hb] at hbf
      cases hbf
    · rcases hcases with ⟨-, hfence, -⟩ | ⟨id, -, hfence, -⟩
      · rw [Loop.goes, hfence] at hff
        cases hff
        simp
      · rw [Loop.goes, hfence] at hff
        cases hff
  · intro f hbf
    rw [Loop.goes, hb] at hbf
    cases hbf

theorem complete (h : l.Placed) (hb : l.barrier = none)
    (hm : job ∈ l.s.running) (hid : job.id = some id) :
    (l.goes [.finished job] (l.s.completed job id)).Placed := by
  obtain ⟨hord, hline, hothers, -⟩ := h.ordered.completed hm hid
  obtain ⟨hrec, hfence, -, hcases⟩ := l.s.completed_cases job id
  refine ⟨hord, ?_, h.numbered, h.last, fun i => ?_, ?_, ?_, ?_⟩
  · intro x hx
    rcases hcases with hrun | ⟨next, queue, hq, hrun⟩
    · exact h.keyed x (mem_of_mem_erase (hrun ▸ hx : x ∈ l.s.running.erase job))
    · rcases mem_append.mp (hrun ▸ hx : x ∈ l.s.running.erase job ++ [next]) with hx | hx
      · exact h.keyed x (mem_of_mem_erase hx)
      · rw [mem_singleton.mp hx, (h.ordered.queued id _ hq).2.2 next mem_cons_self]
        exact some_ne_none _
  · rw [finishedOf_goes, finishedOf_finished, finishedOf_nil, jobsOf_append]
    show _ ++ (l.s.completed job id).line i = jobsOf i l.submitted
    by_cases hi : i = id
    · rw [hi, jobsOf_single_self hid, append_assoc, singleton_append, ← hline]
      exact h.lines id
    · rw [jobsOf_single_other (by rw [hid]; simpa using Ne.symm hi), hothers i hi, append_nil]
      exact h.lines i
  · rw [finishedOf_goes, finishedOf_finished, finishedOf_nil, fencesOf_append,
      fencesOf_single_keyed hid]
    simpa [Loop.goes, hrec, hfence] using h.fences
  · simpa [Loop.goes, hrec, hfence] using h.taken
  · intro f hbf
    rw [Loop.goes, hb] at hbf
    cases hbf

theorem fence_starts (h : l.Placed) (hb : l.barrier = none) (hf : l.s.fenced = some (job, s)) :
    Placed { l with s, barrier := some job, log := l.log ++ [.started job] } := by
  obtain ⟨hr, hfence, rfl⟩ := Scheduler.fenced_some hf
  obtain ⟨taken, ht, hlast⟩ := h.taken
  have hfences := h.fences
  refine ⟨⟨h.ordered.one, h.ordered.active, h.ordered.nodup, h.ordered.queued⟩, h.keyed, h.numbered,
    h.last, fun id => ?_, ?_, ⟨taken, ht, ?_⟩, fun f _ => ⟨hr, rfl⟩⟩
  · rw [finishedOf_append, finishedOf_started, finishedOf_nil, append_nil]
    exact h.lines id
  · simpa [hb, hfence] using hfences
  · rintro f (hbf | hff)
    · exact hlast f (.inr (hfence.trans hbf))
    · cases hff

theorem fence_ends (h : l.Placed) (hb : l.barrier = some job) :
    Placed { l with barrier := none, log := l.log ++ [.finished job] } := by
  obtain ⟨taken, ht, hlast⟩ := h.taken
  have hfences := h.fences
  have hid := h.fence_keyless (.inl hb)
  refine ⟨h.ordered, h.keyed, h.numbered, h.last, fun id => ?_, ?_, ⟨taken, ht, ?_⟩, ?_⟩
  · simpa [jobsOf_append, jobsOf_single_other (by rw [hid]; simp : job.id ≠ some id)]
      using h.lines id
  · simpa [hb, fencesOf_single hid] using hfences
  · rintro f (hbf | hff)
    · cases hbf
    · exact hlast f (.inr hff)
  · intro f hbf
    cases hbf

/-- What starts as the coordinator goes on starts in its turn. -/
theorem orderly_goes (h : (l.goes events s).Placed) (ho : Orderly l.submitted (l.log ++ events)) :
    Orderly (l.goes events s).submitted (l.goes events s).log := by
  refine ho.append_started fun b hb a ha hab => ?_
  have hmem := h.ready (mem_of_mem_filter hb) ha hab
  rwa [finishedOf_goes, ← finishedOf_append] at hmem

/-- The job that takes the place of one that is done was not running. -/
theorem next_waits (h : l.Placed) {next : Job} {queue : List Job}
    (hm : job ∈ l.s.running) (hid : job.id = some id)
    (hq : l.s.pending.lookup id = some (next :: queue)) : next ∉ l.s.running := by
  intro hn
  have hnid := (h.ordered.queued id _ hq).2.2 next mem_cons_self
  have h1 := h.ordered.running_single hm hid
  rw [h.ordered.running_single hn hnid] at h1
  cases h1
  have hs : (jobsOf id l.submitted).Pairwise (fun a b => a.task < b.task) := h.numbered.filter _
  rw [← h.lines id, h.ordered.line_running hm hid, hq, pairwise_append] at hs
  have := (pairwise_cons.mp hs.2.1).1 job (by simp)
  omega

end Loop.Placed

/-! ## The invariant -/

structure Loop.Kept (l : Loop) : Prop extends l.Placed where
  starts : ∀ id, jobsOf id (startedOf l.log) =
    jobsOf id (finishedOf l.log) ++ jobsOf id l.s.running
  fence_starts : fencesOf (startedOf l.log) = fencesOf (finishedOf l.log) ++ l.barrier.toList
  orderly : Orderly l.submitted l.log
  sound : l.panicked = false
  closing : l.s.disconnected = true → l.closed = true ∧ l.s.receiver = []
  stopping : l.stopped = true →
    l.s.running = [] ∧ l.s.fence = none ∧ l.barrier = none ∧ l.s.disconnected = true

/-- The coordinator goes on and starts nothing. -/
theorem log_goes_same {l : Loop} (events : List Event)
    (h : ∀ x ∈ s.running, x ∈ l.s.running) : (l.goes events s).log = l.log ++ events := by
  have hn : s.running.filter (fun job => job ∉ l.s.running) = [] := by
    rw [filter_eq_nil_iff]
    intro x hx
    simpa using h x hx
  rw [Loop.goes, hn, map_nil, append_nil]

theorem log_goes_one {l : Loop} (events : List Event) {rest : List Job}
    (hs : s.running = rest ++ [job]) (h : ∀ x ∈ rest, x ∈ l.s.running) (hj : job ∉ l.s.running) :
    (l.goes events s).log = l.log ++ events ++ [.started job] := by
  have hn : s.running.filter (fun job => job ∉ l.s.running) = [job] := by
    rw [hs, filter_append, filter_eq_nil_iff.mpr (fun x hx => by simpa using h x hx)]
    simp [hj]
  rw [Loop.goes, hn, map_singleton]

namespace Loop.Kept

variable {l : Loop}

section

variable (h : l.Kept)
include h

/-- The jobs of one chunk, or the fences, start in the order submitted; what has not started is
pending, waits as the fence, or is still in the channel. -/
theorem submitted_eq (key : Option ChunkId) :
    l.submitted.filter (fun job => job.id = key) =
      (startedOf l.log).filter (fun job => job.id = key) ++
        (match key with
          | some id => (l.s.pending.lookup id).getD [] ++ jobsOf id l.s.receiver
          | none => l.s.fence.toList ++ fencesOf l.s.receiver) := by
  cases key with
  | some id =>
    refine (h.lines id).symm.trans ?_
    refine Eq.trans ?_ (congrArg (· ++ _) (h.starts id).symm)
    simp only [Scheduler.line, append_assoc]
  | none =>
    refine h.fences.symm.trans ?_
    refine Eq.trans ?_ (congrArg (· ++ _) h.fence_starts.symm)
    simp only [append_assoc]

/-- What is finished was started, and in the same order among the jobs of one chunk. -/
theorem started_eq (key : Option ChunkId) :
    (startedOf l.log).filter (fun job => job.id = key) =
      (finishedOf l.log).filter (fun job => job.id = key) ++
        (match key with
          | some id => jobsOf id l.s.running
          | none => l.barrier.toList) := by
  cases key with
  | some id => exact h.starts id
  | none => exact h.fence_starts

theorem started_submitted (hj : job ∈ startedOf l.log) : job ∈ l.submitted := by
  have hm : job ∈ l.submitted.filter (fun x => x.id = job.id) := by
    rw [h.submitted_eq job.id]
    exact mem_append_left _ (mem_filter.mpr ⟨hj, by simp⟩)
  exact mem_of_mem_filter hm

theorem submit (id : Option ChunkId) : (l.submit id).Kept := by
  have hp := h.toPlaced.submit id
  unfold Loop.submit at hp ⊢
  split at hp
  · rw [if_pos (by assumption)]
    exact h
  · rename_i hn
    rw [if_neg hn]
    rw [not_or, Bool.not_eq_true, Bool.not_eq_true] at hn
    refine ⟨hp, h.starts, h.fence_starts, ?_, h.sound, ?_, h.stopping⟩
    · intro pre b post hlog a ha hab
      rcases mem_append.mp ha with ha | ha
      · exact h.orderly pre b post hlog a ha hab
      · -- a new job is ahead of no other
        have hb : b ∈ startedOf l.log := by
          rw [show l.log = _ from hlog]
          simp [startedOf]
        have hlt := h.last b (h.started_submitted hb)
        have := hab.1
        rw [mem_singleton.mp ha] at this
        exact absurd this (Nat.not_lt_of_gt hlt)
    · intro hd
      have := (h.closing hd).1
      rw [hn.1] at this
      cases this

theorem close : Loop.Kept { l with closed := true } :=
  ⟨⟨h.ordered, h.keyed, h.numbered, h.last, h.lines, h.fences, h.taken, h.alone⟩, h.starts,
    h.fence_starts, h.orderly, h.sound, fun hd => ⟨rfl, (h.closing hd).2⟩, h.stopping⟩

theorem next_message (hb : l.barrier = none) (hs : l.stopped = false) : l.next_message.Kept := by
  unfold Loop.next_message
  split
  · rename_i s hr
    have hp := h.toPlaced.receive hb hr
    obtain ⟨-, -, hdis, job, -, hcases⟩ := Scheduler.receive_cases hr
    have hlog : ((l.goes [] s).log = l.log ∧ s.running = l.s.running) ∨
        ((l.goes [] s).log = l.log ++ [.started job] ∧ s.running = l.s.running ++ [job] ∧
          fencesOf [job] = []) := by
      rcases hcases with ⟨-, -, hrun⟩ | ⟨id, hid, -, hrun | ⟨hact, hrun⟩⟩
      · exact .inl ⟨by rw [log_goes_same [] (fun x hx => hrun ▸ hx), append_nil], hrun⟩
      · exact .inl ⟨by rw [log_goes_same [] (fun x hx => hrun ▸ hx), append_nil], hrun⟩
      · have hj : job ∉ l.s.running := fun hj => hact ((h.ordered.active id).mpr
          (ne_nil_of_mem (mem_jobsOf.mpr ⟨hj, hid⟩)))
        refine .inr ⟨?_, hrun, fencesOf_single_keyed hid⟩
        rw [log_goes_one [] hrun (fun _ hx => hx) hj, append_nil]
    refine ⟨hp, fun id => ?_, ?_, ?_, h.sound, ?_, ?_⟩
    · show _ = _ ++ jobsOf id s.running
      rcases hlog with ⟨hlog, hrun⟩ | ⟨hlog, hrun, -⟩
      · rw [hlog, hrun]
        exact h.starts id
      · simp [hlog, hrun, jobsOf_append, h.starts id]
    · show _ = _ ++ l.barrier.toList
      rcases hlog with ⟨hlog, -⟩ | ⟨hlog, -, hkey⟩
      · rw [hlog]
        exact h.fence_starts
      · simp [hlog, hkey, h.fence_starts]
    · exact hp.orderly_goes (by simpa using h.orderly)
    · intro hd'
      rw [Loop.goes, hdis] at hd'
      cases hd'
    · intro hs'
      rw [Loop.goes, hs] at hs'
      cases hs'
  · rename_i hr
    split
    · rename_i hcl
      exact ⟨⟨⟨h.ordered.one, h.ordered.active, h.ordered.nodup, h.ordered.queued⟩, h.keyed,
        h.numbered, h.last, h.lines, h.fences, h.taken, h.alone⟩, h.starts, h.fence_starts,
        h.orderly, h.sound, fun _ => ⟨hcl.2, hcl.1⟩, fun hs' => by rw [hs] at hs'; cases hs'⟩
    · exact h

theorem next_running (hb : l.barrier = none) (hs : l.stopped = false)
    (hr : l.s.running ≠ []) (n : Nat) : (l.next_running n).Kept := by
  unfold Loop.next_running
  rw [if_neg hr]
  split
  · exact h
  rename_i job hn
  have hm : job ∈ l.s.running := mem_of_getElem? hn
  split
  · rename_i hid
    exact absurd hid (h.keyed job hm)
  rename_i id hid
  have hp := h.toPlaced.complete hb hm hid
  obtain ⟨hrec, hfence, hdis, hcases⟩ := l.s.completed_cases job id
  have hfilter : ∀ x ∈ l.s.running.erase job, x ∈ l.s.running := fun _ => mem_of_mem_erase
  have hsingle := h.ordered.running_single hm hid
  have herase : ∀ i, jobsOf i [job] ++ jobsOf i (l.s.running.erase job) = jobsOf i l.s.running := by
    intro i
    by_cases hi : i = id
    · rw [hi, jobsOf_single_self hid, hsingle]
      unfold jobsOf at hsingle ⊢
      rw [← erase_filter, hsingle, erase_cons_head]
      rfl
    · have hne : job.id ≠ some i := by rw [hid]; simpa using Ne.symm hi
      rw [jobsOf_single_other hne, jobsOf_erase_other hne, nil_append]
  refine ⟨hp, fun i => ?_, ?_, ?_, h.sound, ?_, ?_⟩
  · show _ = _ ++ jobsOf i (l.s.completed job id).running
    rcases hcases with hrun | ⟨next, queue, hq, hrun⟩
    · rw [log_goes_same _ (fun x hx => hfilter x (hrun ▸ hx)), hrun]
      simp [jobsOf_append, h.starts i, herase i]
    · rw [log_goes_one _ hrun hfilter (h.next_waits hm hid hq), hrun]
      simp [jobsOf_append, h.starts i, ← herase i]
  · show _ = _ ++ l.barrier.toList
    rcases hcases with hrun | ⟨next, queue, hq, hrun⟩
    · rw [log_goes_same _ (fun x hx => hfilter x (hrun ▸ hx))]
      simp [fencesOf_single_keyed hid, h.fence_starts]
    · have hnid := (h.ordered.queued id _ hq).2.2 next mem_cons_self
      rw [log_goes_one _ hrun hfilter (h.next_waits hm hid hq)]
      simp [fencesOf_single_keyed hid, fencesOf_single_keyed hnid, h.fence_starts]
  · exact hp.orderly_goes (h.orderly.append_finished job)
  · intro hd
    rw [Loop.goes, hdis] at hd
    simpa [Loop.goes, hrec] using h.closing hd
  · intro hs'
    rw [Loop.goes, hs] at hs'
    cases hs'

theorem turn (ready : Ready) : (l.turn ready).Kept := by
  unfold Loop.turn
  split
  · exact h
  rename_i hlive
  rw [not_or, Bool.not_eq_true, Bool.not_eq_true] at hlive
  split
  · rename_i job hb
    split
    · exact h
    · have hid := h.fence_keyless (.inl hb)
      refine ⟨h.toPlaced.fence_ends hb, fun id => ?_, ?_, h.orderly.append_finished job, h.sound,
        h.closing, fun hs => by rw [hlive.1] at hs; cases hs⟩
      · simpa [jobsOf_append, jobsOf_single_other (by rw [hid]; simp : job.id ≠ some id)]
          using h.starts id
      · simp [h.fence_starts, hb, fencesOf_single hid]
  rename_i hb
  split
  · rename_i job s hf
    have hp := h.toPlaced.fence_starts hb hf
    obtain ⟨hr, hfence, rfl⟩ := Scheduler.fenced_some hf
    have hid := h.fence_keyless (.inr hfence)
    refine ⟨hp, fun id => ?_, ?_, ?_, h.sound, h.closing, fun hs => by rw [hlive.1] at hs; cases hs⟩
    · simpa [jobsOf_append, jobsOf_single_other (by rw [hid]; simp : job.id ≠ some id)]
        using h.starts id
    · simp [h.fence_starts, hb, fencesOf_single hid]
    · have hjob : [Event.started job] = [job].map .started := rfl
      rw [hjob]
      refine h.orderly.append_started fun b hb a ha hab => ?_
      rw [mem_singleton.mp hb] at hab
      have := hp.ready_fence rfl ha hab.1
      rwa [finishedOf_append, finishedOf_started, finishedOf_nil, append_nil] at this
  rename_i hf
  split
  · rename_i hstop
    exact ⟨⟨h.ordered, h.keyed, h.numbered, h.last, h.lines, h.fences, h.taken, h.alone⟩, h.starts,
      h.fence_starts, h.orderly, h.sound, h.closing,
      fun _ => ⟨hstop.1, Scheduler.fenced_none hf hstop.1, hb, hstop.2⟩⟩
  rename_i hgo
  split
  · rename_i hwait
    -- a fence that waits, or the end of the channel, leaves the running jobs to wait for
    have hr : l.s.running ≠ [] := by
      intro hr
      rcases hwait with hw | hd
      · rw [Scheduler.fenced_none hf hr] at hw
        cases hw
      · exact hgo ⟨hr, hd⟩
    split
    · exact h
    · exact h.next_running hb hlive.1 hr _
  split
  · exact h.next_message hb hlive.1
  · rename_i hr
    split
    · exact h.next_message hb hlive.1
    · exact h.next_running hb hlive.1 hr _

theorem act (a : Act) : (l.act a).Kept := by
  cases a with
  | submit id => exact h.submit id
  | close => exact h.close
  | turn ready => exact h.turn ready

theorem run (acts : List Act) : (l.run acts).Kept := by
  induction acts generalizing l with
  | nil => exact h
  | cons a _ ih => exact ih (h.act a)

/-! ## Once each -/

omit h in
theorem turn_same (l : Loop) (ready : Ready) :
    (l.turn ready).submitted = l.submitted ∧ (l.turn ready).closed = l.closed := by
  unfold Loop.turn Loop.next_message Loop.next_running
  repeat' split
  all_goals exact ⟨rfl, rfl⟩

omit h in
theorem submitted_closed (hc : l.closed = true) (acts : List Act) :
    (l.run acts).submitted = l.submitted := by
  induction acts generalizing l with
  | nil => rfl
  | cons a acts ih =>
    cases a with
    | submit id =>
      exact (congrArg (fun l => (Loop.run l acts).submitted) (if_pos (.inl hc))).trans (ih hc)
    | close => exact ih rfl
    | turn ready =>
      exact (ih ((turn_same l ready).2.trans hc)).trans (turn_same l ready).1

/-- The jobs are those of the accepted submissions, in order. -/
theorem submitted_ids (hc : l.closed = false) (acts : List Act) :
    (l.run acts).submitted.map Job.id = l.submitted.map Job.id ++ submitsOf acts := by
  induction acts generalizing l with
  | nil => exact (append_nil _).symm
  | cons a acts ih =>
    cases a with
    | submit id =>
      have hopen : ¬ (l.closed = true ∨ l.stopped = true) := by
        rintro (h1 | h1)
        · rw [hc] at h1
          cases h1
        · rw [(h.closing (h.stopping h1).2.2.2).1] at hc
          cases hc
      have hsub : (l.submit id).submitted = l.submitted ++ [⟨id, l.submitted.length⟩] ∧
          (l.submit id).closed = false := by
        rw [Loop.submit, if_neg hopen]
        exact ⟨rfl, hc⟩
      have := ih (h.submit id) hsub.2
      rwa [hsub.1, map_append, append_assoc] at this
    | close =>
      rw [submitsOf, append_nil]
      exact congrArg _ (submitted_closed rfl acts)
    | turn ready =>
      have := ih (h.turn ready) ((turn_same l ready).2.trans hc)
      rwa [(turn_same l ready).1] at this

theorem submitted_nodup : l.submitted.Nodup :=
  h.numbered.imp fun hlt heq => by rw [heq] at hlt; exact Nat.lt_irrefl _ hlt

end

theorem count_key (jobs : List Job) (job : Job) :
    (jobs.filter (fun x => x.id = job.id)).count job = jobs.count job :=
  count_filter (by simp)

theorem count_started (h : l.Kept) (job : Job) :
    (finishedOf l.log).count job ≤ (startedOf l.log).count job ∧
      (startedOf l.log).count job ≤ l.submitted.count job := by
  have h1 := congrArg (List.count job) (h.started_eq job.id)
  have h2 := congrArg (List.count job) (h.submitted_eq job.id)
  rw [count_append, count_key, count_key] at h1 h2
  omega

/-- Once the loop has stopped, all that was submitted is done. -/
theorem count_stopped (h : l.Kept) (hs : l.stopped = true) (job : Job) :
    (startedOf l.log).count job = l.submitted.count job ∧
      (finishedOf l.log).count job = l.submitted.count job := by
  obtain ⟨hr, hf, hb, hd⟩ := h.stopping hs
  have hrec := (h.closing hd).2
  have h1 := h.started_eq job.id
  have h2 := h.submitted_eq job.id
  have hfin : (finishedOf l.log).count job = (startedOf l.log).count job := by
    rw [← count_key (finishedOf l.log), ← count_key (startedOf l.log), h1]
    cases job.id <;> simp [hr, hb, jobsOf]
  have hsub : (startedOf l.log).count job = l.submitted.count job := by
    rw [← count_key (startedOf l.log), ← count_key l.submitted, h2]
    cases job.id with
    | none => simp [hf, hrec, fencesOf]
    | some id => simp [h.ordered.idle hr id, hrec, jobsOf]
  exact ⟨hsub, hfin.trans hsub⟩

theorem count_events (log : List Event) (job : Job) :
    log.count (.started job) = (startedOf log).count job ∧
      log.count (.finished job) = (finishedOf log).count job := by
  induction log with
  | nil => exact ⟨rfl, rfl⟩
  | cons e _ ih => cases e <;> simp [count_cons, ih.1, ih.2]

/-! ## To the end -/

theorem length_events (log : List Event) :
    log.length = (startedOf log).length + (finishedOf log).length := by
  induction log with
  | nil => rfl
  | cons e _ ih => cases e <;> simp [ih] <;> omega

theorem log_length (h : l.Kept) : l.log.length ≤ 2 * l.submitted.length := by
  have hlen : ∀ jobs : List Job, (∀ job, jobs.count job ≤ l.submitted.count job) →
      jobs.length ≤ l.submitted.length := fun jobs hj =>
    (subperm_ext_iff.mpr fun job _ => hj job).length_le
  have h1 := hlen _ (fun job => (h.count_started job).2)
  have h2 := hlen _ (fun job => (h.count_started job).1.trans (h.count_started job).2)
  rw [length_events]
  omega

end Loop.Kept

/-- What the loop has still to do. -/
def Loop.left (l : Loop) : Nat :=
  l.s.receiver.length + (2 * l.submitted.length - l.log.length) +
    (if l.s.disconnected = true then 0 else 1) + if l.stopped = true then 0 else 1

namespace Loop.Kept

variable {l : Loop}

theorem left_lt {l' : Loop} (h : l'.Kept) (hs : l'.submitted = l.submitted)
    (hlog : l.log.length < l'.log.length) (hr : l'.s.receiver = l.s.receiver)
    (hd : l'.s.disconnected = l.s.disconnected) (hst : l'.stopped = l.stopped) :
    l'.left < l.left := by
  have hlen := h.log_length
  unfold Loop.left
  rw [hs] at hlen ⊢
  rw [hr, hd, hst]
  omega

theorem next_message_left (hc : l.closed = true) (hf : l.s.fence = none)
    (hd : l.s.disconnected = false) : l.next_message.left < l.left := by
  unfold Loop.next_message
  split
  · rename_i s hr
    obtain ⟨-, -, hdis, job, hrec, -⟩ := Scheduler.receive_cases hr
    have hlen : l.log.length ≤ (l.goes [] s).log.length := by simp [Loop.goes]
    unfold Loop.left
    rw [hrec, length_cons, show (l.goes [] s).s = s from rfl,
      show (l.goes [] s).submitted = l.submitted from rfl,
      show (l.goes [] s).stopped = l.stopped from rfl, hdis, hd]
    omega
  · rename_i hr
    rw [if_pos ⟨Scheduler.receive_none hr hf hd, hc⟩]
    simp [Loop.left, hd]

/-- Once every sender is gone, some turn of the loop brings it closer to its end. -/
theorem progress (h : l.Kept) (hc : l.closed = true) (hs : l.stopped = false) :
    ∃ ready, (l.turn ready).left < l.left ∧ (l.turn ready).closed = true := by
  have hlive : ¬(l.stopped = true ∨ l.panicked = true) := by simp [hs, h.sound]
  cases hb : l.barrier with
  | some job =>
    have hk := h.turn (.finish 0 false)
    have ht : l.turn (.finish 0 false) =
        { l with barrier := none, log := l.log ++ [.finished job] } := by
      rw [Loop.turn, if_neg hlive, hb]
    rw [ht] at hk
    refine ⟨.finish 0 false, ?_, by rw [ht]; exact hc⟩
    rw [ht]
    exact left_lt hk rfl (by simp) rfl rfl rfl
  | none =>
    cases hf : l.s.fenced with
    | some p =>
      obtain ⟨job, s⟩ := p
      have hk := h.turn .message
      have ht : l.turn .message =
          { l with s, barrier := some job, log := l.log ++ [.started job] } := by
        rw [Loop.turn, if_neg hlive, hb]
        simp only [hf]
      rw [ht] at hk
      refine ⟨.message, ?_, by rw [ht]; exact hc⟩
      rw [ht]
      obtain ⟨-, -, rfl⟩ := Scheduler.fenced_some hf
      exact left_lt hk rfl (by simp) rfl rfl rfl
    | none =>
      by_cases hstop : l.s.running = [] ∧ l.s.disconnected = true
      · have ht : l.turn .message = { l with stopped := true } := by
          rw [Loop.turn, if_neg hlive, hb]
          simp only [hf, if_pos hstop]
        refine ⟨.message, ?_, by rw [ht]; exact hc⟩
        rw [ht]
        simp [Loop.left, hs]
      · by_cases hwait : l.s.fence.isSome = true ∨ l.s.disconnected = true
        · have hk := h.turn (.finish 0 false)
          have ht : l.turn (.finish 0 false) = l.next_running 0 := by
            rw [Loop.turn, if_neg hlive, hb]
            simp only [hf, if_neg hstop, if_pos hwait]
          cases hrun : l.s.running with
          | nil =>
            rcases hwait with hw | hd
            · rw [Scheduler.fenced_none hf hrun] at hw
              cases hw
            · exact absurd ⟨hrun, hd⟩ hstop
          | cons job =>
            cases hid : job.id with
            | none => exact absurd hid (h.keyed job (by rw [hrun]; exact mem_cons_self))
            | some id =>
              have ht' : l.next_running 0 = l.goes [.finished job] (l.s.completed job id) := by
                simp [Loop.next_running, hrun, hid]
              rw [ht, ht'] at hk
              refine ⟨.finish 0 false, ?_, by rw [ht, ht']; exact hc⟩
              rw [ht, ht']
              obtain ⟨hrec, -, hdis, -⟩ := l.s.completed_cases job id
              exact left_lt hk rfl (by simp [Loop.goes]) hrec hdis rfl
        · have ht : l.turn .message = l.next_message := by
            rw [Loop.turn, if_neg hlive, hb]
            simp only [hf, if_neg hstop, if_neg hwait]
            split <;> rfl
          simp only [not_or, Bool.not_eq_true, isSome_eq_false_iff,
            isNone_iff_eq_none] at hwait
          refine ⟨.message, ?_, ?_⟩
          · rw [ht]
            exact next_message_left hc hwait.1 hwait.2
          · rw [ht, Loop.next_message]
            split
            · exact hc
            · split <;> exact hc

theorem stops (h : l.Kept) (hc : l.closed = true) :
    ∃ readies : List Ready, (l.run (readies.map .turn)).stopped = true := by
  induction hn : l.left using Nat.strong_induction_on generalizing l with
  | _ n ih =>
    cases hs : l.stopped with
    | true => exact ⟨[], hs⟩
    | false =>
      obtain ⟨ready, hlt, hc'⟩ := h.progress hc hs
      obtain ⟨readies, hr⟩ := ih _ (hn ▸ hlt) (h.turn ready) hc' rfl
      exact ⟨ready :: readies, hr⟩

end Loop.Kept

theorem new_kept {max_jobs max_bytes : Nat}
    (h : Scheduler.new max_jobs max_bytes = .ok s) : (Loop.new s).Kept := by
  unfold Scheduler.new at h
  split at h
  · cases h
  · cases h
    refine ⟨new_placed ⟨?_, ?_, .nil, ?_⟩ rfl rfl rfl, fun id => rfl, rfl, ?_, rfl,
      (fun hd => by cases hd), (fun hs => by cases hs)⟩
    · intro id
      exact Nat.zero_le 1
    · intro id
      exact ⟨(fun hm => by cases hm), fun hne => absurd rfl hne⟩
    · intro id queue hq
      rw [AList.lookup_empty] at hq
      cases hq
    · intro pre b post hlog
      simp [Loop.new] at hlog

/-- In every life of the coordinator, whatever is submitted and however its jobs end: jobs of one
chunk run one at a time in the order submitted; a fence starts after the end of all that was
submitted before it, and nothing submitted after it starts before its end; each job runs once
before the loop stops, which it can always go on to do once the senders are gone; and while nothing
runs nothing is pending, so no `expect` fails. -/
theorem jobs_run_in_order {s : Scheduler} {max_jobs max_bytes : Nat}
    (hs : Scheduler.new max_jobs max_bytes = .ok s) (acts : List Act) :
    let l := (Loop.new s).run acts
    l.submitted.map Job.id = submitsOf acts ∧
    (∀ id, (jobsOf id l.s.running).length ≤ 1) ∧
    (∀ pre b post, l.log = pre ++ .started b :: post → ∀ a ∈ l.submitted, a.task < b.task →
      (a.id = b.id ∨ b.id = none ∨ a.id = none) → .finished a ∈ pre) ∧
    (∀ job, l.log.count (.finished job) ≤ l.log.count (.started job) ∧
      l.log.count (.started job) ≤ l.submitted.count job ∧ l.submitted.count job ≤ 1) ∧
    (l.stopped = true → ∀ job ∈ l.submitted,
      l.log.count (.started job) = 1 ∧ l.log.count (.finished job) = 1) ∧
    (l.closed = true → ∃ readies : List Ready, (l.run (readies.map .turn)).stopped = true) ∧
    (l.s.running = [] → ∀ id, l.s.pending.lookup id = none) ∧ l.panicked = false := by
  intro l
  have h : l.Kept := (new_kept hs).run acts
  refine ⟨(new_kept hs).submitted_ids rfl acts, h.ordered.one, ?_, fun job => ?_, ?_, h.stops,
    fun hr => h.ordered.idle hr, h.sound⟩
  · intro pre b post hlog a ha hlt hids
    refine h.orderly pre b post hlog a ha ⟨hlt, ?_⟩
    rcases hids with hid | hid | hid
    · exact .inl hid
    · exact .inr (.inr hid)
    · exact .inr (.inl hid)
  · rw [(Loop.Kept.count_events l.log job).1, (Loop.Kept.count_events l.log job).2]
    exact ⟨(h.count_started job).1, (h.count_started job).2,
      nodup_iff_count_le_one.mp h.submitted_nodup job⟩
  · intro hst job hj
    rw [(Loop.Kept.count_events l.log job).1, (Loop.Kept.count_events l.log job).2,
      (h.count_stopped hst job).1, (h.count_stopped hst job).2,
      count_eq_one_of_mem h.submitted_nodup hj]
    exact ⟨rfl, rfl⟩

/-- Two jobs of one chunk and a fence, the first of them unwinding. -/
def twoJobsAndAFence : List Act :=
  [.submit (some (.from_bytes [7])), .submit (some (.from_bytes [7])), .submit none, .close,
    .turn .message, .turn .message, .turn .message, .turn (.finish 0 true),
    .turn (.finish 0 false), .turn .message, .turn (.finish 0 false), .turn .message,
    .turn .message]

theorem two_jobs_and_a_fence_run_once_each :
    let l := (Loop.new ⟨[], [], [], ∅, none, false, (0, 0), 4, 8⟩).run twoJobsAndAFence
    l.stopped = true ∧
      l.submitted.map Job.id = [some (.from_bytes [7]), some (.from_bytes [7]), none] ∧
      ∀ job ∈ l.submitted, l.log.count (.started job) = 1 ∧ l.log.count (.finished job) = 1 := by
  have hs : Scheduler.new 4 8 = .ok ⟨[], [], [], ∅, none, false, (0, 0), 4, 8⟩ := rfl
  have hstop : ((Loop.new ⟨[], [], [], ∅, none, false, (0, 0), 4, 8⟩).run
    twoJobsAndAFence).stopped = true := by decide
  obtain ⟨hids, -, -, -, honce, -⟩ := jobs_run_in_order hs twoJobsAndAFence
  exact ⟨hstop, hids, honce hstop⟩

end moat_cache.scheduler
