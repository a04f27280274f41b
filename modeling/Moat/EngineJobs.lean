-- The lifecycle job beside the data path: a step of a job touches no slot and no
-- queue, and asks for I/O of its own only when no write and no flush is left.
import Moat.EngineDriver
import Moat.PipelineSteady

namespace moat_engine.engine

open byte_list moat_common List
open moat_engine.frame (FrameLimits)
open moat_engine.io (Operation Queue Script)
open moat_engine.pipeline (Aside Books Failing Pipeline Shifts Steady)
open moat_engine.segment (Scanner SegmentHeader)

/-! ## What a step of a job leaves alone -/

/-- `e'` differs from `e` beside the data path only. -/
structure Beside (e e' : Engine) : Prop where
  pipeline : Aside e.pipeline e'.pipeline
  job : e'.job = e.job

namespace Beside

variable {e e' e'' : Engine}

theorem same (h1 : e'.pipeline = e.pipeline) (h2 : e'.job = e.job) : Beside e e' :=
  ⟨h1 ▸ .refl _, h2⟩

theorem trans (h : Beside e e') (k : Beside e' e'') : Beside e e'' :=
  ⟨h.pipeline.trans k.pipeline, k.job.trans h.job⟩

end Beside

section Recovery

variable (r : Recovery) (e : Engine)

theorem Recovery.scan_beside (limits : FrameLimits) : Beside e (r.scan limits e).2.1 := by
  unfold Recovery.scan
  split <;> exact .same rfl rfl

theorem Recovery.geometry_beside : Beside e (r.geometry e).2.1 := by
  unfold Recovery.geometry
  split
  · exact .same rfl rfl
  split_ifs
  · exact .same rfl rfl
  · exact .same rfl rfl
  · exact .same rfl rfl
  · exact ⟨.limits _ _, rfl⟩

theorem Recovery.enter_beside (header : SegmentHeader) (tail : Bytes) (base : Nat)
    (limits : FrameLimits) : Beside e (r.enter e header tail base limits).2.1 := by
  unfold Recovery.enter
  split
  · exact .same rfl rfl
  simp only
  split
  · exact .same rfl rfl
  rename_i pipeline hp
  have ha : Beside e { e with
      used := e.used.set r.number true, allocated := e.allocated + 1, pipeline } :=
    ⟨.attach hp, rfl⟩
  split
  · exact ha.trans (Recovery.scan_beside _ _ limits)
  split
  · exact ha.trans (Recovery.scan_beside _ _ limits)
  split <;> exact ha

theorem Recovery.tail_beside (layout : Layout) (base : Nat) (input : Option Bytes) :
    Beside e (r.tail e layout base input).2.1 := by
  unfold Recovery.tail
  split
  · simp only
    split
    · split <;> exact .same rfl rfl
    split
    · split
      · exact .same rfl rfl
      split
      · exact .same rfl rfl
      · exact Recovery.enter_beside _ e _ _ base layout.limits
    · exact .same rfl rfl
  · exact .same rfl rfl

theorem Recovery.fallback_beside (limits : FrameLimits) (err : segment.Error) :
    Beside e (r.fallback e limits err).2.1 := by
  unfold Recovery.fallback
  split
  · exact .same rfl rfl
  · exact Recovery.scan_beside r e limits

theorem Recovery.footer_read_beside (limits : FrameLimits) (input : Option Bytes) :
    Beside e (r.footer_read e limits input).2.1 := by
  unfold Recovery.footer_read
  simp only
  split
  · split
    · exact .same rfl rfl
    · exact Recovery.fallback_beside _ e limits _
  · exact .same rfl rfl

theorem Recovery.footer_validate_beside (limits : FrameLimits) :
    Beside e (r.footer_validate e limits).2.1 := by
  unfold Recovery.footer_validate
  split
  · split
    · exact .same rfl rfl
    · exact .same rfl rfl
    · exact Recovery.fallback_beside r e limits _
  · exact .same rfl rfl

theorem Recovery.restore_beside (limits : FrameLimits) : Beside e (r.restore e limits).2.1 := by
  unfold Recovery.restore
  split
  · split
    · exact .same rfl rfl
    split
    · exact .same rfl rfl
    split
    · exact .same rfl rfl
    split
    · exact .same rfl rfl
    split
    · exact .same rfl rfl
    · rename_i pipeline hp
      exact ⟨.restore hp, rfl⟩
  · exact .same rfl rfl

theorem Recovery.take_frame_beside (scanner : Scanner) (bytes : Bytes) :
    Beside e (r.take_frame e scanner bytes).2.1 := by
  unfold Recovery.take_frame
  split
  · exact .same rfl rfl
  · exact .same rfl rfl
  · split
    · exact .same rfl rfl
    · rename_i pipeline hp
      exact ⟨.restore hp, rfl⟩

theorem Recovery.scan_header_beside (limits : FrameLimits) (base : Nat) (input : Option Bytes) :
    Beside e (r.scan_header e limits base input).2.1 := by
  unfold Recovery.scan_header
  split
  · split
    · exact .same rfl rfl
    split
    · split <;> exact .same rfl rfl
    simp only
    split
    · exact Recovery.take_frame_beside _ e _ _
    · exact .same rfl rfl
  · exact .same rfl rfl

theorem Recovery.slot_step_beside (layout : Layout) (input : Option Bytes) :
    Beside e (r.slot_step e layout input).2.1 := by
  unfold Recovery.slot_step
  split
  · exact .same rfl rfl
  rename_i base _
  split
  · exact .same rfl rfl
  · split <;> exact .same rfl rfl
  · exact r.tail_beside e layout base input
  · exact r.footer_read_beside e layout.limits input
  · exact r.footer_validate_beside e layout.limits
  · exact r.restore_beside e layout.limits
  · unfold Recovery.start_scan
    split
    · exact .same rfl rfl
    · split <;> exact .same rfl rfl
  · exact r.scan_header_beside e layout.limits base input
  · unfold Recovery.scan_body
    split
    · exact Recovery.take_frame_beside _ e _ _
    · exact .same rfl rfl
  all_goals exact .same rfl rfl

theorem Recovery.step_beside (input : Option Bytes) : Beside e (r.step e input).2.1 := by
  unfold Recovery.step
  split
  · exact .same rfl rfl
  · split
    · exact .same rfl rfl
    · split <;> exact .same rfl rfl
  · split
    · exact .same rfl rfl
    split
    · exact .same rfl rfl
    · exact Recovery.geometry_beside _ e
  · split
    · exact .same rfl rfl
    split
    · exact .same rfl rfl
    · exact r.slot_step_beside e _ input

end Recovery

/-! ## Transitions -/

/-- What a step of a transition does besides: it leaves `Drain` only when no write and no flush is
left, and asks for I/O only after that. -/
structure Drained (stage : TransitionStage) (e : Engine)
    (s : Transition × Engine × Except Error Progress) : Prop where
  beside : Beside e s.2.1
  left : s.1.stage ≠ .Drain → stage ≠ .Drain ∨ e.pipeline.Quiet
  io : ∀ operation offset len buffer, s.2.2 = .ok (.Io operation offset len buffer) →
    s.1.stage ≠ .Drain

variable {p : Pipeline} {e : Engine} {job : Job} {stage : TransitionStage}

theorem quiet_of_not_pending (h : p.writes_pending = false) : p.Quiet := by
  unfold Pipeline.writes_pending at h
  simp only [Bool.or_eq_false_iff, Bool.not_eq_false', List.isEmpty_iff, Option.isSome_eq_false_iff,
    Option.isNone_iff_eq_none] at h
  exact h

variable {s : Transition × Engine × Except Error Progress}

/-- A step that stays in its stage and asks for nothing. -/
theorem Drained.stays (hb : Beside e s.2.1) (hs : s.1.stage = stage)
    (hn : ∀ operation offset len buffer, s.2.2 ≠ .ok (.Io operation offset len buffer)) :
    Drained stage e s :=
  ⟨hb, fun h => .inl (hs ▸ h), fun _ _ _ _ h => absurd h (hn _ _ _ _)⟩

/-- A step out of a later stage, or out of `Drain` with nothing left to drain. -/
theorem Drained.passes (hb : Beside e s.2.1)
    (hl : stage ≠ .Drain ∨ e.pipeline.Quiet) (hs : s.1.stage ≠ .Drain) : Drained stage e s :=
  ⟨hb, fun _ => hl, fun _ _ _ _ _ => hs⟩

section Transition

variable (t : Transition) (e : Engine) (layout : Layout)

theorem Transition.drain_drained (kind : Lifecycle) (h : t.stage = .Drain) :
    Drained .Drain e (t.drain e kind layout) := by
  unfold Transition.drain
  split
  · exact .stays (.same rfl rfl) h (by simp)
  rename_i hp
  have hq : e.pipeline.Quiet := by
    apply quiet_of_not_pending
    rw [not_or] at hp
    simpa using hp.1
  split
  · split
    · exact .stays (.same rfl rfl) h (by simp)
    · exact .stays (.same rfl rfl) h (by simp [Engine.panic])
    · rename_i builder pipeline hs
      have hb : Beside e { e with pipeline, active := none } := ⟨.take_segment hs, rfl⟩
      simp only
      split
      · exact .stays hb h (by simp)
      · exact .passes hb (.inr hq) (by simp)
  · split <;> exact .passes (.same rfl rfl) (.inr hq) (by simp)

theorem Transition.write_footer_drained (hl : stage ≠ .Drain)
    (h : t.stage ≠ .Drain) : Drained stage e (t.write_footer e) := by
  unfold Transition.write_footer
  split
  · exact .passes (.same rfl rfl) (.inl hl) h
  split
  · exact .passes (.same rfl rfl) (.inl hl) h
  simp only
  split
  · exact .passes (.same rfl rfl) (.inl hl) (by simp)
  · exact .passes (.same rfl rfl) (.inl hl) h

theorem Transition.allocate_drained (hl : stage ≠ .Drain)
    (h : t.stage ≠ .Drain) : Drained stage e (t.allocate e layout) := by
  unfold Transition.allocate
  simp only
  split
  · exact .passes (.same rfl rfl) (.inl hl) h
  split
  · exact .passes (.same rfl rfl) (.inl hl) h
  split
  · exact .passes (.same rfl rfl) (.inl hl) h
  split
  · exact .passes (.same rfl rfl) (.inl hl) h
  split <;> exact .passes (.same rfl rfl) (.inl hl) (by simp)

theorem Transition.attach_drained (hl : stage ≠ .Drain)
    (h : t.stage ≠ .Drain) : Drained stage e (t.attach e layout) := by
  unfold Transition.attach
  split
  · exact .passes (.same rfl rfl) (.inl hl) h
  split
  · exact .passes (.same rfl rfl) (.inl hl) h
  · exact .passes (.same rfl rfl) (.inl hl) h
  split
  · exact .passes (.same rfl rfl) (.inl hl) h
  · rename_i pipeline hp
    exact .passes ⟨.attach hp, rfl⟩ (.inl hl) h

theorem Transition.step_drained (kind : Lifecycle) : Drained t.stage e (t.step e kind) := by
  unfold Transition.step
  split
  · exact .stays (.same rfl rfl) rfl (by simp)
  split
  · exact .stays (.same rfl rfl) rfl (by simp [Engine.panic])
  rename_i layout _
  cases hs : t.stage with
  | Drain => exact t.drain_drained e layout kind hs
  | Footer => exact t.write_footer_drained e (by decide) (by rw [hs]; decide)
  | LastWrite =>
    simp only
    split
    · exact .passes (.same rfl rfl) (.inl (by decide)) (by simp [Engine.panic, hs])
    · exact .passes (.same rfl rfl) (.inl (by decide)) (by simp)
  | LastSync | HeaderSync => exact .passes (.same rfl rfl) (.inl (by decide)) (by simp)
  | Allocate => exact t.allocate_drained e layout (by decide) (by rw [hs]; decide)
  | Attach => exact t.attach_drained e layout (by decide) (by rw [hs]; decide)
  | Closed => exact .passes (.same rfl rfl) (.inl (by decide)) (by simp [hs])

end Transition

/-! ## Jobs -/

/-- A job for which all writes and flushes have been delivered. -/
def Job.Quiet (j : Job) : Prop :=
  match j.work with
  | .Open _ => True
  | .Transition t => t.stage ≠ .Drain

/-- What a step of a job does, whatever its work is. -/
structure Job.Steps (j : Job) (e : Engine) (s : Job × Engine × Except Error Progress) : Prop where
  beside : Beside e s.2.1
  ticket : s.1.ticket = j.ticket
  kind : s.1.kind = j.kind
  waiting : s.1.waiting = j.waiting
  left : s.1.Quiet → j.Quiet ∨ e.pipeline.Quiet
  io : ∀ operation offset len buffer, s.2.2 = .ok (.Io operation offset len buffer) → s.1.Quiet

theorem Job.step_steps (j : Job) (e : Engine) (input : Option Bytes) :
    j.Steps e (j.step e input) := by
  unfold Job.step
  split
  · rename_i recovery hw
    have hb := recovery.step_beside e input
    exact ⟨hb, rfl, rfl, rfl, fun _ => .inl (by unfold Job.Quiet; rw [hw]; trivial),
      fun _ _ _ _ _ => trivial⟩
  · rename_i t hw
    have hd := t.step_drained e j.kind
    refine ⟨hd.beside, rfl, rfl, rfl, ?_, hd.io⟩
    unfold Job.Quiet
    rw [hw]
    exact hd.left

/-! ## Soundness of an engine -/

/-- How the job and the data path share a working queue. -/
structure Parked (job : Option Job) (p : Pipeline) : Prop where
  idle : (∀ j, job = some j → j.waiting = false) → p.Uncontrolled
  quiet : ∀ j, job = some j → j.Quiet → p.Quiet
  waits : ∀ j, job = some j → j.waiting = true → j.Quiet

/-- The pipeline works and the job keeps to its part, or the queue is lost. -/
def Sound (e : Engine) : Prop :=
  (Steady e.pipeline ∧ Parked e.job e.pipeline) ∨ Failing e.pipeline

theorem Parked.none (h : p.Uncontrolled) : Parked none p :=
  ⟨fun _ => h, (fun _ hj => by cases hj), (fun _ hj => by cases hj)⟩

/-! ## Tickets -/

/-- The ticket that a job will complete. -/
def Job.owed (j : Job) : List Nat := j.ticket.toList

/-- All tickets that wait for a completion. -/
def Engine.tickets (e : Engine) : Multiset Nat :=
  e.pipeline.tickets + (e.job.elim [] Job.owed : List Nat)

/-- From `e` to `e'` the tickets `issued` went to callers and `out` were completed. -/
structure Settles (e : Engine) (issued out : List Nat) (e' : Engine) : Prop where
  books : Books e.pipeline → Books e'.pipeline
  tickets : Books e.pipeline → e'.tickets + out = e.tickets + issued
  next : e.pipeline.next_ticket ≤ e'.pipeline.next_ticket
  fresh : ∀ t ∈ issued, e.pipeline.next_ticket ≤ t ∧ t < e'.pipeline.next_ticket
  nodup : issued.Nodup
  grown : e.pipeline.index.Grown e'.pipeline.index

namespace Settles

variable {e e' e'' : Engine}

/-- The job stays, or goes on to owe the same ticket. -/
theorem of_shifts {begun out : List Nat} (h : Shifts e.pipeline begun out e'.pipeline)
    (hj : e'.job.elim [] Job.owed = e.job.elim [] Job.owed) : Settles e begun out e' := by
  refine ⟨h.books, ?_, by rw [h.next]; omega, ?_, ?_, h.grown⟩
  · intro hb
    unfold Engine.tickets
    rw [hj, add_right_comm, h.tickets hb, add_right_comm]
  · intro t ht
    rw [h.drawn, mem_range'_1] at ht
    rw [h.next]
    exact ht
  · rw [h.drawn]
    exact nodup_range'

theorem refl (e : Engine) : Settles e [] [] e := of_shifts (.refl _) rfl

/-- A change that draws nothing, before one that may. -/
theorem after {issued o o' : List Nat} (h : Settles e [] o e') (k : Settles e' issued o' e'') :
    Settles e issued (o ++ o') e'' := by
  refine ⟨fun hb => k.books (h.books hb), ?_, h.next.trans k.next, ?_, k.nodup,
    h.grown.trans k.grown⟩
  · intro hb
    have h1 := h.tickets hb
    have h2 := k.tickets (h.books hb)
    rw [Multiset.coe_nil, add_zero] at h1
    rw [← Multiset.coe_add, add_comm (o : Multiset Nat), ← add_assoc, h2, add_right_comm, h1]
  · intro t ht
    have := k.fresh t ht
    have := h.next
    omega

/-- The job ends and its ticket is completed. -/
theorem finished (hj : e.job = some job) (hs : Shifts e.pipeline [] [] e'.pipeline)
    (hn : e'.job = none) : Settles e [] job.owed e' := by
  refine ⟨hs.books, ?_, by rw [hs.next]; omega, (fun t ht => by cases ht), nodup_nil,
    hs.grown⟩
  intro hb
  have ht : e'.pipeline.tickets = e.pipeline.tickets := by simpa using hs.tickets hb
  unfold Engine.tickets
  rw [hj, hn, ht]
  simp

end Settles

/-! ## Driving the job -/

theorem finish_job_pipeline (e : Engine) (job : Job) (result : Except Error Unit) :
    (e.finish_job job result).1.pipeline = { e.pipeline with maintenance := false } ∧
      (e.finish_job job result).1.job = none := by
  unfold Engine.finish_job
  simp only
  split_ifs
  · exact ⟨rfl, trivial⟩
  · split <;> exact ⟨rfl, trivial⟩

theorem finish_job_sound (job : Job) (result : Except Error Unit)
    (h : (Steady e.pipeline ∧ e.pipeline.Uncontrolled) ∨ Failing e.pipeline) :
    Sound (e.finish_job job result).1 := by
  obtain ⟨hp, hn⟩ := finish_job_pipeline e job result
  unfold Sound
  rw [hp, hn]
  rcases h with ⟨hs, hc⟩ | hf
  · exact .inl ⟨⟨{ hs.live with }, ⟨hs.backed.slots, hs.backed.queue, hs.backed.index⟩, hs.calm,
      hs.answered⟩, .none hc⟩
  · exact .inr ⟨hf.failed, hf.cause, hf.calm⟩

theorem finish_job_settles {e₀ : Engine} {job₀ : Job} (result : Except Error Unit)
    (hj : e₀.job = some job₀) (ht : job.ticket = job₀.ticket)
    (hs : Shifts e₀.pipeline [] [] e.pipeline) :
    Settles e₀ [] ((e.finish_job job result).2.map Completion.ticket)
      (e.finish_job job result).1 := by
  have hout : (e.finish_job job result).2.map Completion.ticket = job₀.owed := by
    unfold Engine.finish_job Job.owed
    rw [ht]
    cases job₀.ticket <;> rfl
  obtain ⟨hp, hn⟩ := finish_job_pipeline e job result
  rw [hout]
  refine .finished hj ?_ hn
  rw [hp]
  exact hs.trans (.aside rfl rfl rfl rfl rfl (.same rfl rfl rfl rfl))

/-- A job that goes on without I/O of its own. -/
theorem Parked.goes_on (hw : job.waiting = false) (hc : p.Uncontrolled)
    (hq : job.Quiet → p.Quiet) : Parked (some job) p := by
  refine ⟨fun _ => hc, ?_, ?_⟩
  · rintro j ⟨⟩
    exact hq
  · rintro j ⟨⟩ hj
    rw [hw] at hj
    cases hj

/-- A step of a job that waits for nothing. -/
theorem step_job_sound (input : Option Bytes) (hw : job.waiting = false)
    (h : (Steady e.pipeline ∧ e.pipeline.Uncontrolled ∧ (job.Quiet → e.pipeline.Quiet)) ∨
      Failing e.pipeline) : Sound (e.step_job job input).1 := by
  have hst := Job.step_steps { job with blocked := false } e input
  unfold Engine.step_job
  generalize Job.step { job with blocked := false } e input = s at hst
  obtain ⟨job', e', result⟩ := s
  obtain ⟨hb, -, -, hwait, hleft, hio⟩ := hst
  have hw' : job'.waiting = false := hwait.trans hw
  have hfin : (Steady e'.pipeline ∧ e'.pipeline.Uncontrolled) ∨ Failing e'.pipeline := by
    rcases h with ⟨hs, hc, -⟩ | hf
    · exact .inl ⟨hb.pipeline.steady hs, hb.pipeline.uncontrolled hc⟩
    · exact .inr (hb.pipeline.failing hf)
  have hquiet : (job.Quiet → e.pipeline.Quiet) → job'.Quiet → e'.pipeline.Quiet := by
    intro hq hq'
    rcases hleft hq' with h1 | h1
    · exact hb.pipeline.quiet (hq h1)
    · exact hb.pipeline.quiet h1
  have hgo : ∀ blocked, Sound { e' with job := some { job' with blocked } } := by
    intro blocked
    rcases h with ⟨hs, hc, hq⟩ | hf
    · refine .inl ⟨hb.pipeline.steady hs, Parked.goes_on ?_ (hb.pipeline.uncontrolled hc) ?_⟩
      · exact hw'
      · exact hquiet hq
    · exact .inr (hb.pipeline.failing hf)
  cases result with
  | error err => exact finish_job_sound job' (.error err) hfin
  | ok progress =>
    cases progress with
    | Done => exact finish_job_sound job' (.ok ()) hfin
    | Continue => exact hgo job'.blocked
    | Wait => exact hgo true
    | Io operation offset len buffer =>
      simp only
      split
      · rename_i p hp
        have hq' := hio operation offset len buffer rfl
        obtain ⟨-, hw1, hf1, hok⟩ := pipeline.control_io_shifts hp
        rcases h with ⟨hs, hc, hq⟩ | hf
        · have hqe : e'.pipeline.Quiet := hquiet hq hq'
          refine .inl ⟨pipeline.control_io_steady (hb.pipeline.steady hs) hqe hp, ?_⟩
          refine ⟨?_, ?_, ?_⟩
          · intro hall
            have := hall _ rfl
            cases this
          · rintro j ⟨⟩ _
            exact ⟨hw1.trans hqe.1, hf1.trans hqe.2⟩
          · rintro j ⟨⟩ _
            exact hq'
        · rw [(hb.pipeline.failing hf).failed] at hok
          cases hok
      · rename_i err _
        exact finish_job_sound job' (.error (.Pipeline err)) hfin

theorem step_job_settles {e₀ : Engine} {job₀ : Job} (input : Option Bytes) (hj : e₀.job = some job₀)
    (ht : job.ticket = job₀.ticket) (hs : Shifts e₀.pipeline [] [] e.pipeline) :
    Settles e₀ [] ((e.step_job job input).2.1.map Completion.ticket) (e.step_job job input).1 := by
  have hst := Job.step_steps { job with blocked := false } e input
  unfold Engine.step_job
  generalize Job.step { job with blocked := false } e input = s at hst
  obtain ⟨job', e', result⟩ := s
  obtain ⟨hb, htick, -⟩ := hst
  have ht' : job'.ticket = job₀.ticket := htick.trans ht
  have hs' : Shifts e₀.pipeline [] [] e'.pipeline := hs.trans hb.pipeline.shifts
  have howed : ∀ j : Job, j.ticket = job'.ticket → j.owed = job₀.owed := by
    intro j h
    unfold Job.owed
    rw [h, ht']
  have hgo : ∀ (e'' : Engine) (j : Job), e''.job = some j → j.ticket = job'.ticket →
      Shifts e₀.pipeline [] [] e''.pipeline → Settles e₀ [] [] e'' := by
    intro e'' j h1 h2 h3
    refine .of_shifts h3 ?_
    rw [hj, h1]
    exact howed j h2
  cases result with
  | error err => exact finish_job_settles (.error err) hj ht' hs'
  | ok progress =>
    cases progress with
    | Done => exact finish_job_settles (.ok ()) hj ht' hs'
    | Continue => exact hgo _ job' rfl rfl hs'
    | Wait => exact hgo _ _ rfl rfl hs'
    | Io operation offset len buffer =>
      simp only
      split
      · rename_i p hp
        exact hgo _ { job' with waiting := true } rfl rfl
          (hs'.trans (pipeline.control_io_shifts hp).1)
      · rename_i err _
        exact finish_job_settles (.error (.Pipeline err)) hj ht' hs'

theorem drive_job_sound (h : Sound e) : Sound e.drive_job.1 := by
  unfold Engine.drive_job
  split
  · exact h
  rename_i job hj
  unfold Sound at h
  rw [hj] at h
  simp only
  split
  · rename_i hf
    rcases h with ⟨hs, -⟩ | hf'
    · rw [show e.pipeline.queue_failed = false from hs.live.healthy] at hf
      cases hf.1
    · exact finish_job_sound job (.error (.Pipeline .QueueFailed)) (.inr hf')
  rename_i hok
  split
  · rename_i hw
    split
    · exact h
    rename_i completion hd
    -- the answer has come, so the engine has nothing else under way
    have hpre : (Steady { e.pipeline with control_done := none } ∧
        Pipeline.Uncontrolled { e.pipeline with control_done := none } ∧
        (Job.Quiet { job with waiting := false } →
          Pipeline.Quiet { e.pipeline with control_done := none })) ∨
        Failing { e.pipeline with control_done := none } := by
      rcases h with ⟨hs, hk⟩ | hf
      · have hc := hs.answered (by rw [hd]; rfl)
        exact .inl ⟨⟨{ hs.live with }, ⟨hs.backed.slots, hs.backed.queue, hs.backed.index⟩, hs.calm,
          fun _ => hc⟩, hc, fun hq => hk.quiet job rfl hq⟩
      · exact .inr ⟨hf.failed, hf.cause, hf.calm⟩
    split
    · exact step_job_sound _ rfl hpre
    · rename_i err _
      refine finish_job_sound { job with waiting := false } (.error err) ?_
      rcases hpre with ⟨h1, h2, -⟩ | h1
      · exact .inl ⟨h1, h2⟩
      · exact .inr h1
  · rename_i hw
    have hw : job.waiting = false := by simpa using hw
    refine step_job_sound none hw ?_
    rcases h with ⟨hs, hk⟩ | hf
    · refine .inl ⟨hs, hk.idle ?_, hk.quiet job rfl⟩
      rintro j ⟨⟩
      exact hw
    · exact .inr hf

theorem drive_job_settles (e : Engine) :
    Settles e [] (e.drive_job.2.1.map Completion.ticket) e.drive_job.1 := by
  unfold Engine.drive_job
  split
  · exact .refl e
  rename_i job hj
  simp only
  split
  · exact finish_job_settles (.error (.Pipeline .QueueFailed)) hj rfl (.refl _)
  split
  · split
    · exact .of_shifts (.refl _) (by rw [hj])
    split
    · exact step_job_settles _ hj rfl (.aside rfl rfl rfl rfl rfl (.same rfl rfl rfl rfl))
    · rename_i err _
      exact finish_job_settles (.error err) hj rfl
        (.aside rfl rfl rfl rfl rfl (.same rfl rfl rfl rfl))
  · exact step_job_settles _ hj rfl (.refl _)

end moat_engine.engine
