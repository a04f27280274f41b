-- What is runnable in an engine without the device (`Engine::has_ready`). Beside
-- the work that it announces there is one kind that it does not: a flush that
-- has nothing to wait for and is not started yet.
import Moat.EngineHistory
import Moat.PipelineReady
import Moat.Superblock

namespace moat_engine.engine

open byte_list moat_common List
open moat_engine.frame (FrameBuilder FrameLimits)
open moat_engine.io (Event Operation Queue Request Script)
open moat_engine.pipeline (Does Freed Pipeline Range ReadBuffers ResourceLimits Steady Turn quiet)
open moat_engine.segment (Scanner SegmentHeader)

/-- A poll during which the device gives nothing back delivers no completion, submits nothing and
leaves the lifecycle as it is. -/
def Rests (e : Engine) : Prop :=
  (e.poll quiet).2 = [] ∧ (e.poll quiet).1.pipeline.queue = e.pipeline.queue ∧
    (e.poll quiet).1.state = e.state ∧ (e.poll quiet).1.opened = e.opened ∧
    (e.poll quiet).1.active = e.active ∧ (e.poll quiet).1.job = e.job

/-! ## Which steps of a job wait -/

/-- A transition that waits for the writes before it, or a close for all that is in flight. -/
structure Stalled (e : Engine) (j : Job) : Prop where
  opened : e.opened = true
  layout : e.layout.isSome = true
  drains : ∃ t, j.work = .Transition t ∧ t.stage = .Drain
  pending : e.pipeline.writes_pending = true ∨ (j.kind = .Close ∧ e.pipeline.in_flight ≠ 0)

variable {e e' : Engine} {j : Job} {ticket : Nat} {h : History} {i : pipeline.Index}

theorem Stalled.step (h : Stalled e j) (input : Option Bytes) :
    j.step e input = (j, e, .ok .Wait) := by
  obtain ⟨t, hw, ht⟩ := h.drains
  obtain ⟨layout, hl⟩ := Option.isSome_iff_exists.mp h.layout
  have hstep : t.step e j.kind = (t, e, .ok .Wait) := by
    unfold Transition.step
    rw [if_neg (by simp [h.opened]), hl]
    simp only [ht]
    unfold Transition.drain
    rw [if_pos h.pending]
  unfold Job.step
  rw [hw]
  simp only [hstep]
  rw [← hw]

section Recovery

variable (r : Recovery) (e : Engine)

theorem Recovery.scan_goes (limits : FrameLimits) : (r.scan limits e).2.2 ≠ .ok .Wait := by
  unfold Recovery.scan
  split <;> simp [Engine.panic]

theorem Recovery.next_goes : (r.next e).2.2 ≠ .ok .Wait := by simp [Recovery.next]

theorem Recovery.geometry_goes : (r.geometry e).2.2 ≠ .ok .Wait := by
  unfold Recovery.geometry
  split
  · simp
  · split_ifs <;> simp

theorem Recovery.enter_goes (header : SegmentHeader) (tail : Bytes) (base : Nat)
    (limits : FrameLimits) : (r.enter e header tail base limits).2.2 ≠ .ok .Wait := by
  unfold Recovery.enter
  split
  · simp [Engine.panic]
  simp only
  split
  · simp
  split
  · exact Recovery.scan_goes _ _ limits
  split
  · exact Recovery.scan_goes _ _ limits
  split <;> simp [Progress.read]

theorem Recovery.tail_goes (layout : Layout) (base : Nat) (input : Option Bytes) :
    (r.tail e layout base input).2.2 ≠ .ok .Wait := by
  unfold Recovery.tail
  split
  · simp only
    split
    · split
      · exact Recovery.next_goes _ e
      · simp
    split
    · split
      · simp
      split
      · simp
      · exact Recovery.enter_goes _ e _ _ base layout.limits
    · simp [Engine.panic]
  · simp [Engine.panic]

theorem Recovery.fallback_goes (limits : FrameLimits) (err : segment.Error) :
    (r.fallback e limits err).2.2 ≠ .ok .Wait := by
  unfold Recovery.fallback
  split
  · simp
  · exact r.scan_goes e limits

theorem Recovery.footer_read_goes (limits : FrameLimits) (input : Option Bytes) :
    (r.footer_read e limits input).2.2 ≠ .ok .Wait := by
  unfold Recovery.footer_read
  simp only
  split
  · split
    · simp
    · exact Recovery.fallback_goes _ e limits _
  · simp [Engine.panic]

theorem Recovery.footer_validate_goes (limits : FrameLimits) :
    (r.footer_validate e limits).2.2 ≠ .ok .Wait := by
  unfold Recovery.footer_validate
  split
  · split
    · simp
    · simp
    · exact r.fallback_goes e limits _
  · simp [Engine.panic]

theorem Recovery.restore_goes (limits : FrameLimits) : (r.restore e limits).2.2 ≠ .ok .Wait := by
  unfold Recovery.restore
  split
  · split
    · simp [Engine.panic]
    split
    · exact r.next_goes e
    split
    · simp
    split
    · simp
    split <;> simp
  · simp [Engine.panic]

theorem Recovery.start_scan_goes (base : Nat) : (r.start_scan e base).2.2 ≠ .ok .Wait := by
  unfold Recovery.start_scan
  split
  · simp [Engine.panic]
  split
  · exact r.next_goes e
  · simp [Recovery.page_read, Progress.read]

theorem Recovery.take_frame_goes (scanner : Scanner) (bytes : Bytes) :
    (r.take_frame e scanner bytes).2.2 ≠ .ok .Wait := by
  unfold Recovery.take_frame
  split
  · simp
  · exact r.next_goes e
  · split <;> simp

theorem Recovery.scan_header_goes (limits : FrameLimits) (base : Nat) (input : Option Bytes) :
    (r.scan_header e limits base input).2.2 ≠ .ok .Wait := by
  unfold Recovery.scan_header
  split
  · split
    · simp [Engine.panic]
    split
    · split
      · simp
      · exact r.next_goes e
    simp only
    split
    · exact Recovery.take_frame_goes _ e _ _
    · simp [Progress.read]
  · simp [Engine.panic]

theorem Recovery.slot_step_goes (layout : Layout) (input : Option Bytes) :
    (r.slot_step e layout input).2.2 ≠ .ok .Wait := by
  unfold Recovery.slot_step
  split
  · simp
  rename_i base _
  split
  · simp [Recovery.page_read, Progress.read]
  · split <;> simp [Recovery.page_read, Progress.read]
  · exact r.tail_goes e layout base input
  · exact r.footer_read_goes e layout.limits input
  · exact r.footer_validate_goes e layout.limits
  · exact r.restore_goes e layout.limits
  · exact r.start_scan_goes e base
  · exact r.scan_header_goes e layout.limits base input
  · unfold Recovery.scan_body
    split
    · exact Recovery.take_frame_goes _ e _ _
    · simp [Engine.panic]
  all_goals simp [Engine.panic]

/-- Recovery waits for its own reads only. -/
theorem Recovery.step_goes (input : Option Bytes) : (r.step e input).2.2 ≠ .ok .Wait := by
  unfold Recovery.step
  split
  · simp [Recovery.page_read, Progress.read]
  · split
    · simp [Engine.panic]
    · split <;> simp [Recovery.page_read, Progress.read]
  · split
    · simp [Engine.panic]
    split
    · simp
    · exact Recovery.geometry_goes _ e
  · split
    · simp [Engine.panic]
    split
    · simp
    · exact r.slot_step_goes e _ input

end Recovery

theorem Progress.sync_goes (mode : SyncMode) :
    (.ok (.sync mode) : Except Error Progress) ≠ .ok .Wait := by
  cases mode <;> simp [Progress.sync]

/-- A transition waits in `Drain`, and only for the data path. -/
theorem Transition.step_waits {t : Transition} {kind : Lifecycle}
    (h : (t.step e kind).2.2 = .ok .Wait) :
    e.opened = true ∧ e.layout.isSome = true ∧ t.stage = .Drain ∧
      (e.pipeline.writes_pending = true ∨ (kind = .Close ∧ e.pipeline.in_flight ≠ 0)) := by
  unfold Transition.step at h
  split at h
  · cases h
  rename_i ho
  split at h
  · cases h
  rename_i layout hl
  split at h
  · rename_i hs
    refine ⟨by simpa using ho, by simp [hl], hs, ?_⟩
    unfold Transition.drain at h
    split at h
    · assumption
    split at h
    · split at h
      · cases h
      · cases h
      · simp only at h
        split at h <;> cases h
    · split at h
      · exact absurd h (Progress.sync_goes _)
      · cases h
  · unfold Transition.write_footer at h
    split at h
    · cases h
    split at h
    · cases h
    simp only at h
    split at h
    · exact absurd h (Progress.sync_goes _)
    · cases h
  · split at h <;> cases h
  · exact absurd h (Progress.sync_goes _)
  · unfold Transition.allocate at h
    simp only at h
    split at h
    · cases h
    split at h
    · cases h
    split at h
    · cases h
    split at h
    · cases h
    split at h <;> cases h
  · exact absurd h (Progress.sync_goes _)
  · unfold Transition.attach at h
    split at h
    · cases h
    split at h
    · cases h
    · cases h
    split at h <;> cases h
  · cases h

theorem Job.step_waits {input : Option Bytes}
    (h : (j.step e input).2.2 = .ok .Wait) : Stalled e j := by
  unfold Job.step at h
  split at h
  · rename_i recovery _
    exact absurd h (recovery.step_goes e input)
  · rename_i t hw
    obtain ⟨h1, h2, h3, h4⟩ := Transition.step_waits h
    exact ⟨h1, h2, ⟨t, hw, h3⟩, h4⟩

theorem Job.step_blocked (j : Job) (e : Engine) (input : Option Bytes) :
    (j.step e input).1.blocked = j.blocked := by
  unfold Job.step
  split <;> rfl

/-! ## Driving a job, case by case -/

/-- `q` has the queue, the slots and the lists of `p`. -/
structure Trails (p q : Pipeline) : Prop where
  queue : q.queue = p.queue
  failed : q.queue_failed = p.queue_failed
  writes : q.writes = p.writes
  flush : q.flush_slot = p.flush_slot
  slots : q.slots = p.slots
  free : q.free = p.free

namespace Trails

variable {p q r : Pipeline}

theorem trans (h : Trails p q) (k : Trails q r) : Trails p r :=
  ⟨k.queue.trans h.queue, k.failed.trans h.failed, k.writes.trans h.writes, k.flush.trans h.flush,
    k.slots.trans h.slots, k.free.trans h.free⟩

theorem aside (h : pipeline.Aside p q) : Trails p q := by
  obtain ⟨⟨_, _, _, _, _, _, rfl⟩, -⟩ := h
  exact ⟨rfl, rfl, rfl, rfl, rfl, rfl⟩

theorem control_io {operation : Operation} {offset len : Nat} {buffer : Option Bytes}
    (h : p.control_io operation offset len buffer = .ok q) :
    Trails p q ∧ p.queue_failed = false := by
  unfold Pipeline.control_io at h
  split at h
  · cases h
  rename_i hf
  split at h
  · cases h
  cases h
  exact ⟨⟨rfl, rfl, rfl, rfl, rfl, rfl⟩, by simpa using hf⟩

theorem finish_job (e : Engine) (j : Job) (result : Except Error Unit) :
    Trails e.pipeline (e.finish_job j result).1.pipeline := by
  rw [(finish_job_pipeline e j result).1]
  exact ⟨rfl, rfl, rfl, rfl, rfl, rfl⟩

theorem lost (h : Trails p q) (hp : p.Quiet ∧ Freed p) : q.Quiet ∧ Freed q := by
  obtain ⟨hq, hf⟩ := hp
  refine ⟨⟨h.writes.trans hq.1, h.flush.trans hq.2⟩, ?_, ?_, ?_⟩
  · rw [h.free, h.slots]
    exact hf.lt
  · intro s hs
    rw [h.free] at hs
    unfold Pipeline.slot
    rw [h.slots]
    exact hf.empty s hs
  · rw [h.free]
    exact hf.nodup

end Trails

/-- What a drive does to an engine: nothing, or the end of its job, or a job that goes on. With a
lost queue only a close gets as far as a step. -/
inductive Drives (e : Engine) : Engine → List Completion → Prop
  | idle (hj : e.job = none) : Drives e e []
  | waits {j : Job} (hj : e.job = some j) (hw : j.waiting = true)
      (hq : e.pipeline.queue_failed = false) : Drives e e []
  | done {e₁ : Engine} {j : Job} (h : Trails e.pipeline e₁.pipeline)
      (hq : e.pipeline.queue_failed = true → j.kind = .Close) :
      Drives e (e₁.finish_job j (.ok ())).1 (e₁.finish_job j (.ok ())).2
  | fails {e₁ : Engine} {j : Job} {err : Error} (h : Trails e.pipeline e₁.pipeline) :
      Drives e (e₁.finish_job j (.error err)).1 (e₁.finish_job j (.error err)).2
  | goes {e₁ : Engine} {j : Job} (h : Trails e.pipeline e₁.pipeline)
      (hq : e.pipeline.queue_failed = true → j.kind = .Close) (hw : j.waiting = false)
      (hb : j.blocked = true → Stalled e₁ j) : Drives e { e₁ with job := some j } []
  | asks {e₁ : Engine} {j : Job} {p : Pipeline} (h : Trails e.pipeline p)
      (hq : e.pipeline.queue_failed = false) :
      Drives e { e₁ with
        pipeline := p
        job := some { j with waiting := true } } []

theorem step_job_drives {e₀ : Engine} (input : Option Bytes)
    (h : Trails e.pipeline e₀.pipeline) (hq : e.pipeline.queue_failed = true → j.kind = .Close)
    (hw : j.waiting = false) : Drives e (e₀.step_job j input).1 (e₀.step_job j input).2.1 := by
  have hst := Job.step_steps { j with blocked := false } e₀ input
  have hbl := Job.step_blocked { j with blocked := false } e₀ input
  have hwt := @Job.step_waits e₀ { j with blocked := false } input
  unfold Engine.step_job
  generalize hs : Job.step { j with blocked := false } e₀ input = s at hst hbl hwt
  obtain ⟨j₁, e₁, result⟩ := s
  obtain ⟨hb, -, hkind, hwait, -, -⟩ := hst
  have h1 : Trails e.pipeline e₁.pipeline := h.trans (.aside hb.pipeline)
  have hq1 : e.pipeline.queue_failed = true → j₁.kind = .Close := fun hf => hkind.trans (hq hf)
  cases result with
  | error => exact .fails h1
  | ok progress =>
    cases progress with
    | Done => exact .done h1 hq1
    | Continue =>
      refine .goes h1 hq1 (hwait.trans hw) (fun hn => ?_)
      rw [hbl] at hn
      cases hn
    | Wait =>
      have hst := hwt rfl
      rw [hst.step] at hs
      cases hs
      exact .goes h hq1 hw (fun _ => ⟨hst.opened, hst.layout, hst.drains, hst.pending⟩)
    | Io operation offset len buffer =>
      simp only
      split
      · rename_i p hp
        obtain ⟨h2, hf⟩ := Trails.control_io hp
        exact .asks (h1.trans h2) (h1.failed ▸ hf)
      · exact .fails h1

theorem drive_job_drives (e : Engine) : Drives e e.drive_job.1 e.drive_job.2.1 := by
  unfold Engine.drive_job
  cases hj : e.job with
  | none => exact .idle hj
  | some job =>
    have he : { e with job := some job } = e := by rw [← hj]
    simp only
    by_cases hq : e.pipeline.queue_failed = true ∧ (job.kind ≠ .Close ∨ job.waiting = true)
    · rw [if_pos hq]
      exact .fails ⟨rfl, rfl, rfl, rfl, rfl, rfl⟩
    rw [if_neg hq]
    by_cases hw : job.waiting = true
    · rw [if_pos hw]
      have hq' : e.pipeline.queue_failed = false := by simpa [hw] using hq
      cases hd : e.pipeline.control_done with
      | none =>
        simp only [he]
        exact .waits hj hw hq'
      | some completion =>
        simp only
        cases hr : control_result completion with
        | error => exact .fails ⟨rfl, rfl, rfl, rfl, rfl, rfl⟩
        | ok input =>
          exact step_job_drives input ⟨rfl, rfl, rfl, rfl, rfl, rfl⟩ (by simp [hq']) rfl
    · rw [if_neg hw]
      have hw' : job.waiting = false := by simpa using hw
      exact step_job_drives none ⟨rfl, rfl, rfl, rfl, rfl, rfl⟩ (by simpa [hw'] using hq) hw'

theorem Drives.trails {out : List Completion} (h : Drives e e' out) :
    Trails e.pipeline e'.pipeline := by
  cases h with
  | idle | waits => exact ⟨rfl, rfl, rfl, rfl, rfl, rfl⟩
  | done h | fails h => exact h.trans (.finish_job _ _ _)
  | goes h => exact h
  | asks h => exact h

/-! ## What is known between polls -/

/-- Before a drive: a lost queue has left nothing listed, and an engine without a job shows it. -/
structure Roused (e : Engine) : Prop where
  ended : e.pipeline.queue_failed = true → e.job = none → e.state = .Failed ∨ e.state = .Closed
  lost : e.pipeline.queue_failed = true → e.pipeline.Quiet ∧ Freed e.pipeline

/-- After a drive: a job is blocked because of what is still pending. -/
structure Awake (e : Engine) : Prop extends Roused e where
  closing : e.pipeline.queue_failed = true → ∀ j, e.job = some j → j.kind = .Close ∧
    j.waiting = false
  blocked : ∀ j, e.job = some j → j.waiting = false → j.blocked = true → Stalled e j

theorem finish_job_close (e : Engine) (result : Except Error Unit) (h : j.kind = .Close) :
    (e.finish_job j result).1.state = .Closed := by
  unfold Engine.finish_job
  simp only
  rw [if_pos h]

theorem finish_job_error (e : Engine) (j : Job) (err : Error) :
    (e.finish_job j (.error err)).1.state = .Failed ∨
      (e.finish_job j (.error err)).1.state = .Closed := by
  unfold Engine.finish_job
  simp only
  split_ifs
  · exact .inr rfl
  · exact .inl rfl

theorem Awake.without (h : Roused e) (hj : e.job = none) : Awake e := by
  refine ⟨h, ?_, ?_⟩
  · intro _ j hj'
    rw [hj] at hj'
    cases hj'
  · intro j hj'
    rw [hj] at hj'
    cases hj'

theorem Drives.awake {out : List Completion} (h : Drives e e' out) (hr : Roused e) : Awake e' := by
  have lost : e'.pipeline.queue_failed = true → e'.pipeline.Quiet ∧ Freed e'.pipeline := by
    intro hf
    have ht := h.trails
    exact ht.lost (hr.lost (ht.failed ▸ hf))
  cases h with
  | idle hj => exact .without ⟨hr.ended, lost⟩ hj
  | @waits j hj hw hq =>
    refine ⟨⟨hr.ended, lost⟩, ?_, ?_⟩
    · intro hf
      rw [hq] at hf
      cases hf
    · intro j' hj' hw'
      rw [hj] at hj'
      cases hj'
      rw [hw] at hw'
      cases hw'
  | @done e₁ j ht hq =>
    refine .without ⟨fun hf _ => .inr ?_, lost⟩ (finish_job_pipeline e₁ j _).2
    exact finish_job_close e₁ _ (hq ((ht.trans (.finish_job e₁ j _)).failed ▸ hf))
  | @fails e₁ j err =>
    exact .without ⟨fun _ _ => finish_job_error e₁ j err, lost⟩ (finish_job_pipeline e₁ j _).2
  | goes ht hq hw hb =>
    refine ⟨⟨(fun _ hj => by cases hj), lost⟩, ?_, ?_⟩
    · rintro hf j ⟨⟩
      exact ⟨hq (ht.failed ▸ hf), hw⟩
    · rintro j ⟨⟩ _ hn
      have := hb hn
      exact ⟨this.opened, this.layout, this.drains, this.pending⟩
  | asks ht hq =>
    refine ⟨⟨(fun _ hj => by cases hj), lost⟩, ?_, ?_⟩
    · intro hf
      have := ht.failed.symm.trans hf
      rw [hq] at this
      cases this
    · rintro j ⟨⟩ hw
      cases hw

theorem poll_awake (hs : Sound e) (h : Roused e) (script : Script) : Awake (e.poll script).1 := by
  have hs1 := drive_job_sound hs
  have h1 := (drive_job_drives e).awake h
  unfold Engine.poll
  generalize e.drive_job = d at hs1 h1
  obtain ⟨e₁, out, b⟩ := d
  have hlost : (e₁.pipeline.poll script).pipe.queue_failed = true →
      (e₁.pipeline.poll script).pipe.Quiet ∧ Freed (e₁.pipeline.poll script).pipe := by
    refine pipeline.poll_loses ?_
    rcases hs1 with ⟨hst, -⟩ | hf
    · exact .inl hst
    · exact .inr ⟨hf.failed, (h1.lost hf.failed).2⟩
  simp only
  split
  · exact (drive_job_drives _).awake ⟨fun _ _ => .inl rfl, hlost⟩
  · rename_i hn
    refine (drive_job_drives _).awake ⟨fun hf _ => .inr ?_, hlost⟩
    by_contra hc
    exact hn ⟨hf, hc⟩

/-! ## Calls -/

/-- With a working queue, a job that is not blocked leaves nothing to show. -/
theorem Awake.fresh (hq : e.pipeline.queue_failed = false)
    (hj : ∀ j, e.job = some j → j.blocked = false) : Awake e := by
  refine ⟨⟨?_, ?_⟩, ?_, ?_⟩
  · intro hf
    rw [hq] at hf
    cases hf
  · intro hf
    rw [hq] at hf
    cases hf
  · intro hf
    rw [hq] at hf
    cases hf
  · intro j h _ hb
    rw [hj j h] at hb
    cases hb

theorem readable_state (h : e.check_readable = .ok ()) : e.state ≠ .Closed := by
  unfold Engine.check_readable at h
  split at h
  · cases h
  split at h
  · cases h
  rename_i hn
  exact fun hs => hn (.inr hs)

theorem writable_state (h : e.check_writable = .ok ()) : e.state ≠ .Failed ∧ e.state ≠ .Closed := by
  unfold Engine.check_writable at h
  split at h
  · cases h
  rename_i hr
  split at h
  · cases h
  rename_i hs
  exact ⟨hs, readable_state hr⟩

theorem Awake.writable (h : Awake e) (hw : e.check_writable = .ok ()) :
    e.pipeline.queue_failed = false := by
  by_contra hf
  obtain ⟨h1, h2⟩ := writable_state hw
  rcases h.ended (by simpa using hf) (writable_ok hw) with hs | hs
  · exact h1 hs
  · exact h2 hs

/-- Whatever is admitted takes a slot from the free stack. -/
theorem placed_in_flight (p : Pipeline) {s : Nat} {rest : List Nat} (pending : pipeline.Pending)
    (h : p.free = s :: rest) : p.in_flight ≤ (p.placed s rest pending).in_flight := by
  unfold Pipeline.in_flight Pipeline.placed
  rw [h]
  simp only [length_set, length_cons]
  omega

theorem read_awake {key : ChunkId} {range : Range} {verify : Bool} {buffers : ReadBuffers}
    (h : Awake e) (hr : e.read key range verify buffers = .ok (e', ticket)) : Awake e' := by
  unfold Engine.read at hr
  split at hr
  · cases hr
  split at hr
  · cases hr
  rename_i t p hp
  cases hr
  have hd := pipeline.read_does hp
  obtain ⟨hq, h1, h2, -, -⟩ := read_aside hd
  have hgrow : p.queue_failed = false ∧ e.pipeline.in_flight ≤ p.in_flight := by
    cases hd with
    | read_empty _ _ _ hf | read_direct _ _ _ _ hf | read_verified _ _ _ _ hf =>
      exact ⟨hq, placed_in_flight _ _ hf⟩
  have hnone : ∀ {P : Prop}, p.queue_failed = true → P := by
    intro P hf
    rw [hgrow.1] at hf
    cases hf
  refine ⟨⟨hnone, hnone⟩, hnone, ?_⟩
  intro j hj hw hb
  have hst := h.blocked j hj hw hb
  refine ⟨hst.opened, hst.layout, hst.drains, ?_⟩
  rcases hst.pending with hp | ⟨hk, hp⟩
  · refine .inl ?_
    unfold Pipeline.writes_pending at hp ⊢
    rw [h1, h2]
    exact hp
  · refine .inr ⟨hk, fun h0 => hp ?_⟩
    exact Nat.eq_zero_of_le_zero (hgrow.2.trans h0.le)

theorem flush_awake (hs : Sound e) (h : Awake e) (hf : e.flush = .ok (e', ticket)) : Awake e' := by
  unfold Engine.flush at hf
  split at hf
  · cases hf
  rename_i hw
  have hj := writable_ok hw
  have hq := h.writable hw
  split at hf
  · cases hf
  rename_i t p hp
  cases hf
  rcases hs with ⟨-, hk⟩ | hfail
  · have hc := hk.idle (fun j hjj => by rw [hj] at hjj; cases hjj)
    cases pipeline.flush_does hp hc.1 hc.2
    refine .fresh hq ?_
    intro j hj'
    rw [hj] at hj'
    cases hj'
  · rw [hfail.failed] at hq
    cases hq

/-- A rollover starts with a job of its own, or with none. -/
theorem start_rollover_awake {number ticket : Option Nat} {r : Except Error Unit}
    (h : e.start_rollover number ticket = (e', r)) (hq : e.pipeline.queue_failed = false)
    (hj : e.job = none) : Awake e' := by
  rcases start_rollover_cases h with ⟨err, -, hp, hj'⟩ | ⟨-, hp, next, hj'⟩
  · refine .fresh (by rw [hp]; exact hq) ?_
    intro j hjj
    rw [hj', hj] at hjj
    cases hjj
  · refine .fresh (by rw [hp]; exact hq) ?_
    intro j hjj
    rw [hj'] at hjj
    cases hjj
    rfl

theorem roll_awake (hq : e.pipeline.queue_failed = false) (hj : e.job = none) : Awake e.roll.1 := by
  obtain ⟨e', r, hr⟩ : ∃ e' r, e.start_rollover none none = (e', r) := ⟨_, _, rfl⟩
  have hroll : e.roll.1 = e' := by
    unfold Engine.roll
    rw [hr]
    cases r <;> rfl
  rw [hroll]
  exact start_rollover_awake hr hq hj

theorem submit_awake (h : Awake e)
    {submit : Pipeline → Except (pipeline.Rejected Bytes) (Nat × Pipeline)}
    (hs : ∀ p t p', submit p = .ok (t, p') → p'.queue_failed = p.queue_failed) :
    Awake (e.submit submit).1 := by
  unfold Engine.submit
  split
  · exact h
  rename_i hw
  have hj := writable_ok hw
  have hq := h.writable hw
  split
  · split
    · exact h
    · exact roll_awake hq hj
  split
  · rename_i t p hp
    refine .fresh ((hs _ _ _ hp).trans hq) ?_
    intro j hj'
    rw [hj] at hj'
    cases hj'
  · split
    · exact roll_awake hq hj
    · exact h

theorem rollover_to_awake (h : Awake e) (number : Option Nat) : Awake (e.rollover_to number).1 := by
  unfold Engine.rollover_to
  split
  · exact h
  rename_i hw
  split
  · exact h
  rename_i t p hd
  obtain ⟨rfl, rfl⟩ := draw_ticket_ok hd
  obtain ⟨e', r, hr⟩ : ∃ e' r, Engine.start_rollover { e with
    pipeline := { e.pipeline with next_ticket := e.pipeline.next_ticket + 1 } } number
    (some e.pipeline.next_ticket) = (e', r) := ⟨_, _, rfl⟩
  have ha := start_rollover_awake hr (h.writable hw) (writable_ok hw)
  rw [hr]
  cases r <;> exact ha

theorem seal_awake (h : Awake e) (hs : e.seal_ = .ok (e', ticket)) : Awake e' := by
  unfold Engine.seal_ at hs
  split at hs
  · cases hs
  rename_i hw
  unfold Engine.start_transition at hs
  split at hs
  · cases hs
  rename_i t p hd
  obtain ⟨rfl, rfl⟩ := draw_ticket_ok hd
  cases hs
  refine .fresh (h.writable hw) ?_
  rintro j ⟨⟩
  rfl

theorem close_awake (h : Awake e) (hs : e.close = .ok (e', ticket)) : Awake e' := by
  unfold Engine.close at hs
  split at hs
  · cases hs
  unfold Engine.start_transition at hs
  split at hs
  · cases hs
  rename_i t p hd
  obtain ⟨rfl, rfl⟩ := draw_ticket_ok hd
  cases hs
  refine ⟨⟨(fun _ hj => by cases hj), ?_⟩, ?_, ?_⟩
  · intro hf
    obtain ⟨hq, hr⟩ := h.lost hf
    exact ⟨hq, hr.lt, hr.empty, hr.nodup⟩
  · rintro _ j ⟨⟩
    exact ⟨rfl, rfl⟩
  · rintro j ⟨⟩ _ hb
    cases hb

/-! ## Runs -/

theorem call_awake (hk : h.Kept i) (ha : Awake h.now) (c : Call) : Awake (h.call c).now := by
  have took : ∀ r : Except Error (Engine × Nat), (∀ e' t, r = .ok (e', t) → Awake e') →
      Awake (h.took r).now := by
    intro r hr
    cases r with
    | error => exact ha
    | ok x => exact hr x.1 x.2 rfl
  have tried : ∀ r : Engine × Except Error Nat, Awake r.1 → Awake (h.tried r).now := by
    rintro ⟨e', r⟩ hr
    cases r <;> exact hr
  cases c with
  | read => exact took _ fun e' t => read_awake ha
  | write =>
    refine tried _ (submit_awake ha fun p t p' hw => ?_)
    obtain ⟨f, -, -, d⟩ := pipeline.write_does hw
    cases d
    rfl
  | write_prepared =>
    refine tried _ (submit_awake ha fun p t p' hw => ?_)
    obtain ⟨_, f, -, -, -, d⟩ := pipeline.write_prepared_does hw
    cases d
    rfl
  | flush => exact took _ fun e' t => flush_awake hk.sound ha
  | rollover number => exact tried _ (rollover_to_awake ha number)
  | seal_ => exact took _ fun e' t => seal_awake ha
  | close => exact took _ fun e' t => close_awake ha
  | poll script => exact poll_awake hk.sound ha.toRoused script

theorem run_awake (hk : h.Kept i) (ha : Awake h.now) (calls : List Call) :
    Awake (h.run calls).now := by
  induction calls generalizing h with
  | nil => exact ha
  | cons c _ ih => exact ih (hk.call c) (call_awake hk ha c)

theorem start_awake {capacity : Nat} {queue : Queue} {options : Options}
    (hs : History.start capacity queue options = .ok h) : Awake h.now := by
  unfold History.start Engine.open_with_options at hs
  split at hs
  swap
  · cases hs
  rename_i engine ticket ho
  cases hs
  split at ho
  · cases ho
  rename_i p₀ hp
  obtain ⟨hst, -⟩ := empty_steady hp
  split at ho
  · cases ho
  rename_i p₁ hconf
  simp only at ho
  split at ho
  · cases ho
  rename_i t p₂ hd
  obtain ⟨rfl, rfl⟩ := draw_ticket_ok hd
  cases ho
  have hq : p₁.queue_failed = false := by
    unfold Pipeline.configure at hconf
    split at hconf
    · cases hconf
    split at hconf <;> cases hconf
    exact hst.live.healthy
  refine .fresh hq ?_
  rintro j ⟨⟩
  rfl

/-! ## What a poll finds when nothing is announced -/

/-- No job can go on. -/
theorem drive_job_idle (hq : e.pipeline.queue_failed = false) (hd : e.pipeline.control_done = none)
    (hj : ∀ j, e.job = some j → j.waiting = true ∨ (j.blocked = true ∧ Stalled e j)) :
    e.drive_job = (e, [], false) := by
  unfold Engine.drive_job
  split
  · rfl
  rename_i j hj'
  have he : { e with job := some j } = e := by rw [← hj']
  simp only
  rw [if_neg (by simp [hq])]
  split
  · simp only [hd, he]
  · rename_i hw
    rcases hj j hj' with h | ⟨hb, hst⟩
    · exact absurd h hw
    have hst' : Stalled { e with job := none } { j with blocked := false } :=
      ⟨hst.opened, hst.layout, hst.drains, hst.pending⟩
    have hjob : { j with blocked := true } = j := by rw [← hb]
    unfold Engine.step_job
    rw [hst'.step]
    simp only [hjob, he]

/-- Where nothing is announced, a poll rests unless there is a flush to start. -/
theorem rests_iff {r : Bool} (hs : Sound e) (ha : Awake e)
    (hr : e.has_ready r = false) : Rests e ↔ ¬ e.pipeline.HidesFlush := by
  unfold Engine.has_ready at hr
  rw [Bool.or_eq_false_iff] at hr
  obtain ⟨hp, hj⟩ := hr
  have hjob : ∀ j, e.job = some j → j.waiting = true ∨ j.blocked = true := by
    intro j h
    rw [h] at hj
    rcases Bool.and_eq_false_iff.mp hj with hj | hj
    · exact .inl (by simpa using hj)
    · exact .inr (by simpa using hj)
  rcases hs with ⟨hst, -⟩ | hf
  · have hq := hst.live.healthy
    have hu := pipeline.unready_of_has_ready hq hp
    have hstall : ∀ j, e.job = some j → j.waiting = true ∨ (j.blocked = true ∧ Stalled e j) := by
      intro j h
      by_cases hw : j.waiting = true
      · exact .inl hw
      · have hb := (hjob j h).resolve_left hw
        exact .inr ⟨hb, ha.blocked j h (by simpa using hw) hb⟩
    have hidle := drive_job_idle hq hu.done hstall
    constructor
    · rintro ⟨hout, hqueue, -⟩ hh
      unfold Engine.poll at hout hqueue
      rcases pipeline.poll_hidden hst.live hu hh with ⟨p, c, hpoll⟩ | ⟨slots, request, hpoll⟩
      · simp [hidle, hpoll] at hout
      · simp only [hidle, hpoll, hq, Bool.false_eq_true, false_and, if_false] at hqueue
        rw [(drive_job_drives _).trails.queue] at hqueue
        have := congrArg (·.accepted.length) hqueue
        simp [Queue.push] at this
    · intro hh
      have hpoll : e.poll quiet = (e, []) := by
        unfold Engine.poll
        simp only [hidle, pipeline.poll_unready hst.live hu hh]
        rw [if_neg (by simp [hq])]
        simp [hidle]
      unfold Rests
      rw [hpoll]
      exact ⟨rfl, rfl, rfl, rfl, rfl, rfl⟩
  · have hq := hf.failed
    have h0 : e.pipeline.in_flight = 0 := by
      unfold Pipeline.has_ready at hp
      rw [if_pos hq] at hp
      simpa using hp
    obtain ⟨hquiet, hfreed⟩ := ha.lost hq
    -- a close that is left would be blocked, and there is nothing to block it
    have hnone : e.job = none := by
      rw [Option.eq_none_iff_forall_ne_some]
      intro j hj'
      obtain ⟨-, hw⟩ := ha.closing hq j hj'
      have hb := (hjob j hj').resolve_left (by simp [hw])
      rcases (ha.blocked j hj' hw hb).pending with hp | ⟨-, hp⟩
      · simp [Pipeline.writes_pending, hquiet.1, hquiet.2] at hp
      · exact hp h0
    obtain ⟨hout, hqueue, hlost⟩ := pipeline.poll_lost hq hfreed h0 quiet
    have hdrive : ∀ e' : Engine, e'.job = none → e'.drive_job = (e', [], false) := by
      intro e' he
      unfold Engine.drive_job
      rw [he]
    refine ⟨(fun _ hh => by rw [hh.1] at hq; cases hq), fun _ => ?_⟩
    have hpoll : e.poll quiet = ({ e with pipeline := (e.pipeline.poll quiet).pipe }, []) := by
      unfold Engine.poll
      simp only [hdrive e hnone, hout, hlost, true_and]
      split
      · rename_i hn
        have hs := (ha.ended hq hnone).resolve_right hn
        rw [← hs]
        simp [hdrive { e with pipeline := (e.pipeline.poll quiet).pipe } hnone]
      · simp [hdrive { e with pipeline := (e.pipeline.poll quiet).pipe } hnone]
    unfold Rests
    rw [hpoll]
    exact ⟨rfl, hqueue, rfl, rfl, rfl, rfl⟩

/-- In every run: when `has_ready` says no, a poll during which the device gives nothing back rests,
unless a flush is in its slot that has no write to wait for and is not started. Then the poll
delivers the flush or gives its sync to the queue, though nothing has announced it. -/
theorem only_an_idle_flush_is_unannounced {capacity : Nat} {queue : Queue} {options : Options}
    {start : History} (ho : History.start capacity queue options = .ok start) (calls : List Call)
    (queue_ready : Bool) (hr : (start.run calls).now.has_ready queue_ready = false) :
    Rests (start.run calls).now ↔ ¬ (start.run calls).now.pipeline.HidesFlush := by
  have hk := start_kept ho
  exact rests_iff (hk.run calls).sound (run_awake hk (start_awake ho) calls) hr

/-- An engine that waits for its first superblock. -/
theorem opening_waits :
    ∃ start, History.start (2 ^ 20) (Queue.empty 1) defaultOptions = .ok start ∧
      (start.run [.poll quiet]).now.has_ready false = false ∧
      (start.run [.poll quiet]).now.pipeline.flush_slot = none :=
  ⟨_, rfl, rfl, rfl⟩

theorem an_opening_engine_rests :
    ∃ start, History.start (2 ^ 20) (Queue.empty 1) defaultOptions = .ok start ∧
      (start.run [.poll quiet]).now.has_ready false = false ∧
      Rests (start.run [.poll quiet]).now := by
  obtain ⟨start, hs, hr, hf⟩ := opening_waits
  refine ⟨start, hs, hr, (only_an_idle_flush_is_unannounced hs [.poll quiet] false hr).mpr ?_⟩
  rintro ⟨-, -, slot, ticket, hs', -⟩
  rw [hf] at hs'
  cases hs'

/-! ## A flush that nothing announces -/

/-- An engine on a device with one empty slot is open and idle. It is asked to flush: `has_ready`
says no, and still a poll with no event of the device submits the sync. -/
theorem a_flush_is_not_announced :
    ∃ l start, Layout.new 28672 fivePages 1 (by decide) = .ok l ∧
      History.start 28672 (Queue.empty 1) defaultOptions = .ok start ∧
      (let e := (start.run (openCalls l.encode ++ [.flush])).now
       e.has_ready false = false ∧ (e.poll quiet).1.pipeline.queue ≠ e.pipeline.queue ∧
         ¬ Rests e) := by
  obtain ⟨l, start, hl, hstart, ⟨hready, hidle, -⟩, ⟨hsync, -⟩, -⟩ := oneSlot_run
  refine ⟨l, start, hl, hstart, ?_⟩
  rw [append_cons, History.run_concat] at hsync
  generalize start.run (openCalls l.encode ++ [.flush]) = h at hready hidle hsync
  have hne : (h.now.poll quiet).1.pipeline.queue ≠ h.now.pipeline.queue := by
    intro heq
    rw [← heq] at hidle
    exact absurd (hidle.symm.trans hsync) (by simp)
  exact ⟨hready, hne, fun hr => hne hr.2.1⟩

end moat_engine.engine
