-- Whole polls, and the calls that only the engine makes: what they leave as it
-- was. A pipeline is steady, or its queue has failed and it only reports that.
import Moat.PipelineBacked
import Moat.PipelineHistory

namespace moat_engine.pipeline

open byte_list moat_common List
open moat_engine.io (Operation Queue Request Script)

/-! ## Steady and failing pipelines -/

structure Steady (p : Pipeline) : Prop where
  live : Live p
  backed : Backed p
  calm : p.panicked = false
  answered : p.control_done.isSome = true → p.control = none ∧ p.control_active = false

/-- The queue is lost. What is still in a slot will be reported failed. -/
structure Failing (p : Pipeline) : Prop where
  failed : p.queue_failed = true
  cause : p.fatal.isSome = true
  calm : p.panicked = false

variable {p q : Pipeline} {t : Turn}

theorem Does.steady {p' : Pipeline} {a : Act} (d : Does p a p') (h : Steady p) : Steady p' := by
  refine ⟨d.live h.live, d.backed h.live h.backed, d.calm h.live h.backed h.calm, ?_⟩
  cases d with
  | @control_submit _ hc =>
    intro hd
    rw [(h.answered hd).1] at hc
    cases hc
  | @control_done _ _ _ hq hk =>
    intro _
    refine ⟨?_, rfl⟩
    have hon := h.live.control_carried _ (mem_of_getElem? hq) hk
    cases hc : p.control with
    | none => rfl
    | some r =>
      rw [(h.live.control_token r hc).2] at hon
      cases hon
  | _ => exact h.answered

theorem Turn.Follows.steady {t' : Turn} (h : t.Follows t') (hs : Steady t.pipe) :
    Steady t'.pipe := by
  obtain ⟨acts, hr, -⟩ := h
  exact hr.induct (fun hp hd => hd.steady hp) hs

theorem retire_slot_failing (h : Failing t.pipe) : Failing t.retire_slot.pipe := by
  unfold Turn.retire_slot
  simp only
  split
  · exact ⟨h.failed, h.cause, h.calm⟩
  · rename_i q hs
    cases q <;> exact ⟨h.failed, h.cause, by simp [h.calm, h.cause]⟩

theorem retire_failed_failing (h : Failing t.pipe) : Failing t.retire_failed.pipe := by
  obtain ⟨h1, h2, h3⟩ := Turn.retire_slots_induct (P := fun t => Failing t.pipe)
    retire_slot_failing t.pipe.slots.length h
  exact ⟨h1, h2, h3⟩

/-- After a poll the pipeline is steady, unless the queue fails in it. -/
theorem poll_steady (h : Steady p) (script : Script) :
    (script.fatal = none ∧ Steady (p.poll script).pipe) ∨ Failing (p.poll script).pipe := by
  cases hs : script.fatal with
  | none => exact .inl ⟨rfl, (poll_follows h.live hs).steady h⟩
  | some =>
    rw [poll_fatal h.live.healthy hs]
    have hset := (settled_follows h.live).steady h
    exact .inr (retire_failed_failing ⟨rfl, rfl, hset.calm⟩)

theorem poll_failing (h : Failing p) (script : Script) : Failing (p.poll script).pipe := by
  rw [poll_failed h.failed]
  exact retire_failed_failing h

/-! ## What a poll leaves alone -/

/-- No write and no flush is under way. -/
def Pipeline.Quiet (p : Pipeline) : Prop := p.writes = [] ∧ p.flush_slot = none

/-- The engine has no request of its own under way. -/
def Pipeline.Uncontrolled (p : Pipeline) : Prop := p.control = none ∧ p.control_active = false

theorem Does.quiet {p' : Pipeline} {a : Act} (d : Does p a p') (ha : a.admits = false)
    (h : p.Quiet) : p'.Quiet := by
  cases d with
  | launch => cases ha
  | flush => cases ha
  | @retire _ _ _ _ _ hw =>
    rw [h.1] at hw
    cases hw
  | flush_failed hf | flush_fence hf => rw [h.2] at hf; cases hf
  | sync_done => exact ⟨h.1, rfl⟩
  | _ => exact h

theorem Runs.quiet {acts : List Act} (h : Runs p acts q)
    (hn : ∀ a ∈ acts, a.admits = false) (hq : p.Quiet) : q.Quiet := by
  induction h with
  | nil => exact hq
  | @cons _ _ _ a _ hd _ ih =>
    exact ih (fun b hb => hn b (mem_cons_of_mem a hb)) (hd.quiet (hn a mem_cons_self) hq)

theorem poll_quiet (h : Live p) {script : Script} (hs : script.fatal = none)
    (hq : p.Quiet) : (p.poll script).pipe.Quiet := by
  obtain ⟨acts, hr, -, -, hn⟩ := poll_follows h hs
  exact hr.quiet hn hq

theorem poll_uncontrolled (h : Live p) {script : Script} (hs : script.fatal = none)
    (hc : p.Uncontrolled) : (p.poll script).pipe.Uncontrolled := by
  obtain ⟨acts, hr, -⟩ := poll_follows h hs
  exact hr.induct (P := Pipeline.Uncontrolled) (fun hp hd => hd.uncontrolled hp) hc

/-! ## Calls of the engine -/

/-- Only segments, limits and the index changed, and the index only by merges that fit. -/
def Aside (p p' : Pipeline) : Prop :=
  (∃ extents current limits segment index applied,
    p' = { p with extents, current, limits, segment, index, applied }) ∧
  (p.index.AllFronted → p'.index.AllFronted) ∧ Grows p p'

namespace Aside

variable {p q r : Pipeline}

theorem refl (p : Pipeline) : Aside p p := ⟨⟨_, _, _, _, _, _, rfl⟩, id, .same rfl rfl rfl rfl⟩

section
variable (h : Aside p q)
include h

theorem trans (k : Aside q r) : Aside p r := by
  obtain ⟨⟨e, c, l, s, i, a, rfl⟩, h2, h3⟩ := h
  obtain ⟨⟨e', c', l', s', i', a', rfl⟩, k2, k3⟩ := k
  exact ⟨⟨e', c', l', s', i', a', rfl⟩, fun hp => k2 (h2 hp), h3.trans k3⟩

theorem steady (hs : Steady p) : Steady q := by
  obtain ⟨⟨e, c, l, s, i, a, rfl⟩, h2, -⟩ := h
  exact ⟨{ hs.live with }, ⟨hs.backed.slots, hs.backed.queue, h2 hs.backed.index⟩, hs.calm,
    hs.answered⟩

theorem failing (hf : Failing p) : Failing q := by
  obtain ⟨⟨e, c, l, s, i, a, rfl⟩, -⟩ := h
  exact ⟨hf.failed, hf.cause, hf.calm⟩

theorem shifts : Shifts p [] [] q := by
  obtain ⟨⟨e, c, l, s, i, a, rfl⟩, -, hg⟩ := h
  exact .aside rfl rfl rfl rfl rfl hg

theorem quiet (hq : p.Quiet) : q.Quiet := by
  obtain ⟨⟨e, c, l, s, i, a, rfl⟩, -⟩ := h
  exact hq

theorem uncontrolled (hc : p.Uncontrolled) : q.Uncontrolled := by
  obtain ⟨⟨e, c, l, s, i, a, rfl⟩, -⟩ := h
  exact hc

end

theorem limits (p : Pipeline) (limits : frame.FrameLimits) : Aside p { p with limits } :=
  ⟨⟨_, _, _, _, _, _, rfl⟩, id, .same rfl rfl rfl rfl⟩

theorem attach {header : segment.SegmentHeader} {base : Nat} {writable : Bool}
    (h : p.attach header base writable = .ok q) : Aside p q := by
  unfold Pipeline.attach at h
  split at h
  · cases h
  simp only at h
  split at h
  · cases h
  cases h
  exact ⟨⟨_, _, _, _, _, _, rfl⟩, id, .same rfl rfl rfl rfl⟩

theorem take_segment {b : Option segment.SegmentBuilder} (h : p.take_segment = .ok (b, q)) :
    Aside p q := by
  unfold Pipeline.take_segment at h
  split at h
  · cases h
  split at h
  · cases h
  split at h
  · cases h
  cases h
  exact ⟨⟨_, _, _, _, _, _, rfl⟩, id, .same rfl rfl rfl rfl⟩

theorem restore {metadata : frame.Metadata} (h : p.restore metadata = .ok q) : Aside p q := by
  unfold Pipeline.restore at h
  split at h
  · cases h
  split at h
  · cases h
  · cases h
  split at h
  · cases h
  split at h
  · cases h
  split at h
  · cases h
  rename_i hr
  cases h
  exact ⟨⟨_, _, _, _, _, _, rfl⟩, fun hp => hp.apply (entries_fronted _ _), .restore hr⟩

end Aside

/-- A request of the engine goes in only while no flush waits. -/
theorem control_io_steady {operation : Operation} {offset len : Nat}
    {buffer : Option Bytes} (h : Steady p) (hq : p.Quiet)
    (hc : p.control_io operation offset len buffer = .ok q) : Steady q := by
  unfold Pipeline.control_io at hc
  split at hc
  · cases hc
  split at hc
  · cases hc
  rename_i hfree
  simp only [not_or, Bool.not_eq_true, Option.isSome_eq_false_iff,
    Option.isNone_iff_eq_none] at hfree
  obtain ⟨h1, h2, h3⟩ := hfree
  cases hc
  refine ⟨?_, ⟨h.backed.slots, h.backed.queue, h.backed.index⟩, h.calm, ?_⟩
  · refine { h.live with control_token := ?_, flush_alone := ?_ }
    · rintro r ⟨⟩
      exact ⟨rfl, h2⟩
    · intro hf
      rw [show p.flush_slot = none from hq.2] at hf
      cases hf
  · intro hd
    rw [show p.control_done = none from h3] at hd
    cases hd

theorem control_io_shifts {operation : Operation} {offset len : Nat}
    {buffer : Option Bytes} (hc : p.control_io operation offset len buffer = .ok q) :
    Shifts p [] [] q ∧ q.writes = p.writes ∧ q.flush_slot = p.flush_slot ∧
      p.queue_failed = false := by
  unfold Pipeline.control_io at hc
  split at hc
  · cases hc
  rename_i hf
  split at hc
  · cases hc
  cases hc
  exact ⟨.aside rfl rfl rfl rfl rfl (.same rfl rfl rfl rfl), rfl, rfl, by simpa using hf⟩

end moat_engine.pipeline
