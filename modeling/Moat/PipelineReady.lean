-- What is runnable without the device (`Pipeline::has_ready`), and what a poll
-- does against a queue that gives nothing back.
import Moat.PipelineBooks
import Moat.PipelineSteady

namespace moat_engine.pipeline

open byte_list moat_common List Option
open moat_engine.io (Operation Queue Request Script)

/-- A flush that waits for nothing, and has not been started. -/
def Pipeline.HidesFlush (p : Pipeline) : Prop :=
  p.queue_failed = false ∧ p.writes = [] ∧
    ∃ slot ticket, p.flush_slot = some slot ∧ p.slot slot = some (.Flush ticket false)

/-! ## A working queue -/

/-- What `has_ready` has looked at when it answers no. -/
structure Unready (p : Pipeline) : Prop where
  front : p.front_completed = false
  reads : p.ready_reads = []
  done : p.control_done = none
  control : p.control = none ∨ p.queue.vacant = 0

variable {p : Pipeline} {t : Turn}

theorem unready_of_has_ready {r : Bool} (hq : p.queue_failed = false)
    (h : p.has_ready r = false) : Unready p := by
  unfold Pipeline.has_ready at h
  rw [if_neg (by simp [hq])] at h
  simp only [Bool.or_eq_false_iff, Bool.not_eq_false', List.isEmpty_iff,
    Option.isSome_eq_false_iff, Option.isNone_iff_eq_none] at h
  obtain ⟨⟨⟨⟨-, hc⟩, hr⟩, hd⟩, hf⟩ := h
  refine ⟨hf, hr, hd, ?_⟩
  rcases Bool.and_eq_false_iff.mp hc with hc | hc
  · exact .inl (by simpa using hc)
  · exact .inr (by simpa using hc)

theorem retire_writes_unready (h : p.front_completed = false) (out : List Completion) :
    Turn.retire_writes ⟨p, out, .zero, []⟩ = ⟨p, out, .zero, []⟩ := by
  have hnone : Turn.retire_write ⟨p, out, .zero, []⟩ = none := by
    unfold Pipeline.front_completed at h
    unfold Turn.retire_write
    simp only
    split
    · rfl
    · rename_i slot rest hw
      simp only [hw] at h
      split
      · rename_i w hs
        simp only [hs] at h
        simp only [isSome_eq_false_iff, isNone_iff_eq_none] at h
        rw [h]
      · rfl
  have hloop : ∀ fuel, Turn.retire_loop fuel ⟨p, out, .zero, []⟩ = ⟨p, out, .zero, []⟩ := by
    intro fuel
    cases fuel with
    | zero => rfl
    | succ =>
      unfold Turn.retire_loop
      split
      · rfl
      · rw [hnone]
  exact hloop _

theorem start_control_unready (h : p.control = none ∨ p.queue.vacant = 0)
    (out : List Completion) : Turn.start_control ⟨p, out, .zero, []⟩ = ⟨p, out, .zero, []⟩ := by
  unfold Turn.start_control Pipeline.start_control
  simp only
  split
  · rfl
  rcases h with h | h
  · rw [h]
  · cases hc : p.control with
    | none => rfl
    | some request =>
      have hfull : p.queue.try_submit request = .error request := by
        unfold Queue.try_submit
        rw [if_pos h]
      simp only [hfull]

/-- A poll that finds nothing but a flush to start, or not even that. -/
theorem poll_started {q : Pipeline} {out : List Completion} (hq : p.queue_failed = false)
    (hp : p.front_completed = false)
    (h1 : Turn.start_flush ⟨p, [], .zero, []⟩ = ⟨q, out, .zero, []⟩) (hf : q.queue_failed = false)
    (h : Unready q) (h2 : Turn.start_flush ⟨q, out, .zero, []⟩ = ⟨q, out, .zero, []⟩) :
    p.poll quiet = ⟨q, out, .zero, []⟩ := by
  have hs1 : Turn.settle ⟨p, [], .zero, []⟩ = ⟨q, out, .zero, []⟩ := by
    unfold Turn.settle
    rw [retire_writes_unready hp, h1, start_control_unready h.control]
  have hs2 : Turn.settle ⟨q, out, .zero, []⟩ = ⟨q, out, .zero, []⟩ := by
    unfold Turn.settle
    rw [retire_writes_unready h.front, h2, start_control_unready h.control]
  unfold Pipeline.poll
  simp only [hq, Bool.false_eq_true, if_false, hs1, h.reads, length_nil, Turn.empty_reads, quiet,
    Turn.pops, hf, hs2]

/-- Without a flush to start, a poll finds nothing to do. -/
theorem poll_unready (hl : Live p) (h : Unready p) (hf : ¬ p.HidesFlush) :
    p.poll quiet = ⟨p, [], .zero, []⟩ := by
  have hflush : Turn.start_flush ⟨p, [], .zero, []⟩ = ⟨p, [], .zero, []⟩ := by
    unfold Turn.start_flush
    simp only
    split
    · rfl
    rename_i slot hs
    split
    · rfl
    rename_i hw
    rw [not_not] at hw
    obtain ⟨ticket, submitted, hslot⟩ := hl.flush_pending hs
    cases submitted with
    | false => exact absurd ⟨hl.healthy, hw, slot, ticket, hs, hslot⟩ hf
    | true => simp [hslot]
  exact poll_started hl.healthy h.front hflush hl.healthy h hflush

theorem start_flush_submitted {slot ticket : Nat} (hs : t.pipe.flush_slot = some slot)
    (hslot : t.pipe.slot slot = some (.Flush ticket true)) : t.start_flush = t := by
  unfold Turn.start_flush
  rw [hs]
  simp [hslot]

/-- With a flush to start, the poll delivers it, or sends its sync to the queue. -/
theorem poll_hidden (hl : Live p) (h : Unready p) (hf : p.HidesFlush) :
    (∃ q c, p.poll quiet = ⟨q, [c], .zero, []⟩) ∨
      ∃ slots request, p.poll quiet =
        ⟨{ p with slots, queue := p.queue.push request }, [], .zero, []⟩ := by
  obtain ⟨hq, hw, slot, ticket, hs, hslot⟩ := hf
  have hc := (hl.flush_alone (by simp [hs])).1
  -- the flush leaves its slot with a completion
  have dropped : ∀ c, Turn.start_flush ⟨p, [], .zero, []⟩ = ⟨p.drop_flush slot, [c], .zero, []⟩ →
      ∃ q c, p.poll quiet = ⟨q, [c], .zero, []⟩ := by
    intro c hstart
    refine ⟨_, c, poll_started hq h.front hstart hq ⟨?_, h.reads, h.done, .inl hc⟩ ?_⟩
    · simp [Pipeline.front_completed, Pipeline.drop_flush, hw]
    · simp [Turn.start_flush, Pipeline.drop_flush]
  rcases eq_none_or_eq_some p.failed_at with hx | ⟨failed, hx⟩
  · by_cases hm : p.sync_enabled = true
    · have hroom := hl.room_for_sync hs hslot
      have hstart : Turn.start_flush ⟨p, [], .zero, []⟩ =
          ⟨{ p with
            slots := p.slots.set slot (some (.Flush ticket true))
            queue := p.queue.push ⟨slot, .Sync, 0, 0, none⟩ }, [], .zero, []⟩ := by
        have hsubmit := submit_eq (p := { p with
          slots := p.slots.set slot (some (.Flush ticket true)) }) hroom slot .Sync 0 0 none
        unfold Turn.start_flush
        simp only
        split
        · rename_i hn
          rw [hs] at hn
          cases hn
        rename_i slot' hs'
        obtain rfl : slot = slot' := some.inj (hs.symm.trans hs')
        rw [if_neg (by simp [hw]), hslot]
        simp only [Bool.false_eq_true, if_false]
        split
        · rename_i failed hx'
          rw [hx] at hx'
          cases hx'
        · rw [if_neg (by simp [hm]), hsubmit]
      refine .inr ⟨_, _, poll_started hq h.front hstart hq ⟨?_, h.reads, h.done, .inl hc⟩ ?_⟩
      · simp [Pipeline.front_completed, hw]
      · have hset : Pipeline.slot { p with
            slots := p.slots.set slot (some (.Flush ticket true))
            queue := p.queue.push ⟨slot, .Sync, 0, 0, none⟩ } slot = some (.Flush ticket true) := by
          rw [slot_of_set (p := p) (s := slot) (q := some (.Flush ticket true)) rfl,
            if_pos ⟨rfl, slot_lt hslot⟩]
        exact start_flush_submitted hs hset
    · exact .inl (dropped (.Flush ticket (.ok ()))
        (by simp [Turn.start_flush, hs, hw, hslot, hx, hm]))
  · exact .inl (dropped (.Flush ticket (.error (.WriteFailed failed)))
      (by simp [Turn.start_flush, hs, hw, hslot, hx]))

/-! ## A lost queue -/

/-- Free slots are empty ones, each listed once. -/
structure Freed (p : Pipeline) : Prop where
  lt : ∀ s ∈ p.free, s < p.slots.length
  empty : ∀ s ∈ p.free, p.slot s = none
  nodup : p.free.Nodup

theorem Live.freed (h : Live p) : Freed p := ⟨h.free_lt, h.free_none, h.free_nodup⟩

/-- When nothing is in flight, every slot is on the free stack. -/
theorem Freed.vacant (h : Freed p) (h0 : p.in_flight = 0) (s : Nat) : p.slot s = none := by
  by_cases hs : s < p.slots.length
  · refine h.empty s ?_
    unfold Pipeline.in_flight at h0
    by_contra hn
    have hsub : (s :: p.free) ⊆ List.range p.slots.length := by
      intro x hx
      rcases mem_cons.mp hx with rfl | hx
      · exact mem_range.mpr hs
      · exact mem_range.mpr (h.lt x hx)
    have := (nodup_cons.mpr ⟨hn, h.nodup⟩).subperm hsub |>.length_le
    simp only [length_cons, length_range] at this
    omega
  · unfold Pipeline.slot
    rw [List.getElem?_eq_none (by omega)]
    rfl

/-- With every slot empty, retiring finds nothing to report. -/
theorem retire_slots_vacant (fuel : Nat) (h : ∀ s, t.pipe.slot s = none) :
    ∃ failed_cursor work, Turn.retire_slots fuel t = { t with
      pipe := { t.pipe with failed_cursor }, work } := by
  induction fuel generalizing t with
  | zero => exact ⟨_, _, rfl⟩
  | succ fuel ih =>
    unfold Turn.retire_slots
    split
    · have hstep : t.retire_slot = { t with
          pipe := { t.pipe with failed_cursor := t.pipe.failed_cursor + 1 }
          work := { t.work with operations := t.work.operations + 1 } } := by
        have := h t.pipe.failed_cursor
        unfold Turn.retire_slot
        simp only
        split
        · rfl
        · rename_i q hq
          have hq' : t.pipe.slot t.pipe.failed_cursor = some q := hq
          rw [this] at hq'
          cases hq'
      rw [hstep]
      obtain ⟨c, w, hc⟩ := ih (t := { t with
        pipe := { t.pipe with failed_cursor := t.pipe.failed_cursor + 1 }
        work := { t.work with operations := t.work.operations + 1 } }) h
      exact ⟨c, w, hc⟩
    · exact ⟨_, _, rfl⟩

theorem poll_lost (hq : p.queue_failed = true) (h : Freed p) (h0 : p.in_flight = 0)
    (script : Script) : (p.poll script).out = [] ∧ (p.poll script).pipe.queue = p.queue ∧
      (p.poll script).pipe.queue_failed = true := by
  rw [poll_failed hq]
  obtain ⟨c, w, hc⟩ := retire_slots_vacant p.turn.pipe.slots.length (t := p.turn) (h.vacant h0)
  unfold Turn.retire_failed
  simp only [hc]
  exact ⟨rfl, rfl, hq⟩

/-- Retiring a slot puts it on the free stack. -/
theorem Freed.retire_slot (h : Freed t.pipe) : Freed t.retire_slot.pipe := by
  unfold Turn.retire_slot
  simp only
  split
  · exact ⟨h.lt, h.empty, h.nodup⟩
  · rename_i q hq
    have hq' : t.pipe.slot t.pipe.failed_cursor = some q := hq
    have hnew : t.pipe.failed_cursor ∉ t.pipe.free := by
      intro hm
      rw [h.empty _ hm] at hq'
      cases hq'
    have hkept : Freed { t.pipe with
        slots := t.pipe.slots.set t.pipe.failed_cursor none
        free := t.pipe.failed_cursor :: t.pipe.free } := by
      refine ⟨?_, ?_, nodup_cons.mpr ⟨hnew, h.nodup⟩⟩
      · intro s hs
        simp only [length_set]
        rcases mem_cons.mp hs with rfl | hs
        · exact slot_lt hq'
        · exact h.lt s hs
      · intro s hs
        rw [slot_of_set (p := t.pipe) (s := t.pipe.failed_cursor) (q := none) rfl]
        split
        · rfl
        · rename_i hne
          rcases mem_cons.mp hs with rfl | hs
          · exact absurd ⟨rfl, slot_lt hq'⟩ hne
          · exact h.empty s hs
    cases q <;> exact ⟨hkept.lt, hkept.empty, hkept.nodup⟩

/-- After a poll that finds or leaves the queue lost, no write and no flush is listed. -/
theorem retire_failed_lost (h : Freed t.pipe) :
    t.retire_failed.pipe.Quiet ∧ Freed t.retire_failed.pipe := by
  have hf := Turn.retire_slots_induct (P := fun t => Freed t.pipe) Freed.retire_slot
    t.pipe.slots.length h
  exact ⟨⟨rfl, rfl⟩, ⟨hf.lt, hf.empty, hf.nodup⟩⟩

/-- What a pipeline keeps when its queue is lost. -/
theorem poll_loses (h : Steady p ∨ p.queue_failed = true ∧ Freed p) {script : Script}
    (hq : (p.poll script).pipe.queue_failed = true) :
    (p.poll script).pipe.Quiet ∧ Freed (p.poll script).pipe := by
  rcases h with hs | ⟨hf, hfreed⟩
  · cases hfatal : script.fatal with
    | none =>
      have := ((poll_follows hs.live hfatal).live hs.live).healthy
      rw [this] at hq
      cases hq
    | some =>
      rw [poll_fatal hs.live.healthy hfatal]
      have hfreed := ((settled_follows hs.live).live hs.live).freed
      exact retire_failed_lost ⟨hfreed.lt, hfreed.empty, hfreed.nodup⟩
  · rw [poll_failed hf]
    exact retire_failed_lost hfreed

end moat_engine.pipeline
