-- What polls, reads and flushes leave alone: the extents and the active segment.
-- The index changes by merges only. This holds whatever became of the queue.
import Moat.PipelineDriver

namespace moat_engine.pipeline

open byte_list moat_common List
open moat_engine.io (Operation Queue Request Script)

/-- The extents and the active segment are as they were. -/
structure Stays (p q : Pipeline) : Prop where
  segment : q.segment = p.segment
  extents : q.extents = p.extents
  current : q.current = p.current

theorem Stays.refl (p : Pipeline) : Stays p p := ⟨rfl, rfl, rfl⟩

variable {p q r : Pipeline}

theorem Stays.trans (h : Stays p q) (k : Stays q r) : Stays p r :=
  ⟨k.segment.trans h.segment, k.extents.trans h.extents, k.current.trans h.current⟩

theorem Stays.base (h : Stays p q) : q.base q.current = p.base p.current := by
  unfold Pipeline.base
  rw [h.extents, h.current]

/-- Some batches were merged into the index. -/
def Merges (p q : Pipeline) : Prop :=
  ∃ batches, q.index = apply p.index batches.flatten ∧ q.applied = p.applied ++ batches

theorem Merges.same (hi : q.index = p.index) (ha : q.applied = p.applied) : Merges p q :=
  ⟨[], hi, by rw [ha, append_nil]⟩

theorem Merges.trans (h : Merges p q) (k : Merges q r) : Merges p r := by
  obtain ⟨x, hi, ha⟩ := h
  obtain ⟨y, hi', ha'⟩ := k
  refine ⟨x ++ y, ?_, ?_⟩
  · rw [hi', hi, flatten_append, apply_append]
  · rw [ha', ha, append_assoc]

/-- Both at once. -/
structure Turns (p q : Pipeline) : Prop extends Stays p q where
  merges : Merges p q

theorem Turns.same (hs : Stays p q) (hi : q.index = p.index) (ha : q.applied = p.applied) :
    Turns p q :=
  ⟨hs, .same hi ha⟩

theorem Turns.refl (p : Pipeline) : Turns p p := .same (.refl p) rfl rfl

theorem Turns.trans (h : Turns p q) (k : Turns q r) : Turns p r :=
  ⟨h.toStays.trans k.toStays, h.merges.trans k.merges⟩

theorem Turns.submit (h : Turns p q) (slot : Nat) (operation : Operation) (offset len : Nat)
    (buffer : Option Bytes) : Turns p (q.submit slot operation offset len buffer) := by
  unfold Pipeline.submit
  split
  · exact h.trans (.same ⟨rfl, rfl, rfl⟩ rfl rfl)
  · exact h.trans (.same ⟨rfl, rfl, rfl⟩ rfl rfl)

theorem take_slot_turns (p : Pipeline) (pending : Pending) : Turns p (p.take_slot pending).2 := by
  unfold Pipeline.take_slot
  split <;> exact .same ⟨rfl, rfl, rfl⟩ rfl rfl

theorem retire_write_turns {t t' : Turn} (h : t.retire_write = some t') : Turns t.pipe t'.pipe := by
  unfold Turn.retire_write at h
  split at h
  · cases h
  split at h
  · split at h
    · cases h
    rename_i w _ _ result _ _
    cases h
    refine ⟨⟨rfl, rfl, rfl⟩, ?_⟩
    by_cases hr : (t.pipe.retired w.ticket result).isOk = true
    · refine ⟨[w.entries], ?_, ?_⟩
      · simp only [hr, if_true, flatten_singleton]
      · simp only [hr, if_true]
    · exact .same (if_neg hr) (if_neg hr)
  · cases h

theorem start_flush_turns (t : Turn) : Turns t.pipe t.start_flush.pipe := by
  unfold Turn.start_flush
  repeat' split
  all_goals first
    | exact .same ⟨rfl, rfl, rfl⟩ rfl rfl
    | apply Turns.submit
      exact .same ⟨rfl, rfl, rfl⟩ rfl rfl

theorem settle_turns (t : Turn) : Turns t.pipe t.settle.pipe := by
  refine ((Turn.retire_loop_induct (P := fun t' => Turns t.pipe t'.pipe)
    (fun h hs => h.trans (retire_write_turns hs)) t.pipe.writes.length (.refl _)).trans
    (start_flush_turns t.retire_writes)).trans ?_
  show Turns t.retire_writes.start_flush.pipe t.retire_writes.start_flush.start_control.pipe
  unfold Turn.start_control Pipeline.start_control
  repeat' split
  all_goals exact .same ⟨rfl, rfl, rfl⟩ rfl rfl

theorem empty_reads_turns (fuel : Nat) (t : Turn) :
    Turns t.pipe (Turn.empty_reads fuel t).pipe := by
  refine Turn.empty_reads_induct (P := fun t' => Turns t.pipe t'.pipe) (fun h hs => h.trans ?_) fuel
    (.refl _)
  unfold Turn.empty_read at hs
  split at hs
  · cases hs
  · split at hs <;> cases hs <;> exact .same ⟨rfl, rfl, rfl⟩ rfl rfl

theorem retire_failed_turns (t : Turn) : Turns t.pipe t.retire_failed.pipe := by
  have hslots := Turn.retire_slots_induct (P := fun t' => Turns t.pipe t'.pipe)
    (fun h => h.trans ?_) t.pipe.slots.length (.refl _)
  · exact hslots.trans (.same ⟨rfl, rfl, rfl⟩ rfl rfl)
  · unfold Turn.retire_slot
    simp only
    split
    · exact .same ⟨rfl, rfl, rfl⟩ rfl rfl
    · split <;> exact .same ⟨rfl, rfl, rfl⟩ rfl rfl

theorem complete_turns {completion : io.Completion} {out : List Completion}
    (h : p.complete completion = .ok (q, out)) : Turns p q := by
  unfold Pipeline.complete at h
  simp only at h
  split at h
  · cases h
  · cases h
    exact .same ⟨rfl, rfl, rfl⟩ rfl rfl
  · cases h
    exact .refl _
  · cases h
    exact .same ⟨rfl, rfl, rfl⟩ rfl rfl
  · have hq := congrArg Prod.fst (Except.ok.inj h)
    simp only at hq
    rw [← hq]
    unfold Pipeline.finish_read
    split
    · apply Turns.submit
      exact .same ⟨rfl, rfl, rfl⟩ rfl rfl
    · exact .same ⟨rfl, rfl, rfl⟩ rfl rfl
    · exact .same ⟨rfl, rfl, rfl⟩ rfl rfl
  · cases h
    exact .same ⟨rfl, rfl, rfl⟩ rfl rfl

theorem pop_turns (t : Turn) (choice : io.Pop) : Turns t.pipe (t.pop choice).1.pipe := by
  unfold Turn.pop
  split
  · exact .refl _
  simp only
  split
  · exact .same ⟨rfl, rfl, rfl⟩ rfl rfl
  split
  · exact .same ⟨rfl, rfl, rfl⟩ rfl rfl
  · rename_i hc
    have hs := complete_turns hc
    exact ⟨⟨hs.segment, hs.extents, hs.current⟩, hs.merges⟩

theorem poll_turns (p : Pipeline) (script : Script) : Turns p (p.poll script).pipe := by
  unfold Pipeline.poll
  simp only
  split
  · exact retire_failed_turns ⟨p, [], .zero, []⟩
  have h1 := (settle_turns ⟨p, [], .zero, []⟩).trans (empty_reads_turns
    (Turn.settle ⟨p, [], .zero, []⟩).pipe.ready_reads.length _)
  split
  · refine Turns.trans ?_ (retire_failed_turns _)
    exact h1.trans (.same ⟨rfl, rfl, rfl⟩ rfl rfl)
  have h2 := Turn.pops_induct (P := fun t => Turns p t.pipe)
    (fun choice h => h.trans (pop_turns _ choice)) script.pops h1
  split
  · exact h2.trans (retire_failed_turns _)
  · exact h2.trans (settle_turns _)

theorem flush_turns {ticket : Nat} (h : p.flush = .ok (ticket, q)) : Turns p q := by
  unfold Pipeline.flush at h
  split at h
  · cases h
  split at h
  · cases h
  split at h
  · cases h
  · cases h
    exact (take_slot_turns p _).trans (.same ⟨rfl, rfl, rfl⟩ rfl rfl)

theorem read_turns {key : ChunkId} {range : Range} {verify : Bool} {buffers : ReadBuffers}
    {ticket : Nat} (h : p.read key range verify buffers = .ok (ticket, q)) : Turns p q := by
  unfold Pipeline.read at h
  split at h
  · unfold Pipeline.read_verified at h
    split at h
    · cases h
    split at h
    · cases h
    simp only at h
    split at h
    · cases h
    split at h
    · cases h
    · cases h
      exact (take_slot_turns p _).submit ..
  · unfold Pipeline.read_direct at h
    split at h
    · cases h
    split at h
    · cases h
    split at h
    · cases h
    split at h
    · cases h
      exact (take_slot_turns p _).trans (.same ⟨rfl, rfl, rfl⟩ rfl rfl)
    · cases h
      exact (take_slot_turns p _).submit ..

end moat_engine.pipeline
