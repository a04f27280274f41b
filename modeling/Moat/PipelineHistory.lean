-- Whole runs of a pipeline: any calls, and a device that answers in any order
-- with any outcome.
import Moat.PipelineOrder
import Moat.FrameWrite

namespace moat_engine.pipeline

open byte_list moat_common List
open moat_engine.frame (FrameBuilder FrameLimits onePage)
open moat_engine.io (Operation Queue Request Script)
open moat_engine.segment (SegmentBuilder SegmentHeader fourPages)

/-! ## Runs -/

/-- What the owner does next. A poll comes with what the device does during it. -/
inductive Call where
  | write (frame : FrameBuilder) (buffer : Bytes)
  | write_prepared (key : ChunkId) (lsn : UInt64) (value_len : Nat) (buffer : Bytes)
  | read (key : ChunkId) (range : Range) (verify : Bool) (buffers : ReadBuffers)
  | flush
  | poll (script : Script)

structure Run where
  pipe : Pipeline
  trace : Trace

/-- The entries of the write that was queued last. -/
def Pipeline.newest_entries (p : Pipeline) : List (ChunkId × Location) :=
  match p.writes.getLast?.bind p.entryAt with
  | some e => e.2
  | none => []

def Run.accept (r : Run) (result : Except (Rejected Bytes) (Nat × Pipeline)) : Run :=
  match result with
  | .error _ => r
  | .ok (ticket, p) =>
    ⟨p, { r.trace with admitted := r.trace.admitted ++ [(ticket, p.newest_entries)] }⟩

def Run.step (r : Run) : Call → Run
  | .write frame buffer => r.accept (r.pipe.write frame buffer)
  | .write_prepared key lsn value_len buffer =>
    r.accept (r.pipe.write_prepared key lsn value_len buffer)
  | .read key range verify buffers =>
    match r.pipe.read key range verify buffers with
    | .error _ => r
    | .ok (_, p) => { r with pipe := p }
  | .flush =>
    match r.pipe.flush with
    | .error _ => r
    | .ok (_, p) => { r with pipe := p }
  | .poll script =>
    let t := r.pipe.poll script
    ⟨t.pipe, { r.trace with out := r.trace.out ++ t.out, failed := r.trace.failed ++ t.failed }⟩

def Pipeline.run (p : Pipeline) (calls : List Call) : Run := calls.foldl Run.step ⟨p, ⟨[], [], []⟩⟩

/-- The entries that a write was admitted with. -/
def Trace.entriesOf (tr : Trace) (ticket : Nat) : List (ChunkId × Location) :=
  (tr.admitted.lookup ticket).getD []

/-! ## Where a run starts -/

/-- Nothing is admitted yet, and the engine does no I/O of its own. The index may hold anything. -/
structure Idle (p : Pipeline) : Prop where
  live : Live p
  vacant : ∀ s, p.slot s = none
  unfailed : p.failed_at = none
  uncontrolled : p.control = none ∧ p.control_active = false

variable {p p' : Pipeline} {queue : Queue} {limits : FrameLimits} {start : Index} {r : Run}
  {tr : Trace}

theorem slot_replicate {n : Nat} (h : p.slots = List.replicate n none) (s : Nat) :
    p.slot s = none := by
  unfold Pipeline.slot
  rw [h, List.getElem?_replicate]
  split <;> rfl

/-- An empty slot table over an empty queue is idle. -/
theorem idle_of_empty (hq : p.queue.accepted = []) (hd : p.queue.depth ≤ 32768)
    (hs : p.slots = List.replicate p.queue.depth none) (hf : p.free = List.range p.queue.depth)
    (hw : p.writes = []) (hr : p.ready_reads = []) (hfl : p.flush_slot = none)
    (hc : p.control = none) (ha : p.control_active = false) (hx : p.failed_at = none)
    (hh : p.queue_failed = false) : Idle p := by
  have hslot := slot_replicate hs
  have hkind : ∀ s, p.kindAt s = none := by
    intro s
    unfold Pipeline.kindAt
    rw [hslot s]
    rfl
  refine ⟨?_, hslot, hx, hc, ha⟩
  exact
    { healthy := hh
      depth_le := hd
      slots_len := by rw [hs, length_replicate]
      accepted_le := by rw [hq]; exact Nat.zero_le _
      free_lt := fun s h => by
        rw [hf, mem_range] at h
        rw [hs, length_replicate]
        exact h
      free_none := fun s _ => hslot s
      free_nodup := by rw [hf]; exact nodup_range
      writes_nodup := by rw [hw]; exact nodup_nil
      writes_iff := fun s => by rw [hw, hkind s]; simp
      ready_nodup := by rw [hr]; exact nodup_nil
      ready_iff := fun s => by rw [hr, hkind s]; simp
      flush_iff := fun s => by rw [hfl, hkind s]; simp
      tokens_nodup := by rw [hq]; exact nodup_nil
      carried := fun e he => by rw [hq] at he; cases he
      control_carried := fun e he => by rw [hq] at he; cases he
      control_token := fun r hr => by rw [hc] at hr; cases hr
      flush_alone := fun hf => by rw [hfl] at hf; cases hf }

theorem empty_idle (h : Pipeline.empty queue limits = .ok p) : Idle p := by
  unfold Pipeline.empty at h
  split at h
  · cases h
  rename_i hq
  simp only [not_or, not_not] at hq
  obtain ⟨h1, h2, h3, -⟩ := hq
  have hempty : queue.accepted = [] := by
    unfold Queue.vacant at h3
    apply length_eq_zero_iff.mp
    omega
  cases h
  exact idle_of_empty hempty (Nat.le_of_not_lt h2) rfl rfl rfl rfl rfl rfl rfl rfl rfl

theorem read_only_idle {header : SegmentHeader} {base : Nat}
    (h : Pipeline.read_only queue header limits base = .ok p) : Idle p := by
  unfold Pipeline.read_only at h
  split at h
  · cases h
  split at h
  · cases h
  rename_i q hq
  cases h
  have hi := empty_idle hq
  exact ⟨{ hi.live with }, hi.vacant, hi.unfailed, hi.uncontrolled⟩

/-- A new pipeline is idle, and stays so when its bounds are configured. -/
theorem new_idle {header : SegmentHeader} {base : Nat}
    (h : Pipeline.new queue header limits base = .ok p) : Idle p := by
  unfold Pipeline.new at h
  split at h
  · cases h
  split at h
  · cases h
  rename_i q hq
  cases h
  have hi := read_only_idle hq
  exact ⟨{ hi.live with }, hi.vacant, hi.unfailed, hi.uncontrolled⟩

theorem Idle.ordered (h : Idle p) : Ordered p.index p ⟨[], [], []⟩ [] where
  delivered := rfl
  admitted := by
    have hw : p.writes = [] := by
      apply eq_nil_iff_forall_not_mem.mpr
      intro s hs
      obtain ⟨w, hw⟩ := h.live.write_slot hs
      rw [h.vacant s] at hw
      cases hw
    unfold Pipeline.queuedWrites
    rw [hw]
    rfl
  increasing := List.Pairwise.nil
  admitted_lt := fun a ha => by cases ha
  failed_lt := fun f hf => by cases hf
  index_eq := rfl
  ok_iff := fun d hd => by cases hd
  failed_none := by simp [h.unfailed]
  failed_min := fun m hm => by rw [h.unfailed] at hm; cases hm
  running := fun s w hs => by rw [h.vacant s] at hs; cases hs
  finished := fun s w r b hs => by rw [h.vacant s] at hs; cases hs
  flush_last := fun s t b hs => by rw [h.vacant s] at hs; cases hs
  flush_alone := fun s t hs => by rw [h.vacant s] at hs; cases hs
  flushed := fun t ht => by cases ht

/-! ## The invariant of a run -/

/-- What holds after every call. -/
structure Run.Good (start : Index) (r : Run) : Prop where
  live : Live r.pipe
  uncontrolled : r.pipe.control = none ∧ r.pipe.control_active = false
  ordered : ∃ done, Ordered start r.pipe r.trace done

/-- Only the engine asks for control I/O. -/
theorem Does.uncontrolled {a : Act} (d : Does p a p')
    (h : p.control = none ∧ p.control_active = false) :
    p'.control = none ∧ p'.control_active = false := by
  cases d with
  | control_submit hc => rw [h.1] at hc; cases hc
  | control_done => exact ⟨h.1, rfl⟩
  | _ => exact h

theorem Run.Good.does {a : Act} (h : r.Good start)
    (d : Does r.pipe a p') : Run.Good start ⟨p', r.trace.add a⟩ := by
  obtain ⟨done, ho⟩ := h.ordered
  exact ⟨d.live h.live, d.uncontrolled h.uncontrolled, d.ordered h.live ho⟩

theorem Run.Good.runs {acts : List Act} (h : Run.Good start ⟨p, tr⟩) (hr : Runs p acts p') :
    Run.Good start ⟨p', acts.foldl Trace.add tr⟩ := by
  induction hr generalizing tr with
  | nil => exact h
  | cons d _ ih => exact ih (h.does d)

/-- A launched write is the newest one. -/
theorem newest_launched (hl : Live p) {s : Nat} {rest : List Nat} {f : Prepared}
    (hf : p.free = s :: rest) : (p.launched s rest f).newest_entries = f.write.entries := by
  have hlt : s < p.slots.length := hl.free_lt s (by rw [hf]; exact mem_cons_self)
  have hlast : (p.launched s rest f).writes.getLast? = some s := by
    show (p.writes ++ [s]).getLast? = some s
    rw [List.getLast?_concat]
  have hs : (p.launched s rest f).slot s = some (.Write f.write) := by
    rw [slot_of_set (p := p) (s := s) rfl s, if_pos ⟨rfl, hlt⟩]
  unfold Pipeline.newest_entries
  rw [hlast, Option.bind_some, entryAt_write hs]

theorem Run.Good.accept (h : r.Good start) {result : Except (Rejected Bytes) (Nat × Pipeline)}
    (hr : ∀ t p', result = .ok (t, p') →
      ∃ f, f.write.ticket = t ∧ Does r.pipe (.launched f) p') : (r.accept result).Good start := by
  unfold Run.accept
  split
  · exact h
  rename_i t p'
  obtain ⟨f, rfl, d⟩ := hr t p' rfl
  have hg := h.does d
  cases d with
  | launch _ hf =>
    rw [newest_launched h.live hf]
    simpa [Trace.add, Act.out, Act.failed] using hg

theorem foldl_add {acts : List Act} (h : ∀ a ∈ acts, a.admits = false) :
    acts.foldl Trace.add tr =
      ⟨tr.admitted, tr.out ++ acts.flatMap Act.out, tr.failed ++ acts.flatMap Act.failed⟩ := by
  induction acts generalizing tr with
  | nil => simp
  | cons a _ ih =>
    have ha : (tr.add a).admitted = tr.admitted := by
      have := h a mem_cons_self
      cases a <;> first | rfl | cases this
    rw [foldl_cons, ih (fun b hb => h b (mem_cons_of_mem _ hb)), ha]
    simp [Trace.add]

theorem Run.Good.step (h : r.Good start) {call : Call}
    (hq : ∀ script, call = .poll script → script.fatal = none) : (r.step call).Good start := by
  cases call with
  | write =>
    refine h.accept ?_
    intro t p' hw
    obtain ⟨f, -, h2, h3⟩ := write_does hw
    exact ⟨f, h2, h3⟩
  | write_prepared =>
    refine h.accept ?_
    intro t p' hw
    obtain ⟨_, f, -, -, h2, h3⟩ := write_prepared_does hw
    exact ⟨f, h2, h3⟩
  | read key range verify buffers =>
    simp only [Run.step]
    split
    · exact h
    · rename_i t p' hr
      simpa [Trace.add, Act.out, Act.failed] using h.does (read_does hr)
  | flush =>
    simp only [Run.step]
    split
    · exact h
    · rename_i t p' hf
      simpa [Trace.add, Act.out, Act.failed] using
        h.does (flush_does hf h.uncontrolled.1 h.uncontrolled.2)
  | poll script =>
    obtain ⟨acts, hr, hout, hfail, hadm⟩ := poll_follows h.live (hq script rfl)
    have hg := h.runs hr
    rw [foldl_add hadm] at hg
    simp only [Run.step]
    rw [hout, hfail]
    exact hg

theorem Idle.good (h : Idle p) (calls : List Call)
    (hq : ∀ script, Call.poll script ∈ calls → script.fatal = none) :
    (p.run calls).Good p.index := by
  have hstart : Run.Good p.index ⟨p, ⟨[], [], []⟩⟩ := ⟨h.live, h.uncontrolled, [], h.ordered⟩
  unfold Pipeline.run
  -- the invariant moves from call to call
  generalize (⟨p, ⟨[], [], []⟩⟩ : Run) = r at hstart
  induction calls generalizing r with
  | nil => exact hstart
  | cons _ _ ih =>
    refine ih (fun script hs => hq script (mem_cons_of_mem _ hs)) _ (hstart.step ?_)
    intro script hs
    exact hq script (hs ▸ mem_cons_self)

/-! ## Publication in order, failures contained -/

/-- In an increasing list every key leads to its own entry. -/
theorem lookup_of_increasing {β : Type} {l : List (Nat × β)} {e : Nat × β}
    (h : (l.map (·.1)).Pairwise (· < ·)) (he : e ∈ l) : l.lookup e.1 = some e.2 := by
  induction l with
  | nil => cases he
  | cons x _ ih =>
    rw [map_cons, pairwise_cons] at h
    rw [lookup_cons]
    rcases mem_cons.mp he with rfl | he
    · simp
    · have hlt := h.1 e.1 (mem_map_of_mem he)
      rw [show (e.1 == x.1) = false by simp; omega]
      exact ih h.2 he

/-- What the delivered successes bring, read off their tickets. -/
theorem Ordered.published_eq {done : List Done} (h : Ordered start p tr done) :
    ((deliveredWrites tr.out).filter (fun d => d.2.isOk)).flatMap (fun d => tr.entriesOf d.1) =
      published done := by
  have hent : ∀ d ∈ done, tr.entriesOf d.ticket = d.entries := by
    intro d hd
    have hm : (d.ticket, d.entries) ∈ tr.admitted := by
      rw [h.admitted]
      exact mem_append_left _ (mem_map_of_mem hd)
    unfold Trace.entriesOf
    rw [lookup_of_increasing h.increasing hm]
    rfl
  rw [h.delivered]
  unfold published
  rw [filter_map, flatMap_map]
  apply flatMap_congr
  intro d hd
  exact hent d (mem_filter.mp hd).1

/-- After a failure no write and no flush is admitted. -/
theorem refused_after_failure {m : Nat} (h : p.failed_at = some m) :
    (∀ t, p.admission true ≠ .ok t) ∧ ∀ t p', p.flush ≠ .ok (t, p') := by
  refine ⟨?_, ?_⟩
  · intro t ha
    obtain ⟨-, -, -, -, hw⟩ := admission_ok ha
    rw [h] at hw
    cases (hw rfl).2.1
  · intro t p' hf
    unfold Pipeline.flush at hf
    split at hf
    · cases hf
    rw [h] at hf
    cases hf

/-- For every sequence of calls and every behaviour of a queue that does not fail fatally:
writes are delivered in the order of their tickets; the index is what the successful ones brought;
a delivered write succeeded exactly when its ticket is below every failed write and sync; after a
failure nothing more is admitted; and no flush behind a failure reports success. -/
theorem publication_is_ordered_and_failures_are_contained (p : Pipeline) (hp : Idle p)
    (calls : List Call) (hq : ∀ script, Call.poll script ∈ calls → script.fatal = none) :
    let r := p.run calls
    (deliveredWrites r.trace.out).Pairwise (fun a b => a.1 < b.1) ∧
    (deliveredWrites r.trace.out).map (·.1) <+: r.trace.admitted.map (·.1) ∧
    r.pipe.index = apply p.index
      (((deliveredWrites r.trace.out).filter (fun d => d.2.isOk)).flatMap
        (fun d => r.trace.entriesOf d.1)) ∧
    (∀ d ∈ deliveredWrites r.trace.out,
      d.2.isOk = true ↔ ∀ f ∈ r.trace.failed, d.1 < f) ∧
    (r.trace.failed ≠ [] →
      (∀ frame buffer t p', r.pipe.write frame buffer ≠ .ok (t, p')) ∧
      (∀ key lsn value_len buffer t p',
        r.pipe.write_prepared key lsn value_len buffer ≠ .ok (t, p')) ∧
      ∀ t p', r.pipe.flush ≠ .ok (t, p')) ∧
    (∀ t ∈ successfulFlushes r.trace.out, ∀ f ∈ r.trace.failed, t < f) := by
  intro r
  obtain ⟨hl, hu, done, ho⟩ := hp.good calls hq
  have hpre : (deliveredWrites r.trace.out).map (·.1) <+: r.trace.admitted.map (·.1) := by
    rw [ho.delivered, ho.admitted, map_append, map_map, map_map]
    exact prefix_append _ _
  refine ⟨?_, hpre, ?_, ?_, ?_, ?_⟩
  · have := ho.increasing.sublist hpre.sublist
    rwa [pairwise_map] at this
  · rw [ho.published_eq]
    exact ho.index_eq
  · intro d hd
    rw [ho.delivered] at hd
    obtain ⟨e, he, rfl⟩ := mem_map.mp hd
    exact ho.ok_iff e he
  · intro hfail
    obtain ⟨m, hm⟩ : ∃ m, r.pipe.failed_at = some m := by
      cases hx : r.pipe.failed_at with
      | none => exact absurd (ho.failed_none.mp hx) hfail
      | some m => exact ⟨m, rfl⟩
    obtain ⟨hw, hf⟩ := refused_after_failure hm
    refine ⟨?_, ?_, hf⟩
    · intro frame buffer t p' h
      obtain ⟨f, h1, -, -⟩ := write_does h
      exact hw _ (prepare_admission h1).1
    · intro key lsn value_len buffer t p' h
      obtain ⟨_, f, -, h1, -, -⟩ := write_prepared_does h
      exact hw _ (prepare_admission h1).1
  · intro t ht
    exact (ho.flushed t ht).2.1

/-- Two empty values. The device answers the second write first, and the first one with fewer bytes
than it was given. -/
def shortWrite : List Call :=
  [.write_prepared (.from_bytes []) 1 0 (zeros 4096),
    .write_prepared (.from_bytes [1]) 2 0 (zeros 4096),
    .poll ⟨none, [⟨1, .ok 4096, []⟩]⟩, .poll ⟨none, [⟨0, .ok 17, []⟩]⟩]

/-- Both writes are reported in order and fail, the index stays, and the next flush is refused. -/
theorem a_short_write_is_contained :
    ∃ p, Pipeline.new (Queue.empty 2) fourPages onePage 8192 = .ok p ∧
      let r := p.run shortWrite
      r.trace.failed = [1] ∧ (deliveredWrites r.trace.out).map (·.1) = [1, 2] ∧
      (∀ d ∈ deliveredWrites r.trace.out, d.2.isOk = false) ∧ r.pipe.index = p.index ∧
      ∀ t p', r.pipe.flush ≠ .ok (t, p') := by
  obtain ⟨p, hp, hfail, hout⟩ : ∃ p, Pipeline.new (Queue.empty 2) fourPages onePage 8192 = .ok p ∧
      (p.run shortWrite).trace.failed = [1] ∧
      (deliveredWrites (p.run shortWrite).trace.out).map (·.1) = [1, 2] := by
    apply exists_of_any
    set_option maxRecDepth 10000 in
    decide +kernel
  obtain ⟨-, -, hindex, hok, hrefused, -⟩ := publication_is_ordered_and_failures_are_contained p
    (new_idle hp) shortWrite (by simp [shortWrite])
  have hall : ∀ d ∈ deliveredWrites (p.run shortWrite).trace.out, d.2.isOk = false := by
    intro d hd
    have hd1 : d.1 ∈ [1, 2] := hout ▸ mem_map_of_mem hd
    rw [Bool.eq_false_iff, Ne, hok d hd, hfail]
    simp only [mem_cons, not_mem_nil, or_false] at hd1
    simp only [mem_singleton, forall_eq]
    omega
  refine ⟨p, hp, hfail, hout, hall, ?_, (hrefused (by simp [hfail])).2.2⟩
  rw [hindex, filter_eq_nil_iff.mpr (fun d hd => by simp [hall d hd])]
  rfl

end moat_engine.pipeline
