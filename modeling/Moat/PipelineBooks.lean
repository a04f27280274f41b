-- The books of the pipeline: which slots are free, what the pending writes hold,
-- and which tickets still wait. Every step and every poll keeps them, also the
-- sweep after a fatal failure of the queue.
import Moat.PipelineRoom
import Moat.PipelineRuns
import Moat.Slots

namespace moat_engine.pipeline

open byte_list moat_common List Option
open moat_engine.io (Operation Queue Request Script)
open slots (Table)

/-- Index entries that an operation will publish. -/
def Pending.entries : Pending → Nat
  | .Write w => w.entries.length
  | _ => 0

/-- Keys that an operation may add to the index. -/
def Pending.reserved : Pending → Nat
  | .Write w => w.reserved_new
  | _ => 0

def Pipeline.table (p : Pipeline) : Table Pending := ⟨p.slots, p.free⟩

/-- The tickets in the slots. -/
def Pipeline.tickets (p : Pipeline) : Multiset Nat := p.table.weigh (fun q => {q.ticket})

structure Books (p : Pipeline) : Prop extends Room p where
  fair : p.table.Fair
  entries : p.pending_entries = p.table.weigh Pending.entries
  reserved : p.pending_new = p.table.weigh Pending.reserved

variable {p p' : Pipeline} {s : Nat} {q : Pending}

theorem slot_cell : p.slot s = some q ↔ p.table.cells[s]? = some (some q) := by
  unfold Pipeline.slot Pipeline.table
  simp only [join_eq_some_iff]

/-! ## What a change does to the books -/

/-- From `p` to `p'` the tickets `begun` were drawn, in order, and `out` were delivered; the books
stay right. -/
structure Shifts (p : Pipeline) (begun out : List Nat) (p' : Pipeline) : Prop where
  books : Books p → Books p'
  tickets : Books p → p'.tickets + out = p.tickets + begun
  drawn : begun = List.range' p.next_ticket begun.length
  next : p'.next_ticket = p.next_ticket + begun.length
  grown : p.index.Grown p'.index

namespace Shifts

variable {p q r : Pipeline}

/-- A change of other fields. Only the index may have grown, within its limit. -/
theorem aside (h1 : q.slots = p.slots) (h2 : q.free = p.free)
    (h3 : q.pending_entries = p.pending_entries) (h4 : q.pending_new = p.pending_new)
    (h5 : q.next_ticket = p.next_ticket) (h6 : Grows p q) : Shifts p [] [] q := by
  have ht : q.table = p.table := by
    unfold Pipeline.table
    rw [h1, h2]
  refine ⟨?_, ?_, rfl, h5, h6.grown⟩
  · rintro ⟨hroom, hf, he, hr⟩
    exact ⟨h6.room hroom, ht ▸ hf, by rw [h3, ht, he], by rw [h4, ht, hr]⟩
  · intro _
    unfold Pipeline.tickets
    rw [ht]

theorem refl (p : Pipeline) : Shifts p [] [] p := aside rfl rfl rfl rfl rfl ⟨.refl _, id⟩

theorem trans {b b' o o' : List Nat} (h : Shifts p b o q) (k : Shifts q b' o' r) :
    Shifts p (b ++ b') (o ++ o') r := by
  refine ⟨fun hb => k.books (h.books hb), ?_, ?_, ?_, h.grown.trans k.grown⟩
  · intro hb
    have h1 := h.tickets hb
    have h2 := k.tickets (h.books hb)
    rw [← Multiset.coe_add, ← Multiset.coe_add, add_comm (o : Multiset Nat), ← add_assoc, h2,
      add_right_comm, h1, add_assoc]
  · rw [length_append, ← List.range'_append_1, ← h.drawn, ← h.next, ← k.drawn]
  · rw [k.next, h.next, length_append]
    omega

/-- One change of the table. -/
theorem of_moves {i o : Option Pending} {begun out : List Nat} (hm : p.table.Moves i o q.table)
    (he : q.pending_entries =
      p.pending_entries + Table.cell Pending.entries i - Table.cell Pending.entries o)
    (hr : q.pending_new =
      p.pending_new + Table.cell Pending.reserved i - Table.cell Pending.reserved o)
    (ht : Table.cell (fun x : Pending => ({x.ticket} : Multiset Nat)) i + out =
      Table.cell (fun x : Pending => ({x.ticket} : Multiset Nat)) o + begun)
    (hd : begun = List.range' p.next_ticket begun.length)
    (hn : q.next_ticket = p.next_ticket + begun.length)
    (hroom : Room p →
      Table.cell Pending.reserved o ≤ p.pending_new + Table.cell Pending.reserved i →
      Room q) (hg : p.index.Grown q.index) : Shifts p begun out q := by
  refine ⟨?_, ?_, hd, hn, hg⟩
  · rintro ⟨hp, hf, hpe, hpr⟩
    have h1 := hm.weigh hf Pending.entries
    have h2 := hm.weigh hf Pending.reserved
    refine ⟨hroom hp (by omega), hm.fair hf, ?_, ?_⟩
    · rw [he, hpe]
      omega
    · rw [hr, hpr]
      omega
  · intro hb
    have hw := hm.weigh hb.fair (fun x : Pending => ({x.ticket} : Multiset Nat))
    apply add_right_cancel (b := Table.cell (fun x : Pending => ({x.ticket} : Multiset Nat)) o)
    unfold Pipeline.tickets
    rw [add_right_comm, hw, add_assoc, ht, add_comm _ (begun : Multiset Nat), add_assoc]

end Shifts

/-! ## Steps -/

/-- The tickets that a step draws. -/
def Act.begun : Act → List Nat
  | .launched f => [f.write.ticket]
  | .flush_begun ticket => [ticket]
  | .read_begun ticket => [ticket]
  | _ => []

/-- An operation takes the slot on top of the free stack. -/
theorem shifts_enter {rest : List Nat} (q : Pending) (hf : p.free = s :: rest)
    (hs : p'.slots = p.slots.set s (some q)) (hr : p'.free = rest)
    (he : p'.pending_entries = p.pending_entries + q.entries)
    (hn : p'.pending_new = p.pending_new + q.reserved) (hq : q.ticket = p.next_ticket)
    (ht : p'.next_ticket = p.next_ticket + 1) (hi : p'.index = p.index)
    (hl : p'.resources = p.resources) (hw : ∀ w, q = .Write w → Covers p.index w ∧
      p.index.len + p.pending_new + w.reserved_new ≤ p.resources.index_entries) :
    Shifts p [p.next_ticket] [] p' := by
  have hm : p.table.Moves (some q) none p'.table := by
    unfold Pipeline.table
    rw [hs, hr]
    exact .take q hf
  refine .of_moves hm he hn ?_ rfl ht (fun hp _ => hp.set hs (by rw [hi]) ?_ fun w hx => ?_)
    (hi ▸ .refl _)
  · simp [Table.cell, hq]
  · rw [hi, hl, hn]
    cases q with
    | Write w => exact (Nat.add_assoc ..).ge.trans (hw w rfl).2
    | _ => exact hp.within
  · exact (hw w (some.inj hx)).1

/-- An operation leaves its slot. -/
theorem shifts_leave (hq : p.slot s = some q) (hs : p'.slots = p.slots.set s none)
    (hf : p'.free = s :: p.free) (he : p'.pending_entries = p.pending_entries - q.entries)
    (hn : p'.pending_new = p.pending_new - q.reserved) (ht : p'.next_ticket = p.next_ticket)
    (hl : p'.resources = p.resources)
    (hi : p'.index = p.index ∨ ∃ w, q = .Write w ∧ p'.index = apply p.index w.entries) :
    Shifts p [] [q.ticket] p' := by
  have hm : p.table.Moves none (some q) p'.table := by
    unfold Pipeline.table
    rw [hs, hf]
    exact .give (slot_cell.mp hq)
  refine .of_moves hm he hn ?_ rfl ht (fun hp hle => ?_) ?_
  · simp [Table.cell]
  rotate_left
  · rcases hi with hi | ⟨w, -, hi⟩
    · exact hi ▸ .refl _
    · exact ⟨_, hi⟩
  have hwithin := hp.within
  have hle : q.reserved ≤ p.pending_new := hle
  rcases hi with hi | ⟨w, rfl, hi⟩
  · exact hp.set hs (by rw [hi]) (by rw [hi, hl, hn]; omega) (by rintro _ ⟨⟩)
  · have hlen := (hp.covered s w hq).len_apply
    have hle : w.reserved_new ≤ p.pending_new := hle
    refine hp.set hs (by rw [hi, keySet_apply]; exact Finset.subset_union_left) ?_ (by rintro _ ⟨⟩)
    rw [hi, hl, hn]
    show _ + (p.pending_new - w.reserved_new) ≤ _
    omega

/-- An operation stays in its slot, in another state. -/
theorem shifts_stay (q' : Pending) (hq : p.slot s = some q)
    (hs : p'.slots = p.slots.set s (some q')) (hf : p'.free = p.free)
    (he : p'.pending_entries = p.pending_entries) (hn : p'.pending_new = p.pending_new)
    (ht : p'.next_ticket = p.next_ticket) (h1 : q'.ticket = q.ticket) (h2 : q'.entries = q.entries)
    (h3 : q'.reserved = q.reserved) (hl : p'.resources = p.resources) (hi : p'.index = p.index)
    (hw : ∀ w, q' = .Write w → ∃ v, q = .Write v ∧ w = { v with completed := w.completed }) :
    Shifts p [] [] p' := by
  have hm : p.table.Moves (some q') (some q) p'.table := by
    unfold Pipeline.table
    rw [hs, hf]
    exact .swap q' (slot_cell.mp hq)
  refine .of_moves hm ?_ ?_ ?_ rfl ht (fun hp _ =>
    hp.set hs (by rw [hi]) (by rw [hi, hl, hn]; exact hp.within) fun w hx => ?_) (hi ▸ .refl _)
  rotate_right
  · obtain ⟨v, rfl, hv⟩ := hw w (some.inj hx)
    rw [hv]
    exact hp.covered s v hq
  · simp only [Table.cell, elim_some, h2, he]
    omega
  · simp only [Table.cell, elim_some, h3, hn]
    omega
  · simp [Table.cell, h1]

theorem validate_metadata_ok {r r' : VerifiedRead} {limits : frame.FrameLimits}
    {position : frame.FramePosition} (h : r.validate_metadata limits position = .ok r') :
    ∃ metadata record, frame.Metadata.decode (r.metadata.getD []) limits position = .ok metadata ∧
      metadata.record r.location.ordinal = some record ∧
      r' = { r with validated_header := some metadata.header } := by
  unfold VerifiedRead.validate_metadata at h
  split at h
  · cases h
  rename_i metadata hd
  split at h
  · cases h
  rename_i record hr
  simp only at h
  split at h <;> cases h
  exact ⟨metadata, record, hd, hr, rfl⟩

theorem finish_metadata_ok {r r' : VerifiedRead} {limits : frame.FrameLimits}
    {position : frame.FramePosition} {range : Option ReadRange}
    (h : r.finish_metadata limits position = .ok (r', range)) :
    r.validate_metadata limits position = .ok r' := by
  unfold VerifiedRead.finish_metadata at h
  split at h
  · cases h
  rename_i r1 hv
  rw [hv]
  simp only at h
  split at h
  · cases h
    rfl
  split at h
  · cases h
    rfl
  split at h <;> cases h
  rfl

/-- A verified read changes only when its metadata has passed, and asks for its value only then. -/
theorem advance_read_cases {read read' : VerifiedRead} {phase : Bool} {result : Except Error Unit}
    {r : Except Error (Option ReadRange)} (h : p.advance_read read phase result = (read', r)) :
    (read' = read ∧ r ≠ .ok none) ∨ (phase = true ∧ ∃ position,
      read.validate_metadata p.limits position = .ok read') := by
  unfold Pipeline.advance_read at h
  split at h
  · cases h
    exact .inl ⟨rfl, by simp⟩
  split at h
  · cases h
    exact .inl ⟨rfl, by simp⟩
  rename_i position _
  split at h
  · rename_i hphase
    split at h
    · cases h
      exact .inl ⟨rfl, by simp⟩
    · rename_i hfin
      cases h
      exact .inr ⟨hphase, position, finish_metadata_ok hfin⟩
  · split at h <;> cases h <;> exact .inl ⟨rfl, by simp⟩

theorem advance_ticket {read read' : VerifiedRead} {phase : Bool}
    {result : Except Error Unit} {r : Except Error (Option ReadRange)}
    (h : p.advance_read read phase result = (read', r)) : read'.ticket = read.ticket := by
  rcases advance_read_cases h with ⟨rfl, -⟩ | ⟨-, position, hv⟩
  · rfl
  · obtain ⟨metadata, record, -, -, rfl⟩ := validate_metadata_ok hv
    rfl

theorem returned_ticket (read : VerifiedRead) (buffer : Option Bytes) :
    (read.returned buffer).ticket = read.ticket := by
  unfold VerifiedRead.returned
  split <;> rfl

/-- Every step of a pipeline keeps the books. -/
theorem Does.shifts {a : Act} (d : Does p a p') :
    Shifts p a.begun (a.out.map Completion.ticket) p' := by
  cases d with
  | @launch _ _ f _ _ hp hf =>
    obtain ⟨ha, -⟩ := prepare_admission hp
    obtain ⟨ht, -⟩ := admission_ok ha
    simp only [Act.begun, Act.out, ht, map_nil]
    refine shifts_enter (.Write f.write) hf rfl rfl rfl rfl ht rfl rfl rfl ?_
    rintro w ⟨⟩
    exact prepare_covers hp
  | @flush _ _ _ _ _ _ _ hf =>
    exact shifts_enter (.Flush p.next_ticket false) hf rfl rfl rfl rfl rfl rfl rfl rfl
      (by rintro _ ⟨⟩)
  | @read_empty _ _ _ buffers _ _ _ _ _ hf =>
    exact shifts_enter (.EmptyRead p.next_ticket buffers) hf rfl rfl rfl rfl rfl rfl rfl rfl
      (by rintro _ ⟨⟩)
  | @read_direct _ _ _ _ _ _ _ _ _ _ hf =>
    exact shifts_enter _ hf rfl rfl rfl rfl rfl rfl rfl rfl (by rintro _ ⟨⟩)
  | @read_verified _ _ read buffers _ _ _ hr _ _ hf =>
    have ht : read.ticket = p.next_ticket := by
      unfold Pipeline.plan_verified at hr
      split at hr
      · cases hr
      unfold VerifiedRead.plan at hr
      split at hr <;> cases hr
      rfl
    exact shifts_enter (.VerifiedRead { read with value := some buffers.value }) hf rfl rfl rfl rfl
      ht rfl rfl rfl (by rintro _ ⟨⟩)
  | @retire _ _ w _ _ _ hs =>
    refine shifts_leave hs rfl rfl rfl rfl rfl rfl ?_
    simp only
    split
    · exact .inr ⟨w, rfl, rfl⟩
    · exact .inl rfl
  | @flush_failed _ _ _ _ _ hs | @flush_fence _ _ _ _ hs | @empty_read _ _ _ _ _ hs =>
    exact shifts_leave hs rfl rfl rfl rfl rfl rfl (.inl rfl)
  | @submit_sync _ ticket _ _ hs =>
    exact shifts_stay (.Flush ticket true) hs rfl rfl rfl rfl rfl rfl rfl rfl rfl rfl
      (by rintro _ ⟨⟩)
  | @write_done _ _ _ w _ _ _ hs =>
    refine shifts_stay _ hs rfl rfl rfl rfl rfl rfl rfl rfl rfl rfl ?_
    rintro _ ⟨⟩
    exact ⟨w, rfl, rfl⟩
  | @direct_done _ _ _ _ _ _ _ hs | @sync_done _ _ _ _ _ _ _ _ hs =>
    exact shifts_leave hs rfl rfl rfl rfl rfl rfl (.inl rfl)
  | @verified_done _ _ _ _ _ _ _ _ _ hs ha =>
    have ht := (advance_ticket ha).trans (returned_ticket _ _)
    simp only [Act.out, map_cons, map_nil, Completion.ticket, ht]
    exact shifts_leave hs rfl rfl rfl rfl rfl rfl (.inl rfl)
  | @verified_more _ _ _ _ read' _ _ _ hs ha =>
    have ht := (advance_ticket ha).trans (returned_ticket _ _)
    exact shifts_stay (.VerifiedRead { read' with value := none }) hs rfl rfl rfl rfl rfl ht rfl rfl
      rfl rfl (by rintro _ ⟨⟩)
  | @control_submit | @control_done => exact .aside rfl rfl rfl rfl rfl (.same rfl rfl rfl rfl)

/-! ## Polls -/

/-- From one turn to a later one the books stay right, and what left its slot is in the output. -/
def Turn.Delivers (t t' : Turn) : Prop :=
  ∃ out, t'.out = t.out ++ out ∧ Shifts t.pipe [] (out.map Completion.ticket) t'.pipe

theorem Turn.Delivers.refl {t t' : Turn} (h1 : t'.out = t.out) (h2 : Shifts t.pipe [] [] t'.pipe) :
    t.Delivers t' := ⟨[], by simp [h1], h2⟩

theorem Turn.Delivers.trans {a b c : Turn} (h : a.Delivers b) (k : b.Delivers c) :
    a.Delivers c := by
  obtain ⟨o1, h1, h2⟩ := h
  obtain ⟨o2, k1, k2⟩ := k
  refine ⟨o1 ++ o2, by rw [k1, h1, append_assoc], ?_⟩
  rw [map_append]
  exact h2.trans k2

theorem begun_of_not_admits {a : Act} (h : a.admits = false) : a.begun = [] := by
  cases a <;> first | rfl | cases h

theorem Runs.shifts {q : Pipeline} {acts : List Act} (h : Runs p acts q)
    (hn : ∀ a ∈ acts, a.admits = false) :
    Shifts p [] ((acts.flatMap Act.out).map Completion.ticket) q := by
  induction h with
  | nil p => exact .refl p
  | @cons _ _ _ a _ hd _ ih =>
    have h1 := hd.shifts
    rw [begun_of_not_admits (hn a mem_cons_self)] at h1
    have h2 := h1.trans (ih (fun b hb => hn b (mem_cons_of_mem a hb)))
    rwa [← map_append] at h2

theorem Turn.Follows.delivers {t t' : Turn} (h : t.Follows t') : t.Delivers t' := by
  obtain ⟨acts, hr, ho, -, hn⟩ := h
  exact ⟨acts.flatMap Act.out, ho, hr.shifts hn⟩

theorem retire_slot_delivers (t : Turn) : t.Delivers t.retire_slot := by
  unfold Turn.retire_slot
  simp only
  split
  · exact .refl rfl (.aside rfl rfl rfl rfl rfl (.same rfl rfl rfl rfl))
  · rename_i q hs
    have hs' : t.pipe.slot t.pipe.failed_cursor = some q := hs
    refine ⟨_, rfl, ?_⟩
    cases q <;> exact shifts_leave hs' rfl rfl rfl rfl rfl rfl (.inl rfl)

theorem retire_failed_delivers (t : Turn) : t.Delivers t.retire_failed :=
  (Turn.retire_slots_induct (P := t.Delivers) (fun h => h.trans (retire_slot_delivers _)) _
    (.refl rfl (.refl _))).trans (.refl rfl (.aside rfl rfl rfl rfl rfl (.same rfl rfl rfl rfl)))

/-- The turn of a poll, before it looks for completions. -/
def Pipeline.settled (p : Pipeline) : Turn :=
  p.turn.settle.empty_reads p.turn.settle.pipe.ready_reads.length

theorem settled_follows (hl : Live p) : p.turn.Follows p.settled := by
  have h1 : p.turn.Follows p.turn.settle := settle_follows hl
  exact h1.trans (empty_reads_follows _ _ (h1.live hl))

theorem poll_failed (h : p.queue_failed = true) (script : Script) :
    p.poll script = p.turn.retire_failed := by
  unfold Pipeline.poll
  simp only
  rw [if_pos h]
  rfl

theorem poll_fatal (h : p.queue_failed = false) {script : Script} {e : io.IoError}
    (hs : script.fatal = some e) :
    p.poll script = Turn.retire_failed { p.settled with
      pipe := { p.settled.pipe with queue_failed := true, fatal := some (.Queue e) } } := by
  unfold Pipeline.poll
  simp only
  rw [if_neg (by rw [h]; simp), hs]
  rfl

/-- A poll keeps the books, whether the queue works, fails now or has failed before. -/
theorem poll_delivers (h : Live p ∨ p.queue_failed = true) (script : Script) :
    p.turn.Delivers (p.poll script) := by
  rcases h with hl | hf
  · cases hs : script.fatal with
    | none => exact (poll_follows hl hs).delivers
    | some =>
      rw [poll_fatal hl.healthy hs]
      refine (settled_follows hl).delivers.trans ?_
      refine Turn.Delivers.trans ?_ (retire_failed_delivers _)
      exact .refl rfl (.aside rfl rfl rfl rfl rfl (.same rfl rfl rfl rfl))
  · rw [poll_failed hf]
    exact retire_failed_delivers _

end moat_engine.pipeline
