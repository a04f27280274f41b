-- Calls and polls as sequences of steps. After a fatal queue failure the
-- pipeline only reports its operations failed.
import Moat.PipelineLive

namespace moat_engine.pipeline

open byte_list moat_common List
open moat_engine.io (Operation Queue Request Script)

/-! ## Calls -/

variable {p p' : Pipeline} {buffer : Bytes} {t t' : Turn}

theorem take_slot_eq {s : Nat} {rest : List Nat} (h : p.free = s :: rest)
    (q : Pending) : p.take_slot q = (s, p.placed s rest q) := by
  unfold Pipeline.take_slot
  rw [h]
  rfl

theorem submit_eq (h : p.queue.accepted.length < p.queue.depth) (slot : Nat)
    (operation : Operation) (offset len : Nat) (buffer : Option Bytes) :
    p.submit slot operation offset len buffer =
      { p with queue := p.queue.push ⟨slot, operation, offset, len, buffer⟩ } := by
  unfold Pipeline.submit
  rw [Queue.try_submit_eq h]

theorem vacant_ne {queue : Queue} (h : queue.vacant ≠ 0) : queue.accepted.length < queue.depth := by
  unfold Queue.vacant at h
  omega

theorem launch_eq {s : Nat} {rest : List Nat} {f : Prepared} (hf : p.free = s :: rest)
    (hv : p.queue.accepted.length < p.queue.depth) : p.launch f = p.launched s rest f := by
  have htake := take_slot_eq (p := { p with
    segment := some f.segment
    pending_entries := p.pending_entries + f.write.entries.length
    pending_new := p.pending_new + f.write.reserved_new }) hf (.Write f.write)
  unfold Pipeline.launch
  simp only
  rw [htake]
  exact submit_eq (p := { p.placed s rest (.Write f.write) with
    segment := some f.segment
    pending_entries := p.pending_entries + f.write.entries.length
    pending_new := p.pending_new + f.write.reserved_new
    writes := p.writes ++ [s] }) hv s .Write f.offset f.len (some f.buffer)

theorem submit_frame_does {encode : Encode} {t : Nat}
    (h : p.submit_frame buffer encode = .ok (t, p')) :
    ∃ f, p.prepare buffer encode = .ok f ∧ f.write.ticket = t ∧ Does p (.launched f) p' := by
  unfold Pipeline.submit_frame at h
  split at h
  · cases h
  rename_i f hp
  cases h
  refine ⟨f, hp, rfl, ?_⟩
  obtain ⟨ha, -⟩ := prepare_admission hp
  obtain ⟨-, -, hfree, hv, -⟩ := admission_ok ha
  obtain ⟨s, rest, hf⟩ := exists_cons_of_ne_nil hfree
  rw [launch_eq hf (vacant_ne hv)]
  exact Does.launch hp hf

theorem write_does {frame : frame.FrameBuilder} {t : Nat} (h : p.write frame buffer = .ok (t, p')) :
    ∃ f, p.prepare buffer (encode_frame frame) = .ok f ∧ f.write.ticket = t ∧
      Does p (.launched f) p' := by
  unfold Pipeline.write at h
  split at h
  · cases h
  · exact submit_frame_does h

theorem write_prepared_does {key : ChunkId} {lsn : UInt64} {value_len t : Nat}
    (h : p.write_prepared key lsn value_len buffer = .ok (t, p')) :
    ∃ required f, frame.PreparedFrame.required_len p.limits value_len = .ok required ∧
      p.prepare buffer (encode_prepared key lsn value_len required) = .ok f ∧ f.write.ticket = t ∧
      Does p (.launched f) p' := by
  unfold Pipeline.write_prepared at h
  split at h
  · cases h
  rename_i required hreq
  split at h
  · cases h
  obtain ⟨f, h1, h2, h3⟩ := submit_frame_does h
  exact ⟨required, f, hreq, h1, h2, h3⟩

theorem flush_does {t : Nat} (h : p.flush = .ok (t, p'))
    (hc : p.control = none) (hi : p.control_active = false) : Does p (.flush_begun t) p' := by
  unfold Pipeline.flush at h
  split at h
  · cases h
  rename_i ticket ha
  obtain ⟨rfl, -, hfree, -, -⟩ := admission_ok ha
  obtain ⟨s, rest, hf⟩ := exists_cons_of_ne_nil hfree
  split at h
  · cases h
  rename_i hx
  split at h
  · cases h
  rename_i hn
  rw [take_slot_eq hf] at h
  cases h
  exact Does.flush ha hx (by cases hs : p.flush_slot <;> simp_all) hc hi hf

theorem read_does {key : ChunkId} {range : Range} {verify : Bool} {buffers : ReadBuffers} {t : Nat}
    (h : p.read key range verify buffers = .ok (t, p')) : Does p (.read_begun t) p' := by
  unfold Pipeline.read at h
  split at h
  · unfold Pipeline.read_verified at h
    split at h
    · cases h
    rename_i ticket ha
    obtain ⟨rfl, -, hfree, hv, -⟩ := admission_ok ha
    obtain ⟨s, rest, hf⟩ := exists_cons_of_ne_nil hfree
    split at h
    · cases h
    rename_i read hr
    simp only at h
    split at h
    · cases h
    rename_i h1
    split at h
    · cases h
    rename_i h2
    rw [take_slot_eq hf] at h
    simp only at h
    rw [submit_eq (show (Pipeline.placed _ _ _ _).queue.accepted.length < _ from vacant_ne hv)] at h
    cases h
    exact Does.read_verified ha hr (by omega) (by omega) hf
  · unfold Pipeline.read_direct at h
    split at h
    · cases h
    rename_i ticket ha
    obtain ⟨rfl, -, hfree, hv, -⟩ := admission_ok ha
    obtain ⟨s, rest, hf⟩ := exists_cons_of_ne_nil hfree
    split at h
    · cases h
    rename_i extent he
    split at h
    · cases h
    rename_i h1
    split at h
    · rename_i h0
      rw [take_slot_eq hf] at h
      cases h
      exact Does.read_empty ha he h0 hf
    · rename_i h0
      simp only at h
      rw [take_slot_eq hf] at h
      simp only at h
      rw [submit_eq (show (Pipeline.placed _ _ _ _).queue.accepted.length < _ from
        vacant_ne hv)] at h
      cases h
      exact Does.read_direct ha he (by omega) h0 hf

/-! ## Turns -/

/-- The steps that a call takes. The others belong to a poll. -/
def Act.admits : Act → Bool
  | .launched _ => true
  | .flush_begun _ => true
  | .read_begun _ => true
  | _ => false

/-- `t'` is `t` after some steps of a poll, with what they delivered and which tickets failed. -/
def Turn.Follows (t t' : Turn) : Prop :=
  ∃ acts, Runs t.pipe acts t'.pipe ∧ t'.out = t.out ++ acts.flatMap Act.out ∧
    t'.failed = t.failed ++ acts.flatMap Act.failed ∧ ∀ a ∈ acts, a.admits = false

theorem Turn.Follows.refl (h1 : t'.pipe = t.pipe) (h2 : t'.out = t.out)
    (h3 : t'.failed = t.failed) : t.Follows t' :=
  ⟨[], h1 ▸ .nil _, by simp [h2], by simp [h3], by simp⟩

theorem Turn.Follows.trans {a b c : Turn} (h : a.Follows b) (k : b.Follows c) : a.Follows c := by
  obtain ⟨as, h1, h2, h3, h4⟩ := h
  obtain ⟨bs, k1, k2, k3, k4⟩ := k
  refine ⟨as ++ bs, h1.append k1, by simp [k2, h2], by simp [k3, h3], ?_⟩
  intro a ha
  rcases mem_append.mp ha with ha | ha
  · exact h4 a ha
  · exact k4 a ha

theorem Turn.Follows.one {a : Act} (h : Does t.pipe a t'.pipe) (h2 : t'.out = t.out ++ a.out)
    (h3 : t'.failed = t.failed ++ a.failed) (h4 : a.admits = false) : t.Follows t' :=
  ⟨[a], .one h, by simp [h2], by simp [h3], by simpa using h4⟩

theorem Turn.Follows.live (h : t.Follows t') (hl : Live t.pipe) : Live t'.pipe := by
  obtain ⟨acts, hr, -⟩ := h
  exact hr.induct (fun hp hd => hd.live hp) hl

theorem retire_write_follows (h : t.retire_write = some t') : t.Follows t' := by
  unfold Turn.retire_write at h
  split at h
  · cases h
  rename_i slot rest hw
  split at h
  · rename_i w hs
    split at h
    · cases h
    rename_i result buffer hc
    cases h
    exact .one (Does.retire hw hs hc) rfl (by simp [Act.failed]) rfl
  · cases h

theorem retire_loop_follows (fuel : Nat) (t : Turn) : t.Follows (Turn.retire_loop fuel t) :=
  Turn.retire_loop_induct (P := t.Follows) (fun h hs => h.trans (retire_write_follows hs)) fuel
    (.refl rfl rfl rfl)

theorem empty_read_follows (hl : Live t.pipe) (h : t.empty_read = some t') : t.Follows t' := by
  unfold Turn.empty_read at h
  split at h
  · cases h
  rename_i slot rest hr
  obtain ⟨ticket, buffers, hs⟩ := hl.empty_slot (s := slot) (by rw [hr]; exact mem_cons_self)
  rw [hs] at h
  cases h
  exact .one (Does.empty_read hr hs) rfl (by simp [Act.failed]) rfl

theorem empty_reads_follows (fuel : Nat) (t : Turn) (hl : Live t.pipe) :
    t.Follows (Turn.empty_reads fuel t) :=
  Turn.empty_reads_induct (P := t.Follows)
    (fun h hs => h.trans (empty_read_follows (h.live hl) hs)) fuel (.refl rfl rfl rfl)

theorem start_flush_follows (hl : Live t.pipe) : t.Follows t.start_flush := by
  unfold Turn.start_flush
  split
  · exact .refl rfl rfl rfl
  rename_i slot hf
  split
  · exact .refl rfl rfl rfl
  rename_i hw
  rw [not_not] at hw
  split
  · rename_i ticket submitted hs
    split
    · exact .refl rfl rfl rfl
    rename_i hsub
    obtain rfl : submitted = false := by simpa using hsub
    split
    · rename_i failed hx
      exact .one (Does.flush_failed hf hw hs hx) rfl (by simp [Act.failed]) rfl
    · rename_i hx
      split
      · rename_i hm
        exact .one (Does.flush_fence hf hw hs hx hm) rfl (by simp [Act.failed]) rfl
      · rename_i hm
        have hsubmit := submit_eq (p := { t.pipe with
          slots := t.pipe.slots.set slot (some (.Flush ticket true)) }) (hl.room_for_sync hf hs)
            slot .Sync 0 0 none
        simp only
        rw [hsubmit]
        exact .one (Does.submit_sync hf hw hs hx (by simpa using hm)) (by simp [Act.out])
          (by simp [Act.failed]) rfl
  · rename_i hs
    obtain ⟨ticket, submitted, hs'⟩ := hl.flush_pending hf
    exact absurd hs' (hs ticket submitted)

theorem start_control_follows (t : Turn) : t.Follows t.start_control := by
  unfold Turn.start_control Pipeline.start_control
  split
  · exact .refl rfl rfl rfl
  split
  · exact .refl rfl rfl rfl
  rename_i request hc
  by_cases hv : t.pipe.queue.accepted.length < t.pipe.queue.depth
  · rw [Queue.try_submit_eq hv]
    exact .one (Does.control_submit hc hv) (by simp [Act.out]) (by simp [Act.failed]) rfl
  · rw [Queue.try_submit_full (by omega)]
    exact .refl rfl rfl rfl

theorem settle_follows (hl : Live t.pipe) : t.Follows t.settle := by
  have h1 := retire_loop_follows t.pipe.writes.length t
  have h2 := start_flush_follows (h1.live hl)
  exact (h1.trans h2).trans (start_control_follows _)

theorem complete_verified {c : io.Completion} {read : VerifiedRead}
    {r : VerifiedRead × Except Error (Option ReadRange)}
    (hs : p.slot c.request.token = some (.VerifiedRead read))
    (hr : p.advance_read (read.returned c.request.buffer) read.metadata.isNone
      (transfer_result c) = r) : p.complete c = .ok (p.finish_read c.request.token r) := by
  unfold Pipeline.complete
  simp only
  rw [hs]
  simp only
  rw [hr]

theorem transfer_result_isOk (c : io.Completion) :
    (transfer_result c).isOk = io.fullTransfer c.result c.request.len := by
  unfold transfer_result io.fullTransfer
  cases c.result with
  | error => rfl
  | ok actual => by_cases h : actual = c.request.len <;> simp [h, Except.isOk, Except.toBool]

theorem unfinished_eq {c : io.Completion} {q : Pending} (hs : p.slot c.request.token = some q) :
    p.unfinished c = if (transfer_result c).isOk then [] else
      match q with
      | .Write w => [w.ticket]
      | .Flush ticket _ => [ticket]
      | _ => [] := by
  unfold Pipeline.unfinished
  rw [transfer_result_isOk, hs]
  cases q <;> rfl

/-- A completion of a live pipeline finds its operation, so popping never fails. -/
theorem pop_follows (hl : Live t.pipe) (choice : io.Pop) : t.Follows (t.pop choice).1 := by
  unfold Turn.pop
  rcases t.pipe.queue.pop_cases choice with hq | ⟨serial, request, hq, hpop⟩
  · rw [hq]
    exact .refl rfl rfl rfl
  rw [hpop]
  simp only
  by_cases hk : request.token = CONTROL_TOKEN
  · rw [if_pos (show (choice.completion request).request.token = CONTROL_TOKEN from hk)]
    exact .one (Does.control_done hq hk) (by simp [Act.out]) (by simp [Act.failed]) rfl
  rw [if_neg (show ¬ (choice.completion request).request.token = CONTROL_TOKEN from hk)]
  obtain ⟨q, hs, hcar⟩ := hl.carried _ (mem_of_getElem? hq) hk
  have hun :=
    unfinished_eq (p := { t.pipe with queue := t.pipe.queue.popped choice serial request })
    (c := choice.completion request) hs
  cases q with
  | VerifiedRead read =>
    obtain ⟨read', result, hadv⟩ : ∃ read' result, t.pipe.advance_read
        (read.returned (choice.completion request).request.buffer) read.metadata.isNone
        (transfer_result (choice.completion request)) = (read', result) := ⟨_, _, rfl⟩
    rw [complete_verified (p := { t.pipe with queue := t.pipe.queue.popped choice serial request })
      (c := choice.completion request) hs hadv]
    rcases result with e | range | _
    · simp only [Pipeline.finish_read]
      exact .one (a := .read_done read'.ticket (.error e) read'.buffers)
        (Does.verified_done (r := .error e) hq hk hs hadv rfl) rfl
        (by simp [Act.failed, hun]) rfl
    · have hroom : (t.pipe.queue.popped choice serial request).accepted.length <
          t.pipe.queue.depth := by
        have := popped_length hq
        have := hl.accepted_le
        omega
      have hsubmit := submit_eq (p := { t.pipe with
        slots := t.pipe.slots.set request.token (some (.VerifiedRead { read' with value := none }))
        queue := t.pipe.queue.popped choice serial request }) hroom request.token .Read
          read'.io_offset read'.io_len read'.value
      simp only [Pipeline.finish_read]
      refine .one (a := .read_continued) ?_ (by simp [Act.out]) (by simp [Act.failed, hun]) rfl
      rw [show (choice.completion request).request.token = request.token from rfl, hsubmit]
      exact Does.verified_more hq hk hs hadv rfl
    · rename_i range
      simp only [Pipeline.finish_read]
      exact .one (a := .read_done read'.ticket (.ok range) read'.buffers)
        (Does.verified_done (r := .ok range) hq hk hs hadv rfl) rfl (by simp [Act.failed, hun]) rfl
  | EmptyRead => cases hcar
  | Read read =>
    unfold Pipeline.complete
    simp only
    rw [show Pipeline.slot { t.pipe with queue := t.pipe.queue.popped choice serial request }
      (choice.completion request).request.token = some (.Read read) from hs]
    exact .one (a := .read_done read.ticket _ _) (Does.direct_done hq hk hs rfl) rfl
      (by simp [Act.failed, hun]) rfl
  | Write w =>
    unfold Pipeline.complete
    simp only
    rw [show Pipeline.slot { t.pipe with queue := t.pipe.queue.popped choice serial request }
      (choice.completion request).request.token = some (.Write w) from hs]
    exact .one (a := .write_done w.ticket _) (Does.write_done hq hk hs rfl) (by simp [Act.out])
      (by simp [Act.failed, hun]) rfl
  | Flush ticket submitted =>
    unfold Pipeline.complete
    simp only
    rw [show Pipeline.slot { t.pipe with queue := t.pipe.queue.popped choice serial request }
      (choice.completion request).request.token = some (.Flush ticket submitted) from hs]
    exact .one (a := .sync_done ticket _) (Does.sync_done hq hk hs rfl) rfl
      (by simp [Act.failed, hun]) rfl

theorem pops_follows (pops : List io.Pop) (t : Turn) (hl : Live t.pipe) :
    t.Follows (Turn.pops pops t) :=
  Turn.pops_induct (P := t.Follows) (fun choice h => h.trans (pop_follows (h.live hl) choice)) pops
    (.refl rfl rfl rfl)

/-- The turn in which a poll begins. -/
def Pipeline.turn (p : Pipeline) : Turn := ⟨p, [], .zero, []⟩

/-- A poll without a fatal failure is a sequence of steps. -/
theorem poll_follows (hl : Live p) {script : Script} (hs : script.fatal = none) :
    p.turn.Follows (p.poll script) := by
  have h1 : p.turn.Follows p.turn.settle := settle_follows hl
  have h2 := h1.trans
    (empty_reads_follows p.turn.settle.pipe.ready_reads.length p.turn.settle (h1.live hl))
  have h3 := h2.trans (pops_follows script.pops _ (h2.live hl))
  unfold Pipeline.poll
  simp only
  rw [if_neg (by rw [hl.healthy]; simp), hs]
  simp only
  rw [if_neg]
  · exact h3.trans (settle_follows (h3.live hl))
  · have := (h3.live hl).healthy
    unfold Pipeline.turn at this
    rw [this]
    simp

end moat_engine.pipeline
