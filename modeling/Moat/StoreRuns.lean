-- The rest of a worker's turn: completions and fences keep the invariant, no
-- assertion fails, and the end of the loop answers whoever still waits.
import Moat.StoreOrder

namespace moat_cache_store

open moat_common moat_server List Function Option
open moat_server.storage (Version Session Versions view)

/-! ## Completions -/

variable {w : Worker} {id : ChunkId} {init : Versions} {gone : Nat → Prop} {top x : Nat} {o : Reply}

theorem complete_eq {op : Operation} {pending : List Operation}
    (h : w.chains.lookup id = some ⟨some op, pending⟩) :
    w.complete id = some (op, { w with
      chains := if pending = [] then w.chains.erase id else w.chains.insert id ⟨none, pending⟩
      ready := if pending = [] then w.ready else w.ready ++ [id] }) := by
  unfold Worker.complete
  rw [h]

/-- What `answer_active` does: the active operation of the chain gets its replies. -/
theorem answer_active_spec {w' : Worker} {reply : Operation → Option Outcome}
    {result : Except Error Unit} (hw : w.answer_active id reply = some (result, w')) :
    ∃ op pending out, w.chains.lookup id = some ⟨some op, pending⟩ ∧ reply op = some out ∧
      w' = Worker.send { w with
        chains := if pending = [] then w.chains.erase id else w.chains.insert id ⟨none, pending⟩
        ready := if pending = [] then w.ready else w.ready ++ [id] } out := by
  unfold Worker.answer_active Worker.complete at hw
  split at hw
  · cases hw
  rename_i op w1 hcomp
  split at hcomp
  · rename_i op' pending hl
    cases hcomp
    obtain ⟨out, hr, hw⟩ := map_eq_some_iff.mp hw
    cases hw
    exact ⟨op, pending, out, hl, hr, rfl⟩
  · cases hcomp

/-- The active operation of `id` ends with one reply for all its callers. The session and the tables
are those after its flight has ended. -/
theorem Inv.end_operation (h : Inv init gone top w) {op : Operation} (ha : w.active id = some op)
    (ho : o ≠ .Canceled) (hfair : ∀ r, o.Fair gone r) {session : Session}
    {reads : AList (fun _ : Nat => ChunkId)}
    {writes : AList (fun _ : Nat => ChunkId × Nat)}
    (hf : Flights session reads writes w.fence_ticket (update w.active id none))
    (hx : Sequence (w.session.index.lookup id) ((op.orders id).map (fun c => (c, o)))
      (session.index.lookup id)) (hi : ∀ i ≠ id, session.index.lookup i = w.session.index.lookup i)
    (write_error : Option Error) (reply : Operation → Option Outcome)
    (hr : reply op = some (.each op.channels o)) :
    ∃ w', ({ w with session, reads, writes, write_error } : Worker).answer_active id reply =
        some (.ok (), w') ∧ w'.session = session ∧ Inv init gone top w' := by
  obtain ⟨pending, hc⟩ : ∃ pending, w.chains.lookup id = some ⟨some op, pending⟩ := by
    unfold Worker.active Worker.chain at ha
    cases hl : w.chains.lookup id with
    | none => rw [hl] at ha; cases ha
    | some c =>
      rw [hl] at ha
      obtain ⟨active, pending⟩ := c
      exact ⟨pending, by rw [show active = some op from ha]⟩
  have hchain : w.chain id = ⟨some op, pending⟩ := by rw [Worker.chain, hc]; rfl
  have hcomplete := complete_eq (w := { w with session, reads, writes, write_error }) hc
  refine ⟨_, by unfold Worker.answer_active; rw [hcomplete]; simp only [hr, map_some]; rfl,
    rfl, ?_⟩
  have look : ∀ i, chainIn (if pending = [] then w.chains.erase id
      else w.chains.insert id ⟨none, pending⟩) i = if i = id then ⟨none, pending⟩ else
        w.chain i := by
    intro i
    split
    · rename_i hp
      rw [chainIn_erase, hp]
      rfl
    · rw [chainIn_insert]
      rfl
  obtain ⟨done, hl⟩ := h.lanes id
  rw [hchain] at hl
  have hnr : id ∉ w.ready := by
    intro hm
    obtain ⟨c, hc', hn⟩ := (h.queued.mem_ready id).mp hm
    rw [hc] at hc'
    cases hc'
    cases hn
  have hheld := h.books.chains id
  rw [← Worker.chain_eq, hchain] at hheld
  refine h.settle (op.channels.map (fun r => (r, o))) hl (by rw [map_fst_pair]; rfl) look
    (fun x hx => ?_) (fun x => ?_)
    ⟨fun op' hop => hheld.each op' (mem_append_right _ hop), fun _ _ _ hn => by cases hn⟩
    ⟨_, hl.answer ho hx⟩ hi ?_ hf
  · obtain ⟨r, hr, rfl⟩ := mem_map.mp hx
    exact ⟨hr, hfair r, fun hn => absurd hn ho⟩
  · have hins := total_insert_chain w.chains id (fun c : Chain => c.channels.count x) rfl
      ⟨none, pending⟩
    have her := total_erase_chain w.chains id (fun c : Chain => c.channels.count x) rfl
    rw [← Worker.chain_eq, hchain] at hins her
    simp only [Worker.chained, Worker.send, map_fst_pair, Chain.channels, Chain.operations,
      toList_some, toList_none, nil_append, flatMap_append, flatMap_singleton, count_append]
      at hins her ⊢
    split
    · rename_i hp
      rw [hp, flatMap_nil, count_nil] at her
      omega
    · omega
  · refine h.queued.set id ?_ ?_ ?_ ?_ ?_
    · intro i hi'
      simp only [Worker.send]
      split
      · exact AList.lookup_erase_ne hi'
      · exact AList.lookup_insert_ne hi'
    · intro c hlook
      simp only [Worker.send] at hlook
      split at hlook
      · rw [AList.lookup_erase] at hlook; cases hlook
      · rename_i hp
        rw [AList.lookup_insert] at hlook
        cases hlook
        exact hp
    · simp only [Worker.send]
      split
      · exact h.queued.nodup
      · exact nodup_push h.queued.nodup hnr
    · intro i hi'
      simp only [Worker.send]
      split <;> simp [hi']
    · simp only [Worker.send]
      split
      · rw [AList.lookup_erase]
        simp [hnr]
      · rw [AList.lookup_insert]
        simp

/-- A reply to a fence touches no lane. -/
theorem Inv.fence_reply (h : Inv init gone top w) {f : Fence} (hf : w.fence = some f)
    (hch : f.reply.channels = [x]) (hp : f.reply.permits = [x]) (ho : o ≠ .Canceled)
    (hfair : o.Fair gone x) {session : Session} (hi : session.index = w.session.index)
    (hfl : Flights session w.reads w.writes none w.active) (write_error : Option Error) :
    Inv init gone top (({ w with session, write_error, fence := none } : Worker).send
      ⟨dropped f.permit, [(x, o)]⟩) := by
  refine ⟨fun i => ?_, h.queued, h.books.answer_fence hf hch hp hfair ho session write_error, hfl,
    nofun⟩
  obtain ⟨done, hl⟩ := h.lanes i
  refine ⟨done, ?_⟩
  simp only [Worker.send, hi]
  refine hl.send_other (fun c hc hci => ?_)
  refine h.books.channels.other_lane (P := fun c => c.chunk = none) (fun y hy => .inl ?_) c hc ?_
  · rw [mem_singleton.mp hy]
    exact ⟨_, h.books.channels.fence_sub f hf (by rw [hch]; exact cons_ne_nil x []), rfl,
      by rw [Order.channels, hch]; exact mem_singleton_self x⟩
  · rw [hci]
    exact fun he => by cases he

/-- A flush is over, with some result. -/
theorem Inv.end_flush (h : Inv init gone top w) {r : Nat} {permit : Option Permit}
    {ticket : Option Nat} (hf : w.fence = some ⟨.Flush r, permit, ticket⟩) (session : Session)
    (hi : session.index = w.session.index) (hfl : Flights session w.reads w.writes none w.active)
    (write_error : Option Error) (result : Except Error Unit) :
    ∃ w', ({ w with session, write_error } : Worker).finish_fence result = some (.ok (), w') ∧
      w'.session = session ∧ Inv init gone top w' := by
  refine ⟨_, by unfold Worker.finish_fence; simp only [hf]; rfl, rfl, ?_⟩
  exact h.fence_reply hf rfl rfl (o := .Flush _) (by simp) trivial hi hfl none

/-- The fence of a flush that is in flight. -/
theorem Inv.flush_fence (h : Inv init gone top w) {t : Nat} (ht : w.fence_ticket = some t) :
    ∃ r permit, w.fence = some ⟨.Flush r, permit, some t⟩ := by
  unfold Worker.fence_ticket at ht
  obtain ⟨f, hf, hft⟩ := bind_eq_some_iff.mp ht
  obtain ⟨r, hr⟩ := h.fence_flush f hf (by rw [hft]; simp)
  exact ⟨r, f.permit, by rw [hf]; cases f; simp_all⟩

section Landing

variable {t : Nat} (h : Inv init gone top w)
include h

/-- The flights after that of a read or a write has ended. Its chain has no active operation any
more, and only its chunk may have a new version. -/
theorem Inv.landed {f : storage.Flight}
    (hf : w.session.flights.lookup t = some f) (hff : f ≠ .flush)
    (hid : w.reads.lookup t = some id ∨ ∃ l, w.writes.lookup t = some (id, l)) (index : Versions)
    (hlsn : ∀ i v, index.lookup i = some v → v.lsn < w.session.next_lsn)
    (hi : ∀ i ≠ id, index.lookup i = w.session.index.lookup i)
    {reads : AList (fun _ : Nat => ChunkId)} {writes : AList (fun _ : Nat => ChunkId × Nat)}
    (hr : reads.lookup t = none) (hro : ∀ t' ≠ t, reads.lookup t' = w.reads.lookup t')
    (hw : writes.lookup t = none) (hwo : ∀ t' ≠ t, writes.lookup t' = w.writes.lookup t') :
    Flights (w.session.retire t index) reads writes w.fence_ticket
      (update w.active id none) := by
  refine h.flights.land hr hro hw hwo ?_ (fun _ _ => Iff.rfl) hlsn ?_
  · intro hft
    rw [h.flights.fence_sub t hft] at hf
    exact hff (some.inj hf).symm
  · intro i hn
    have hne : i ≠ id := fun he => hn (he ▸ hid)
    exact ⟨hi i hne, update_of_ne hne _ _⟩

/-- A read completes: each of its callers gets the bytes of the version that the chunk has, or
the error. -/
theorem Inv.read_done {bytes : Bytes} (hf : w.session.flights.lookup t = some (.read bytes))
    (result : Except moat_engine.pipeline.Error Unit) :
    ∃ w', ({ w with session := w.session.retire t w.session.index } : Worker).handle
        (.Read t (result.map (fun _ => bytes))) = some (.ok (), w') ∧
      w'.session = w.session.retire t w.session.index ∧ Inv init gone top w' := by
  cases h.flights.stands t _ hf with
  | @read id range lsn waiters value hr hw ha hv =>
    have hfl := h.landed hf (by simp) (.inl hr) w.session.index h.flights.index_lsn (fun _ _ => rfl)
      (AList.lookup_erase t w.reads) (fun t' ht' => AList.lookup_erase_ne ht') hw (fun _ _ => rfl)
    have hheld := (h.books.chains id).active ha
    obtain ⟨o, ho, hfair, hd, hx⟩ : ∃ o : Reply, o ≠ .Canceled ∧ (∀ r, o.Fair gone r) ∧
        (Operation.Read range lsn waiters).read_done
          (((result.map (fun _ => view value range)).mapError
            (fun e => Error.Engine (.Engine (.Pipeline e)))).map
              (fun bytes => (bytes, w.pool.buf_len t))) =
            some (.each (waiters.map Waiter.reply) o) ∧
        ∀ r, Executes (w.session.index.lookup id) (.Read id range r) o
          (w.session.index.lookup id) := by
      cases result with
      | error e =>
        exact ⟨.Read (.error _), by simp, fun _ => trivial,
          congrArg some (answer_all_eq hheld.2 _), fun r => .read_failed⟩
      | ok =>
        obtain ⟨p, hp, hd⟩ := read_done_each hheld ((h.books.chains id).covers range lsn waiters ha)
          (w.pool.le_class t) (view value range)
        rw [hv]
        exact ⟨.Read (.ok (some ⟨view value range, lsn, p⟩)), by simp, fun _ => hp, hd,
          fun r => .hit⟩
    obtain ⟨w', hc, hs, hinv⟩ := h.end_operation ha ho hfair hfl (Sequence.same (fun c hc => by
      obtain ⟨x, -, rfl⟩ := mem_map.mp hc
      exact hx x)) (fun _ _ => rfl) w.write_error (fun op => op.read_done _) hd
    refine ⟨w', ?_, hs, hinv⟩
    unfold Worker.handle
    simp only [hr]
    exact hc

/-- A write completes: it is published and answered with its LSN, or neither. -/
theorem Inv.write_done {v : Version} (hf : w.session.flights.lookup t = some (.write id v))
    (result : Except moat_engine.pipeline.Error Unit) :
    ∃ w', ({ w with
        session := w.session.retire t ((storage.Flight.write id v).land w.session.index result) }
          : Worker).handle (.Write t result) = some (.ok (), w') ∧
      w'.session = w.session.retire t ((storage.Flight.write id v).land w.session.index result) ∧
      Inv init gone top w' := by
  cases h.flights.stands t _ hf with
  | write hr hw hnew ha =>
    obtain ⟨op, hop⟩ := ha.operation
    rw [hop] at ha
    cases result with
    | error e =>
      set err := Error.Engine (.Engine (.Pipeline e)) with herr
      have hfl := h.landed hf (by simp) (.inr ⟨_, hw⟩) w.session.index h.flights.index_lsn
        (fun _ _ => rfl) hr
        (fun _ _ => rfl) (AList.lookup_erase t w.writes) (fun t' ht' => AList.lookup_erase_ne ht')
      have hd : op.write_done (.error err) = some (.each op.channels (op.failure err)) := by
        have hheld := (h.books.chains id).active hop
        cases ha <;> exact congrArg some (congrArg (Outcome.mk · _) hheld.drop)
      obtain ⟨w', hc, hs, hinv⟩ := h.end_operation hop (op.failure_ne err)
        (op.failure_fair err gone) hfl
        (op.failure_sequence id err _) (fun _ _ => rfl) (some (w.write_error.getD err))
        (fun op => op.write_done (.error err)) hd
      refine ⟨w', ?_, hs, hinv⟩
      unfold Worker.handle
      simp only [hw]
      exact hc
    | ok =>
      have look := lookup_publish w.session.index id v hnew
      have hfl := h.landed hf (by simp) (.inr ⟨_, hw⟩) (w.session.index.publish id v)
        (fun i v' hv' => by
          rw [look] at hv'
          split at hv'
          · cases hv'
            exact h.flights.flight_lsn t id v hf
          · exact h.flights.index_lsn i v' hv')
        (fun i hi => by rw [look, if_neg hi]) hr
        (fun _ _ => rfl) (AList.lookup_erase t w.writes) (fun t' ht' => AList.lookup_erase_ne ht')
      have hlook : (w.session.index.publish id v).lookup id = some v := by rw [look, if_pos rfl]
      obtain ⟨o, ho, hfair, hd, hx⟩ : ∃ o, o ≠ Reply.Canceled ∧ (∀ r, o.Fair gone r) ∧
          op.write_done (.ok v.lsn) = some (.each op.channels o) ∧
          Sequence (w.session.index.lookup id) ((op.orders id).map (fun c => (c, o)))
            ((w.session.index.publish id v).lookup id) := by
        have hheld := (h.books.chains id).active hop
        obtain ⟨lsn, value⟩ := v
        rw [hlook]
        cases ha with
        | put hv =>
          cases hv
          exact ⟨.Put _, by simp, fun _ => trivial,
            congrArg some (congrArg (Outcome.mk · _) hheld.drop), .cons (.put hnew) .nil⟩
        | delete hv he hx =>
          cases hv
          rw [he] at hnew ⊢
          exact ⟨.Delete _, by simp, fun _ => trivial,
            congrArg some (congrArg (Outcome.mk · _) hheld.drop),
            .cons (.deleted hx (hnew _ rfl)) .nil⟩
      obtain ⟨w', hc, hs, hinv⟩ := h.end_operation hop ho hfair hfl hx
        (fun i hi => (look i).trans (if_neg hi)) w.write_error
        (fun op => op.write_done (.ok v.lsn)) hd
      refine ⟨w', ?_, hs, hinv⟩
      unfold Worker.handle
      simp only [hw]
      exact hc

/-- A flush completes: its caller gets the result, or an error kept from an earlier write. -/
theorem Inv.flush_done (hf : w.session.flights.lookup t = some .flush)
    (result : Except Error Unit) (write_error : Option Error) :
    w.fence_ticket = some t ∧
    ∃ w', ({ w with session := w.session.retire t w.session.index, write_error } :
      Worker).finish_fence
        result = some (.ok (), w') ∧
      w'.session = w.session.retire t w.session.index ∧ Inv init gone top w' := by
  cases h.flights.stands t _ hf with
  | flush hr hw hft =>
    refine ⟨hft, ?_⟩
    obtain ⟨r, permit, hfr⟩ := h.flush_fence hft
    refine h.end_flush hfr (w.session.retire t w.session.index) rfl ?_ write_error result
    refine h.flights.land hr (fun _ _ => rfl) hw (fun _ _ => rfl) (by simp) ?_ h.flights.index_lsn
      (fun _ _ => ⟨rfl, rfl⟩)
    intro t' ht'
    rw [hft]
    simp [Ne.symm ht']

/-- The queue has failed: whatever the ticket was for ends with that error. -/
theorem Inv.failed {f : storage.Flight}
    (hf : w.session.flights.lookup t = some f) (error : moat_engine.pipeline.Error) :
    ∃ w', ({ w with session := w.session.retire t w.session.index } : Worker).handle
        (.Failed t error) = some (.ok (), w') ∧
      w'.session = w.session.retire t w.session.index ∧ Inv init gone top w' := by
  set err := Error.Engine (.Engine (.Aborted error)) with herr
  have done : ∀ id op reads writes, w.active id = some op →
      Flights (w.session.retire t w.session.index) reads writes w.fence_ticket
        (update w.active id none) →
      ∃ w', ({ w with
          session := w.session.retire t w.session.index
          reads := reads
          writes := writes
          write_error := some (w.write_error.getD err) } : Worker).answer_active id
            (fun operation => some (operation.fail err)) = some (.ok (), w') ∧
        w'.session = w.session.retire t w.session.index ∧ Inv init gone top w' := by
    intro id op reads writes hop hfl
    refine h.end_operation hop (op.failure_ne err) (op.failure_fair err gone) hfl
      (op.failure_sequence id err _) (fun _ _ => rfl) _ _ ?_
    rw [Operation.fail_eq ((h.books.chains id).active hop)]
  cases h.flights.stands t f hf with
  | read hr hw ha =>
    obtain ⟨w', hc, hs, hinv⟩ := done _ _ (w.reads.erase t) w.writes ha
      (h.landed hf (by simp) (.inl hr) w.session.index h.flights.index_lsn (fun _ _ => rfl)
        (AList.lookup_erase t w.reads) (fun t' ht' => AList.lookup_erase_ne ht') hw
        (fun _ _ => rfl))
    refine ⟨w', ?_, hs, hinv⟩
    unfold Worker.handle
    simp only [Worker.keep_error, hr]
    exact hc
  | write hr hw _ ha =>
    obtain ⟨op, hop⟩ := ha.operation
    obtain ⟨w', hc, hs, hinv⟩ := done _ _ w.reads (w.writes.erase t) hop
      (h.landed hf (by simp) (.inr ⟨_, hw⟩) w.session.index h.flights.index_lsn (fun _ _ => rfl)
        hr (fun _ _ => rfl) (AList.lookup_erase t w.writes)
        (fun t' ht' => AList.lookup_erase_ne ht'))
    refine ⟨w', ?_, hs, hinv⟩
    unfold Worker.handle
    simp only [Worker.keep_error, hr, hw]
    exact hc
  | flush hr hw hft =>
    obtain ⟨hft, w', hc, hs, hinv⟩ := h.flush_done hf (.error err)
      (some (w.write_error.getD err))
    refine ⟨w', ?_, hs, hinv⟩
    unfold Worker.handle
    simp only [Worker.keep_error, hr, hw]
    exact (if_pos (show _ = some t from hft)).trans hc

/-- One event of the session, and its completion: no assertion fails, and every reply that is due
goes out. -/
theorem Inv.event {e : storage.Event} {c : storage.Completion} {s' : Session}
    (he : w.session.happen e = some (c, s')) :
    ∃ w', ({ w with session := s' } : Worker).handle c = some (.ok (), w') ∧ w'.session = s' ∧
      Inv init gone top w' := by
  cases e with
  | complete t result =>
    obtain ⟨f, hf, hcs⟩ := map_eq_some_iff.mp he
    cases hcs
    cases f with
    | read => exact h.read_done hf result
    | write => exact h.write_done hf result
    | flush =>
      obtain ⟨hft, w', hc, hs, hinv⟩ := h.flush_done hf
        (result.mapError (fun e => .Engine (.Engine (.Pipeline e)))) w.write_error
      refine ⟨w', ?_, hs, hinv⟩
      unfold Worker.handle storage.Flight.completion
      simp only
      exact (if_pos (show _ = some t from hft)).trans hc
  | fail t error =>
    obtain ⟨f, hf, hcs⟩ := map_eq_some_iff.mp he
    cases hcs
    exact h.failed hf error

end Landing

/-- Handling a completion does not look at the session. -/
theorem handle_session (w : Worker) (s : Session) (c : storage.Completion) :
    ({ w with session := s } : Worker).handle c =
      (w.handle c).map (fun r => (r.1, { r.2 with session := s })) := by
  have complete : ∀ (w : Worker) id, ({ w with session := s } : Worker).complete id =
      (w.complete id).map (fun r => (r.1, { r.2 with session := s })) := by
    intro w id
    unfold Worker.complete
    simp only
    split <;> rfl
  have answer : ∀ (w : Worker) id reply, ({ w with session := s } : Worker).answer_active id reply =
      (w.answer_active id reply).map (fun r => (r.1, { r.2 with session := s })) := by
    intro w id reply
    unfold Worker.answer_active
    rw [complete]
    cases w.complete id with
    | none => rfl
    | some r => simp only [map_some]; cases reply r.1 <;> rfl
  have fence : ∀ (w : Worker) result, ({ w with session := s } : Worker).finish_fence result =
      (w.finish_fence result).map (fun r => (r.1, { r.2 with session := s })) := by
    intro w result
    unfold Worker.finish_fence
    simp only
    split <;> rfl
  cases c with
  | Failed ticket error =>
    unfold Worker.handle
    simp only [Worker.keep_error]
    set err := some (w.write_error.getD (Error.Engine (.Engine (.Aborted error))))
    cases w.reads.lookup ticket with
    | some id =>
      simp only
      exact answer { w with reads := w.reads.erase ticket, write_error := err } id _
    | none =>
      cases w.writes.lookup ticket with
      | some x => exact answer { w with writes := w.writes.erase ticket, write_error := err } x.1 _
      | none =>
        simp only [Worker.fence_ticket]
        by_cases hft : w.fence.bind (·.ticket) = some ticket
        · simp only [hft, if_true]
          exact fence { w with write_error := err } _
        · simp only [hft, if_false]
          rfl
  | Read ticket =>
    unfold Worker.handle
    simp only
    split
    · rfl
    · exact answer { w with reads := w.reads.erase ticket } _ _
  | Write ticket result =>
    unfold Worker.handle
    simp only
    cases w.writes.lookup ticket with
    | none => rfl
    | some x =>
      cases result with
      | error e =>
        exact answer { w with
          writes := w.writes.erase ticket
          write_error := some (w.write_error.getD (.Engine (.Engine (.Pipeline e)))) } x.1 _
      | ok => exact answer { w with writes := w.writes.erase ticket } x.1 _
  | Flush ticket =>
    unfold Worker.handle
    simp only [Worker.fence_ticket]
    by_cases hft : w.fence.bind (·.ticket) = some ticket
    · simp only [hft, if_true]
      exact fence w _
    · simp only [hft, if_false]
      rfl

/-- The first completion of a poll is handled as if the session had not gone on. -/
theorem handle_all_event {w1 : Worker} {e : storage.Event} {c : storage.Completion} {s' : Session}
    (he : w.session.happen e = some (c, s'))
    (h1 : ({ w with session := s' } : Worker).handle c = some (.ok (), w1)) (hs : w1.session = s')
    (es : List storage.Event) :
    ({ w with session := (w.session.poll (e :: es)).2 } : Worker).handle_all
        (w.session.poll (e :: es)).1 =
      ({ w1 with session := (w1.session.poll es).2 } : Worker).handle_all
      (w1.session.poll es).1 := by
  have h2 := handle_session ({ w with session := s' } : Worker) (s'.poll es).2 c
  rw [h1] at h2
  simp only [Session.poll, he]
  rw [Worker.handle_all, show ({ w with session := (s'.poll es).2 } : Worker).handle c = _ from h2,
    hs]
  rfl

section

variable (h : Inv init gone top w)
include h

/-- All completions of a poll: the session has gone on by then, which no handler sees. -/
theorem Inv.handle_all (es : List storage.Event) :
    ∃ w', ({ w with session := (w.session.poll es).2 } : Worker).handle_all (w.session.poll es).1 =
        some (.ok (), w') ∧ Inv init gone top w' := by
  induction es generalizing w with
  | nil => exact ⟨w, rfl, h⟩
  | cons e _ ih =>
    cases he : w.session.happen e with
    | none =>
      simp only [Session.poll, he]
      exact ih h
    | some x =>
      obtain ⟨c, s'⟩ := x
      obtain ⟨w1, h1, hs, hinv⟩ := h.event he
      rw [handle_all_event he h1 hs]
      exact ih hinv

/-! ## A turn -/

theorem Inv.disconnected (hf : w.fence = none) (hcl : w.closing = false) :
    Inv init gone top w.disconnected := by
  have hft : w.fence_ticket = none := by rw [Worker.fence_ticket, hf]; rfl
  have flights := h.flights
  rw [hft] at flights
  refine ⟨h.lanes, h.queued, h.books.disconnected hf hcl, flights, ?_⟩
  rintro f ⟨⟩ ht
  exact absurd rfl ht

theorem Inv.receive (hf : w.fence = none) (hcl : w.closing = false) (n : Nat) :
    ∃ received w', w.receive n = some (received, w') ∧ Inv init gone top w' := by
  induction n generalizing w with
  | zero => exact ⟨_, w, rfl, h⟩
  | succ n ih =>
    unfold Worker.receive
    cases hr : w.receiver with
    | nil =>
      refine ⟨_, _, rfl, ?_⟩
      split
      · exact h
      · exact h.disconnected hf hcl
    | cons command rest =>
      obtain ⟨w1, hacc, hcl1, hinv⟩ := h.accept hr hf hcl
      simp only [hacc]
      split
      · exact ⟨_, w1, rfl, hinv⟩
      · rename_i hfn
        obtain ⟨_, w2, h2, hinv2⟩ := ih hinv (by simpa using hfn) (hcl1.trans hcl)
        exact ⟨_, w2, by rw [h2]; rfl, hinv2⟩

omit h in
theorem headD_gone {ts : List Start} (hg : ∀ s ∈ ts, ∀ r ∈ s.canceled, gone r) :
    ∀ r ∈ (ts.headD ⟨[], true, .NoBuffer⟩).canceled, gone r := by
  cases ts with
  | nil => exact nofun
  | cons s => exact hg s mem_cons_self

theorem Inv.start_ready (n : Nat) (ts : List Start) (hg : ∀ s ∈ ts, ∀ r ∈ s.canceled, gone r)
    (hn : n ≤ w.ready.length) :
    ∃ progress w', w.start_ready n ts = some (progress, w') ∧ Inv init gone top w' := by
  induction n generalizing w ts with
  | zero => exact ⟨_, _, rfl, h⟩
  | succ n ih =>
    have hne : w.ready ≠ [] := by
      intro he
      rw [he] at hn
      simp at hn
    obtain ⟨progress, w1, h1, hinv, hlen⟩ := h.start_next _ (headD_gone hg) hne
    obtain ⟨more, w2, h2, hinv2⟩ := ih hinv ts.tail (fun s hs => hg s (mem_of_mem_tail hs))
      (by omega)
    refine ⟨progress || more, w2, ?_, hinv2⟩
    unfold Worker.start_ready
    simp only [h1, h2]

/-- The first start of several, and the others. -/
theorem Inv.start_ready_succ {w' : Worker} {n : Nat} {ts : List Start} {progress : Bool}
    (hg : ∀ s ∈ ts, ∀ r ∈ s.canceled, gone r)
    (hs : w.start_ready (n + 1) ts = some (progress, w')) :
    ∃ first more w1, w.start_next (ts.headD ⟨[], true, .NoBuffer⟩) = some (first, w1) ∧
      Inv init gone top w1 ∧ w1.start_ready n ts.tail = some (more, w') := by
  unfold Worker.start_ready at hs
  split at hs
  · cases hs
  rename_i first w1 h1
  split at hs
  · cases hs
  rename_i more w2 h2
  cases hs
  have hready : w.ready ≠ [] := by
    intro hn
    rw [Worker.start_next, hn] at h1
    cases h1
  obtain ⟨p, w1', h1', hinv, -⟩ := h.start_next _ (headD_gone hg) hready
  rw [h1] at h1'
  cases h1'
  exact ⟨first, more, w1, h1, hinv, h2⟩

/-- A close fence is over: the worker closes. -/
theorem Inv.end_close {reply : Option Nat} {permit : Option Permit}
    (hf : w.fence = some ⟨.Close reply, permit, none⟩) (result : Except Error Unit) :
    ∃ w', w.finish_fence result = some (result, w') ∧ Inv init gone top w' := by
  have hft : w.fence_ticket = none := by rw [Worker.fence_ticket, hf]; rfl
  have flights := h.flights
  rw [hft] at flights
  refine ⟨{ w with
    fence := none, close_reply := reply, closing := true
    released := w.released ++ dropped permit }, ?_, h.lanes, h.queued, h.books.close hf, flights,
    fun f hm => absurd hm (Option.not_mem_none f)⟩
  unfold Worker.finish_fence
  rw [hf]

theorem Inv.advance_fence (t : Turn) (hf : w.fence.isSome) :
    ∃ r w', w.advance_fence t = some (r, w') ∧ Inv init gone top w' := by
  obtain ⟨⟨reply, permit, ticket⟩, hfence⟩ := isSome_iff_exists.mp hf
  cases ticket with
  | some => exact ⟨_, w, by unfold Worker.advance_fence; rw [hfence], h⟩
  | none =>
    have hft : w.fence_ticket = none := by rw [Worker.fence_ticket, hfence]; rfl
    have flights := h.flights
    rw [hft] at flights
    cases reply with
    | Flush reply =>
      unfold Worker.advance_fence
      split
      all_goals rename_i hx
      all_goals rw [hfence] at hx
      all_goals cases hx
      rcases flush_cases w.session t.flush with ⟨e, he⟩ | ⟨ticket, hge, hok⟩
      · rw [he]
        have hend : ∃ r w', (w.finish_fence (.error (.Engine e))).map
            (fun r => (r.1.map (fun _ => true), r.2)) = some (r, w') ∧ Inv init gone top w' := by
          obtain ⟨w', h1, -, hinv⟩ := h.end_flush hfence w.session rfl flights w.write_error
            (.error (.Engine e))
          have h1 : w.finish_fence (.error (.Engine e)) = some (.ok (), w') := h1
          exact ⟨_, w', by rw [h1]; rfl, hinv⟩
        cases e with
        | Busy => exact ⟨_, w, rfl, h⟩
        | Invalid => exact hend
        | Engine => exact hend
      · rw [hok]
        have fresh := h.flights.fresh hge
        refine ⟨_, _, rfl, h.lanes, h.queued, h.books.launch_fence hfence _ _, ?_, ?_⟩
        · refine flights.launch hge (Nat.le_refl _) (fun _ _ => rfl) (fun _ _ => rfl) ?_
            (fun _ => rfl) (.flush fresh.2.1 fresh.2.2 rfl) ?_ (fun _ _ => rfl)
            (fun i v hv => by cases hv)
          · intro t' ht'
            simp [Worker.fence_ticket, Ne.symm ht']
          · rintro i (hi | ⟨l, hi⟩)
            · rw [fresh.2.1] at hi; cases hi
            · rw [fresh.2.2] at hi; cases hi
        · intro f hf _
          cases hf
          exact ⟨reply, rfl⟩
    | Inventory reply =>
      refine ⟨_, _, by unfold Worker.advance_fence; rw [hfence], ?_⟩
      exact h.fence_reply hfence rfl rfl (o := .Inventory _) (by simp) trivial rfl flights
        w.write_error
    | Close reply =>
      obtain ⟨w', h1, hinv⟩ := h.end_close hfence (t.seal_.mapError .Engine)
      refine ⟨(t.seal_.mapError .Engine).map (fun _ => true), w', ?_, hinv⟩
      unfold Worker.advance_fence
      split
      all_goals rename_i hx
      all_goals rw [hfence] at hx
      all_goals cases hx
      rw [h1]
      rfl

theorem Inv.idle (t : Turn) : ∃ w', w.idle t = some w' ∧ Inv init gone top w' := by
  unfold Worker.idle
  split
  · rename_i hc
    cases hr : w.receiver with
    | nil =>
      refine ⟨_, rfl, ?_⟩
      split
      · exact h
      · exact h.disconnected hc.1 hc.2.1
    | cons =>
      obtain ⟨w', hacc, -, hinv⟩ := h.accept hr hc.1 hc.2.1
      exact ⟨w', hacc, hinv⟩
  · exact ⟨w, rfl, h⟩

theorem Inv.end_turn (t : Turn) (progress : Bool) :
    ∃ r w', w.end_turn t progress = some (r, w') ∧ Inv init gone top w' := by
  unfold Worker.end_turn
  split
  · exact ⟨_, _, rfl, h.lanes, h.queued, h.books.of_eq rfl, h.flights, h.fence_flush⟩
  · split
    · exact ⟨_, w, rfl, h⟩
    · obtain ⟨w', hi, hinv⟩ := h.idle t
      exact ⟨none, w', by rw [hi]; rfl, hinv⟩

theorem Inv.turn_fence (t : Turn)
    (progress : Bool) : ∃ r w', w.turn_fence t progress = some (r, w') ∧ Inv init gone top w' := by
  unfold Worker.turn_fence
  split
  · rename_i hc
    obtain ⟨r, w', h1, hinv⟩ := h.advance_fence t hc.1
    rw [h1]
    cases r with
    | error => exact ⟨_, w', rfl, hinv⟩
    | ok moved => exact hinv.end_turn t (progress || moved)
  · exact h.end_turn t progress

/-- A turn of the loop: no `expect` and no assertion fails, and if the loop goes on then the
invariant holds again. -/
theorem Inv.turn (t : Turn) (hg : ∀ s ∈ t.starts, ∀ r ∈ s.canceled, gone r) :
    ∃ r w', w.turn t = some (r, w') ∧ Served init gone top w' ∧
      (r = none → Inv init gone top w') := by
  obtain ⟨received, w1, h1, hinv1⟩ : ∃ received w1, (if w.fence = none ∧ w.closing = false then
      w.receive (min t.received 128) else some (false, w)) = some (received, w1) ∧
      Inv init gone top w1 := by
    split
    · rename_i hc
      exact h.receive hc.1 hc.2 _
    · exact ⟨_, w, rfl, h⟩
  obtain ⟨started, w2, h2, hinv2⟩ := hinv1.start_ready w1.ready.length t.starts hg (Nat.le_refl _)
  unfold Worker.turn
  simp only [h1, h2]
  cases t.poll_error with
  | some =>
    exact ⟨_, _, rfl, ⟨fun id => ⟨_, hinv2.lanes id⟩, hinv2.books.of_eq rfl⟩, nofun⟩
  | none =>
    obtain ⟨w3, h3, hinv3⟩ := hinv2.handle_all t.events
    simp only [h3]
    obtain ⟨r, w4, h4, hinv4⟩ := hinv3.turn_fence t
      (received || started || !(w2.session.poll t.events).1.isEmpty)
    exact ⟨r, w4, h4, hinv4.served, fun _ => hinv4⟩

end

/-! ## The end of the loop -/

/-- Every operation of a lane fails, one after the other. -/
theorem Lane.fail_all {init entry : Option Version} {accepted : List Order}
    {sent : Replies} {ops : List Operation} {done : List Order}
    (h : Lane init id accepted sent ops entry done) (e : Error) :
    ∃ done', Lane init id accepted (sent ++ ops.flatMap (fun op => (op.fail e).replies)) [] entry
      done' := by
  induction ops generalizing sent done with
  | nil => exact ⟨done, by simpa using h⟩
  | cons op _ ih =>
    obtain ⟨done', h'⟩ := ih (h.answer (op.failure_ne e) (op.failure_sequence id e entry))
    refine ⟨done', ?_⟩
    rw [flatMap_cons, ← append_assoc, op.fail_replies]
    exact h'

/-- The replies that `finish` sends for a chunk's chain. -/
def Chain.failures (e : Error) (c : Chain) : Replies :=
  c.operations.flatMap (fun op => (op.fail e).replies)

/-- After the loop has returned, every accepted command has its answer. -/
theorem Served.finish (h : Served init gone top w) (result : Except Error Unit) :
    (∀ id, ∃ entry done, Lane (init.lookup id) id w.accepted (w.finish result).sent [] entry done) ∧
      ∀ c ∈ w.accepted, c.answer (w.finish result).sent = some .Canceled →
        ∃ id range r, c = .Read id range r := by
  obtain ⟨-, error, hfinish⟩ := Books.finish_spec w result
  set others : Replies := (w.fence.elim [] (·.reply.fail error)) ++
    w.receiver.flatMap (fun c => (c.fail error).replies) ++
    (w.close_reply.elim [] (fun reply => [(reply, Reply.Close result)])) with hothers
  have hsent : (w.finish result).sent =
      w.sent ++ (w.chains.entries.flatMap (fun e => e.2.failures error) ++ others) := by
    simp only [hfinish, hothers, Chain.failures, append_assoc]
  -- Whose channels the parts go to.
  have chain_owner : ∀ e ∈ w.chains.entries, ∀ y ∈ e.2.failures error,
      y.2 ≠ .Canceled ∧ ∃ c ∈ w.accepted, c.chunk = some e.1 ∧ y.1 ∈ c.channels := by
    intro e he y hy
    obtain ⟨op, hop, hy⟩ := mem_flatMap.mp hy
    have hx : y.1 ∈ op.channels := (op.fail_spec error).1 ▸ mem_map_of_mem hy
    have hlook : w.chains.lookup e.1 = some e.2 := AList.mem_lookup_iff.mpr he
    have hchain : w.chain e.1 = e.2 := by rw [Worker.chain, hlook]; rfl
    obtain ⟨entry, done, hl⟩ := h.lanes e.1
    rw [hchain] at hl
    obtain ⟨c, hc, hid, hcx⟩ := hl.channel_accepted (mem_flatMap.mpr ⟨op, hop, hx⟩)
    exact ⟨((op.fail_spec error).2 _ y hy).ne, c, hc,
      hid, by rw [hcx]; exact mem_singleton_self y.1⟩
  have others_owner : ∀ y ∈ others, y.2 ≠ .Canceled ∧
      ((∃ c ∈ w.accepted, c.chunk = none ∧ y.1 ∈ c.channels) ∨
        ∃ c ∈ w.receiver.map Command.order, y.1 ∈ c.channels) := by
    intro y hy
    rw [hothers, mem_append, mem_append] at hy
    rcases hy with (hy | hy) | hy
    · cases hf : w.fence with
      | none => rw [hf] at hy; cases hy
      | some f =>
        rw [hf] at hy
        have hx : y.1 ∈ f.reply.channels := (f.reply.fail_spec error).1 ▸ mem_map_of_mem hy
        exact ⟨((f.reply.fail_spec error).2 _ y hy).ne,
          .inl ⟨_, h.books.channels.fence_sub f hf (ne_nil_of_mem hx), rfl, hx⟩⟩
    · obtain ⟨c, hc, hy⟩ := mem_flatMap.mp hy
      have hx : y.1 ∈ c.order.channels := (c.fail_spec error).1 ▸ mem_map_of_mem hy
      exact ⟨((c.fail_spec error).2 _ y hy).ne, .inr ⟨_, mem_map_of_mem hc, hx⟩⟩
    · cases hcr : w.close_reply with
      | none => rw [hcr] at hy; cases hy
      | some r =>
        rw [hcr] at hy
        rw [mem_singleton.mp hy]
        exact ⟨by simp, .inl ⟨_, h.books.channels.close_sub r hcr, rfl, mem_singleton_self r⟩⟩
  refine ⟨fun id => ?_, ?_⟩
  · obtain ⟨entry, done, hl⟩ := h.lanes id
    rw [hsent]
    -- Replies to other chunks' callers, and those outside the chains, change nothing here.
    have skip : ∀ {sent : Replies} {ops : List Operation} {done : List Order}
        (l : List (Sigma (fun _ : ChunkId => Chain))),
        (∀ e ∈ l, e ∈ w.chains.entries ∧ e.1 ≠ id) →
        Lane (init.lookup id) id w.accepted sent ops entry done →
        Lane (init.lookup id) id w.accepted (sent ++ l.flatMap (fun e => e.2.failures error)) ops
          entry done := by
      intro sent ops done l hl' hlane
      refine hlane.send_other (fun c hc hid => ?_)
      refine h.books.channels.other_lane (P := fun c => c.chunk ≠ some id) ?_ c hc
        (by simpa using hid)
      intro y hy
      obtain ⟨e, he, hy⟩ := mem_flatMap.mp hy
      obtain ⟨-, c, hc, hce, hcx⟩ := chain_owner e (hl' e he).1 y hy
      refine .inl ⟨c, hc, ?_, hcx⟩
      rw [hce]
      exact fun he' => (hl' e he).2 (some.inj he')
    have last : ∀ {sent : Replies} {done : List Order},
        Lane (init.lookup id) id w.accepted sent [] entry done →
        Lane (init.lookup id) id w.accepted (sent ++ others) [] entry done := by
      intro sent done hlane
      refine hlane.send_other (fun c hc hid => ?_)
      refine h.books.channels.other_lane (P := fun c => c.chunk = none)
        (fun y hy => (others_owner y hy).2) c hc ?_
      rw [hid]
      exact fun he => by cases he
    rw [← append_assoc]
    cases hlook : w.chains.lookup id with
    | none =>
      have hchain : w.chain id = ⟨none, []⟩ := by rw [Worker.chain, hlook]; rfl
      rw [hchain] at hl
      refine ⟨entry, done, last (skip _ (fun e he => ⟨he, fun hid => ?_⟩) hl)⟩
      have hm : w.chains.lookup e.1 = some e.2 := AList.mem_lookup_iff.mpr he
      rw [hid, hlook] at hm
      cases hm
    | some c =>
      have hchain : w.chain id = c := by rw [Worker.chain, hlook]; rfl
      rw [hchain] at hl
      obtain ⟨pre, post, happ⟩ := append_of_mem (AList.mem_lookup_iff.mp hlook)
      have hkeys := w.chains.nodupKeys
      rw [happ] at hkeys
      have hne : ∀ e, e ∈ pre ∨ e ∈ post → e.1 ≠ id := by
        intro e he hid
        have hnd : ((pre ++ ⟨id, c⟩ :: post).map Sigma.fst).Nodup := hkeys
        rw [map_append, map_cons, nodup_append, nodup_cons] at hnd
        rcases he with he | he
        · exact hnd.2.2 e.1 (mem_map_of_mem he) id mem_cons_self hid
        · exact hnd.2.1.1 (mem_map.mpr ⟨e, he, hid⟩)
      have hin : ∀ e, e ∈ pre ∨ e ∈ post → e ∈ w.chains.entries := by
        intro e he
        rw [happ]
        rcases he with he | he
        · exact mem_append_left _ he
        · exact mem_append_right _ (mem_cons_of_mem _ he)
      have h1 := skip pre (fun e he => ⟨hin e (.inl he), hne e (.inl he)⟩) hl
      obtain ⟨done', h2⟩ := h1.fail_all error
      have h3 := last (skip post (fun e he => ⟨hin e (.inr he), hne e (.inr he)⟩) h2)
      refine ⟨entry, done', ?_⟩
      rw [happ, flatMap_append, flatMap_cons]
      simpa only [append_assoc, Chain.failures] using h3
  · intro c hc ha
    rw [hsent, Order.answer_append] at ha
    cases hs : c.answer w.sent with
    | some => rw [hs] at ha; exact h.books.channels.canceled c hc (hs.trans ha)
    | none =>
      rw [hs, none_or] at ha
      obtain ⟨x, -, hx⟩ := bind_eq_some_iff.mp ha
      rcases mem_append.mp (lookup_mem hx) with hm | hm
      · obtain ⟨e, he, hy⟩ := mem_flatMap.mp hm
        exact absurd rfl (chain_owner e he _ hy).1
      · exact absurd rfl (others_owner _ hm).1

end moat_cache_store
