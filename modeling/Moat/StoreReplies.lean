-- What a disk worker keeps between its turns, and replies and permits over whole
-- histories: every request is answered once, and its permit is let go once.
import Moat.StoreHistory

namespace moat_cache_store

open moat_common moat_server List Option
open moat_server.storage (Version Session Versions)

/-- What a worker keeps between its turns: which chains exist and which are ready, where each
ticket in flight is recorded, and that a read in flight has a caller. -/
structure Worker.Kept (w : Worker) : Prop where
  chains : ∀ id, id ∈ w.chains ↔ (w.chain id).active ≠ none ∨ (w.chain id).pending ≠ []
  ready : ∀ id, w.ready.count id =
    if (w.chain id).active = none ∧ (w.chain id).pending ≠ [] then 1 else 0
  tickets : ∀ t, (w.reads.lookup t).isSome.toNat + (w.writes.lookup t).isSome.toNat +
    (decide (w.fence_ticket = some t)).toNat = if t ∈ w.session.flights then 1 else 0
  led : ∀ id range lsn waiters, w.active id = some (.Read range lsn waiters) → waiters ≠ []

theorem Inv.worker_kept {init : Versions} {gone : Nat → Prop} {top : Nat} {w : Worker}
    (h : Inv init gone top w) : w.Kept := by
  have hops : ∀ c : Chain, c.operations ≠ [] ↔ c.active ≠ none ∨ c.pending ≠ [] := by
    rintro ⟨active, pending⟩
    cases active <;> simp [Chain.operations]
  refine ⟨fun id => ?_, fun id => ?_, fun t => ?_, ?_⟩
  · rw [← hops]
    constructor
    · intro hm
      obtain ⟨c, hc⟩ := isSome_iff_exists.mp (AList.lookup_isSome.mpr hm)
      rw [Worker.chain, hc]
      exact h.queued.busy id c hc
    · intro hne
      by_contra hm
      rw [Worker.chain, AList.lookup_eq_none.mpr hm] at hne
      exact hne rfl
  · have hmem : id ∈ w.ready ↔ (w.chain id).active = none ∧ (w.chain id).pending ≠ [] := by
      rw [h.queued.mem_ready id]
      constructor
      · rintro ⟨c, hc, hact⟩
        have hbusy := (hops c).mp (h.queued.busy id c hc)
        rw [Worker.chain, hc]
        exact ⟨hact, hbusy.resolve_left (absurd hact)⟩
      · rintro ⟨hact, hne⟩
        cases hc : w.chains.lookup id with
        | none =>
          rw [Worker.chain, hc] at hne
          exact absurd rfl hne
        | some c =>
          rw [Worker.chain, hc] at hact
          exact ⟨c, rfl, hact⟩
    rw [h.queued.nodup.count]
    simp only [hmem]
  · by_cases hm : t ∈ w.session.flights
    · rw [if_pos hm]
      obtain ⟨f, hf⟩ := isSome_iff_exists.mp (AList.lookup_isSome.mpr hm)
      have hfence : ∀ g, f = g → g ≠ .flush → w.fence_ticket ≠ some t := by
        rintro g rfl hne heq
        have := h.flights.fence_sub t heq
        rw [hf] at this
        exact hne (some.inj this)
      cases h.flights.stands t f hf with
      | read hr hw | write hr hw => simp [hr, hw, hfence _ rfl (by simp)]
      | flush hr hw hfl => simp [hr, hw, hfl]
    · rw [if_neg hm]
      have hr : w.reads.lookup t = none := by
        cases hr : w.reads.lookup t with
        | none => rfl
        | some id => exact absurd (h.flights.reads_sub t id hr) hm
      have hw : w.writes.lookup t = none := by
        cases hw : w.writes.lookup t with
        | none => rfl
        | some x => exact absurd (h.flights.writes_sub t x hw) hm
      have hf : w.fence_ticket ≠ some t := fun hf =>
        hm (AList.lookup_isSome.mp (by rw [h.flights.fence_sub t hf]; rfl))
      simp [hr, hw, hf]
  · intro id range lsn waiters ha
    exact ((h.books.chains id).active ha).1

/-- For every history of requests, completions, retries, failures and shutdowns: the worker's
chains, ready queue and tickets agree with each other, and no `expect` and no assertion fails; every
request is owed one reply until it has one, and none once the worker has ended; a caller gets no
reply only after it has gone, and no chunk takes a request along; the permit of every accepted
command is with the worker until its request is let go, once, and all are once the worker has
ended. -/
theorem every_request_is_answered_once {index : Versions} {session : Session}
    (h : Session.open index = .ok session) (pool : ReadPool) (actions : List Action) :
    ∃ s, (System.new session pool).run actions = some s ∧
      (s.ended = false → s.worker.Kept) ∧
      (∀ r < s.channels, s.worker.sentTo r + s.worker.owes r = 1 ∧
        (s.ended = true → s.worker.sentTo r = 1)) ∧
      (∀ r, (r, Reply.Canceled) ∈ s.worker.sent → ∃ t, .turn t ∈ actions ∧ r ∈ t.gone) ∧
      (∀ r chunk, (r, Reply.Read (.ok (some chunk))) ∈ s.worker.sent →
        chunk.permit.request = false) ∧
      ∀ c ∈ s.worker.accepted, ∀ r ∈ c.permits,
        s.worker.released.count r + s.worker.requests.count r = 1 ∧
        (s.ended = true → s.worker.released.count r = 1) := by
  obtain ⟨s, hs, hg⟩ := (System.new_good h pool (fun r => ∃ t, .turn t ∈ actions ∧ r ∈ t.gone)).run
    actions (fun t ht r hr => ⟨t, ht, hr⟩)
  have hfair : ∀ x ∈ s.worker.sent,
      x.2.Fair (fun r => ∃ t, .turn t ∈ actions ∧ r ∈ t.gone) x.1 := by
    cases he : s.ended with
    | false => exact (hg.running he).books.fair
    | true => exact (hg.settled he).fair
  refine ⟨s, hs, fun he => (hg.running he).worker_kept, fun r hr => ?_, fun r hx => hfair _ hx,
    fun r chunk hx => hfair _ hx, fun c hc r hr => ?_⟩
  · cases he : s.ended with
    | false =>
      have howed := (hg.running he).books.owed r
      rw [if_pos hr] at howed
      exact ⟨howed, nofun⟩
    | true =>
      have hsent := (hg.settled he).sent r hr
      have howed := (hg.settled he).owed r
      exact ⟨by omega, fun _ => hsent⟩
  · cases he : s.ended with
    | false => exact ⟨(hg.running he).books.held_once hc hr, nofun⟩
    | true =>
      have hrel := (hg.settled he).released c hc r hr
      rw [(hg.settled he).requests]
      exact ⟨hrel, fun _ => hrel⟩

/-- A put whose buffer is refused once, then written; two reads that wait behind it, one of whose
callers goes; and a close, after which the worker ends. -/
def putReadsAndClose (id : ChunkId) : List Action :=
  [.submit (.Put id [7]), .submit (.Get id none), .submit (.Get id none), .submit .Close,
    .turn (openTurn [⟨[], true, .NoBuffer⟩] []),
    .turn (openTurn [⟨[], true, .Accepted 0⟩] [.complete 0 (.ok ())]),
    .turn (openTurn [⟨[1], true, .Accepted 0⟩] [.complete 1 (.ok ())]), .turn (openTurn [] [])]

theorem put_read_and_close_are_answered_once :
    (((System.new ⟨∅, ∅, 0, 1⟩ onePool).run (putReadsAndClose ⟨byte_list.zeros 16, rfl⟩)).map
      (fun s => (s.worker.sent, s.worker.released, s.ended)) =
        some ([(0, .Put (.ok 1)), (1, .Canceled),
          (2, .Read (.ok (some ⟨[7], 1, ⟨2, 4096, false⟩⟩))), (3, .Close (.ok ()))], [0, 1, 2],
          true)) ∧
    ∃ s, (System.new ⟨∅, ∅, 0, 1⟩ onePool).run (putReadsAndClose ⟨byte_list.zeros 16, rfl⟩) =
      some s ∧
      ∀ c ∈ s.worker.accepted, ∀ r ∈ c.permits,
        s.worker.released.count r + s.worker.requests.count r = 1 := by
  refine ⟨by decide +kernel, ?_⟩
  have hopen : Session.open ∅ = .ok ⟨∅, ∅, 0, 1⟩ := rfl
  obtain ⟨s, hs, -, -, -, -, hp⟩ := every_request_is_answered_once hopen onePool
    (putReadsAndClose ⟨byte_list.zeros 16, rfl⟩)
  exact ⟨s, hs, fun c hc r hr => (hp c hc r hr).1⟩

end moat_cache_store
