-- The invariant of a disk worker: every chunk's lane, the chains and the ready
-- queue, the books, and the flights; and that accepting and starting keep it.
import Moat.StoreBooks

namespace moat_cache_store

open moat_common moat_server List Function Option
open moat_server.storage (Version Session Versions view)

/-! ## Chains -/

/-- The active operation of each chain. -/
def Worker.active (w : Worker) (id : ChunkId) : Option Operation := (w.chain id).active

/-- No chain is empty, and the ready queue holds once each chain that has no active operation. -/
structure Queued (chains : AList (fun _ : ChunkId => Chain)) (ready : List ChunkId) : Prop where
  busy : ∀ id c, chains.lookup id = some c → c.operations ≠ []
  nodup : ready.Nodup
  mem_ready : ∀ id, id ∈ ready ↔ ∃ c, chains.lookup id = some c ∧ c.active = none

section Queued

variable {chains : AList (fun _ : ChunkId => Chain)} {ready : List ChunkId}

/-- Only the chain of `id` and its place in the queue change. -/
theorem Queued.set (h : Queued chains ready) (id : ChunkId)
    {chains' : AList (fun _ : ChunkId => Chain)} {ready' : List ChunkId}
    (hother : ∀ i ≠ id, chains'.lookup i = chains.lookup i)
    (hbusy : ∀ c, chains'.lookup id = some c → c.operations ≠ [])
    (hnodup : ready'.Nodup) (hready : ∀ i ≠ id, (i ∈ ready' ↔ i ∈ ready))
    (hid : id ∈ ready' ↔ ∃ c, chains'.lookup id = some c ∧ c.active = none) :
    Queued chains' ready' := by
  refine ⟨?_, hnodup, ?_⟩
  · intro i c hl
    by_cases hi : i = id
    · subst hi; exact hbusy c hl
    · exact h.busy i c (hother i hi ▸ hl)
  · intro i
    by_cases hi : i = id
    · subst hi; exact hid
    · rw [hready i hi, hother i hi]
      exact h.mem_ready i

theorem nodup_push {l : List ChunkId} {id : ChunkId} (h : l.Nodup) (hn : id ∉ l) :
    (l ++ [id]).Nodup :=
  nodup_append.mpr ⟨h, nodup_singleton id, fun a ha b hb hab => by
    rw [mem_singleton.mp hb] at hab; exact hn (hab ▸ ha)⟩

/-- A chain is put in the table; it is queued if it was not there and is idle. -/
theorem Queued.insert (h : Queued chains ready) (id : ChunkId) {c : Chain}
    (hc : c.operations ≠ [])
    (ha : (chainIn chains id).operations ≠ [] →
    (c.active = none ↔ (chainIn chains id).active = none)) :
    Queued (chains.insert id c)
      (if (chainIn chains id).operations = [] ∧ c.active = none then ready ++ [id] else ready) := by
  have hself : ∀ c', (chains.insert id c).lookup id = some c' → c' = c := by
    intro c' hl
    rw [AList.lookup_insert] at hl
    exact (some.inj hl).symm
  have hid : id ∈ ready ↔
      (chainIn chains id).operations ≠ [] ∧ (chainIn chains id).active = none := by
    rw [h.mem_ready id]
    unfold chainIn
    cases hl : chains.lookup id with
    | none => simp [Chain.operations]
    | some c' => simpa using fun _ => h.busy id c' hl
  have look : (∃ c', (chains.insert id c).lookup id = some c' ∧ c'.active = none) ↔
      c.active = none := by
    rw [AList.lookup_insert]; simp
  refine h.set id (fun i hi => AList.lookup_insert_ne hi) (fun c' hl => hself c' hl ▸ hc)
    ?_ ?_ ?_
  · split
    · rename_i hcond
      exact nodup_push h.nodup (fun hm => (hid.mp hm).1 hcond.1)
    · exact h.nodup
  · intro i hi
    split <;> simp [hi]
  · rw [look]
    split
    · rename_i hcond
      simp [hcond.2]
    · rename_i hcond
      rw [hid]
      by_cases he : (chainIn chains id).operations = []
      · simp only [he, ne_eq, not_true_eq_false, false_and, false_iff]
        exact fun hn => hcond ⟨he, hn⟩
      · rw [ha he]
        simp [he]

theorem Queued.erase (h : Queued chains ready) (id : ChunkId) :
    Queued (chains.erase id) (ready.erase id) := by
  refine h.set id (fun i hi => AList.lookup_erase_ne hi) ?_ (h.nodup.erase id) ?_ ?_
  · intro c hl
    rw [AList.lookup_erase] at hl
    cases hl
  · intro i hi
    rw [h.nodup.mem_erase_iff]
    simp [hi]
  · rw [h.nodup.mem_erase_iff]
    simp

end Queued

/-! ## The invariant -/

/-- What holds of a worker between any two parts of a turn. `init` is the index that it started
from, `gone` tells which callers may be found gone, and `top` is the next channel. -/
structure Inv (init : Versions) (gone : Nat → Prop) (top : Nat) (w : Worker) : Prop where
  lanes : ∀ id, ∃ done, Lane (init.lookup id) id w.accepted w.sent (w.chain id).operations
    (w.session.index.lookup id) done
  queued : Queued w.chains w.ready
  books : Books gone top w
  flights : Flights w.session w.reads w.writes w.fence_ticket w.active
  fence_flush : ∀ f ∈ w.fence, f.ticket ≠ none → ∃ r, f.reply = .Flush r

/-- The part of the invariant that stays when the loop returns: the session is gone. -/
structure Served (init : Versions) (gone : Nat → Prop) (top : Nat) (w : Worker) : Prop where
  lanes : ∀ id, ∃ entry done, Lane (init.lookup id) id w.accepted w.sent (w.chain id).operations
    entry done
  books : Books gone top w

variable {init : Versions} {gone : Nat → Prop} {top : Nat} {w : Worker} {op : Operation}
  {id : ChunkId}
  {accepted : List Order} {sent : Replies}

theorem Inv.served (h : Inv init gone top w) : Served init gone top w :=
  ⟨fun id => ⟨_, h.lanes id⟩, h.books⟩

/-! ## Accepting -/

theorem Chain.last_spec {c : Chain} (h : c.last = some op) :
    ∃ front, c.operations = front ++ [op] ∧
      ∀ op', (c.set_last op').operations = front ++ [op'] ∧
        ((c.set_last op').active = c.active ∨
          c.active = some op ∧ (c.set_last op').active = some op') := by
  obtain ⟨active, pending⟩ := c
  unfold Chain.last at h
  unfold Chain.operations Chain.set_last
  by_cases hp : pending = []
  · subst hp
    rw [if_pos rfl] at h
    rw [show active = some op from h]
    exact ⟨[], rfl, fun op' => ⟨rfl, .inr ⟨rfl, rfl⟩⟩⟩
  · rw [if_neg hp] at h
    obtain ⟨front, rfl⟩ := List.getLast?_eq_some_iff.mp h
    refine ⟨active.toList ++ front, by simp, fun op' => ⟨?_, .inl ?_⟩⟩
    · simp
    · rw [if_neg hp]

/-- A command goes to the end of its chunk's chain, as an operation of its own or as one more
caller of the last read. -/
theorem enqueue_spec (w : Worker) {c : Order} {n : Nat} (hop : op.orders id = [c])
    (hq : Queued w.chains w.ready) (hold : op.Held) (hheld : (w.chain id).Held n) :
    ∃ chain ready, w.enqueue id op = some { w with chains := w.chains.insert id chain, ready } ∧
      chain.operations.flatMap (·.orders id) =
        (w.chain id).operations.flatMap (·.orders id) ++ [c] ∧
      (chain.active = (w.chain id).active ∨ ∃ range lsn ws ws',
        (w.chain id).active = some (.Read range lsn ws) ∧
          chain.active = some (.Read range lsn ws')) ∧
      chain.Held n ∧ Queued (w.chains.insert id chain) ready := by
  by_cases hpush : w.enqueue id op = some (w.push id op)
  · rw [hpush]
    have hq' := hq.insert id (c := { w.chain id with pending := (w.chain id).pending ++ [op] })
      (by simp [Chain.operations]) (fun _ => Iff.rfl)
    have hidle : ((w.chain id).active = none ∧ (w.chain id).pending = []) ↔
        ((chainIn w.chains id).operations = [] ∧ (w.chain id).active = none) := by
      rw [← Worker.chain_eq, Chain.operations]
      cases (w.chain id).active <;> simp
    refine ⟨_, _, rfl, ?_, .inl rfl, ⟨fun x hx => ?_, hheld.covers⟩, ?_⟩
    · simp [Chain.operations, hop]
    · simp only [Chain.operations, ← append_assoc, mem_append, mem_singleton] at hx
      rcases hx with hx | rfl
      · exact hheld.each x (by simpa [Chain.operations] using hx)
      · exact hold
    · simp only [hidle]
      exact hq'
  revert hpush
  unfold Worker.enqueue
  split
  · rename_i range lsn waiters previous previous_lsn previous_waiters hlast
    split
    · rename_i heq
      subst heq
      intro
      obtain ⟨joined, hj, hreply, hjoined⟩ := join_all hold.2
      obtain ⟨front, hops, hset⟩ := Chain.last_spec hlast
      obtain ⟨h1, h2⟩ := hset (.Read previous previous_lsn (previous_waiters ++ joined))
      have hprev : (Operation.Read previous previous_lsn previous_waiters).Held :=
        hheld.each _ (by rw [hops]; simp)
      refine ⟨_, w.ready, by rw [hj]; rfl, ?_, ?_, ⟨fun x hx => ?_, ?_⟩, ?_⟩
      · rw [h1, hops]
        simp only [flatMap_append, flatMap_singleton, Operation.orders, map_append, append_assoc]
        rw [hreply]
        exact congrArg _ (congrArg _ hop)
      · rcases h2 with h2 | ⟨h2, h3⟩
        · exact .inl h2
        · exact .inr ⟨_, _, _, _, h2, h3⟩
      · rw [h1] at hx
        rcases mem_append.mp hx with hx | hx
        · exact hheld.each x (by rw [hops]; exact mem_append_left _ hx)
        · rw [mem_singleton.mp hx]
          exact ⟨by simp [hprev.1], fun y hy => (mem_append.mp hy).elim (hprev.2 y) (hjoined y)⟩
      · -- the leader stays, with its credit
        intro range lsn ws ha
        rcases h2 with h2 | ⟨h2, h3⟩
        · exact hheld.covers range lsn ws (h2 ▸ ha)
        · obtain ⟨x, rest, p, hx, hp, hn⟩ := hheld.covers _ _ _ h2
          rw [h3] at ha
          cases ha
          exact ⟨x, rest ++ joined, p, by rw [hx]; rfl, hp, hn⟩
      · have hne : (chainIn w.chains id).operations ≠ [] := by
          rw [← Worker.chain_eq, hops]; simp
        have hq' := hq.insert id (c := (w.chain id).set_last
            (.Read previous previous_lsn (previous_waiters ++ joined))) (by rw [h1]; simp)
          (fun _ => by
            rw [← Worker.chain_eq]
            rcases h2 with h2 | ⟨h2, h3⟩
            · rw [h2]
            · rw [h2, h3]; simp)
        rwa [if_neg (fun hn => hne hn.1)] at hq'
    · exact absurd rfl
  · exact absurd rfl

/-- Taking a command from the receiver keeps the invariant. -/
theorem Inv.accept {command : Command} {rest : List Command} (h : Inv init gone top w)
    (hr : w.receiver = command :: rest) (hf : w.fence = none) (hcl : w.closing = false) :
    ∃ w', ({ w with receiver := rest } : Worker).accept command = some w' ∧
      w'.closing = w.closing ∧ Inv init gone top w' := by
  obtain ⟨lanes, queued, books, flights, fence_flush⟩ := h
  have hheld := books.receiver command (hr ▸ mem_cons_self)
  -- A command of a chunk: its lane gets longer, the others do not change.
  have chunk : ∀ id op r, op.orders id = [command.order] → op.Held →
      command.order.chunk = some id → command.order.channels = [r] →
      ∃ w', ({ w with receiver := rest, accepted := w.accepted ++ [command.order] }
        : Worker).enqueue id op = some w' ∧ w'.closing = w.closing ∧ Inv init gone top w' := by
    intro id op r hop hown hid hch
    obtain ⟨chain, ready, heq, hops, hact, hchain, hq⟩ := enqueue_spec
      ({ w with receiver := rest, accepted := w.accepted ++ [command.order] } : Worker) hop queued
      hown (books.chains id)
    have hchannels := books.channels
    rw [hr] at hchannels
    have fresh := hchannels.fresh (r := r) (by rw [hch]; exact mem_singleton_self r)
    have hcc : chain.channels = (chainIn w.chains id).channels ++ [r] := by
      have := congrArg (List.flatMap Order.channels) hops
      simpa [flatMap_assoc, Operation.flatMap_channels, hch, Chain.channels, Worker.chain_eq]
        using this
    refine ⟨_, heq, rfl, ?_, hq, books.enqueue hr hch hcc hchain, ?_, fence_flush⟩
    · intro i
      obtain ⟨done, hl⟩ := lanes i
      refine ⟨done, ?_⟩
      simp only [Worker.chain_eq, chainIn_insert] at hl ⊢
      by_cases hi : i = id
      · subst hi
        rw [if_pos rfl]
        refine hl.accept hid hch fresh.2 (fun hm => ?_) hops
        obtain ⟨c, hc, -, hcr⟩ := hl.channel_accepted hm
        exact fresh.1 (mem_flatMap.mpr ⟨c, hc, by rw [hcr]; exact mem_singleton_self r⟩)
      · rw [if_neg hi]
        exact hl.accept_other (by rw [hid]; exact fun he => hi (some.inj he).symm)
    · refine flights.join (fun i => ?_)
      simp only [Worker.active, Worker.chain_eq, chainIn_insert]
      by_cases hi : i = id
      · subst hi
        rw [if_pos rfl]
        exact hact
      · rw [if_neg hi]
        exact .inl rfl
  cases command with
  | Read id range reply permit =>
    refine chunk id (.Read range 0 [⟨reply, some permit⟩]) reply rfl ⟨cons_ne_nil _ _, ?_⟩ rfl rfl
    intro x hx
    rw [mem_singleton.mp hx]
    exact ⟨permit, rfl, hheld⟩
  | Put id value reply permit => exact chunk id (.Put value reply permit) reply rfl hheld rfl rfl
  | Delete id expected_lsn reply permit =>
    exact chunk id (.Delete expected_lsn reply permit) reply rfl hheld rfl rfl
  | Fence reply permit =>
    refine ⟨_, rfl, rfl, ?_, queued, books.accept_fence hr hf hcl, ?_, ?_⟩
    · intro i
      obtain ⟨done, hl⟩ := lanes i
      exact ⟨done, hl.accept_other (by simp [Command.order, Order.chunk])⟩
    · have hft : w.fence_ticket = none := by rw [Worker.fence_ticket, hf]; rfl
      rw [hft] at flights
      exact flights
    · intro f hf' ht
      cases hf'
      exact absurd rfl ht

/-! ## Starting -/

/-- A failed operation has no effect. -/
theorem Operation.failure_sequence (op : Operation) (id : ChunkId) (e : Error)
    (entry : Option Version) :
    Sequence entry ((op.orders id).map (fun c => (c, op.failure e))) entry := by
  refine Sequence.same (fun c hc => ?_)
  cases op with
  | Read =>
    obtain ⟨r, -, rfl⟩ := mem_map.mp hc
    exact .read_failed
  | Put =>
    rw [mem_singleton.mp hc]
    exact .put_failed
  | Delete =>
    rw [mem_singleton.mp hc]
    exact .delete_failed

/-- What `start` does with the operation at the head of the idle chain of `id`: it answers some
of its callers, and leaves the rest of them in the chain or nobody. Only the session, the tables and
the kept error change otherwise, and the index does not. -/
structure Begun (init : Option Version) (id : ChunkId) (w : Worker) (op : Operation)
    (rest : List Operation) (active : ChunkId → Option Operation) (canceled : List Nat)
    (r : Started × Worker) : Prop where
  frame : ∃ session reads writes write_error replies,
    r.2 = { w with
      session, reads, writes, write_error, sent := w.sent ++ replies
      released := w.released ++ replies.map Prod.fst } ∧ session.index = w.session.index ∧
      (∀ x, (replies.map Prod.fst).count x + (r.1.chain none rest).channels.count x =
        (op.channels ++ rest.flatMap Operation.channels).count x) ∧
      ∀ x ∈ replies, x.2.Fair (· ∈ canceled) x.1 ∧ (x.2 = .Canceled → op.is_read = true)
  lane : ∃ done, Lane init id w.accepted r.2.sent (r.1.chain none rest).operations
    (w.session.index.lookup id) done
  flights : Flights r.2.session r.2.reads r.2.writes w.fence_ticket
    (update active id (r.1.chain none rest).active)
  held : (r.1.chain none rest).Held w.pool.max_class

section Start

variable {init : Option Version} {id : ChunkId} {w : Worker} {op : Operation}
  {rest : List Operation} {active : ChunkId → Option Operation} {done : List Order}
  {canceled : List Nat}

theorem map_reply_filter (p : Nat → Bool) (l : List Waiter) :
    (l.filter (fun x => p x.reply)).map Waiter.reply = (l.map Waiter.reply).filter p := by
  rw [List.filter_map]
  rfl

theorem Worker.send_nil (w : Worker) (o : Reply) : w.send (.each [] o) = w := by
  simp [Worker.send, Outcome.each]

theorem map_fst_pair (l : List Nat) (o : Reply) : (l.map (fun r => (r, o))).map Prod.fst = l := by
  simp [Function.comp_def]

/-- A read's callers that have gone are canceled first; the read begins for the others. -/
theorem Begun.after_cancel {range : Option (Nat × Nat)} {lsn : Nat} {all left : List Waiter}
    {r : Started × Worker}
    (hleft : left.map Waiter.reply = (all.map Waiter.reply).filter (· ∉ canceled)) (lsn' : Nat)
    (h : Begun init id (w.send (.each ((all.map Waiter.reply).filter (· ∈ canceled)) .Canceled))
      (.Read range lsn' left) rest active canceled r) :
    Begun init id w (.Read range lsn all) rest active canceled r := by
  obtain ⟨⟨session, reads, writes, err, replies, h1, h2, h3, h4⟩, h5, h6, h7⟩ := h
  refine ⟨⟨session, reads, writes, err,
    ((all.map Waiter.reply).filter (· ∈ canceled)).map (fun x => (x, .Canceled)) ++ replies,
    ?_, h2, fun x => ?_, fun x hx => ?_⟩, h5, h6, h7⟩
  · rw [h1, map_append, map_fst_pair, ← append_assoc, ← append_assoc]
    rfl
  · have hx := h3 x
    have hsplit := (filter_append_perm (· ∈ canceled) (all.map Waiter.reply)).count_eq x
    simp only [Operation.channels, hleft, map_append, map_fst_pair, count_append, decide_not]
      at hx hsplit ⊢
    omega
  · rcases mem_append.mp hx with hx | hx
    · obtain ⟨y, hy, rfl⟩ := mem_map.mp hx
      exact ⟨by simpa [Reply.Fair] using (mem_filter.mp hy).2, fun _ => rfl⟩
    · exact ⟨(h4 x hx).1, fun _ => rfl⟩

theorem active_other (ha : active id = none) (a : Option Operation) :
    ∀ i, active i ≠ none → update active id a i = active i := by
  intro i hi
  rw [update_of_ne]
  rintro rfl
  exact hi ha

variable (hl : Lane init id w.accepted w.sent (op :: rest) (w.session.index.lookup id) done)
  (hop : op.Held) (hrest : ∀ op' ∈ rest, op'.Held)
include hl hop hrest

/-- The operation stays, active or first in its chain, and nobody is answered. -/
theorem Begun.keep {started : Started} {session : Session} {reads : AList (fun _ : Nat => ChunkId)}
    {writes : AList (fun _ : Nat => ChunkId × Nat)} (hi : session.index = w.session.index)
    (hops : (started.chain none rest).operations = op :: rest)
    (hcov : ∀ range lsn waiters, (started.chain none rest).active = some (.Read range lsn waiters) →
      Covers w.pool.max_class waiters)
    (hfl : Flights session reads writes w.fence_ticket
      (update active id (started.chain none rest).active)) :
    Begun init id w op rest active canceled (started, { w with session, reads, writes }) := by
  refine ⟨⟨session, reads, writes, w.write_error, [], ?_, hi, fun x => ?_, nofun⟩, ⟨done, ?_⟩, hfl,
    ?_, hcov⟩
  · simp only [map_nil, append_nil]
  · simp [Chain.channels, hops]
  · rw [hops]
    exact hl
  · rw [hops]
    exact forall_mem_cons.mpr ⟨hop, hrest⟩

variable (hf : Flights w.session w.reads w.writes w.fence_ticket active)
  (ha : active id = none)
include hf ha

omit hop in
/-- One reply for every caller, and nothing is left. -/
theorem Begun.answer {o : Reply} (ho : o ≠ .Canceled) (hfair : ∀ r, o.Fair (· ∈ canceled) r)
    (hx : Sequence (w.session.index.lookup id) ((op.orders id).map (fun c => (c, o)))
      (w.session.index.lookup id)) (write_error : Option Error) :
    Begun init id w op rest active canceled
      (.Done, ({ w with write_error } : Worker).send (.each op.channels o)) := by
  refine ⟨⟨w.session, w.reads, w.writes, write_error, op.channels.map (fun r => (r, o)), ?_, rfl,
    fun x => ?_, fun x hx => ?_⟩, ?_, ?_, hrest, fun _ _ _ hn => by cases hn⟩
  · rw [map_fst_pair]
    rfl
  · rw [map_fst_pair, count_append]
    rfl
  · obtain ⟨r, -, rfl⟩ := mem_map.mp hx
    exact ⟨hfair r, fun hn => absurd hn ho⟩
  · exact ⟨_, hl.answer ho hx⟩
  · rw [update_eq_self_iff.mpr]
    · exact hf
    · exact ha.symm

theorem Begun.retry : Begun init id w op rest active canceled (.Retry op, w) := by
  refine .keep hl hop hrest rfl rfl (fun _ _ _ hn => by cases hn) ?_
  rw [update_eq_self_iff.mpr]
  · exact hf
  · exact ha.symm

theorem Begun.refused (e : storage.Error) :
    Begun init id w op rest active canceled (w.refused op e) := by
  unfold Worker.refused
  split
  · exact .retry hl hop hrest hf ha
  · dsimp only
    rw [Operation.fail_eq hop]
    split
    · exact .answer hl hrest hf ha (op.failure_ne _) (op.failure_fair _ _)
        (op.failure_sequence id _ _) w.write_error
    · exact .answer hl hrest hf ha (op.failure_ne _) (op.failure_fair _ _)
        (op.failure_sequence id _ _) _

/-- A write that the session accepts is in flight; one that it does not is refused. -/
theorem Begun.write {value : Option Bytes} (t : Start)
    (hasked : Asked (w.session.index.lookup id) ⟨w.session.next_lsn, value⟩ (some op)) :
    Begun init id w op rest active canceled (w.start_write id op value t) := by
  unfold Worker.start_write
  rcases write_cases w.session id value t.admission with ⟨e, he⟩ | ⟨ticket, hge, hok⟩
  · rw [he]
    exact .refused hl hop hrest hf ha e
  · rw [hok]
    have fresh := hf.fresh hge
    refine .keep hl hop hrest rfl rfl (fun _ _ _ hn => ?_) (hf.launch hge (Nat.le_succ _)
      (fun _ _ => rfl) (fun t' ht' => AList.lookup_insert_ne ht') (fun _ _ => Iff.rfl)
      (fun ht => absurd (hf.fence_lt ht) (by omega)) ?_ ?_ (active_other ha _) ?_)
    · cases hn
      cases hasked
    · refine .write fresh.2.1 (AList.lookup_insert _) ?_ ?_
      · intro old hold
        exact hf.index_lsn id old hold
      · rw [update_self]
        exact hasked
    · rintro i (hi | ⟨l, hi⟩)
      · rw [fresh.2.1] at hi; cases hi
      · rw [AList.lookup_insert] at hi
        cases hi
        exact ha
    · intro i v hv
      cases hv
      exact Nat.lt_succ_self _

/-- An accepted read is in flight, with the version that `stat` told of. -/
theorem Begun.read {range : Option (Nat × Nat)} {lsn len : Nat} {waiters : List Waiter}
    (hread : op = .Read range lsn waiters) (hc : Covers w.pool.max_class waiters)
    (hs : w.session.stat id = some (lsn, len)) (t : Start) :
    Begun init id w op rest active canceled (w.start_read id range op t) := by
  unfold Worker.start_read
  rcases read_cases w.session id range t.admission with ⟨e, he⟩ | ⟨ticket, lsn', value, hge, hv,
    hok⟩
  · rw [he]
    exact .refused hl hop hrest hf ha e
  · rw [hok]
    obtain ⟨value', hv'⟩ := stat_some hs
    rw [hv] at hv'
    cases hv'
    have fresh := hf.fresh hge
    refine .keep hl hop hrest rfl rfl (fun range' lsn' ws hn => ?_) (hf.launch hge (Nat.le_refl _)
      (fun t' ht' => AList.lookup_insert_ne ht') (fun _ _ => rfl) (fun _ _ => Iff.rfl)
      (fun ht => absurd (hf.fence_lt ht) (by omega)) ?_ ?_ (active_other ha _) nofun)
    · rw [hread] at hn
      cases hn
      exact hc
    · exact .read (AList.lookup_insert _) fresh.2.2 ((update_self ..).trans (congrArg some hread))
        hv
    · rintro i (hi | ⟨l, hi⟩)
      · rw [AList.lookup_insert] at hi
        cases hi
        exact ha
      · rw [fresh.2.2] at hi; cases hi

theorem start_begun (t : Start) :
    ∃ r, w.start id op t = some r ∧ Begun init id w op rest active t.canceled r := by
  cases op with
  | Read range lsn waiters =>
    have hheld : ∀ p : Waiter → Bool, ∀ x ∈ waiters.filter p, x.Held :=
      fun p x hx => hop.2 x (mem_filter.mp hx).1
    unfold Worker.start
    dsimp only
    rw [answer_all_eq (hheld _), map_reply_filter (· ∈ t.canceled)]
    set w' := w.send (.each ((waiters.map Waiter.reply).filter (· ∈ t.canceled)) .Canceled) with hw'
    set left := waiters.filter (·.reply ∉ t.canceled) with hleft
    have hreply : left.map Waiter.reply = (waiters.map Waiter.reply).filter (· ∉ t.canceled) :=
      map_reply_filter (· ∉ t.canceled) waiters
    split
    · -- Everybody has gone: an empty read leaves the chain.
      rename_i hw
      refine ⟨_, rfl, .after_cancel hreply lsn ?_⟩
      rw [← w'.send_nil (.Read (.ok none)), show ([] : List Nat) =
        (Operation.Read range lsn left).channels by rw [hw]; rfl]
      refine .answer (w := w') (o := .Read (.ok none)) (hl.cancel hreply lsn) hrest hf ha (by simp)
        (fun _ => trivial) ?_ _
      rw [hw]
      exact .nil
    · rename_i hne
      split
      · rename_i hs
        rw [Operation.miss, answer_all_eq (hheld _)]
        refine ⟨_, rfl, .after_cancel hreply lsn ?_⟩
        refine .answer (w := w') (o := .Read (.ok none)) (hl.cancel hreply lsn) hrest hf ha
          (by simp) (fun _ => trivial) (Sequence.same (fun c hc => ?_)) _
        obtain ⟨r, -, rfl⟩ := mem_map.mp hc
        exact .miss (stat_none hs)
      · rename_i stat hs
        obtain ⟨grown, left', hg, hrep, hheld', hcov⟩ := grow_leader_spec
          (n := w'.pool.max_class) t.grows hne (hheld _)
        rw [hg]
        refine ⟨_, rfl, .after_cancel (hrep.trans hreply) stat.1 ?_⟩
        have hl' := hl.cancel (hrep.trans hreply) stat.1
        have hne' : left' ≠ [] := fun hn => hne (by simpa [hn] using hrep.symm)
        dsimp only
        split
        · exact .retry (w := w') hl' ⟨hne', hheld'⟩ hrest hf ha
        · exact .read (w := w') hl' ⟨hne', hheld'⟩ hrest hf ha rfl
            (hcov (eq_true_of_ne_false (by assumption))) hs t
  | Put => exact ⟨_, rfl, .write hl hop hrest hf ha t (.put rfl)⟩
  | Delete expected_lsn reply permit =>
    unfold Worker.start
    dsimp only
    split
    · rename_i hs
      rw [Operation.deleted, hop.drop]
      refine ⟨_, rfl, .answer (o := .Delete (.ok .Missing)) hl hrest hf ha (by simp)
        (fun _ => trivial) (Sequence.same (fun c hc => ?_)) _⟩
      rw [mem_singleton.mp hc]
      exact .missing (stat_none hs)
    · rename_i stat hs
      obtain ⟨value, hv⟩ := stat_some hs
      split
      · rename_i hx
        obtain ⟨expected, he, hne⟩ := hx
        cases he
        rw [Operation.deleted, hop.drop]
        refine ⟨_, rfl, .answer (o := .Delete (.ok .Changed)) hl hrest hf ha (by simp)
          (fun _ => trivial) (Sequence.same (fun c hc => ?_)) _⟩
        rw [mem_singleton.mp hc, hv]
        exact .changed hne
      · rename_i hx
        refine ⟨_, rfl, .write hl hop hrest hf ha t (.delete rfl hv (fun e he => ?_))⟩
        by_contra hne
        exact hx ⟨e, he, hne⟩

end Start

theorem Lane.caller {init entry : Option Version} {rest : List Operation} {done : List Order}
    (h : Lane init id accepted sent (op :: rest) entry done) {x : Nat} (hx : x ∈ op.channels) :
    ∃ c ∈ accepted, c.chunk = some id ∧ c ∈ op.orders id ∧ x ∈ c.channels := by
  rw [← op.flatMap_channels id] at hx
  obtain ⟨c, hc, hcx⟩ := mem_flatMap.mp hx
  have := h.mem_accepted (mem_append_right _
    (mem_flatMap.mpr ⟨op, mem_cons_self, hc⟩))
  exact ⟨c, this.1, this.2, hc, hcx⟩

theorem Queued.put_back {chains : AList (fun _ : ChunkId => Chain)} {ready : List ChunkId}
    (h : Queued chains ready) (c : Chain) (hid : chainIn chains id = ⟨none, []⟩) :
    Queued (if c.active = none ∧ c.pending = [] then chains else chains.insert id c)
      (if c.active = none ∧ c.pending ≠ [] then ready ++ [id] else ready) := by
  obtain ⟨active, pending⟩ := c
  by_cases he : active = none ∧ pending = []
  · rw [if_pos he, if_neg (fun hn => hn.2 he.2)]
    exact h
  · rw [if_neg he]
    have hins := h.insert id (c := ⟨active, pending⟩)
      (by cases active <;> simp_all [Chain.operations]) (fun hn => absurd (by rw [hid]; rfl) hn)
    rw [hid] at hins
    have : ((⟨none, []⟩ : Chain).operations = [] ∧ active = none) ↔
        (active = none ∧ pending ≠ []) := by
      constructor
      · rintro ⟨-, ha⟩
        exact ⟨ha, fun hp => he ⟨ha, hp⟩⟩
      · rintro ⟨ha, -⟩
        exact ⟨rfl, ha⟩
    simp only [this] at hins
    exact hins

theorem Started.le_channels (s : Started) (rest : List Operation) (x : Nat) :
    (rest.flatMap Operation.channels).count x ≤ (s.chain none rest).channels.count x := by
  cases s <;> simp [Started.chain, Chain.channels, Chain.operations, count_append]

/-- The operation at the head of the chain of `id` answers callers of its own. The chain becomes
`c`, and nothing changes for another chunk. -/
theorem Inv.settle (h : Inv init gone top w) {entry : Option Version} {rest : List Operation}
    {done : List Order} {c : Chain} (replies : Replies) {w' : Worker}
    (hl : Lane (init.lookup id) id w.accepted w.sent (op :: rest) entry done)
    (hw : w' = { w with
      session := w'.session, chains := w'.chains, ready := w'.ready, reads := w'.reads
      writes := w'.writes, write_error := w'.write_error
      sent := w.sent ++ replies, released := w.released ++ replies.map Prod.fst })
    (look : ∀ i, chainIn w'.chains i = if i = id then c else chainIn w.chains i)
    (hown : ∀ x ∈ replies, x.1 ∈ op.channels ∧ x.2.Fair gone x.1 ∧
      (x.2 = .Canceled → op.is_read = true))
    (hb : ∀ r, (replies.map Prod.fst).count r + w'.chained r = w.chained r)
    (hheld : c.Held w.pool.max_class)
    (hlane : ∃ done, Lane (init.lookup id) id w.accepted (w.sent ++ replies) c.operations
      (w'.session.index.lookup id) done)
    (hi : ∀ i ≠ id, w'.session.index.lookup i = w.session.index.lookup i)
    (hq : Queued w'.chains w'.ready)
    (hf : Flights w'.session w'.reads w'.writes w.fence_ticket (update w.active id c.active)) :
    Inv init gone top w' := by
  have own : ∀ x ∈ replies,
      ∃ c ∈ w.accepted, c.chunk = some id ∧ c ∈ op.orders id ∧ x.1 ∈ c.channels :=
    fun x hx => hl.caller (hown x hx).1
  have hactive : w'.active = update w.active id c.active := by
    funext i
    simp only [Worker.active, Worker.chain_eq]
    rw [look i]
    by_cases hii : i = id
    · subst hii
      rw [if_pos rfl, update_self]
    · rw [if_neg hii, update_of_ne hii]
      rfl
  have books : Books gone top w' := by
    refine h.books.settle replies hw (fun i => ?_) hb (fun x hx => ?_)
      (fun x hx => (hown x hx).2.1)
    · rw [look i]
      split
      · exact hheld
      · exact h.books.chains i
    · obtain ⟨c, hc, -, hco, hcx⟩ := own x hx
      refine ⟨c, hc, hcx, fun hcan => ?_⟩
      have hread := (hown x hx).2.2 hcan
      cases op with
      | Read range =>
        obtain ⟨r, -, rfl⟩ := mem_map.mp hco
        exact ⟨id, range, r, rfl⟩
      | Put => cases hread
      | Delete => cases hread
  rw [← hactive] at hf
  rw [hw] at hf books ⊢
  refine ⟨fun i => ?_, hq, books, hf, h.fence_flush⟩
  simp only [Worker.chain_eq]
  rw [look i]
  by_cases hii : i = id
  · subst hii
    rw [if_pos rfl]
    exact hlane
  · rw [if_neg hii, hi i hii]
    obtain ⟨done', hl'⟩ := h.lanes i
    refine ⟨done', hl'.send_other (fun c hc hci => ?_)⟩
    refine h.books.channels.other_lane (P := fun c => c.chunk = some id) ?_ c hc ?_
    · intro x hx
      obtain ⟨c, hc, h1, -, h2⟩ := own x hx
      exact .inl ⟨c, hc, h1, h2⟩
    · rw [hci]
      exact fun he => hii (some.inj he)

/-- The first ready chain starts its first operation, and no `expect` fails. -/
theorem Inv.start_next (h : Inv init gone top w) (t : Start) (hgone : ∀ r ∈ t.canceled, gone r)
    (hr : w.ready ≠ []) :
    ∃ progress w', w.start_next t = some (progress, w') ∧ Inv init gone top w' ∧
      w.ready.length ≤ w'.ready.length + 1 := by
  obtain ⟨id, ready, hready⟩ := exists_cons_of_ne_nil hr
  obtain ⟨c, hc, hact⟩ := (h.queued.mem_ready id).mp (by rw [hready]; exact mem_cons_self)
  obtain ⟨active, pending⟩ := c
  cases hact
  have hne := h.queued.busy id _ hc
  obtain ⟨op, rest, rfl⟩ := exists_cons_of_ne_nil (show pending ≠ [] from hne)
  have hchain : w.chain id = ⟨none, op :: rest⟩ := by rw [Worker.chain, hc]; rfl
  have hheld := h.books.chains id
  rw [← Worker.chain_eq, hchain] at hheld
  obtain ⟨hop, hrest⟩ := forall_mem_cons.mp hheld.each
  obtain ⟨done, hl⟩ := h.lanes id
  rw [hchain] at hl
  have hq : Queued (w.chains.erase id) ready := by
    have := h.queued.erase id
    rwa [hready, erase_cons_head] at this
  set w1 : Worker := { w with ready, chains := w.chains.erase id } with hw1
  obtain ⟨r, hstart, ⟨session, reads, writes, err, replies, h1, h2, h3, h4⟩, ⟨done', h5⟩, h6, h7⟩ :=
    start_begun (w := w1) hl hop hrest h.flights (by rw [Worker.active, hchain]) t
  set chain := r.1.chain none rest with hch
  have hnext : w.start_next t = some (r.1.progress, r.2.put_back id chain) := by
    unfold Worker.start_next
    rw [hready]
    simp only [hc]
    rw [← hw1, hstart]
    rfl
  rw [h1] at hnext h5 h6
  have hempty : chainIn (w.chains.erase id) id = ⟨none, []⟩ := by
    rw [chainIn_erase, if_pos rfl]
  have look : ∀ i, chainIn (if chain.active = none ∧ chain.pending = [] then w.chains.erase id
      else (w.chains.erase id).insert id chain) i = if i = id then chain else w.chain i := by
    intro i
    rw [chainIn_put_back _ _ _ hempty]
    split
    · rfl
    · rename_i hi
      rw [chainIn_erase, if_neg hi]
      rfl
  refine ⟨_, _, hnext, h.settle replies hl rfl look (fun x hx => ⟨?_, ?_, (h4 x hx).2⟩)
    (fun x => ?_) h7 ⟨done', by rw [← h2] at h5; exact h5⟩ (fun i _ => congrArg (AList.lookup i) h2)
    (hq.put_back _ hempty) h6, ?_⟩
  · -- Only the operation is answered: the rest of the chain stays.
    have hc1 := count_pos_iff.mpr (mem_map_of_mem (f := Prod.fst) hx)
    have hc2 := h3 x.1
    have hc3 := r.1.le_channels rest x.1
    rw [← hch] at hc3
    rw [count_append] at hc2
    exact count_pos_iff.mp (by omega)
  · exact (h4 x hx).1.mono (hgone x.1)
  · have hx := h3 x
    have hput := total_put_back w.chains id (fun c : Chain => c.channels.count x) rfl chain
    rw [← Worker.chain_eq, hchain] at hput
    rw [show Chain.channels ⟨none, op :: rest⟩ =
      op.channels ++ rest.flatMap Operation.channels from rfl] at hput
    simp only [Worker.chained, Worker.put_back, hw1]
    omega
  · simp only [Worker.put_back, hw1, hready, length_cons]
    split <;> simp

end moat_cache_store
