-- What the reply of a flush fence says: every put and delete accepted since the
-- flush fence before it was served without error, and so was the engine's own
-- flush. Failures go through the one error that the worker keeps.
import Moat.StoreHistory

namespace moat_cache_store

open moat_common moat_server List
open Option hiding or_assoc
open moat_server.storage (Session Versions)

def Order.mutates : Order → Bool
  | .Put .. | .Delete .. => true
  | _ => false

def Order.flushes : Order → Bool
  | .Fence (.Flush _) => true
  | _ => false

/-- The commands behind the last flush fence. -/
def sinceFlush (accepted : List Order) : List Order :=
  accepted.rtakeWhile (fun c => !c.flushes)

/-- A put or a delete that ended without error. `Missing` and `Changed` are results, not errors. -/
def Reply.fine : Reply → Bool
  | .Put (.ok _) | .Delete (.ok _) => true
  | _ => false

def Reply.failed : Reply → Bool
  | .Put (.error _) | .Delete (.error _) => true
  | _ => false

def Fine (sent : Replies) (c : Order) : Prop := ∃ o, c.answer sent = some o ∧ o.fine = true

def Fails (sent : Replies) (c : Order) : Prop := ∃ o, c.answer sent = some o ∧ o.failed = true

/-! ## The engine's flush -/

/-- One of the completions is a success of the flush that the fence of `r` waits for. -/
def Worker.hears (w : Worker) (completions : List storage.Completion) (r : Nat) : Prop :=
  ∃ ticket permit, w.fence = some ⟨.Flush r, permit, some ticket⟩ ∧
    .Flush ticket (.ok ()) ∈ completions

/-- The engine's flush for the fence of `r` succeeds in this turn. -/
def Worker.flushes (w : Worker) (t : Turn) (r : Nat) : Prop :=
  t.poll_error = none ∧ w.hears (w.session.poll t.events).1 r

/-- The engine's flush for the fence of `r` succeeds in the course of the actions. -/
def System.flushed (s : System) (r : Nat) : List Action → Prop
  | [] => False
  | a :: as =>
    (s.ended = false ∧ ∃ t, a = .turn t ∧ s.worker.flushes t r) ∨
      ∃ s', s.act a = some s' ∧ s'.flushed r as

def Action.events : Action → List storage.Event
  | .turn t => t.events
  | _ => []

def isFail : storage.Event → Bool
  | .fail .. => true
  | .complete .. => false

/-- Once an operation has ended because the queue failed, no operation completes in another way. -/
def FailsForGood (events : List storage.Event) : Prop :=
  events.Pairwise (fun a b => isFail a = true → isFail b = true)

/-! ## What the replies say so far -/

/-- The flush fences accepted so far. `ok r` tells that the engine's flush for `r` succeeded. -/
structure Told (ok : Nat → Prop) (w : Worker) : Prop where
  told : ∀ before after r, w.accepted = before ++ .Fence (.Flush r) :: after →
    (w.sent.lookup r = some (.Flush (.ok ())) ↔
      (∀ c ∈ sinceFlush before, c.mutates = true → Fine w.sent c) ∧ ok r)
  settled : ∀ before after r, w.accepted = before ++ .Fence (.Flush r) :: after → ok r →
    ∀ c ∈ before, c.mutates = true → c.answer w.sent ≠ none
  answered : ∀ r, ok r → w.sent.lookup r ≠ none

/-- The commands that the error kept by the worker speaks of: those since the last flush fence that
is over. -/
def Worker.window (w : Worker) : List Order :=
  match w.fence with
  | some ⟨.Flush _, _, _⟩ => sinceFlush w.accepted.dropLast
  | _ => sinceFlush w.accepted

/-- The worker keeps an error exactly if a mutation of the window has failed; or the queue is
`lost`, and then no flush succeeds any more. -/
structure Reported (lost : Prop) (ok : Nat → Prop) (w : Worker) : Prop extends Told ok w where
  noted : ∀ c ∈ w.window, Fails w.sent c → w.write_error ≠ none
  cause : w.write_error ≠ none → lost ∨ ∃ c ∈ w.window, c.mutates = true ∧ Fails w.sent c
  waiting : ∀ c ∈ w.accepted, c.mutates = true → c.answer w.sent = none → c ∈ w.window
  last : ∀ r permit ticket, w.fence = some ⟨.Flush r, permit, ticket⟩ →
    w.sent.lookup r = none ∧ ∃ before, w.accepted = before ++ [.Fence (.Flush r)]
  drained : w.fence_ticket ≠ none → w.chains.entries = []

variable {w : Worker} {c : Order} {sent : Replies} {init : Versions} {o : Reply}

variable {before : List Order} {replies : Replies} {r : Nat}

theorem window_flush {permit : Option Permit} {ticket : Option Nat}
    (hf : w.fence = some ⟨.Flush r, permit, ticket⟩)
    (ha : w.accepted = before ++ [.Fence (.Flush r)]) :
    w.window = sinceFlush before := by
  rw [Worker.window, hf, ha, dropLast_concat]

theorem window_sub (hc : c ∈ w.window) : c ∈ w.accepted := by
  unfold Worker.window sinceFlush at hc
  split at hc
  · exact dropLast_subset _ ((rtakeWhile_suffix _ _).subset hc)
  · exact (rtakeWhile_suffix _ _).subset hc

theorem sinceFlush_sub (hc : c ∈ sinceFlush before) : c ∈ before :=
  (rtakeWhile_suffix _ _).subset hc

theorem Fine.stays (h : c.answer sent ≠ none) : Fine (sent ++ replies) c ↔ Fine sent c := by
  unfold Fine
  rw [Order.answer_stays (isSome_iff_ne_none.mpr h)]

theorem Fails.stays (h : Fails sent c) (replies : Replies) : Fails (sent ++ replies) c := by
  obtain ⟨o, ho, hf⟩ := h
  exact ⟨o, by rw [Order.answer_stays (by rw [ho]; rfl), ho], hf⟩

/-! ## Replies to operations -/

/-- The callers of an operation wait for commands that were accepted and have no reply. -/
def Owned (w : Worker) (op : Operation) : Prop :=
  ∀ r ∈ op.channels, ∃ c ∈ w.accepted, c.chunk ≠ none ∧ c.channels = [r] ∧
    c.answer w.sent = none ∧ (op.is_read = false → c.mutates = true)

theorem Inv.owned {gone : Nat → Prop} {top : Nat} (h : Inv init gone top w) {id : ChunkId}
    {op : Operation} (hop : op ∈ (w.chain id).operations) : Owned w op := by
  intro r hr
  obtain ⟨done, hl⟩ := h.lanes id
  have hsil := hl.silent r (mem_flatMap.mpr ⟨op, hop, hr⟩)
  rw [← op.flatMap_channels id] at hr
  obtain ⟨c, hc, hcr⟩ := mem_flatMap.mp hr
  obtain ⟨hid, x, -, hx⟩ := Operation.orders_spec hc
  obtain rfl : r = x := by simpa [hx] using hcr
  have hacc := hl.mem_accepted (mem_append_right _ (mem_flatMap.mpr ⟨op, hop, hc⟩))
  refine ⟨c, hacc.1, by simp [hid], hx, by rw [Order.answer_one hx, hsil], fun hread => ?_⟩
  cases op with
  | Read => cases hread
  | Put | Delete => rw [mem_singleton.mp hc]; rfl

/-- A part of a turn that answers callers of operations, and keeps an error if a mutation fails. -/
structure Notes (lost : Prop) (w w' : Worker) : Prop where
  accepted : w'.accepted = w.accepted
  fence : w'.fence = w.fence
  drained : w.chains.entries = [] → w'.chains.entries = []
  sent : ∃ replies, w'.sent = w.sent ++ replies ∧ ∀ p ∈ replies,
    (∃ c ∈ w.accepted, c.chunk ≠ none ∧ c.channels = [p.1]) ∧
      (p.2.failed = true → w'.write_error ≠ none)
  kept : w.write_error ≠ none → w'.write_error ≠ none
  cause : w'.write_error ≠ none → w.write_error ≠ none ∨ lost ∨
    ∃ c ∈ w.accepted, c.mutates = true ∧ c.answer w.sent = none ∧ Fails w'.sent c

section Notes

variable {init : Versions} {gone : Nat → Prop} {top : Nat} {lost : Prop} {ok : Nat → Prop}
  {w w' : Worker}

/-- The reply channel of a fence is not that of a command of a chunk. -/
theorem fence_apart (h : Inv init gone top w) {after : List Order}
    (hs : w.accepted = before ++ .Fence (.Flush r) :: after) (hc : c ∈ w.accepted)
    (hid : c.chunk ≠ none) : c.channels ≠ [r] := by
  intro hr
  have hm : Order.Fence (.Flush r) ∈ w.accepted := by rw [hs]; simp
  have heq := h.books.channels.owner hc (mem_append_left _ hm)
    (by rw [hr]; exact mem_singleton_self r) (show r ∈ [r] from mem_singleton_self r)
  rw [heq] at hid
  exact hid rfl

theorem Notes.lookup (hn : Notes lost w w') (h : Inv init gone top w) {after : List Order}
    (hs : w.accepted = before ++ .Fence (.Flush r) :: after) :
    w'.sent.lookup r = w.sent.lookup r := by
  obtain ⟨replies, heq, hto⟩ := hn.sent
  rw [heq, lookup_append]
  cases hl : replies.lookup r with
  | none => exact or_none
  | some =>
    obtain ⟨⟨c, hc, hid, hr⟩, -⟩ := hto _ (lookup_mem hl)
    exact absurd hr (fence_apart h hs hc hid)

/-- A command answered by the step, with what it was answered. -/
theorem Notes.new (hn : Notes lost w w') (ho : c.answer w'.sent = some o)
    (hnone : c.answer w.sent = none) (hf : o.failed = true) : w'.write_error ≠ none := by
  obtain ⟨replies, heq, hto⟩ := hn.sent
  rw [heq, Order.answer_append, hnone, none_or] at ho
  unfold Order.answer at ho
  obtain ⟨r, -, hr⟩ := bind_eq_some_iff.mp ho
  exact (hto _ (lookup_mem hr)).2 hf

/-- Replies are added, none of which tells that a flush has succeeded. -/
theorem Told.send (h : Told ok w) (ha : w'.accepted = w.accepted) (hs : w'.sent = w.sent ++ replies)
    (hno : ∀ before after r, w.accepted = before ++ .Fence (.Flush r) :: after →
      replies.lookup r ≠ some (.Flush (.ok ()))) : Told ok w' := by
  refine ⟨fun before after r hx => ?_, fun before after r hx hr c hc hm => ?_, fun r hr => ?_⟩
  · rw [ha] at hx
    have hlook : w'.sent.lookup r = some (.Flush (.ok ())) ↔
        w.sent.lookup r = some (.Flush (.ok ())) := by
      rw [hs, lookup_append, or_eq_some_iff]
      exact ⟨fun ho => ho.resolve_right fun hn => hno before after r hx hn.2, .inl⟩
    rw [hlook, h.told before after r hx]
    refine and_congr_left fun hr => forall₃_congr fun c hc hm => ?_
    rw [hs, Fine.stays (h.settled before after r hx hr c (sinceFlush_sub hc) hm)]
  · rw [ha] at hx
    have := h.settled before after r hx hr c hc hm
    rwa [hs, Order.answer_stays (isSome_iff_ne_none.mpr this)]
  · rw [hs, lookup_append]
    exact fun hn => h.answered r hr (or_eq_none_iff.mp hn).1

theorem Told.notes (h : Told ok w) (hinv : Inv init gone top w) (hn : Notes lost w w') :
    Told ok w' := by
  obtain ⟨replies, heq, hto⟩ := hn.sent
  refine h.send hn.accepted heq fun before after r hs hl => ?_
  obtain ⟨⟨c, hc, hid, hr⟩, -⟩ := hto _ (lookup_mem hl)
  exact fence_apart hinv hs hc hid hr

theorem Reported.notes (h : Reported lost ok w) (hinv : Inv init gone top w)
    (hn : Notes lost w w') :
    Reported lost ok w' := by
  have hw : w'.window = w.window := by rw [Worker.window, Worker.window, hn.fence, hn.accepted]
  obtain ⟨replies, heq, hto⟩ := hn.sent
  refine ⟨h.toTold.notes hinv hn, fun c hc hf => ?_, fun he => ?_, fun c hc hm ha => ?_,
    fun r permit ticket hfence => ?_, fun ht => hn.drained (h.drained ?_)⟩
  · rw [hw] at hc
    obtain ⟨o, ho, hof⟩ := hf
    by_cases hold : c.answer w.sent = none
    · exact hn.new ho hold hof
    · refine hn.kept (h.noted c hc ⟨o, ?_, hof⟩)
      rwa [heq, Order.answer_stays (isSome_iff_ne_none.mpr hold)] at ho
  · rw [hw]
    rcases hn.cause he with he | hl | ⟨c, hc, hm, ha, hf⟩
    · rcases h.cause he with hl | ⟨c, hc, hm, hf⟩
      · exact .inl hl
      · exact .inr ⟨c, hc, hm, heq ▸ hf.stays replies⟩
    · exact .inl hl
    · exact .inr ⟨c, h.waiting c hc hm ha, hm, hf⟩
  · rw [hn.accepted] at hc
    rw [heq, Order.answer_append, or_eq_none_iff] at ha
    rw [hw]
    exact h.waiting c hc hm ha.1
  · rw [hn.fence] at hfence
    obtain ⟨hnone, before, ha⟩ := h.last r permit ticket hfence
    rw [hn.lookup hinv ha, hn.accepted]
    exact ⟨hnone, before, ha⟩
  · rwa [Worker.fence_ticket, hn.fence] at ht

end Notes

/-! ## Operations -/

section Operations

variable {lost : Prop} {w w' : Worker} {op : Operation}

/-- Nothing that a caller waits for has changed, and no error is kept but for a lost queue. -/
theorem Notes.same (ha : w'.accepted = w.accepted) (hf : w'.fence = w.fence)
    (hd : w.chains.entries = [] → w'.chains.entries = []) (hs : w'.sent = w.sent)
    (he : w'.write_error = w.write_error) : Notes lost w w' := by
  refine ⟨ha, hf, hd, ⟨[], by rw [hs, append_nil], fun p hp => by cases hp⟩, ?_, fun hn => .inl ?_⟩
  · rw [he]
    exact id
  · rwa [he] at hn

/-- An operation is answered, and its mutation has not failed. -/
theorem Notes.answer (ho : Owned w op) {channels : List Nat}
    (hsub : ∀ r ∈ channels, r ∈ op.channels)
    (hfine : o.failed = false) (ha : w'.accepted = w.accepted)
    (hf : w'.fence = w.fence) (hd : w.chains.entries = [] → w'.chains.entries = [])
    (hs : w'.sent = w.sent ++ channels.map (fun r => (r, o)))
    (he : w'.write_error = w.write_error) : Notes lost w w' := by
  refine ⟨ha, hf, hd, ⟨_, hs, fun p hp => ?_⟩, ?_, fun hn => .inl ?_⟩
  · obtain ⟨r, hr, rfl⟩ := mem_map.mp hp
    obtain ⟨c, hc, hid, hcr, -⟩ := ho r (hsub r hr)
    exact ⟨⟨c, hc, hid, hcr⟩, fun hn => by rw [hfine] at hn; cases hn⟩
  · rw [he]
    exact id
  · rwa [he] at hn

theorem Operation.failure_failed (op : Operation) (e : Error) :
    (op.failure e).failed = !op.is_read := by
  cases op <;> rfl

/-- An operation fails. The error is kept for a mutation, and for a read if the queue is lost. -/
theorem Notes.fail (ho : Owned w op) {e : Error}
    (hread : op.is_read = true → lost ∨ w'.write_error = w.write_error)
    (hkeep : op.is_read = false → w'.write_error ≠ none)
    (hkept : w.write_error ≠ none → w'.write_error ≠ none) (ha : w'.accepted = w.accepted)
    (hf : w'.fence = w.fence) (hd : w.chains.entries = [] → w'.chains.entries = [])
    (hs : w'.sent = w.sent ++ (op.fail e).replies) : Notes lost w w' := by
  rw [op.fail_replies] at hs
  refine ⟨ha, hf, hd, ⟨_, hs, fun p hp => ?_⟩, hkept, fun hn => ?_⟩
  · obtain ⟨r, hr, rfl⟩ := mem_map.mp hp
    obtain ⟨c, hc, hid, hcr, -⟩ := ho r hr
    refine ⟨⟨c, hc, hid, hcr⟩, fun hfail => hkeep ?_⟩
    rw [op.failure_failed] at hfail
    simpa using hfail
  · cases hop : op.is_read with
    | true =>
      rcases hread hop with hl | he
      · exact .inr (.inl hl)
      · exact .inl (he ▸ hn)
    | false =>
      obtain ⟨r, hmem⟩ : ∃ r, r ∈ op.channels := by
        cases op with
        | Read => cases hop
        | Put _ r => exact ⟨r, mem_singleton_self r⟩
        | Delete _ r => exact ⟨r, mem_singleton_self r⟩
      obtain ⟨c, hc, -, hcr, hnone, hm⟩ := ho r hmem
      refine .inr
        (.inr ⟨c, hc, hm hop, hnone, op.failure e, ?_, by rw [op.failure_failed, hop]; rfl⟩)
      rw [hs, Order.answer_append, hnone, none_or, Order.answer_one hcr, lookup_map_pair,
        if_pos hmem]

theorem Notes.trans {a b c : Worker} (h1 : Notes lost a b) (h2 : Notes lost b c) :
    Notes lost a c := by
  obtain ⟨first, hs1, hto1⟩ := h1.sent
  obtain ⟨second, hs2, hto2⟩ := h2.sent
  refine ⟨h2.accepted.trans h1.accepted, h2.fence.trans h1.fence, h2.drained ∘ h1.drained,
    ⟨first ++ second, by rw [hs2, hs1, append_assoc], fun p hp => ?_⟩, h2.kept ∘ h1.kept,
    fun hn => ?_⟩
  · rcases mem_append.mp hp with hp | hp
    · exact ⟨(hto1 p hp).1, fun hf => h2.kept ((hto1 p hp).2 hf)⟩
    · rw [← h1.accepted]
      exact hto2 p hp
  · rcases h2.cause hn with hn | hl | ⟨x, hx, hm, hnone, hf⟩
    · rcases h1.cause hn with hn | hl | ⟨x, hx, hm, hnone, hf⟩
      · exact .inl hn
      · exact .inr (.inl hl)
      · exact .inr (.inr ⟨x, hx, hm, hnone, by rw [hs2]; exact hf.stays second⟩)
    · exact .inr (.inl hl)
    · rw [hs1, Order.answer_append, or_eq_none_iff] at hnone
      exact .inr (.inr ⟨x, by rwa [← h1.accepted], hm, hnone.1, hf⟩)

theorem refused_notes (ho : Owned w op) (session : Session) (e : storage.Error) :
    Notes lost w (({ w with session } : Worker).refused op e).2 := by
  unfold Worker.refused
  split
  · exact .same rfl rfl (fun h => h) rfl rfl
  · simp only
    split
    · rename_i hread
      exact .fail ho (fun _ => .inr rfl) (fun hn => by rw [hread] at hn; cases hn)
        (fun h => h) rfl rfl
        (fun h => h) rfl
    · rename_i hread
      exact .fail ho (fun hn => absurd hn hread) (fun _ => nofun) (fun _ => nofun) rfl rfl
        (fun h => h) rfl

theorem start_write_notes (ho : Owned w op) (id : ChunkId) (value : Option Bytes) (t : Start) :
    Notes lost w (w.start_write id op value t).2 := by
  unfold Worker.start_write
  split
  · exact .same rfl rfl (fun h => h) rfl rfl
  · exact refused_notes ho _ _

theorem start_read_notes (ho : Owned w op) (id : ChunkId) (range : Option (Nat × Nat)) (t : Start) :
    Notes lost w (w.start_read id range op t).2 := by
  unfold Worker.start_read
  split
  · exact .same rfl rfl (fun h => h) rfl rfl
  · exact refused_notes ho _ _

/-- The callers of a read that have gone do not get in the way of the others. -/
theorem Owned.cancel {range : Option (Nat × Nat)} {lsn : Nat} {all left : List Waiter}
    {gone : List Nat} (ho : Owned w (.Read range lsn all))
    (hleft : left.map Waiter.reply = (all.map Waiter.reply).filter (· ∉ gone)) (lsn' : Nat) :
    Owned (w.send (answer_all (all.filter (·.reply ∈ gone)) .Canceled))
      (.Read range lsn' left) := by
  intro r hr
  rw [Operation.channels, hleft, mem_filter] at hr
  obtain ⟨c, hc, hid, hcr, hnone, -⟩ := ho r hr.1
  refine ⟨c, hc, hid, hcr, ?_, fun hn => by cases hn⟩
  rw [show (w.send _).sent = w.sent ++ _ from rfl, Order.answer_append, hnone, none_or,
    Order.answer_one hcr, answer_all, lookup_map_pair, if_neg]
  rw [map_reply_filter (· ∈ gone), mem_filter]
  intro hm
  simpa [hm.2] using hr.2

theorem grow_leader_reply {n : Nat} {room grown : Bool} {waiters left : List Waiter}
    (h : grow_leader n room waiters = some (grown, left)) :
    left.map Waiter.reply = waiters.map Waiter.reply := by
  unfold grow_leader at h
  split at h
  · cases h
    rfl
  · cases h

theorem start_notes {started : Started} (ho : Owned w op) {id : ChunkId} {t : Start}
    (hs : w.start id op t = some (started, w')) : Notes lost w w' := by
  cases op with
  | Put value =>
    have hw : Notes lost w _ := start_write_notes ho id (some value) t
    rwa [some.inj hs] at hw
  | Delete =>
    simp only [Worker.start] at hs
    split at hs
    · cases hs
      exact .answer ho (fun r hr => hr) (o := .Delete (.ok .Missing)) rfl rfl rfl
        (fun h => h) rfl rfl
    · split at hs
      · cases hs
        exact .answer ho (fun r hr => hr) (o := .Delete (.ok .Changed)) rfl rfl rfl (fun h => h) rfl
          rfl
      · have hw : Notes lost w _ := start_write_notes ho id none t
        rwa [some.inj hs] at hw
  | Read range lsn waiters =>
    simp only [Worker.start] at hs
    have hgone : Notes lost w
        (w.send (answer_all (waiters.filter (·.reply ∈ t.canceled)) .Canceled)) := by
      refine .answer ho (fun r hr => ?_) rfl rfl rfl (fun h => h) rfl rfl
      rw [map_reply_filter (· ∈ t.canceled)] at hr
      exact (mem_filter.mp hr).1
    have hleft := map_reply_filter (· ∉ t.canceled) waiters
    split at hs
    · cases hs
      exact hgone
    refine hgone.trans ?_
    split at hs
    · cases hs
      exact .answer (ho.cancel hleft lsn) (fun r hr => hr) rfl rfl rfl (fun h => h) rfl rfl
    rename_i stat _
    obtain ⟨⟨grown, left⟩, hg, hs⟩ := map_eq_some_iff.mp hs
    have hown := ho.cancel ((grow_leader_reply hg).trans hleft) stat.1
    split at hs
    · cases hs
      exact .same rfl rfl (fun h => h) rfl rfl
    · have hr : Notes lost _ _ := start_read_notes hown id range t
      rwa [hs] at hr

end Operations

/-! ## Starts and completions -/

section Steps

variable {init : Versions} {gone : Nat → Prop} {top : Nat} {lost : Prop} {w w' : Worker}

theorem entries_ne_nil {id : ChunkId} {c : Chain} (h : w.chains.lookup id = some c) :
    w.chains.entries ≠ [] := by
  intro he
  have := AList.mem_lookup_iff.mp h
  rw [he] at this
  cases this

theorem start_next_notes (hinv : Inv init gone top w) {t : Start} {progress : Bool}
    (hs : w.start_next t = some (progress, w')) : Notes lost w w' := by
  unfold Worker.start_next at hs
  split at hs
  · cases hs
  rename_i id ready _
  split at hs
  · rename_i active op pending hl
    obtain ⟨⟨started, w1⟩, hstart, hs⟩ := map_eq_some_iff.mp hs
    cases hs
    have hop : op ∈ (w.chain id).operations := by
      rw [Worker.chain, hl]
      simp [Chain.operations]
    have hn : Notes lost _ w1 :=
      start_notes (w := { w with ready, chains := w.chains.erase id }) (hinv.owned hop) hstart
    exact ⟨hn.accepted, hn.fence, fun he => absurd he (entries_ne_nil hl), hn.sent, hn.kept,
      hn.cause⟩
  · cases hs

variable {op : Operation} {out : Outcome}

theorem write_done_error {e : Error} (h : op.write_done (.error e) = some out) :
    op.is_read = false ∧ out.replies = (op.fail e).replies := by
  cases op <;> cases h <;> exact ⟨rfl, rfl⟩

theorem write_done_ok {lsn : Nat} (h : op.write_done (.ok lsn) = some out) :
    ∃ o : Reply, o.failed = false ∧ out.replies = op.channels.map (fun r => (r, o)) := by
  cases op with
  | Read => cases h
  | Put =>
    cases h
    exact ⟨.Put (.ok lsn), rfl, rfl⟩
  | Delete =>
    cases h
    exact ⟨.Delete (.ok (.Deleted lsn)), rfl, rfl⟩

theorem read_done_reply {result : Except Error (Bytes × Nat)}
    (h : op.read_done result = some out) :
    ∃ o : Reply, o.failed = false ∧ out.replies = op.channels.map (fun r => (r, o)) := by
  unfold Operation.read_done at h
  split at h
  · cases h
    exact ⟨_, rfl, rfl⟩
  · obtain ⟨p, -, h⟩ := map_eq_some_iff.mp h
    cases h
    exact ⟨_, rfl, rfl⟩
  · cases h

/-- A completion ends an operation, or the flush of the fence. -/
theorem handle_notes (hown : ∀ id, ∀ op ∈ (w.chain id).operations, Owned w op)
    {c : storage.Completion} {res : Except Error Unit} (hw : w.handle c = some (res, w'))
    (hlost : ∀ ticket error, c = .Failed ticket error → lost) :
    (Notes lost w w' ∧ ∀ ticket result, c ≠ .Flush ticket result) ∨
      (∃ ticket result, c = .Flush ticket result ∧ w.fence_ticket = some ticket ∧
        w.finish_fence (result.mapError (fun e => .Engine (.Engine (.Pipeline e)))) =
          some (res, w')) ∨
      ∃ ticket error, c = .Failed ticket error ∧ w.fence_ticket = some ticket ∧
        (w.keep_error (.Engine (.Engine (.Aborted error)))).finish_fence
          (.error (.Engine (.Engine (.Aborted error)))) = some (res, w') := by
  have active : ∀ {id op pending}, w.chains.lookup id = some ⟨some op, pending⟩ → Owned w op :=
    fun {id op pending} hl => hown id op (by rw [Worker.chain, hl]; simp [Chain.operations])
  cases c with
  | Failed ticket error =>
    simp only [Worker.handle] at hw
    split at hw
    iterate 2
      · obtain ⟨op, pending, out, hl, hr, rfl⟩ := answer_active_spec hw
        cases hr
        exact .inl ⟨.fail (active hl) (fun _ => .inl (hlost _ _ rfl)) (fun _ => some_ne_none _)
          (fun _ => some_ne_none _) rfl rfl (fun he => absurd he (entries_ne_nil hl)) rfl,
          by rintro _ _ ⟨⟩⟩
    · split at hw
      · rename_i ht
        exact .inr (.inr ⟨ticket, error, rfl, ht, hw⟩)
      · cases hw
  | Read =>
    simp only [Worker.handle] at hw
    split at hw
    · cases hw
    obtain ⟨op, pending, out, hl, hr, rfl⟩ := answer_active_spec hw
    obtain ⟨o, hfine, hsent⟩ := read_done_reply hr
    exact .inl ⟨.answer (active hl) (fun r hr => hr) hfine rfl rfl
      (fun he => absurd he (entries_ne_nil hl)) (congrArg _ hsent) rfl, by rintro _ _ ⟨⟩⟩
  | Write _ result =>
    simp only [Worker.handle] at hw
    split at hw
    · cases hw
    cases result with
    | error =>
      obtain ⟨op, pending, out, hl, hr, rfl⟩ := answer_active_spec hw
      obtain ⟨hread, hsent⟩ := write_done_error hr
      refine .inl ⟨.fail (active hl) (fun hn => ?_) (fun _ => some_ne_none _)
        (fun _ => some_ne_none _) rfl rfl (fun he => absurd he (entries_ne_nil hl))
        (congrArg _ hsent), by rintro _ _ ⟨⟩⟩
      rw [hread] at hn
      cases hn
    | ok =>
      obtain ⟨op, pending, out, hl, hr, rfl⟩ := answer_active_spec hw
      obtain ⟨o, hfine, hsent⟩ := write_done_ok hr
      exact .inl ⟨.answer (active hl) (fun r hr => hr) hfine rfl rfl
        (fun he => absurd he (entries_ne_nil hl)) (congrArg _ hsent) rfl, by rintro _ _ ⟨⟩⟩
  | Flush ticket result =>
    simp only [Worker.handle] at hw
    split at hw
    · rename_i ht
      exact .inr (.inl ⟨ticket, result, rfl, ht, hw⟩)
    · cases hw

end Steps

/-! ## Fences -/

theorem Sequence.executes {s t : Option storage.Version} {l : List (Order × Reply)}
    (h : Sequence s l t) (hm : (c, o) ∈ l) : ∃ a b, Executes a c o b := by
  induction h with
  | nil => cases hm
  | cons first _ ih =>
    rcases mem_cons.mp hm with he | hm
    · cases he
      exact ⟨_, _, first⟩
    · exact ih hm

theorem Executes.fine_or_failed {a b : Option storage.Version}
    (h : Executes a c o b) (hm : c.mutates = true) : o.fine = true ∨ o.failed = true := by
  cases h <;> first | exact .inl rfl | exact .inr rfl | cases hm

theorem Fine.not_fails (h : Fine sent c) : ¬ Fails sent c := by
  rintro ⟨o, ho, hf⟩
  obtain ⟨o', ho', hfine⟩ := h
  rw [ho] at ho'
  cases ho'
  cases o with
  | Put result | Delete result => cases result <;> simp_all [Reply.fine, Reply.failed]
  | _ => cases hf

section Fences

variable {init : Versions} {gone : Nat → Prop} {top : Nat} {lost : Prop} {ok : Nat → Prop}
  {w w' : Worker}

variable {c : Order} {r ticket : Nat} {result res : Except Error Unit} {t : Turn}
  {progress : Bool} {s s' : Session} {e : storage.Event}

/-- A mutation is in its chunk's lane: no mutation is canceled. -/
theorem Inv.mutation (h : Inv init gone top w) (hc : c ∈ w.accepted) (hm : c.mutates = true) :
    ∃ id done, c ∈ done ++ (w.chain id).operations.flatMap (·.orders id) ∧
      Lane (init.lookup id) id w.accepted w.sent (w.chain id).operations
        (w.session.index.lookup id) done := by
  obtain ⟨id, hid⟩ : ∃ id, c.chunk = some id := by
    cases c with
    | Read => cases hm
    | Put id | Delete id => exact ⟨id, rfl⟩
    | Fence => cases hm
  obtain ⟨done, hl⟩ := h.lanes id
  refine ⟨id, done, ?_, hl⟩
  rw [← hl.split, mem_filter, ordersOf, mem_filter]
  refine ⟨⟨hc, by simpa using hid⟩, ?_⟩
  simp only [kept, decide_eq_true_eq]
  intro hcan
  obtain ⟨_, _, _, rfl⟩ := h.books.channels.canceled c hc hcan
  cases hm

theorem Inv.fine_or_fails (h : Inv init gone top w) (hc : c ∈ w.accepted)
    (hm : c.mutates = true) (ha : c.answer w.sent ≠ none) : Fine w.sent c ∨ Fails w.sent c := by
  obtain ⟨o, ho⟩ := ne_none_iff_exists'.mp ha
  obtain ⟨id, done, hmem, hl⟩ := h.mutation hc hm
  rcases mem_append.mp hmem with hd | hops
  · have hin : (c, o) ∈ moat_cache_store.answered w.sent done :=
      mem_filterMap.mpr ⟨c, hd, by rw [ho]; rfl⟩
    obtain ⟨a, b, hx⟩ := hl.sequence.executes hin
    exact (hx.fine_or_failed hm).imp (fun hf => ⟨o, ho, hf⟩) (fun hf => ⟨o, ho, hf⟩)
  · obtain ⟨op, hop, hcm⟩ := mem_flatMap.mp hops
    obtain ⟨-, r, hr, hcr⟩ := Operation.orders_spec hcm
    rw [Order.answer_one hcr, hl.silent r (mem_flatMap.mpr ⟨op, hop, hr⟩)] at ho
    cases ho

theorem Inv.all_answered (h : Inv init gone top w) (hd : w.chains.entries = [])
    (hc : c ∈ w.accepted) (hm : c.mutates = true) : c.answer w.sent ≠ none := by
  obtain ⟨id, done, hmem, hl⟩ := h.mutation hc hm
  have hempty : w.chain id = ⟨none, []⟩ := by
    unfold Worker.chain
    cases hlook : w.chains.lookup id with
    | none => rfl
    | some => exact absurd hd (entries_ne_nil hlook)
  rw [hempty] at hmem
  have hdone : c ∈ done := by simpa [Chain.operations] using hmem
  exact isSome_iff_ne_none.mp (hl.done_answered c hdone)

/-- A fence that was accepted last stands nowhere else. -/
theorem last_fence (h : Inv init gone top w) {front after : List Order}
    (hl : w.accepted = before ++ [.Fence (.Flush r)])
    (hs : w.accepted = front ++ .Fence (.Flush r) :: after) : front = before := by
  rcases eq_nil_or_concat after with rfl | ⟨rest, x, rfl⟩
  · exact (append_inj_left' (hs.symm.trans hl) rfl)
  · exfalso
    have hx : x = .Fence (.Flush r) := by
      have h1 : w.accepted = (front ++ .Fence (.Flush r) :: rest) ++ [x] := by simp [hs]
      have := (h1.symm.trans hl)
      simpa using append_inj_right' this rfl
    have hnd := h.books.channels.distinct
    rw [hs, hx] at hnd
    simp [Order.channels, FenceReply.channels, nodup_append, nodup_cons] at hnd

theorem finish_fence_flush {permit : Option Permit} {ticket : Option Nat}
    (hf : w.fence = some ⟨.Flush r, permit, ticket⟩) (hw : w.finish_fence result = some (res, w')) :
    ∃ combined, (combined = .ok () ↔ result = .ok () ∧ w.write_error = none) ∧
      w'.accepted = w.accepted ∧ w'.sent = w.sent ++ [(r, .Flush combined)] ∧ w'.fence = none ∧
      w'.write_error = none := by
  unfold Worker.finish_fence at hw
  rw [hf] at hw
  cases hw
  refine ⟨_, ?_, rfl, rfl, rfl, rfl⟩
  cases result with
  | error => simp
  | ok => cases w.write_error <;> simp

/-- The fence after a command was taken. -/
def fenceAfter (fence : Option Fence) : Command → Option Fence
  | .Fence reply permit => some ⟨reply, permit, none⟩
  | _ => fence

/-- What `accept` leaves alone. -/
theorem accept_frame {command : Command} (hw : w.accept command = some w') :
    w'.accepted = w.accepted ++ [command.order] ∧ w'.sent = w.sent ∧
      w'.write_error = w.write_error ∧ w'.fence = fenceAfter w.fence command := by
  have enqueue : ∀ {w w' : Worker} {id op}, w.enqueue id op = some w' → w'.accepted = w.accepted ∧
      w'.sent = w.sent ∧ w'.write_error = w.write_error ∧ w'.fence = w.fence := by
    intro w w' id op hw
    unfold Worker.enqueue at hw
    split at hw
    · split at hw
      · obtain ⟨waiters, -, hw⟩ := map_eq_some_iff.mp hw
        cases hw
        exact ⟨rfl, rfl, rfl, rfl⟩
      · cases hw
        exact ⟨rfl, rfl, rfl, rfl⟩
    · cases hw
      exact ⟨rfl, rfl, rfl, rfl⟩
  cases command with
  | Fence =>
    cases hw
    exact ⟨rfl, rfl, rfl, rfl⟩
  | _ =>
    unfold Worker.accept at hw
    exact enqueue hw

theorem accept_window (hf : w.fence = none) {command : Command}
    (hw : w.accept command = some w') :
    w'.window = if command.order.flushes = true then w.window else w.window ++ [command.order] := by
  obtain ⟨ha, -, -, hfence⟩ := accept_frame hw
  have hold : w.window = sinceFlush w.accepted := by rw [Worker.window, hf]
  have hnew : ∀ c : Order, c.flushes = false →
      sinceFlush (w.accepted ++ [c]) = sinceFlush w.accepted ++ [c] := by
    intro c hc
    exact rtakeWhile_concat_pos _ _ _ (by simp [hc])
  rw [hold, Worker.window, hfence, ha]
  cases command with
  | Fence reply =>
    cases reply with
    | Flush => simp [Order.flushes, Command.order, fenceAfter]
    | Inventory => exact hnew _ rfl
    | Close => exact hnew _ rfl
  | _ =>
    simp only [fenceAfter, hf]
    exact hnew _ rfl

/-- A flush completes once. -/
theorem poll_flush {es : List storage.Event} {result : Except moat_engine.pipeline.Error Unit}
    (h : .Flush ticket result ∈ (s.poll es).1) : ticket ∈ s.flights := by
  induction es generalizing s with
  | nil => cases h
  | cons e _ ih =>
    unfold Session.poll at h
    cases he : s.happen e with
    | none =>
      rw [he] at h
      exact ih h
    | some x =>
      obtain ⟨c, s'⟩ := x
      rw [he] at h
      -- whatever happened, it was for a ticket in flight that is gone now
      obtain ⟨t, hmem, hc, hs'⟩ : ∃ t, t ∈ s.flights ∧
          (∀ t' r, c = .Flush t' r → t' = t) ∧ s'.flights = s.flights.erase t := by
        cases e with
        | complete t =>
          obtain ⟨f, hf, hcs⟩ := map_eq_some_iff.mp he
          cases hcs
          refine ⟨t, AList.lookup_isSome.mp (by rw [hf]; rfl), fun t' r' hr => ?_, rfl⟩
          cases f with
          | flush => cases hr; rfl
          | read => cases hr
          | write => cases hr
        | fail t =>
          obtain ⟨f, hf, hcs⟩ := map_eq_some_iff.mp he
          cases hcs
          exact ⟨t, AList.lookup_isSome.mp (by rw [hf]; rfl), by rintro _ _ ⟨⟩, rfl⟩
      rcases mem_cons.mp h with h | h
      · rw [hc ticket result h.symm]
        exact hmem
      · have := ih h
        rw [hs', AList.mem_erase] at this
        exact this.2

theorem happen_flush {result : Except moat_engine.pipeline.Error Unit}
    (he : s.happen e = some (.Flush ticket result, s')) :
    e = .complete ticket result ∧ ticket ∉ s'.flights := by
  cases e with
  | complete =>
    obtain ⟨f, hf, hcs⟩ := map_eq_some_iff.mp he
    cases f with
    | flush =>
      cases hcs
      exact ⟨rfl, by simp [Session.retire]⟩
    | read => cases hcs
    | write => cases hcs
  | fail =>
    obtain ⟨f, hf, hcs⟩ := map_eq_some_iff.mp he
    cases hcs

theorem happen_failed {error : moat_engine.pipeline.Error}
    (he : s.happen e = some (.Failed ticket error, s')) : e = .fail ticket error := by
  cases e with
  | complete =>
    obtain ⟨f, hf, hcs⟩ := map_eq_some_iff.mp he
    cases f <;> cases hcs
  | fail =>
    obtain ⟨f, hf, hcs⟩ := map_eq_some_iff.mp he
    cases hcs
    rfl

/-- The fence's flush is over, and no later completion is for its ticket. -/
theorem hears_over {permit : Option Permit} (hf : w.fence = some ⟨.Flush r, permit, some ticket⟩)
    (hf' : w'.fence = none)
    (hgone : ticket ∉ s.flights) (c : storage.Completion) (rest : List storage.Event) (x : Nat) :
    w.hears [c] x ∨ w'.hears (s.poll rest).1 x ↔ w.hears (c :: (s.poll rest).1) x := by
  have hnone : ¬ w'.hears (s.poll rest).1 x := by
    rintro ⟨t, _, ht, -⟩
    rw [hf'] at ht
    cases ht
  simp only [hnone, or_false]
  unfold Worker.hears
  refine exists₂_congr fun t _ => and_congr_right fun ht => ?_
  rw [mem_singleton, mem_cons]
  refine ⟨.inl, fun hm => hm.resolve_right fun hin => hgone ?_⟩
  rw [hf] at ht
  cases ht
  exact poll_flush hin

theorem fail_not_ok (f : FenceReply) (e : Error) (r : Nat) :
    (r, Reply.Flush (.ok ())) ∉ f.fail e := by
  cases f with
  | Flush | Inventory => simp [FenceReply.fail]
  | Close reply => cases reply <;> simp [FenceReply.fail]

/-- Nobody is told of a success once the loop has returned. -/
theorem Told.finish (h : Told ok w) (result : Except Error Unit) : Told ok (w.finish result) := by
  obtain ⟨replies, hsent, hno⟩ : ∃ replies, (w.finish result).sent = w.sent ++ replies ∧
      ∀ r, (r, Reply.Flush (.ok ())) ∉ replies := by
    obtain ⟨-, error, hsent⟩ := Books.finish_spec w result
    refine ⟨_, hsent, fun r hr => ?_⟩
    simp only [mem_append, mem_flatMap] at hr
    rcases hr with ((⟨entry, -, op, -, hr⟩ | hr) | ⟨c, -, hr⟩) | hr
    · rw [op.fail_replies] at hr
      obtain ⟨x, -, hx⟩ := mem_map.mp hr
      cases op <;> cases hx
    · cases hf : w.fence with
      | none => rw [hf] at hr; cases hr
      | some f => rw [hf] at hr; exact fail_not_ok f.reply _ r hr
    · cases c with
      | Fence reply => exact fail_not_ok reply _ r hr
      | _ => simp [Command.fail] at hr
    · cases hc : w.close_reply with
      | none => rw [hc] at hr; cases hr
      | some => rw [hc] at hr; simp at hr
  exact h.send rfl hsent fun _ _ r _ hn => hno r (lookup_mem hn)

variable (h : Reported lost ok w)
include h

theorem Reported.mono {lost' : Prop} {ok' : Nat → Prop} (hl : lost → lost')
    (hok : ∀ x, ok x ↔ ok' x) : Reported lost' ok' w := by
  have : ok = ok' := funext fun x => propext (hok x)
  subst this
  exact ⟨h.toTold, h.noted, fun he => (h.cause he).imp_left hl, h.waiting, h.last, h.drained⟩

/-- Nothing has changed that a flush depends on. -/
theorem Reported.of_eq (ha : w'.accepted = w.accepted) (hs : w'.sent = w.sent)
    (he : w'.write_error = w.write_error) (hwin : w'.window = w.window)
    (hf : ∀ r permit ticket, w'.fence = some ⟨.Flush r, permit, ticket⟩ →
      ∃ permit' ticket', w.fence = some ⟨.Flush r, permit', ticket'⟩)
    (hd : w'.fence_ticket ≠ none → w'.chains.entries = []) : Reported lost ok w' := by
  refine ⟨⟨?_, ?_, ?_⟩, ?_, ?_, ?_, fun r permit ticket hr => ?_, hd⟩
  · rw [ha, hs]
    exact h.told
  · rw [ha, hs]
    exact h.settled
  · rw [hs]
    exact h.answered
  · rw [hwin, hs, he]
    exact h.noted
  · rw [hwin, hs, he]
    exact h.cause
  · rw [hwin, hs, ha]
    exact h.waiting
  · obtain ⟨permit', ticket', hfence⟩ := hf r permit ticket hr
    rw [hs, ha]
    exact h.last r permit' ticket' hfence

theorem Reported.finish_close {reply ticket : Option Nat} {permit : Option Permit}
    (hf : w.fence = some ⟨.Close reply, permit, ticket⟩)
    (hw : w.finish_fence result = some (res, w')) :
    Reported lost ok w' := by
  unfold Worker.finish_fence at hw
  rw [hf] at hw
  cases hw
  refine h.of_eq rfl rfl rfl ?_ nofun (fun hn => absurd rfl hn)
  rw [Worker.window, Worker.window, hf]

/-- An inventory is no mutation and no flush. -/
theorem Reported.inventory {permit : Option Permit}
    (hf : w.fence = some ⟨.Inventory r, permit, none⟩) (entries : List InventoryEntry) :
    Reported lost ok (({ w with fence := none } : Worker).send
      ⟨dropped permit, [(r, .Inventory (.ok entries))]⟩) := by
  set o : Reply := .Inventory (.ok entries) with ho
  set w' := ({ w with fence := none } : Worker).send ⟨dropped permit, [(r, o)]⟩ with hw'
  have hwin : w'.window = w.window := by rw [Worker.window, Worker.window, hf]; rfl
  have hsent : w'.sent = w.sent ++ [(r, o)] := rfl
  have hin : ∀ {x o'}, List.lookup x [(r, o)] = some o' → o' = o := by
    intro x o' hx
    exact congrArg Prod.snd (mem_singleton.mp (lookup_mem hx))
  have hnew : ∀ {c : Order} {o'}, c.answer w'.sent = some o' →
      c.answer w.sent = some o' ∨ o' = o := by
    intro c o' ha
    rw [hsent, Order.answer_append] at ha
    rcases or_eq_some_iff.mp ha with ha | ⟨-, ha⟩
    · exact .inl ha
    · obtain ⟨x, -, hx⟩ := bind_eq_some_iff.mp ha
      exact .inr (hin hx)
  refine ⟨h.toTold.send rfl hsent fun before after x _ hx => ?_, fun c hc hfail => ?_, fun he => ?_,
    fun c hc hm hn => ?_, nofun, fun hn => absurd rfl hn⟩
  · rw [ho] at hin
    cases hin hx
  · obtain ⟨o', ho', hf'⟩ := hfail
    rcases hnew ho' with ho' | rfl
    · exact h.noted c (hwin ▸ hc) ⟨o', ho', hf'⟩
    · cases hf'
  · rw [hwin]
    exact (h.cause he).imp_right fun ⟨c, hc, hm, hf⟩ => ⟨c, hc, hm, hf.stays _⟩
  · rw [hsent, Order.answer_append, or_eq_none_iff] at hn
    rw [hwin]
    exact h.waiting c hc hm hn.1

theorem Reported.disconnected (hf : w.fence = none) : Reported lost ok w.disconnected := by
  refine h.of_eq rfl rfl rfl ?_ nofun (fun hn => absurd rfl hn)
  rw [Worker.window, Worker.window, hf]
  rfl

variable (hinv : Inv init gone top w)
include hinv

/-- What the error kept by the worker says when every chain is done: whether all mutations since
the last flush were fine. -/
theorem Reported.error_iff (hwin : w.window = sinceFlush before)
    (hd : w.chains.entries = []) (hl : ¬ lost) :
    w.write_error = none ↔ ∀ c ∈ sinceFlush before, c.mutates = true → Fine w.sent c := by
  rw [← hwin]
  constructor
  · intro he c hc hm
    have hacc := window_sub hc
    rcases hinv.fine_or_fails hacc hm (hinv.all_answered hd hacc hm) with hf | hf
    · exact hf
    · exact absurd he (h.noted c hc hf)
  · intro hall
    by_contra he
    rcases h.cause he with hlost | ⟨c, hc, hm, hf⟩
    · exact hl hlost
    · exact (hall c hc hm).not_fails hf

/-- A flush fence replies: `combined` is its own result, or the error that was kept. -/
theorem Reported.end_flush {permit : Option Permit} {ticket : Option Nat}
    (hf : w.fence = some ⟨.Flush r, permit, ticket⟩)
    (hd : w.chains.entries = []) {combined : Except Error Unit} (hl : result = .ok () → ¬ lost)
    (hc : combined = .ok () ↔ result = .ok () ∧ w.write_error = none)
    (ha : w'.accepted = w.accepted) (hs : w'.sent = w.sent ++ [(r, .Flush combined)])
    (hnf : w'.fence = none) (hne : w'.write_error = none) :
    Reported lost (fun x => ok x ∨ (x = r ∧ result = .ok ())) w' := by
  obtain ⟨hnone, before, hacc⟩ := h.last r permit ticket hf
  have hwin := window_flush hf hacc
  have hnok : ¬ ok r := fun hr => h.answered r hr hnone
  have hlook : ∀ x, w'.sent.lookup x = if x = r then some (.Flush combined) else
    w.sent.lookup x := by
    intro x
    have hone := lookup_map_pair [r] (.Flush combined) x
    simp only [map_cons, map_nil, mem_singleton] at hone
    rw [hs, lookup_append, hone]
    split
    · rename_i hx
      rw [hx, hnone]
      rfl
    · exact or_none
  have hall : ∀ c ∈ w.accepted, c.mutates = true → c.answer w.sent ≠ none :=
    fun c hc hm => hinv.all_answered hd hc hm
  have hfine : ∀ c ∈ w.accepted, c.mutates = true → (Fine w'.sent c ↔ Fine w.sent c) := by
    intro c hc hm
    rw [hs, Fine.stays (hall c hc hm)]
  have hwin' : w'.window = [] := by
    rw [Worker.window, hnf, ha, hacc]
    exact rtakeWhile_concat_neg _ _ _ (by simp [Order.flushes])
  refine ⟨⟨fun front after x hx => ?_, fun front after x hx _ c hc' hm => ?_, fun x hx => ?_⟩,
    fun c hc' => ?_, fun hn => absurd hne hn, fun c hc' hm hn => ?_, fun x p t hx => ?_,
    fun hn => ?_⟩
  · rw [ha] at hx
    have hsub : ∀ c ∈ sinceFlush front, c ∈ w.accepted := fun c hc => by
      rw [hx]
      exact mem_append_left _ (sinceFlush_sub hc)
    have hall' : (∀ c ∈ sinceFlush front, c.mutates = true → Fine w'.sent c) ↔
        ∀ c ∈ sinceFlush front, c.mutates = true → Fine w.sent c :=
      forall₃_congr fun c hc hm => hfine c (hsub c hc) hm
    rw [hlook, hall']
    by_cases hxr : x = r
    · subst hxr
      rw [if_pos rfl, last_fence hinv hacc hx]
      simp only [some.injEq, Reply.Flush.injEq, hnok, true_and, false_or, hc]
      constructor
      · rintro ⟨hr, he⟩
        exact ⟨(h.error_iff hinv hwin hd (hl hr)).mp he, hr⟩
      · rintro ⟨hfines, hr⟩
        exact ⟨hr, (h.error_iff hinv hwin hd (hl hr)).mpr hfines⟩
    · rw [if_neg hxr, h.told front after x hx]
      simp [hxr]
  · rw [ha] at hx
    have hmem : c ∈ w.accepted := by
      rw [hx]
      exact mem_append_left _ hc'
    rw [hs, Order.answer_stays (isSome_iff_ne_none.mpr (hall c hmem hm))]
    exact hall c hmem hm
  · rw [hlook]
    split
    · rintro ⟨⟩
    · rename_i hxr
      rcases hx with hx | ⟨hx, -⟩
      · exact h.answered x hx
      · exact absurd hx hxr
  · rw [hwin'] at hc'
    cases hc'
  · rw [ha] at hc'
    rw [hs, Order.answer_append, or_eq_none_iff] at hn
    exact absurd hn.1 (hall c hc' hm)
  · rw [hnf] at hx
    cases hx
  · rw [Worker.fence_ticket, hnf] at hn
    exact absurd rfl hn

theorem Reported.advance_fence (hd : w.chains.entries = []) {res : Except Error Bool}
    (hw : w.advance_fence t = some (res, w')) : Reported lost ok w' := by
  unfold Worker.advance_fence at hw
  split at hw
  · cases hw
  · cases hw
    exact h
  · rename_i reply permit hf
    cases hw
    exact h.inventory hf _
  · rename_i r permit hf
    split at hw
    · cases hw
      refine h.of_eq rfl rfl rfl ?_ (fun x p ticket hx => ?_) (fun _ => hd)
      · rw [Worker.window, Worker.window, hf]
      · cases hx
        exact ⟨permit, none, hf⟩
    · cases hw
      exact h.of_eq rfl rfl rfl rfl (fun x p ticket hx => ⟨p, ticket, hx⟩) (fun _ => hd)
    · rename_i e session _ _
      obtain ⟨⟨res', w1⟩, hr, hw⟩ := map_eq_some_iff.mp hw
      cases hw
      obtain ⟨combined, hc, h1, h2, h3, h4⟩ := finish_fence_flush (w := { w with session }) hf hr
      refine (h.end_flush hinv hf hd (fun hn => by cases hn) hc h1 h2 h3 h4).mono id fun x => ?_
      simp
  · rename_i reply hf
    obtain ⟨⟨res', w1⟩, hr, hw⟩ := map_eq_some_iff.mp hw
    cases hw
    exact h.finish_close hf hr

/-! ## Accepting -/

theorem Reported.accept {command : Command} {rest : List Command}
    (hr : w.receiver = command :: rest) (hf : w.fence = none)
    (hw : ({ w with receiver := rest } : Worker).accept command = some w') :
    Reported lost ok w' := by
  obtain ⟨ha, hs, he, hfence⟩ := accept_frame hw
  have hwin := accept_window (w := { w with receiver := rest }) hf hw
  simp only at ha hs he
  have hold : ({ w with receiver := rest } : Worker).window = w.window := rfl
  rw [hold] at hwin
  have hch := hinv.books.channels
  rw [hr] at hch
  have hfresh : ∀ r ∈ command.order.channels, w.sent.lookup r = none :=
    fun r hr => (hch.fresh hr).2
  have hnone : command.order.answer w.sent = none := by
    unfold Order.answer
    cases hc : command.order.channels with
    | nil => rfl
    | cons r => exact hfresh r (by rw [hc]; exact mem_cons_self)
  -- a split at a flush fence is one of the old commands, unless the fence is the new command
  have split : ∀ {before after r}, w'.accepted = before ++ .Fence (.Flush r) :: after →
      (∃ after', w.accepted = before ++ .Fence (.Flush r) :: after') ∨ w.sent.lookup r = none := by
    intro before after r hx
    rw [ha] at hx
    rcases eq_nil_or_concat after with rfl | ⟨after', x, rfl⟩
    · right
      have hcmd : command.order = .Fence (.Flush r) := by
        simpa using append_inj_right' hx rfl
      exact hfresh r (by rw [hcmd]; exact mem_singleton_self r)
    · left
      have hx' : w.accepted ++ [command.order] =
          (before ++ .Fence (.Flush r) :: after') ++ [x] := by
        simpa using hx
      exact ⟨after', append_inj_left' hx' rfl⟩
  have hmem : ∀ {c}, c ∈ w'.window → c ∈ w.window ∨ c = command.order := by
    intro c hc
    rw [hwin] at hc
    split at hc
    · exact .inl hc
    · simpa using hc
  have hsub : ∀ {c}, c ∈ w.window → c ∈ w'.window := by
    intro c hc
    rw [hwin]
    split
    · exact hc
    · exact mem_append_left _ hc
  refine ⟨⟨fun before after r hx => ?_, fun before after r hx hr c hc hm => ?_, ?_⟩,
    fun c hc hfail => ?_, fun hn => ?_, fun c hc hm hn => ?_, fun r permit ticket hx => ?_,
    fun hn => ?_⟩
  · rw [hs]
    rcases split hx with ⟨after', hx'⟩ | hx'
    · exact h.told before after' r hx'
    · rw [hx']
      exact ⟨nofun, fun hn => absurd hx' (h.answered r hn.2)⟩
  · rw [hs]
    rcases split hx with ⟨after', hx'⟩ | hx'
    · exact h.settled before after' r hx' hr c hc hm
    · exact absurd hx' (h.answered r hr)
  · rw [hs]
    exact h.answered
  · rw [hs] at hfail
    rw [he]
    rcases hmem hc with hc | rfl
    · exact h.noted c hc hfail
    · obtain ⟨o, ho, -⟩ := hfail
      rw [hnone] at ho
      cases ho
  · rw [he] at hn
    rw [hs]
    exact (h.cause hn).imp_right fun ⟨c, hc, hm, hf⟩ => ⟨c, hsub hc, hm, hf⟩
  · rw [hs] at hn
    rw [ha] at hc
    rcases mem_append.mp hc with hc | hc
    · exact hsub (h.waiting c hc hm hn)
    · rw [mem_singleton.mp hc] at hm ⊢
      rw [hwin, if_neg]
      · exact mem_append_right _ (mem_singleton_self _)
      · cases command with
        | Fence => cases hm
        | _ => nofun
  · rw [hfence] at hx
    cases command with
    | Fence =>
      cases hx
      exact ⟨hs ▸ hfresh r (mem_singleton_self r), w.accepted, ha⟩
    | _ =>
      rw [show _ = w.fence from rfl, hf] at hx
      cases hx
  · refine absurd ?_ hn
    rw [Worker.fence_ticket, hfence]
    cases command with
    | Fence => rfl
    | _ =>
      simp only [hf]
      rfl

/-! ## Turns -/

theorem Reported.receive (hf : w.fence = none) (hcl : w.closing = false) {n : Nat} {received : Bool}
    (hw : w.receive n = some (received, w')) :
    Reported lost ok w' ∧ Inv init gone top w' ∧ w'.fence_ticket = none := by
  have hnone : ∀ {w : Worker}, w.fence = none → w.fence_ticket = none := by
    intro w hw
    rw [Worker.fence_ticket, hw]
    rfl
  induction n generalizing w received with
  | zero =>
    cases hw
    exact ⟨h, hinv, hnone hf⟩
  | succ n ih =>
    unfold Worker.receive at hw
    split at hw
    · rename_i command rest hr
      obtain ⟨w1, hacc, hcl1, hinv1⟩ := hinv.accept hr hf hcl
      have hrep := h.accept hinv hr hf hacc
      simp only [hacc] at hw
      split at hw
      · cases hw
        refine ⟨hrep, hinv1, ?_⟩
        rw [Worker.fence_ticket, (accept_frame hacc).2.2.2]
        cases command with
        | Fence => rfl
        | _ => exact hnone hf
      · rename_i hfence
        obtain ⟨⟨_, w2⟩, h2, hw⟩ := map_eq_some_iff.mp hw
        cases hw
        exact ih hrep hinv1 (by simpa using hfence) (hcl1.trans hcl) h2
    · cases hw
      split
      · exact ⟨h, hinv, hnone hf⟩
      · exact ⟨h.disconnected hf, hinv.disconnected hf hcl, rfl⟩

theorem Reported.start_ready {n : Nat} {ts : List Start}
    (hg : ∀ s ∈ ts, ∀ r ∈ s.canceled, gone r) (hs : w.start_ready n ts = some (progress, w')) :
    Reported lost ok w' ∧ Inv init gone top w' ∧ w'.fence = w.fence := by
  induction n generalizing w ts progress with
  | zero =>
    cases hs
    exact ⟨h, hinv, rfl⟩
  | succ n ih =>
    obtain ⟨first, more, w1, h1, hinv', h2⟩ := hinv.start_ready_succ hg hs
    have hn : Notes lost w w1 := start_next_notes hinv h1
    obtain ⟨hrep, hinv2, hfence⟩ := ih (h.notes hinv hn) hinv'
      (fun s hs => hg s (mem_of_mem_tail hs)) h2
    exact ⟨hrep, hinv2, hfence.trans hn.fence⟩

/-- One event. If it is a success of the fence's flush, then the queue is not lost. -/
theorem Reported.event {c : storage.Completion} (he : w.session.happen e = some (c, s'))
    (hw : ({ w with session := s' } : Worker).handle c = some (.ok (), w'))
    (hl : lost → isFail e = true) (rest : List storage.Event) :
    Reported (lost ∨ isFail e = true) (fun x => ok x ∨ w.hears [c] x) w' ∧
      ∀ x, (w.hears [c] x ∨ w'.hears (s'.poll rest).1 x ↔ w.hears (c :: (s'.poll rest).1) x) := by
  have hmono : Reported (lost ∨ isFail e = true) ok w := h.mono .inl (fun _ => Iff.rfl)
  have hfailed : ∀ ticket error, c = .Failed ticket error → lost ∨ isFail e = true := by
    rintro ticket error rfl
    rw [happen_failed he]
    exact .inr rfl
  rcases handle_notes (w := { w with session := s' })
    (fun id op hop => hinv.owned (w := w) hop) hw hfailed with
    ⟨hn, hc⟩ | ⟨ticket, result, rfl, hft, hfin⟩ | ⟨ticket, error, rfl, hft, hfin⟩
  · have hnot : ∀ x, ¬ w.hears [c] x := by
      rintro x ⟨ticket, _, -, hmem⟩
      exact hc ticket _ (mem_singleton.mp hmem).symm
    have hnotes : Notes (lost ∨ isFail e = true) w w' :=
      ⟨hn.accepted, hn.fence, hn.drained, hn.sent, hn.kept, hn.cause⟩
    refine ⟨(hmono.notes hinv hnotes).mono id fun x => by simp [hnot x], fun x => ?_⟩
    simp only [hnot x, false_or]
    unfold Worker.hears
    rw [hnotes.fence]
    refine exists₂_congr fun ticket _ => and_congr_right fun _ => ?_
    rw [mem_cons]
    exact ⟨.inr, fun hm => hm.resolve_left fun heq => hc ticket _ heq.symm⟩
  · obtain ⟨r, permit, hf⟩ := hinv.flush_fence hft
    obtain ⟨rfl, hgone⟩ := happen_flush he
    obtain ⟨combined, hcomb, h1, h2, h3, h4⟩ :=
      finish_fence_flush (w := { w with session := s' }) hf hfin
    have hd := h.drained (by rw [show w.fence_ticket = some ticket from hft]; nofun)
    have hres : ∀ x, w.hears [.Flush ticket result] x ↔
        (x = r ∧ result.mapError (fun e => Error.Engine (.Engine (.Pipeline e))) = .ok ()) := by
      intro x
      unfold Worker.hears
      rw [hf]
      constructor
      · rintro ⟨t, _, ht, hm⟩
        cases ht
        cases mem_singleton.mp hm
        exact ⟨rfl, rfl⟩
      · rintro ⟨rfl, hr⟩
        refine ⟨ticket, permit, rfl, ?_⟩
        cases result with
        | ok => exact mem_singleton_self _
        | error => cases hr
    refine ⟨(hmono.end_flush hinv hf hd (fun hr hlost => ?_) hcomb h1 h2 h3 h4).mono id
      fun x => by rw [hres], hears_over hf h3 hgone _ rest⟩
    rcases hlost with hlost | hfail
    · cases hl hlost
    · cases hfail
  · obtain ⟨r, permit, hf⟩ := hinv.flush_fence hft
    have hnot : ∀ x, ¬ w.hears [.Failed ticket error] x := by
      rintro x ⟨t, _, -, hmem⟩
      cases mem_singleton.mp hmem
    obtain ⟨combined, hcomb, h1, h2, h3, h4⟩ := finish_fence_flush
      (w := ({ w with session := s' } : Worker).keep_error (.Engine (.Engine (.Aborted error)))) hf
      hfin
    have hd := h.drained (by rw [show w.fence_ticket = some ticket from hft]; nofun)
    have hgone : ticket ∉ s'.flights := by
      obtain ⟨f, -, hcs⟩ := map_eq_some_iff.mp (happen_failed he ▸ he)
      cases hcs
      simp [Session.retire]
    have hbad : combined = .ok () ↔ (.error (.Engine (.Engine (.Aborted error))) :
        Except Error Unit) = .ok () ∧ w.write_error = none := by simpa using hcomb
    refine ⟨(hmono.end_flush hinv hf hd (fun hr => by cases hr) hbad h1 h2 h3 h4).mono id
      fun x => by simp [hnot x],
      hears_over hf h3 hgone _ rest⟩

theorem Reported.handle_all {es : List storage.Event} (hl : lost → ∀ e ∈ es, isFail e = true)
    (hg : FailsForGood es) (hw : ({ w with session := (w.session.poll es).2 } : Worker).handle_all
      (w.session.poll es).1 = some (res, w')) :
    Reported (lost ∨ ∃ e ∈ es, isFail e = true)
      (fun x => ok x ∨ w.hears (w.session.poll es).1 x) w' := by
  induction es generalizing w lost ok with
  | nil =>
    cases hw
    refine h.mono .inl fun x => ?_
    simp [Worker.hears, Session.poll]
  | cons e es ih =>
    obtain ⟨hfirst, hrest⟩ := pairwise_cons.mp hg
    cases he : w.session.happen e with
    | none =>
      simp only [Session.poll, he] at hw ⊢
      refine (ih h hinv (fun hlost e' he' => hl hlost e' (mem_cons_of_mem _ he')) hrest hw).mono
        (Or.imp_right (Exists.imp fun _ => And.imp_left (mem_cons_of_mem _))) (fun x => Iff.rfl)
    | some x =>
      obtain ⟨c, s'⟩ := x
      obtain ⟨w1, h1, hs, hinv1⟩ := hinv.event he
      rw [handle_all_event he h1 hs] at hw
      obtain ⟨hrep, hears⟩ :=
        h.event hinv he h1 (fun hlost => hl hlost e mem_cons_self) es
      have hl' : lost ∨ isFail e = true → ∀ e' ∈ es, isFail e' = true := by
        rintro (hlost | hf) e' he'
        · exact hl hlost e' (mem_cons_of_mem _ he')
        · exact hfirst e' he' hf
      refine (ih hrep hinv1 hl' hrest hw).mono ?_ fun x => ?_
      · rintro ((hlost | hf) | ⟨e', he', hf⟩)
        · exact .inl hlost
        · exact .inr ⟨e, mem_cons_self, hf⟩
        · exact .inr ⟨e', mem_cons_of_mem _ he', hf⟩
      · simp only [Session.poll, he]
        rw [or_assoc, hs, hears]

theorem Reported.idle (hw : w.idle t = some w') : Reported lost ok w' := by
  unfold Worker.idle at hw
  split at hw
  · rename_i hc
    split at hw
    · rename_i command rest hr
      exact h.accept hinv hr hc.1 hw
    · cases hw
      split
      · exact h
      · exact h.disconnected hc.1
  · cases hw
    exact h

variable {res : Option (Except Error Unit)}

theorem Reported.end_turn (hw : w.end_turn t progress = some (res, w')) :
    Told ok w' ∧ (res = none → Reported lost ok w') := by
  unfold Worker.end_turn at hw
  split at hw
  · cases hw
    exact ⟨⟨h.told, h.settled, h.answered⟩, nofun⟩
  · split at hw
    · cases hw
      exact ⟨h.toTold, fun _ => h⟩
    · obtain ⟨w1, hi, hw⟩ := map_eq_some_iff.mp hw
      cases hw
      have hrep := h.idle hinv hi
      exact ⟨hrep.toTold, fun _ => hrep⟩

theorem Reported.turn_fence (hw : w.turn_fence t progress = some (res, w')) :
    Told ok w' ∧ (res = none → Reported lost ok w') := by
  unfold Worker.turn_fence at hw
  split at hw
  · rename_i hc
    obtain ⟨r, w1, h1, hinv1⟩ := hinv.advance_fence t hc.1
    rw [h1] at hw
    have hrep := h.advance_fence hinv hc.2 h1
    cases r with
    | error =>
      cases hw
      exact ⟨hrep.toTold, nofun⟩
    | ok => exact hrep.end_turn hinv1 hw
  · exact h.end_turn hinv hw

/-- One turn. A flush that succeeds in it was in flight when it began. -/
theorem Reported.turn (hw : w.turn t = some (res, w')) (hgone : ∀ r ∈ t.gone, gone r)
    (hl : lost → ∀ e ∈ t.events, isFail e = true) (hg : FailsForGood t.events) :
    Told (fun x => ok x ∨ w.flushes t x) w' ∧ (res = none →
      Reported (lost ∨ ∃ e ∈ t.events, isFail e = true) (fun x => ok x ∨ w.flushes t x) w') := by
  unfold Worker.turn at hw
  split at hw
  · cases hw
  rename_i received w1 h1
  -- the worker takes commands only if no fence stands
  obtain ⟨hrep1, hinv1, hsame1⟩ : Reported lost ok w1 ∧ Inv init gone top w1 ∧
      (w.fence_ticket = none ∧ w1.fence_ticket = none ∨ w1 = w) := by
    split at h1
    · rename_i hc
      obtain ⟨hrep, hinv1, hft⟩ := h.receive hinv hc.1 hc.2 h1
      refine ⟨hrep, hinv1, .inl ⟨?_, hft⟩⟩
      rw [Worker.fence_ticket, hc.1]
      rfl
    · cases h1
      exact ⟨h, hinv, .inr rfl⟩
  split at hw
  · cases hw
  rename_i started w2 h2
  obtain ⟨hrep2, hinv2, hfence2⟩ := hrep1.start_ready hinv1
    (fun s hs r hr => hgone r (mem_flatMap.mpr ⟨s, hs, hr⟩)) h2
  -- and starts operations only if its flush is not in flight
  have hears : ∀ x, w2.hears (w2.session.poll t.events).1 x ↔
      w.hears (w.session.poll t.events).1 x := by
    have hno : ∀ {v : Worker} {cs x}, v.fence_ticket = none → ¬ v.hears cs x := by
      rintro v cs x hv ⟨ticket, _, hf, -⟩
      rw [Worker.fence_ticket, hf] at hv
      cases hv
    have hft2 : w2.fence_ticket = w1.fence_ticket := by
      rw [Worker.fence_ticket, hfence2]
      rfl
    intro x
    rcases hsame1 with ⟨hw0, hw1⟩ | rfl
    · exact iff_of_false (hno (hft2.trans hw1)) (hno hw0)
    · by_cases hft : w1.fence_ticket = none
      · exact iff_of_false (hno (hft2.trans hft)) (hno hft)
      · have hempty := h.drained hft
        have hready : w1.ready = [] := by
          rw [eq_nil_iff_forall_not_mem]
          intro id hid
          obtain ⟨c, hc, -⟩ := (hinv.queued.mem_ready id).mp hid
          exact entries_ne_nil hc hempty
        rw [hready] at h2
        cases h2
        rfl
  simp only at hw
  split at hw
  · rename_i e he
    cases hw
    have hno : ∀ x, ¬ w.flushes t x := by
      rintro x ⟨hn, -⟩
      rw [he] at hn
      cases hn
    have hsame := hrep2.mono (fun hl => hl)
      (fun x => show ok x ↔ ok x ∨ w.flushes t x by simp [hno x])
    exact ⟨⟨hsame.told, hsame.settled, hsame.answered⟩, by rintro ⟨⟩⟩
  · rename_i he
    obtain ⟨w3, h3, hinv3⟩ := hinv2.handle_all t.events
    rw [h3] at hw
    have hrep3 := (hrep2.handle_all hinv2 hl hg h3).mono id fun x =>
      show _ ↔ ok x ∨ w.flushes t x by rw [hears, Worker.flushes, he]; simp
    exact hrep3.turn_fence hinv3 hw

end Fences

/-! ## Histories -/

structure System.Reports (lost : Prop) (ok : Nat → Prop) (s : System) : Prop where
  running : s.ended = false → Reported lost ok s.worker
  told : Told ok s.worker

/-- The engine's flush for the fence of `r` succeeds in this action. -/
def System.flushesIn (s : System) (a : Action) (r : Nat) : Prop :=
  s.ended = false ∧ ∃ t, a = .turn t ∧ s.worker.flushes t r

theorem System.Reports.act {lost : Prop} {ok : Nat → Prop} {s s' : System}
    (h : s.Reports lost ok) (hg : s.Good init (fun _ => True)) {a : Action}
    (ha : s.act a = some s')
    (hl : lost → ∀ e ∈ a.events, isFail e = true) (hf : FailsForGood a.events) :
    s'.Reports (lost ∨ ∃ e ∈ a.events, isFail e = true) (fun x => ok x ∨ s.flushesIn a x) := by
  -- an action in which no flush succeeds
  have quiet : (∀ x, ¬ s.flushesIn a x) → ∀ s1 : System, s1.ended = s.ended →
      (s.ended = false → Reported lost ok s1.worker) → Told ok s1.worker →
      s1.Reports (lost ∨ ∃ e ∈ a.events, isFail e = true) (fun x => ok x ∨ s.flushesIn a x) := by
    intro hno s1 he hrep htold
    have hok : (fun x => ok x ∨ s.flushesIn a x) = ok := funext fun x => propext (by simp [hno x])
    rw [hok]
    exact ⟨fun hn => (hrep (he ▸ hn)).mono .inl fun _ => Iff.rfl, htold⟩
  have ended : s.ended = true → ∀ x, ¬ s.flushesIn a x := by
    rintro he x ⟨hn, -⟩
    rw [he] at hn
    cases hn
  unfold System.act at ha
  cases a with
  | submit request =>
    have hno : ∀ x, ¬ s.flushesIn (.submit request) x := fun x ⟨_, t, ht, _⟩ => by cases ht
    simp only at ha
    split at ha
    · cases ha
      exact quiet hno s rfl h.running h.told
    · cases ha
      refine quiet hno _ rfl (fun he => ?_) ⟨h.told.told, h.told.settled, h.told.answered⟩
      have hrep := h.running he
      exact hrep.of_eq rfl rfl rfl rfl (fun r p ticket hr => ⟨p, ticket, hr⟩) hrep.drained
  | disconnect =>
    cases ha
    refine quiet (fun x ⟨_, t, ht, _⟩ => by cases ht) _ rfl (fun he => ?_)
      ⟨h.told.told, h.told.settled, h.told.answered⟩
    have hrep := h.running he
    exact hrep.of_eq rfl rfl rfl rfl (fun r p ticket hr => ⟨p, ticket, hr⟩) hrep.drained
  | turn t =>
    simp only at ha
    split at ha
    · rename_i he
      cases ha
      exact quiet (ended he) s rfl h.running h.told
    · rename_i he
      have hrun : s.ended = false := by simpa using he
      have hok : (fun x => ok x ∨ s.flushesIn (.turn t) x) = fun x => ok x ∨
        s.worker.flushes t x := by
        funext x
        simp [System.flushesIn, hrun]
      rw [hok]
      split at ha
      · cases ha
      · rename_i w hw
        cases ha
        obtain ⟨htold, hrep⟩ := (h.running hrun).turn (hg.running hrun) hw
          (fun _ _ => trivial) hl hf
        exact ⟨fun _ => hrep rfl, htold⟩
      · rename_i result w hw
        cases ha
        obtain ⟨htold, -⟩ := (h.running hrun).turn (hg.running hrun) hw
          (fun _ _ => trivial) hl hf
        exact ⟨nofun, htold.finish result⟩

theorem System.Reports.run {lost : Prop} {ok : Nat → Prop} {s s' : System}
    (h : s.Reports lost ok) (hg : s.Good init (fun _ => True)) {as : List Action}
    (hs : s.run as = some s')
    (hl : lost → ∀ e ∈ as.flatMap Action.events, isFail e = true)
    (hf : FailsForGood (as.flatMap Action.events)) :
    Told (fun x => ok x ∨ s.flushed x as) s'.worker := by
  induction as generalizing s lost ok with
  | nil =>
    cases hs
    have hok : (fun x => ok x ∨ s'.flushed x []) = ok := funext fun x => by simp [System.flushed]
    rw [hok]
    exact h.told
  | cons a as ih =>
    unfold System.run at hs
    rw [flatMap_cons] at hl hf
    obtain ⟨hfirst, hrest, hacross⟩ := pairwise_append.mp hf
    obtain ⟨s1, h1, hg1⟩ := hg.act (a := a) (fun _ _ _ _ => trivial)
    rw [h1] at hs
    have hrep := h.act hg h1 (fun hlost e he => hl hlost e (mem_append_left _ he)) hfirst
    have htold := ih hrep hg1 hs ?_ hrest
    · have hok : (fun x => ok x ∨ s.flushed x (a :: as)) =
          fun x => (ok x ∨ s.flushesIn a x) ∨ s1.flushed x as := by
        funext x
        simp [System.flushed, System.flushesIn, h1, or_assoc]
      rw [hok]
      exact htold
    · rintro (hlost | ⟨e', he', hfail⟩) e he
      · exact hl hlost e (mem_append_right _ he)
      · exact hacross e' he' e he hfail

/-- For every history of commands, completions in any order, retries, dropped replies, failed
submissions and failed completions: a flush fence replies `Ok` exactly if every put and delete that
the worker accepted since the flush fence before it ended without error, and the engine's own flush
succeeded. A queue that has lost its device fails every operation from then on. -/
theorem flush_reports_every_failed_mutation {index : Versions} {session : Session}
    (h : Session.open index = .ok session) (pool : ReadPool) (actions : List Action)
    (hf : FailsForGood (actions.flatMap Action.events)) :
    ∃ s, (System.new session pool).run actions = some s ∧
      ∀ before after r, s.worker.accepted = before ++ .Fence (.Flush r) :: after →
        (s.reply (.Fence (.Flush r)) = some (.Flush (.ok ())) ↔
          (∀ c ∈ sinceFlush before, c.mutates = true → ∃ o, s.reply c = some o ∧ o.fine = true) ∧
            (System.new session pool).flushed r actions) := by
  have good := System.new_good h pool (fun _ => True)
  obtain ⟨s, hs, -⟩ := good.run actions (fun _ _ _ _ => trivial)
  have hnew : ∀ {before after r},
      (Worker.new session pool).accepted ≠ before ++ .Fence (.Flush r) :: after := by
    intro before after r hn
    simp [Worker.new] at hn
  have start : (System.new session pool).Reports False (fun _ => False) := by
    have htold : Told (fun _ => False) (Worker.new session pool) :=
      ⟨fun before after r hx => absurd hx hnew, fun _ _ _ _ hr => hr.elim, fun _ hr => hr.elim⟩
    exact ⟨fun _ => ⟨htold, nofun, fun he => absurd rfl he, nofun, nofun, fun _ => rfl⟩, htold⟩
  have htold := start.run good hs False.elim hf
  refine ⟨s, hs, fun before after r hx => ?_⟩
  have := htold.told before after r hx
  simpa [System.reply, Order.answer, Order.channels, FenceReply.channels, Fine] using this

/-- A put whose submission fails, for its value does not fit a frame of one page, and two flushes
behind it. -/
def putAndTwoFlushes (id : ChunkId) : List Action :=
  [.submit (.Put id [7, 8]), .submit .Flush,
    .turn ⟨3, [⟨[], true, .Rejected (.Pipeline (.Frame (.FrameFull 8192 4096)))⟩], [], none,
      .Accepted 0, .ok (), false, false⟩,
    .turn ⟨3, [], [.complete 0 (.ok ())], none, .NoBuffer, .ok (), false, false⟩,
    .submit .Flush,
    .turn ⟨3, [], [], none, .Accepted 0, .ok (), false, false⟩,
    .turn ⟨3, [], [.complete 1 (.ok ())], none, .NoBuffer, .ok (), false, false⟩]

theorem a_failed_put_is_reported_once :
    (((System.new ⟨∅, ∅, 0, 1⟩ onePool).run (putAndTwoFlushes ⟨byte_list.zeros 16, rfl⟩)).map
      (fun s => s.worker.sent) =
        some [(0, .Put (.error (.Engine (.Engine (.Pipeline (.Frame (.FrameFull 8192 4096))))))),
          (1, .Flush (.error (.Engine (.Engine (.Pipeline (.Frame (.FrameFull 8192 4096))))))),
          (2, .Flush (.ok ()))]) ∧
    ∃ s, (System.new ⟨∅, ∅, 0, 1⟩ onePool).run (putAndTwoFlushes ⟨byte_list.zeros 16, rfl⟩) =
      some s ∧
      ∀ before after r, s.worker.accepted = before ++ .Fence (.Flush r) :: after →
        (s.reply (.Fence (.Flush r)) = some (.Flush (.ok ())) ↔
          (∀ c ∈ sinceFlush before, c.mutates = true → ∃ o, s.reply c = some o ∧ o.fine = true) ∧
            (System.new ⟨∅, ∅, 0, 1⟩ onePool).flushed r
              (putAndTwoFlushes ⟨byte_list.zeros 16, rfl⟩)) :=
  ⟨by decide +kernel, @flush_reports_every_failed_mutation ∅ _ rfl onePool _ (by
    unfold FailsForGood
    decide +kernel)⟩

end moat_cache_store
