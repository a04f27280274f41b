-- What a disk worker owes its callers: a reply on every channel, and the request
-- permit that came with it. The books of both, and how each part of a turn
-- keeps them.
import Moat.StoreFlight
import Moat.Tally

namespace moat_cache_store

open moat_common moat_server List Option

/-! ## Permits -/

/-- The permit of `r`, whose request is not finished. -/
def Permit.Live (p : Permit) (r : Nat) : Prop := p.owner = r ∧ p.request = true

theorem Permit.Live.drop {p : Permit} {r : Nat} (h : p.Live r) : p.drop = [r] := by
  rw [Permit.drop, Permit.finish_request, if_pos h.2, h.1]

/-- A caller with its own permit. -/
def Waiter.Held (x : Waiter) : Prop := ∃ p, x.permit = some p ∧ p.Live x.reply

/-- The leader's permit covers a buffer of `n` bytes. -/
def Covers (n : Nat) (waiters : List Waiter) : Prop :=
  ∃ x rest p, waiters = x :: rest ∧ x.permit = some p ∧ n ≤ p.bytes

/-- Every caller has its own permit, and a read has a leader. -/
def Operation.Held : Operation → Prop
  | .Read _ _ waiters => waiters ≠ [] ∧ ∀ x ∈ waiters, x.Held
  | .Put _ r p | .Delete _ r p => p.Live r

/-- `close` needs no credit. -/
def FenceReply.Held (permit : Option Permit) : FenceReply → Prop
  | .Flush r | .Inventory r => ∃ p, permit = some p ∧ p.Live r
  | .Close _ => permit = none

def Command.Held : Command → Prop
  | .Read _ _ r p | .Put _ _ r p | .Delete _ _ r p => p.Live r
  | .Fence reply permit => reply.Held permit

/-- The requests that the permits of an operation have not finished. -/
def Operation.requests : Operation → List Nat
  | .Read _ _ waiters => waiters.flatMap (fun x => dropped x.permit)
  | .Put _ _ p | .Delete _ _ p => p.drop

def Command.requests : Command → List Nat
  | .Read _ _ _ p | .Put _ _ _ p | .Delete _ _ _ p => p.drop
  | .Fence _ permit => dropped permit

/-- The channels of the callers that have a permit. -/
def FenceReply.permits : FenceReply → List Nat
  | .Flush r | .Inventory r => [r]
  | .Close _ => []

def Order.permits : Order → List Nat
  | .Read _ _ r | .Put _ _ r | .Delete _ _ r => [r]
  | .Fence reply => reply.permits

theorem Order.permits_sub (c : Order) : c.permits ⊆ c.channels := by
  cases c with
  | Fence reply =>
    cases reply with
    | Close => exact nil_subset _
    | _ => exact Subset.refl _
  | _ => exact Subset.refl _

section Held

variable {op : Operation} {waiters : List Waiter} {n : Nat}

theorem flatMap_dropped (h : ∀ x ∈ waiters, x.Held) :
    waiters.flatMap (fun x => dropped x.permit) = waiters.map Waiter.reply := by
  induction waiters with
  | nil => rfl
  | cons x waiters ih =>
    obtain ⟨p, hp, hl⟩ := h x mem_cons_self
    rw [flatMap_cons, map_cons, ih (fun y hy => h y (mem_cons_of_mem _ hy)), hp]
    exact congrArg (· ++ _) hl.drop

theorem Operation.Held.requests (h : op.Held) : op.requests = op.channels := by
  cases op with
  | Read => exact flatMap_dropped h.2
  | Put | Delete => exact Permit.Live.drop h

theorem FenceReply.Held.requests {f : FenceReply} {permit : Option Permit} (h : f.Held permit) :
    dropped permit = f.permits := by
  cases f with
  | Flush | Inventory =>
    obtain ⟨p, rfl, hl⟩ := h
    exact hl.drop
  | Close =>
    rw [show permit = none from h]
    rfl

theorem Command.Held.requests {c : Command} (h : c.Held) : c.requests = c.order.permits := by
  cases c with
  | Fence reply => exact FenceReply.Held.requests h
  | _ => exact Permit.Live.drop h

/-- Waiters that join an earlier read give their byte credit back. -/
theorem join_all (h : ∀ x ∈ waiters, x.Held) :
    ∃ joined, waiters.mapM Waiter.join = some joined ∧
      joined.map Waiter.reply = waiters.map Waiter.reply ∧ ∀ x ∈ joined, x.Held := by
  induction waiters with
  | nil => exact ⟨[], rfl, rfl, fun x hx => by cases hx⟩
  | cons x waiters ih =>
    obtain ⟨joined, hj, hr, hh⟩ := ih (fun y hy => h y (mem_cons_of_mem _ hy))
    obtain ⟨p, hp, hl⟩ := h x mem_cons_self
    have hx : x.join = some { x with permit := some { p with bytes := 0 } } := by
      simp [Waiter.join, hp, Permit.resize]
    refine ⟨{ x with permit := some { p with bytes := 0 } } :: joined, ?_, ?_, fun y hy => ?_⟩
    · rw [mapM_cons, hx, hj]
      rfl
    · rw [map_cons, map_cons, hr]
    · rcases mem_cons.mp hy with rfl | hy
      · exact ⟨_, rfl, hl⟩
      · exact hh y hy

/-- The leader has a permit to grow. -/
theorem grow_leader_spec (room : Bool) (hne : waiters ≠ []) (h : ∀ x ∈ waiters, x.Held) :
    ∃ grown left, grow_leader n room waiters = some (grown, left) ∧
      left.map Waiter.reply = waiters.map Waiter.reply ∧ (∀ x ∈ left, x.Held) ∧
      (grown = true → Covers n left) := by
  obtain ⟨⟨reply, permit⟩, rest, rfl⟩ := exists_cons_of_ne_nil hne
  obtain ⟨p, hp, hl⟩ := h _ mem_cons_self
  obtain rfl : permit = some p := hp
  have hgrow : (p.grow n room).2.Live reply ∧
      ((p.grow n room).1 = true → n ≤ (p.grow n room).2.bytes) := by
    unfold Permit.grow
    split
    · exact ⟨hl, fun _ => by assumption⟩
    · split
      · exact ⟨hl, fun _ => Nat.le_refl n⟩
      · exact ⟨hl, fun hn => by cases hn⟩
  refine ⟨_, _, rfl, rfl, fun x hx => ?_, fun hg => ⟨_, rest, _, rfl, rfl, hgrow.2 hg⟩⟩
  rcases mem_cons.mp hx with rfl | hx
  · exact ⟨_, rfl, hgrow.1⟩
  · exact h x (mem_cons_of_mem _ hx)

end Held

/-! ## Outcomes -/

/-- Every caller's request is let go, and every caller gets the reply. -/
def Outcome.each (callers : List Nat) (o : Reply) : Outcome :=
  ⟨callers, callers.map (fun r => (r, o))⟩

/-- The reply of an operation that ends with an error. -/
def Operation.failure (e : Error) : Operation → Reply
  | .Read .. => .Read (.error e)
  | .Put .. => .Put (.error e)
  | .Delete .. => .Delete (.error e)

/-- Only a caller that is `gone` gets no reply, and no chunk has a request to finish. -/
def Reply.Fair (gone : Nat → Prop) (r : Nat) : Reply → Prop
  | .Canceled => gone r
  | .Read (.ok (some chunk)) => chunk.permit.request = false
  | _ => True

theorem Reply.Fair.mono {gone gone' : Nat → Prop} {r : Nat} {o : Reply} (h : o.Fair gone r)
    (hg : gone r → gone' r) : o.Fair gone' r := by
  unfold Reply.Fair at h ⊢
  split at h
  · exact hg h
  · exact h
  · trivial

theorem Reply.Fair.ne {o : Reply} {r : Nat} (h : o.Fair (fun _ => False) r) : o ≠ .Canceled := by
  rintro rfl
  exact h

section Outcomes

variable {op : Operation} {waiters : List Waiter}

theorem answer_all_eq (h : ∀ x ∈ waiters, x.Held) (o : Reply) :
    answer_all waiters o = .each (waiters.map Waiter.reply) o := by
  rw [answer_all, flatMap_dropped h]
  rfl

theorem Operation.fail_replies (op : Operation) (e : Error) :
    (op.fail e).replies = op.channels.map (fun r => (r, op.failure e)) := by
  cases op <;> rfl

theorem Operation.fail_released (op : Operation) (e : Error) :
    (op.fail e).released = op.requests := by
  cases op <;> rfl

theorem Operation.fail_eq (h : op.Held) (e : Error) :
    op.fail e = .each op.channels (op.failure e) := by
  have h1 := (op.fail_released e).trans h.requests
  have h2 := op.fail_replies e
  generalize op.fail e = out at h1 h2
  cases out
  cases h1
  cases h2
  rfl

theorem Operation.failure_ne (op : Operation) (e : Error) : op.failure e ≠ .Canceled := by
  cases op <;> simp [Operation.failure]

theorem Operation.failure_fair (op : Operation) (e : Error) (gone : Nat → Prop) (r : Nat) :
    (op.failure e).Fair gone r := by
  cases op <;> trivial

/-! The replies of a failure go to the callers, and none of them is a cancellation or a chunk. -/

theorem Operation.fail_spec (op : Operation) (e : Error) :
    (op.fail e).replies.map Prod.fst = op.channels ∧
      ∀ gone, ∀ y ∈ (op.fail e).replies, y.2.Fair gone y.1 := by
  rw [op.fail_replies]
  refine ⟨by simp [Function.comp_def], fun gone y hy => ?_⟩
  obtain ⟨r, -, rfl⟩ := mem_map.mp hy
  exact op.failure_fair e gone r

theorem FenceReply.fail_spec (f : FenceReply) (e : Error) :
    (f.fail e).map Prod.fst = f.channels ∧ ∀ gone, ∀ y ∈ f.fail e, y.2.Fair gone y.1 := by
  cases f with
  | Flush | Inventory => simp [FenceReply.fail, FenceReply.channels, Reply.Fair]
  | Close reply => cases reply <;> simp [FenceReply.fail, FenceReply.channels, Reply.Fair]

theorem Command.fail_spec (c : Command) (e : Error) :
    (c.fail e).replies.map Prod.fst = c.order.channels ∧
      ∀ gone, ∀ y ∈ (c.fail e).replies, y.2.Fair gone y.1 := by
  cases c with
  | Fence reply => exact reply.fail_spec e
  | _ => simp [Command.fail, Command.order, Order.channels, Reply.Fair]

theorem Command.fail_released (c : Command) (e : Error) : (c.fail e).released = c.requests := by
  cases c <;> rfl

/-- A read has its leader's permit to give to the chunk, and the permit's request is finished. -/
theorem read_done_each {range : Option (Nat × Nat)} {lsn n len : Nat}
    (h : (Operation.Read range lsn waiters).Held) (hc : Covers n waiters) (hn : len ≤ n)
    (bytes : Bytes) : ∃ p : Permit, p.request = false ∧
      (Operation.Read range lsn waiters).read_done (.ok (bytes, len)) =
        some (.each (waiters.map Waiter.reply) (.Read (.ok (some ⟨bytes, lsn, p⟩)))) := by
  obtain ⟨⟨reply, permit⟩, rest, p, rfl, hp, hle⟩ := hc
  obtain rfl : permit = some p := hp
  obtain ⟨p', hp', ho, hr⟩ := h.2 _ mem_cons_self
  cases hp'
  refine ⟨⟨p.owner, len, false⟩, rfl, ?_⟩
  have hrest := flatMap_dropped fun x hx => h.2 x (mem_cons_of_mem _ hx)
  simp only [Operation.read_done, Permit.resize, if_pos (hn.trans hle), map_some,
    Permit.finish_request, if_pos hr]
  simp [answer_all, Outcome.each, show dropped none = [] from rfl, ho, hrest]

end Outcomes

/-! ## Chains -/

def Chain.operations (c : Chain) : List Operation := c.active.toList ++ c.pending

def Chain.channels (c : Chain) : List Nat := c.operations.flatMap Operation.channels

/-- All operations of the chain, and the leader of an active read has its byte credit. -/
structure Chain.Held (n : Nat) (c : Chain) : Prop where
  each : ∀ op ∈ c.operations, op.Held
  covers : ∀ range lsn waiters, c.active = some (.Read range lsn waiters) → Covers n waiters

theorem Chain.Held.active {n : Nat} {c : Chain} {op : Operation} (h : c.Held n)
    (ha : c.active = some op) : op.Held :=
  h.each op (by simp [Chain.operations, ha])

theorem Chain.Held.nil (n : Nat) : Chain.Held n ⟨none, []⟩ :=
  ⟨fun op hop => (by cases hop), fun _ _ _ ha => by cases ha⟩

/-- The chain of `id` in a table of chains. -/
def chainIn (chains : AList (fun _ : ChunkId => Chain)) (id : ChunkId) : Chain :=
  (chains.lookup id).getD ⟨none, []⟩

theorem Worker.chain_eq (w : Worker) (id : ChunkId) : w.chain id = chainIn w.chains id := rfl

section Chains

variable (chains : AList (fun _ : ChunkId => Chain)) (id : ChunkId)

theorem chainIn_insert (c : Chain)
    (i : ChunkId) : chainIn (chains.insert id c) i = if i = id then c else chainIn chains i := by
  unfold chainIn
  by_cases h : i = id
  · subst h; rw [if_pos rfl, AList.lookup_insert]; rfl
  · rw [if_neg h, AList.lookup_insert_ne h]

theorem chainIn_erase (i : ChunkId) :
    chainIn (chains.erase id) i = if i = id then ⟨none, []⟩ else chainIn chains i := by
  unfold chainIn
  by_cases h : i = id
  · subst h; rw [if_pos rfl, AList.lookup_erase]; rfl
  · rw [if_neg h, AList.lookup_erase_ne h]

/-- The chain of `id` is `c`, wherever the table keeps it; an empty chain is not kept. -/
theorem chainIn_put_back (c : Chain) (hid : chainIn chains id = ⟨none, []⟩) (i : ChunkId) :
    chainIn (if c.active = none ∧ c.pending = [] then chains else chains.insert id c) i =
      if i = id then c else chainIn chains i := by
  split
  · rename_i he
    by_cases hi : i = id
    · subst hi
      rw [if_pos rfl, hid]
      obtain ⟨active, pending⟩ := c
      obtain ⟨h1, h2⟩ := he
      cases h1
      cases h2
      rfl
    · rw [if_neg hi]
  · exact chainIn_insert chains id c i

variable (f : Chain → Nat) (h0 : f ⟨none, []⟩ = 0)
include h0

theorem total_insert_chain (c : Chain) :
    tally.total f (chains.insert id c) + f (chainIn chains id) = tally.total f chains + f c := by
  cases h : chains.lookup id with
  | none =>
    rw [tally.total_insert_none h, chainIn, h, getD_none, h0]
    rfl
  | some =>
    rw [chainIn, h, getD_some]
    exact tally.total_replace h c

theorem total_erase_chain :
    tally.total f (chains.erase id) + f (chainIn chains id) = tally.total f chains := by
  cases h : chains.lookup id with
  | none => rw [tally.erase_of_lookup_none h, chainIn, h, getD_none, h0, Nat.add_zero]
  | some =>
    rw [chainIn, h, getD_some]
    exact tally.total_erase h

theorem total_put_back (c : Chain) :
    tally.total f (if c.active = none ∧ c.pending = [] then chains.erase id
      else (chains.erase id).insert id c) + f (chainIn chains id) = tally.total f chains + f c := by
  have he := total_erase_chain chains id f h0
  split
  · rename_i hc
    obtain ⟨active, pending⟩ := c
    obtain ⟨rfl, rfl⟩ := hc
    rw [he, h0, Nat.add_zero]
  · have hi := total_insert_chain (chains.erase id) id f h0 c
    rw [chainIn_erase, if_pos rfl, h0] at hi
    omega

end Chains

/-! ## Channels -/

/-- Every channel belongs to one command, and replies go only to accepted ones. All channels are
below `top`. -/
structure Channels (top : Nat) (accepted receiver : List Order) (sent : Replies)
    (fence : Option Fence) (close_reply : Option Nat) : Prop where
  distinct : ((accepted ++ receiver).flatMap Order.channels).Nodup
  below : ∀ r ∈ (accepted ++ receiver).flatMap Order.channels, r < top
  sent_sub : ∀ r, sent.lookup r ≠ none → r ∈ accepted.flatMap Order.channels
  canceled : ∀ c ∈ accepted, c.answer sent = some .Canceled → ∃ id range r, c = .Read id range r
  fence_sub : ∀ f ∈ fence, f.reply.channels ≠ [] → .Fence f.reply ∈ accepted
  close_sub : ∀ r ∈ close_reply, .Fence (.Close (some r)) ∈ accepted

section Channels

variable {top : Nat} {accepted receiver : List Order} {sent replies : Replies}
  {fence : Option Fence} {close_reply : Option Nat} {c : Order} {r : Nat}

theorem Channels.fresh (h : Channels top accepted (c :: receiver) sent fence close_reply)
    (hr : r ∈ c.channels) : r ∉ accepted.flatMap Order.channels ∧ sent.lookup r = none := by
  have hn : r ∉ accepted.flatMap Order.channels := by
    have := h.distinct
    rw [flatMap_append, nodup_append] at this
    exact fun hm => this.2.2 r hm r (by simp [hr]) rfl
  refine ⟨hn, ?_⟩
  by_contra hs
  exact hn (h.sent_sub r hs)

/-- The next command is taken from the receiver. -/
theorem Channels.accept (h : Channels top accepted (c :: receiver) sent fence close_reply) :
    Channels top (accepted ++ [c]) receiver sent fence close_reply := by
  have ⟨c1, c2, c3, c4, c5, c6⟩ := h
  refine ⟨by simpa using c1, by simpa using c2, fun r hs => ?_, fun x hx ha => ?_,
    fun f hf hr => mem_append_left _ (c5 f hf hr), fun r hr => mem_append_left _ (c6 r hr)⟩
  · rw [flatMap_append]
    exact mem_append_left _ (c3 r hs)
  · rcases mem_append.mp hx with hx | hx
    · exact c4 x hx ha
    · exfalso
      rw [mem_singleton.mp hx] at ha
      unfold Order.answer at ha
      cases hch : c.channels with
      | nil => rw [hch] at ha; cases ha
      | cons r =>
        rw [hch] at ha
        have := (h.fresh (r := r) (by rw [hch]; exact mem_cons_self)).2
        simp only [List.head?_cons, bind_some] at ha
        rw [this] at ha
        cases ha

theorem lookup_mem {o : Reply} (h : replies.lookup r = some o) : (r, o) ∈ replies := by
  obtain ⟨front, back, rfl, -⟩ := lookup_eq_some_iff.mp h
  simp

variable (h : Channels top accepted receiver sent fence close_reply)
include h

/-- Two commands never share a channel. -/
theorem Channels.owner {c' : Order} (hc : c ∈ accepted) (hc' : c' ∈ accepted ++ receiver)
    (hr : r ∈ c.channels) (hr' : r ∈ c'.channels) : c = c' := by
  by_contra hne
  have hp := (nodup_flatMap.mp h.distinct).2
  have : Std.Symm (Function.onFun List.Disjoint Order.channels) := ⟨fun a b hab => hab.symm⟩
  exact hp.forall (mem_append_left _ hc) hc' hne hr hr'

/-- A channel of an accepted command is not one of the receiver. -/
theorem Channels.apart (hr : r ∈ accepted.flatMap Order.channels) :
    r ∉ receiver.flatMap Order.channels := by
  have := h.distinct
  rw [flatMap_append, nodup_append] at this
  exact fun hm => this.2.2 r hr r hm rfl

/-- Replies to the callers of some commands leave every other command without an answer. -/
theorem Channels.other_lane {P : Order → Prop} (hr : ∀ x ∈ replies,
      (∃ c ∈ accepted, P c ∧ x.1 ∈ c.channels) ∨ ∃ c ∈ receiver, x.1 ∈ c.channels) :
    ∀ c ∈ accepted, ¬ P c → c.answer replies = none := by
  intro c hc hn
  by_contra ha
  obtain ⟨o, ha⟩ := ne_none_iff_exists'.mp ha
  obtain ⟨x, hch, hx⟩ := bind_eq_some_iff.mp ha
  have hm : x ∈ c.channels := mem_of_mem_head? hch
  rcases hr _ (lookup_mem hx) with ⟨c', hc', ho, hx⟩ | ⟨c', hc', hx⟩
  · rw [h.owner hc (mem_append_left _ hc') hm hx] at hn
    exact hn ho
  · exact h.apart (mem_flatMap.mpr ⟨c, hc, hm⟩) (mem_flatMap.mpr ⟨c', hc', hx⟩)

/-- Replies on channels of accepted commands; a read may be canceled. -/
theorem Channels.send (hr : ∀ x ∈ replies, ∃ c ∈ accepted, x.1 ∈ c.channels ∧
      (x.2 = .Canceled → ∃ id range r, c = .Read id range r)) :
    Channels top accepted receiver (sent ++ replies) fence close_reply := by
  refine ⟨h.distinct, h.below, ?_, ?_, h.fence_sub, h.close_sub⟩
  · intro x hx
    rw [lookup_append] at hx
    cases hs : sent.lookup x with
    | some => exact h.sent_sub x (by simp [hs])
    | none =>
      rw [hs, none_or] at hx
      obtain ⟨o, ho⟩ := ne_none_iff_exists'.mp hx
      obtain ⟨c, hc, hm, -⟩ := hr _ (lookup_mem ho)
      exact mem_flatMap.mpr ⟨c, hc, hm⟩
  · intro c hc ha
    rw [Order.answer_append] at ha
    cases hs : c.answer sent with
    | some =>
      rw [hs] at ha
      exact h.canceled c hc (hs.trans ha)
    | none =>
      rw [hs, none_or] at ha
      obtain ⟨x, hch, hx⟩ := bind_eq_some_iff.mp ha
      obtain ⟨c', hc', hm, hread⟩ := hr _ (lookup_mem hx)
      rw [h.owner hc (mem_append_left _ hc') (mem_of_mem_head? hch) hm]
      exact hread rfl

end Channels

/-! ## The books -/

/-- How often `r` waits for a reply in the chains. -/
def Worker.chained (w : Worker) (r : Nat) : Nat :=
  tally.total (fun c : Chain => c.channels.count r) w.chains

/-- How many replies the worker still owes to the channel `r`. -/
def Worker.owes (w : Worker) (r : Nat) : Nat :=
  w.chained r + (w.fence.elim [] (·.reply.channels)).count r + w.close_reply.toList.count r +
    ((w.receiver.map Command.order).flatMap Order.channels).count r

/-- The requests whose permits are with the worker: in its chains, its fence and its receiver. -/
def Worker.requests (w : Worker) : List Nat :=
  w.chains.entries.flatMap (fun e => e.2.operations.flatMap Operation.requests) ++
    w.fence.elim [] (fun f => dropped f.permit) ++ w.receiver.flatMap Command.requests

/-- How many replies went to `r`. -/
def Worker.sentTo (w : Worker) (r : Nat) : Nat := (w.sent.map Prod.fst).count r

/-- Every channel has had its reply or waits for it, every permit is where its caller's channel is,
and a request's permit is let go when its caller gets the reply. -/
structure Books (gone : Nat → Prop) (top : Nat) (w : Worker) : Prop where
  channels : Channels top w.accepted (w.receiver.map Command.order) w.sent w.fence w.close_reply
  chains : ∀ id, (chainIn w.chains id).Held w.pool.max_class
  fence : ∀ f ∈ w.fence, f.reply.Held f.permit
  receiver : ∀ c ∈ w.receiver, c.Held
  owed : ∀ r, w.sentTo r + w.owes r = if r < top then 1 else 0
  paid : w.released = w.sent.map Prod.fst
  fair : ∀ x ∈ w.sent, x.2.Fair gone x.1
  fence_open : w.fence ≠ none → w.closing = false
  close_open : w.closing = false → w.close_reply = none

namespace Books

theorem new (session : storage.Session) (pool : ReadPool) {gone : Nat → Prop} :
    Books gone 0 (Worker.new session pool) :=
  ⟨⟨nodup_nil, nofun, fun _ hs => absurd rfl hs, nofun, nofun, nofun⟩, fun _ => .nil _, nofun,
    nofun, fun _ => rfl, rfl, nofun, fun hn => absurd rfl hn, fun _ => rfl⟩

variable {gone : Nat → Prop} {top r : Nat} {w w' : Worker} {id : ChunkId} {rest : List Command}

section

variable (h : Books gone top w)
include h

/-- Only what no caller waits for has changed. -/
theorem of_eq (hw : w' = { w with
      session := w'.session, ready := w'.ready, reads := w'.reads, writes := w'.writes
      write_error := w'.write_error, connected := w'.connected }) : Books gone top w' := by
  rw [hw]
  exact ⟨h.channels, h.chains, h.fence, h.receiver, h.owed, h.paid, h.fair, h.fence_open,
    h.close_open⟩

/-- Callers of operations get their replies, and leave the chains. -/
theorem settle (replies : Replies) (hw : w' = { w with
      session := w'.session, chains := w'.chains, ready := w'.ready, reads := w'.reads
      writes := w'.writes, write_error := w'.write_error
      sent := w.sent ++ replies, released := w.released ++ replies.map Prod.fst })
    (hheld : ∀ i, (chainIn w'.chains i).Held w.pool.max_class)
    (hb : ∀ r, (replies.map Prod.fst).count r + w'.chained r = w.chained r)
    (hown : ∀ x ∈ replies, ∃ c ∈ w.accepted, x.1 ∈ c.channels ∧
      (x.2 = .Canceled → ∃ id range r, c = .Read id range r))
    (hfair : ∀ x ∈ replies, x.2.Fair gone x.1) : Books gone top w' := by
  rw [hw]
  refine ⟨h.channels.send hown, hheld, h.fence, h.receiver, fun r => ?_, ?_, fun x hx => ?_,
    h.fence_open, h.close_open⟩
  · have h1 := h.owed r
    have h2 := hb r
    simp only [Worker.sentTo, Worker.owes, Worker.chained, map_append, count_append] at h1 h2 ⊢
    omega
  · simp [h.paid]
  · exact (mem_append.mp hx).elim (h.fair x) (hfair x)

/-- A command of a chunk has its place in the chain. -/
theorem enqueue {command : Command} (hr : w.receiver = command :: rest)
    (hch : command.order.channels = [r]) {chain : Chain} {ready : List ChunkId}
    (hcc : chain.channels = (chainIn w.chains id).channels ++ [r])
    (hheld : chain.Held w.pool.max_class) :
    Books gone top { w with
      receiver := rest, accepted := w.accepted ++ [command.order]
      chains := w.chains.insert id chain, ready } := by
  have hc := h.channels
  rw [hr] at hc
  refine ⟨hc.accept, fun i => ?_, h.fence, fun c hm => h.receiver c (hr ▸ mem_cons_of_mem _ hm),
    fun x => ?_, h.paid, h.fair, h.fence_open, h.close_open⟩
  · rw [chainIn_insert]
    split
    · exact hheld
    · exact h.chains i
  · have h1 := h.owed x
    have h2 := total_insert_chain w.chains id (fun c : Chain => c.channels.count x) rfl chain
    simp only [Worker.sentTo, Worker.owes, Worker.chained, hr, map_cons, flatMap_cons, hch, hcc,
      count_append] at h1 h2 ⊢
    omega

/-- A fence is taken from the receiver. -/
theorem accept_fence {reply : FenceReply} {permit : Option Permit}
    (hr : w.receiver = .Fence reply permit :: rest) (hf : w.fence = none)
    (hcl : w.closing = false) :
    Books gone top { w with
      receiver := rest, accepted := w.accepted ++ [.Fence reply]
      fence := some ⟨reply, permit, none⟩ } := by
  have hc := h.channels
  rw [hr] at hc
  have hc := hc.accept
  refine ⟨⟨hc.distinct, hc.below, hc.sent_sub, hc.canceled, ?_, hc.close_sub⟩, h.chains, ?_,
    fun c hm => h.receiver c (hr ▸ mem_cons_of_mem _ hm), fun x => ?_, h.paid, h.fair,
    fun _ => hcl, h.close_open⟩
  · rintro f ⟨⟩ -
    exact mem_append_right _ (mem_singleton_self _)
  · rintro f ⟨⟩
    exact h.receiver _ (hr ▸ mem_cons_self)
  · have h1 := h.owed x
    simp only [Worker.sentTo, Worker.owes, Worker.chained, hr, hf, map_cons, flatMap_cons,
      count_append, elim_none, elim_some, count_nil, Command.order, Order.channels] at h1 ⊢
    omega

theorem disconnected (hf : w.fence = none) (hcl : w.closing = false) :
    Books gone top w.disconnected := by
  have hc := h.channels
  refine ⟨⟨hc.distinct, hc.below, hc.sent_sub, hc.canceled, ?_, hc.close_sub⟩, h.chains, ?_,
    h.receiver, fun x => ?_, h.paid, h.fair, fun _ => hcl, h.close_open⟩
  · rintro f ⟨⟩ hn
    exact absurd rfl hn
  · rintro f ⟨⟩
    rfl
  · have h1 := h.owed x
    simp only [Worker.disconnected, Worker.sentTo, Worker.owes, Worker.chained, hf, elim_none,
      elim_some, FenceReply.channels] at h1 ⊢
    exact h1

/-- A flush or an inventory is over: its caller gets the reply. -/
theorem answer_fence {f : Fence} (hf : w.fence = some f) (hch : f.reply.channels = [r])
    (hp : f.reply.permits = [r]) {o : Reply} (ho : o.Fair gone r) (hcan : o ≠ .Canceled)
    (session : storage.Session) (write_error : Option Error) :
    Books gone top (({ w with session, write_error, fence := none } : Worker).send
      ⟨dropped f.permit, [(r, o)]⟩) := by
  have hown := h.channels.fence_sub f hf (by rw [hch]; exact cons_ne_nil r [])
  have hc : Channels top w.accepted _ (w.sent ++ [(r, o)]) _ _ := h.channels.send fun x hx => by
    rw [mem_singleton.mp hx]
    exact ⟨_, hown, by rw [Order.channels, hch]; exact mem_singleton_self r,
      fun hn => absurd hn hcan⟩
  refine ⟨⟨hc.distinct, hc.below, hc.sent_sub, hc.canceled, fun f hm => absurd hm (not_mem_none f),
    hc.close_sub⟩, h.chains, fun f hm => absurd hm (not_mem_none f), h.receiver, fun x => ?_, ?_,
    fun x hx => ?_, fun hn => absurd rfl hn, h.close_open⟩
  · have h1 := h.owed x
    simp only [Worker.send, Worker.sentTo, Worker.owes, Worker.chained, hf, hch, elim_none,
      elim_some, map_append, count_append, map_cons, map_nil, count_nil] at h1 ⊢
    omega
  · simp [Worker.send, h.paid, (h.fence f hf).requests, hp]
  · rcases mem_append.mp hx with hx | hx
    · exact h.fair x hx
    · rw [mem_singleton.mp hx]
      exact ho

/-- The flush of the fence is in flight. -/
theorem launch_fence {f : Fence} (hf : w.fence = some f) (session : storage.Session)
    (ticket : Option Nat) : Books gone top { w with session, fence := some { f with ticket } } := by
  have hc := h.channels
  refine ⟨⟨hc.distinct, hc.below, hc.sent_sub, hc.canceled, ?_, hc.close_sub⟩, h.chains, ?_,
    h.receiver, fun x => ?_, h.paid, h.fair, fun _ => h.fence_open (by rw [hf]; nofun),
      h.close_open⟩
  · rintro _ ⟨⟩
    exact hc.fence_sub f hf
  · rintro _ ⟨⟩
    exact h.fence f hf
  · have h1 := h.owed x
    simpa only [Worker.sentTo, Worker.owes, Worker.chained, hf, elim_some] using h1

/-- A close is over but for its reply. -/
theorem close {reply ticket : Option Nat} {permit : Option Permit}
    (hf : w.fence = some ⟨.Close reply, permit, ticket⟩) :
    Books gone top { w with
      fence := none, close_reply := reply, closing := true
      released := w.released ++ dropped permit } := by
  have hc := h.channels
  have hopen := h.close_open (h.fence_open (by rw [hf]; nofun))
  have hp := h.fence _ hf
  refine ⟨⟨hc.distinct, hc.below, hc.sent_sub, hc.canceled, nofun, fun r hr => ?_⟩, h.chains, nofun,
    h.receiver, fun x => ?_, ?_, h.fair, fun hn => absurd rfl hn, nofun⟩
  · cases hr
    exact hc.fence_sub _ hf (cons_ne_nil r [])
  · have h1 := h.owed x
    have h2 : (FenceReply.Close reply).channels = reply.toList := by cases reply <;> rfl
    simp only [Worker.sentTo, Worker.owes, Worker.chained, hf, hopen, h2, elim_none, elim_some,
      toList_none, count_nil] at h1 ⊢
    omega
  · rw [show permit = none from hp, ← h.paid]
    exact append_nil _

/-- A request waits in the receiver, on a channel of its own. -/
theorem submit {command : Command} (hch : command.order.channels = [top]) (hheld : command.Held) :
    Books gone (top + 1) { w with receiver := w.receiver ++ [command] } := by
  have ⟨c1, c2, c3, c4, c5, c6⟩ := h.channels
  have happ : (w.receiver ++ [command]).map Command.order =
      w.receiver.map Command.order ++ [command.order] := by
    rw [map_append]
    rfl
  refine ⟨⟨?_, fun r hr => ?_, c3, c4, c5, c6⟩, h.chains, h.fence, fun c hc => ?_, fun r => ?_,
    h.paid, h.fair, h.fence_open, h.close_open⟩
  · rw [happ, ← append_assoc, flatMap_append, flatMap_singleton, hch]
    refine nodup_append.mpr ⟨c1, nodup_singleton top, fun a ha b hb hab => ?_⟩
    rw [mem_singleton.mp hb] at hab
    exact absurd (c2 a ha) (by omega)
  · rw [happ, ← append_assoc, flatMap_append, flatMap_singleton, hch] at hr
    rcases mem_append.mp hr with hr | hr
    · exact Nat.lt_succ_of_lt (c2 r hr)
    · rw [mem_singleton.mp hr]
      exact Nat.lt_succ_self top
  · rcases mem_append.mp hc with hc | hc
    · exact h.receiver c hc
    · rw [mem_singleton.mp hc]
      exact hheld
  · have h1 := h.owed r
    simp only [Worker.sentTo, Worker.owes, Worker.chained, happ, flatMap_append, flatMap_singleton,
      hch, count_append, count_singleton, beq_iff_eq] at h1 ⊢
    split <;> split at h1 <;> split <;> omega

/-- A command of the worker has its permit there for as long as it is owed a reply. -/
theorem requests_count {c : Order} (hc : c ∈ w.accepted) (hr : r ∈ c.permits) :
    w.requests.count r = w.owes r := by
  have hcr : r ∈ c.channels := c.permits_sub hr
  have hclose : ∀ reply, .Fence (.Close reply) ∈ w.accepted →
    r ∉ (FenceReply.Close reply).channels := by
    intro reply hm hn
    rw [h.channels.owner hc (mem_append_left _ hm) hcr hn] at hr
    cases hr
  have h1 : (w.chains.entries.flatMap
      (fun e => e.2.operations.flatMap Operation.requests)).count r = w.chained r := by
    rw [count_flatMap]
    unfold Worker.chained tally.total
    congr 1
    apply map_congr_left
    intro e he
    have hheld := h.chains e.1
    rw [chainIn, AList.mem_lookup_iff.mpr he, getD_some] at hheld
    rw [Function.comp_apply]
    congr 1
    exact flatMap_congr fun op hop => (hheld.each op hop).requests
  have h2 : (w.fence.elim [] (fun f => dropped f.permit)).count r =
      (w.fence.elim [] (·.reply.channels)).count r := by
    cases hf : w.fence with
    | none => rfl
    | some f =>
      rw [elim_some, elim_some, (h.fence f hf).requests]
      cases hreply : f.reply with
      | Flush | Inventory => rfl
      | Close reply =>
        refine (count_eq_zero.mpr fun hm => ?_).symm
        refine hclose reply (hreply ▸ h.channels.fence_sub f hf ?_) hm
        rw [hreply]
        exact ne_nil_of_mem hm
  have h3 : w.close_reply.toList.count r = 0 := by
    cases hcl : w.close_reply with
    | none => rfl
    | some x =>
      exact count_eq_zero.mpr fun hm => hclose (some x) (h.channels.close_sub x hcl) hm
  have h4 : (w.receiver.flatMap Command.requests).count r = 0 := by
    refine count_eq_zero.mpr fun hm => ?_
    obtain ⟨x, hx, hxr⟩ := mem_flatMap.mp hm
    rw [(h.receiver x hx).requests] at hxr
    exact h.channels.apart (mem_flatMap.mpr ⟨c, hc, hcr⟩)
      (mem_flatMap.mpr ⟨_, mem_map_of_mem hx, x.order.permits_sub hxr⟩)
  have h5 : ((w.receiver.map Command.order).flatMap Order.channels).count r = 0 :=
    count_eq_zero.mpr (h.channels.apart (mem_flatMap.mpr ⟨c, hc, hcr⟩))
  rw [Worker.requests, Worker.owes, count_append, count_append]
  omega

/-- The permit of an accepted command is with the worker, or its request was let go. -/
theorem held_once {c : Order} (hc : c ∈ w.accepted) (hr : r ∈ c.permits) :
    w.released.count r + w.requests.count r = 1 := by
  have h1 := h.owed r
  have hlt : r < top := h.channels.below r
    (mem_flatMap.mpr ⟨c, mem_append_left _ hc, c.permits_sub hr⟩)
  rw [if_pos hlt, Worker.sentTo, ← h.paid] at h1
  rw [h.requests_count hc hr]
  exact h1

end

/-- What is settled when the worker has ended. -/
structure Settled (gone : Nat → Prop) (top : Nat) (w : Worker) : Prop where
  sent : ∀ r < top, w.sentTo r = 1
  owed : ∀ r, w.owes r = 0
  released : ∀ c ∈ w.accepted, ∀ r ∈ c.permits, w.released.count r = 1
  requests : w.requests = []
  fair : ∀ x ∈ w.sent, x.2.Fair gone x.1

/-- What `finish` sends and lets go. -/
theorem finish_spec (w : Worker) (result : Except Error Unit) :
    (w.finish result).released = w.released ++ w.requests ∧
    ∃ error, (w.finish result).sent = w.sent ++
      (w.chains.entries.flatMap
      (fun e => e.2.operations.flatMap (fun op => (op.fail error).replies)) ++
      w.fence.elim [] (·.reply.fail error) ++ w.receiver.flatMap
        (fun c => (c.fail error).replies) ++
      w.close_reply.elim [] (fun reply => [(reply, Reply.Close result)])) := by
  constructor
  · unfold Worker.finish Worker.requests
    cases result <;> cases w.fence <;> cases w.close_reply <;>
      simp [Worker.send, flatMap_append, flatMap_assoc, flatMap_map, Chain.operations, Fence.fail,
        Operation.fail_released, Command.fail_released]
  · unfold Worker.finish
    rcases result with e | _
    on_goal 1 => refine ⟨e, ?_⟩
    on_goal 2 => refine ⟨.Closed, ?_⟩
    all_goals cases w.fence <;> cases w.close_reply <;>
      simp [Worker.send, flatMap_append, flatMap_assoc, flatMap_map, Chain.operations, Fence.fail]

/-- Whoever still waits when the loop has returned is answered, and nothing is owed any more. -/
theorem finish (h : Books gone top w) (result : Except Error Unit) :
    Settled gone top (w.finish result) := by
  obtain ⟨hrel, error, hsent⟩ := finish_spec w result
  refine ⟨fun r hr => ?_, fun r => rfl, fun c hc r hr => ?_, rfl, fun x hx => ?_⟩
  · have h1 : ((w.chains.entries.flatMap (fun e => e.2.operations.flatMap
        (fun op => (op.fail error).replies))).map Prod.fst).count r = w.chained r := by
      rw [map_flatMap, count_flatMap]
      unfold Worker.chained tally.total
      congr 1
      apply map_congr_left
      intro e _
      simp only [Function.comp_apply, Chain.channels, map_flatMap]
      congr 2
      funext op
      exact (op.fail_spec error).1
    have h2 : ((w.fence.elim [] (·.reply.fail error)).map Prod.fst).count r =
        (w.fence.elim [] (·.reply.channels)).count r := by
      cases w.fence with
      | none => rfl
      | some f => rw [elim_some, elim_some, (f.reply.fail_spec error).1]
    have h3 : ((w.receiver.flatMap (fun c => (c.fail error).replies)).map Prod.fst).count r =
        ((w.receiver.map Command.order).flatMap Order.channels).count r := by
      rw [map_flatMap, flatMap_map]
      congr 2
      funext c
      exact (c.fail_spec error).1
    have h4 : ((w.close_reply.elim [] (fun reply => [(reply, Reply.Close result)])).map
        Prod.fst).count r = w.close_reply.toList.count r := by
      cases w.close_reply <;> rfl
    have h5 := h.owed r
    rw [if_pos hr] at h5
    unfold Worker.sentTo Worker.owes at *
    rw [hsent]
    simp only [map_append, count_append, h1, h2, h3, h4]
    omega
  · rw [hrel, count_append]
    exact h.held_once hc hr
  · rw [hsent] at hx
    simp only [mem_append, mem_flatMap] at hx
    rcases hx with hx | ((⟨e, -, op, -, hx⟩ | hx) | ⟨c, -, hx⟩) | hx
    · exact h.fair x hx
    · exact (op.fail_spec error).2 gone x hx
    · cases hf : w.fence with
      | none =>
        rw [hf] at hx
        cases hx
      | some f =>
        rw [hf] at hx
        exact (f.reply.fail_spec error).2 gone x hx
    · exact (c.fail_spec error).2 gone x hx
    · cases hc : w.close_reply with
      | none =>
        rw [hc] at hx
        cases hx
      | some =>
        rw [hc] at hx
        rw [mem_singleton.mp hx]
        trivial

end Books

end moat_cache_store
