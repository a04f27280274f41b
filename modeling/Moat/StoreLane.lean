-- What the commands of one chunk mean, executed one at a time on its entry of a
-- map, and the lane of a chunk: the commands answered so far are such an
-- execution, and those of its chain come behind them in the order accepted.
import Moat.StoreWorker

namespace moat_cache_store

open moat_common moat_server List Option
open moat_server.storage (Version view)

/-! ## The sequential map -/

/-- One command executed alone on its chunk's entry: the entry before it, its reply, and the entry
after it. A tombstone keeps its LSN in the entry. -/
inductive Executes : Option Version → Order → Reply → Option Version → Prop where
  | hit {id range r lsn value permit} :
    Executes (some ⟨lsn, some value⟩) (.Read id range r)
      (.Read (.ok (some ⟨view value range, lsn, permit⟩))) (some ⟨lsn, some value⟩)
  | miss {id range r s} (dead : s.bind (·.value) = none) :
    Executes s (.Read id range r) (.Read (.ok none)) s
  | read_failed {id range r s e} : Executes s (.Read id range r) (.Read (.error e)) s
  | canceled {id range r s} : Executes s (.Read id range r) .Canceled s
  | put {id value r s lsn} (newer : ∀ old ∈ s, old.lsn < lsn) :
    Executes s (.Put id value r) (.Put (.ok lsn)) (some ⟨lsn, some value⟩)
  | put_failed {id value r s e} : Executes s (.Put id value r) (.Put (.error e)) s
  | missing {id expected r s} (dead : s.bind (·.value) = none) :
    Executes s (.Delete id expected r) (.Delete (.ok .Missing)) s
  | changed {id expected r lsn value} (other : expected ≠ lsn) :
    Executes (some ⟨lsn, some value⟩) (.Delete id (some expected) r) (.Delete (.ok .Changed))
      (some ⟨lsn, some value⟩)
  | deleted {id expected r lsn value new} (same : ∀ e ∈ expected, e = lsn) (newer : lsn < new) :
    Executes (some ⟨lsn, some value⟩) (.Delete id expected r) (.Delete (.ok (.Deleted new)))
      (some ⟨new, none⟩)
  | delete_failed {id expected r s e} : Executes s (.Delete id expected r) (.Delete (.error e)) s

/-- Commands with their replies, executed one after the other. -/
inductive Sequence : Option Version → List (Order × Reply) → Option Version → Prop where
  | nil {s} : Sequence s [] s
  | cons {s t u c o l} (first : Executes s c o t) (rest : Sequence t l u) :
    Sequence s ((c, o) :: l) u

theorem Sequence.append {s t u : Option Version} {a b : List (Order × Reply)}
    (h1 : Sequence s a t) (h2 : Sequence t b u) : Sequence s (a ++ b) u := by
  induction h1 with
  | nil => exact h2
  | cons first _ ih => exact .cons first (ih h2)

theorem Sequence.same {s : Option Version} {cs : List Order} {o : Reply}
    (h : ∀ c ∈ cs, Executes s c o s) : Sequence s (cs.map (fun c => (c, o))) s := by
  induction cs with
  | nil => exact .nil
  | cons c _ ih =>
    exact .cons (h c mem_cons_self) (ih (fun c hc => h c (mem_cons_of_mem _ hc)))

/-- Canceled reads may be left out, or put back anywhere. -/
theorem Sequence.with_canceled {s t : Option Version} {l : List (Order × Reply)}
    (h : Sequence s (l.filter (fun x => x.2 ≠ .Canceled)) t)
    (hr : ∀ c, (c, Reply.Canceled) ∈ l → ∃ id range r, c = .Read id range r) : Sequence s l t := by
  induction l generalizing s with
  | nil => exact h
  | cons x l ih =>
    obtain ⟨c, o⟩ := x
    have hr' := fun c hc => hr c (mem_cons_of_mem _ hc)
    by_cases ho : o = .Canceled
    · subst ho
      obtain ⟨id, range, r, rfl⟩ := hr c mem_cons_self
      rw [filter_cons_of_neg (by simp)] at h
      exact .cons .canceled (ih h hr')
    · rw [filter_cons_of_pos (by simpa using ho)] at h
      cases h with
      | cons first rest => exact .cons first (ih rest hr')

/-! ## Channels -/

/-- The chunk that a command is about. -/
def Order.chunk : Order → Option ChunkId
  | .Read id _ _ | .Put id _ _ | .Delete id _ _ => some id
  | .Fence _ => none

def FenceReply.channels : FenceReply → List Nat
  | .Flush r | .Inventory r | .Close (some r) => [r]
  | .Close none => []

/-- The channels that a command's reply may go to: one, or none for a disconnect. -/
def Order.channels : Order → List Nat
  | .Read _ _ r | .Put _ _ r | .Delete _ _ r => [r]
  | .Fence reply => reply.channels

/-- What was sent back for a command. -/
def Order.answer (sent : Replies) (c : Order) : Option Reply :=
  c.channels.head?.bind (fun r => sent.lookup r)

/-- The channels of the callers that wait for an operation. -/
def Operation.channels : Operation → List Nat
  | .Read _ _ waiters => waiters.map Waiter.reply
  | .Put _ r _ | .Delete _ r _ => [r]

/-- The commands that an operation of `id` stands for, in the order accepted. -/
def Operation.orders (id : ChunkId) : Operation → List Order
  | .Read range _ waiters => (waiters.map Waiter.reply).map (.Read id range)
  | .Put value r _ => [.Put id value r]
  | .Delete expected r _ => [.Delete id expected r]

variable {c : Order}

theorem Operation.orders_spec {id : ChunkId} {op : Operation}
    (h : c ∈ op.orders id) : c.chunk = some id ∧ ∃ r ∈ op.channels, c.channels = [r] := by
  cases op with
  | Read =>
    obtain ⟨r, hr, rfl⟩ := mem_map.mp h
    exact ⟨rfl, r, hr, rfl⟩
  | Put _ r _ | Delete _ r _ =>
    rw [mem_singleton.mp h]
    exact ⟨rfl, r, mem_singleton_self r, rfl⟩

theorem Operation.flatMap_channels (id : ChunkId) (op : Operation) :
    (op.orders id).flatMap Order.channels = op.channels := by
  cases op with
  | Read _ _ waiters =>
    simp only [Operation.orders, Operation.channels, flatMap_map, Order.channels]
    exact (map_eq_flatMap ..).symm
  | Put => rfl
  | Delete => rfl

theorem lookup_map_pair (l : List Nat) (o : Reply) (r : Nat) :
    List.lookup r (l.map (fun x => (x, o))) = if r ∈ l then some o else none := by
  induction l with
  | nil => rfl
  | cons x l ih =>
    rw [map_cons, lookup_cons, ih]
    by_cases h : r = x
    · simp [h]
    · simp [h, beq_eq_false_iff_ne.mpr h]

/-- The first reply counts. -/
theorem Order.answer_append (sent replies : Replies) (c : Order) :
    c.answer (sent ++ replies) = (c.answer sent).or (c.answer replies) := by
  unfold Order.answer
  cases c.channels.head? with
  | none => rfl
  | some => exact lookup_append

theorem Order.answer_map (c : Order) (channels : List Nat) (o : Reply) :
    c.answer (channels.map (fun r => (r, o))) =
      if ∃ r ∈ c.channels.head?, r ∈ channels then some o else none := by
  unfold Order.answer
  cases c.channels.head? with
  | none => simp
  | some => simp [lookup_map_pair]

theorem Order.answer_one {r : Nat} (hc : c.channels = [r]) (sent : Replies) :
    c.answer sent = sent.lookup r := by
  simp [Order.answer, hc]

/-- An answer stays. -/
theorem Order.answer_stays {sent : Replies} (h : (c.answer sent).isSome)
    (replies : Replies) : c.answer (sent ++ replies) = c.answer sent := by
  rw [Order.answer_append, or_of_isSome h]

/-! ## Lanes -/

/-- The commands of a chunk among those accepted. -/
def ordersOf (id : ChunkId) (accepted : List Order) : List Order :=
  accepted.filter (fun c => c.chunk = some id)

/-- Not canceled. -/
def kept (sent : Replies) (c : Order) : Bool := decide (c.answer sent ≠ some .Canceled)

/-- The commands that have an answer, with it. -/
def answered (sent : Replies) (cs : List Order) : List (Order × Reply) :=
  cs.filterMap (fun c => (c.answer sent).map (fun o => (c, o)))

/-- The state of one chunk's commands. Those `done` have their answers, which are an execution from
`init` to the published entry; behind them come those of the operations in the chain, which have
none. Canceled reads are left out. -/
structure Lane (init : Option Version) (id : ChunkId) (accepted : List Order) (sent : Replies)
    (ops : List Operation) (entry : Option Version) (done : List Order) : Prop where
  split : (ordersOf id accepted).filter (kept sent) = done ++ ops.flatMap (·.orders id)
  done_answered : ∀ c ∈ done, (c.answer sent).isSome
  sequence : Sequence init (answered sent done) entry
  silent : ∀ r ∈ ops.flatMap Operation.channels, sent.lookup r = none
  distinct : (ops.flatMap Operation.channels).Nodup

section Lane

variable {init entry : Option Version} {id : ChunkId} {accepted : List Order} {sent : Replies}
  {ops : List Operation} {done : List Order}

theorem answered_congr {sent' : Replies} {cs : List Order}
    (h : ∀ c ∈ cs, c.answer sent' = c.answer sent) : answered sent' cs = answered sent cs :=
  filterMap_congr (fun c hc => by rw [h c hc])

section

variable (h : Lane init id accepted sent ops entry done)
include h

/-- Commands of a lane are accepted commands of its chunk. -/
theorem Lane.mem_accepted
    (hc : c ∈ done ++ ops.flatMap (·.orders id)) : c ∈ accepted ∧ c.chunk = some id := by
  rw [← h.split] at hc
  simpa [ordersOf] using (mem_filter.mp hc).1

theorem Lane.channel_accepted {r : Nat} (hr : r ∈ ops.flatMap Operation.channels) :
    ∃ c ∈ accepted, c.chunk = some id ∧ c.channels = [r] := by
  obtain ⟨op, hop, hr⟩ := mem_flatMap.mp hr
  rw [← op.flatMap_channels id] at hr
  obtain ⟨c, hc, hcr⟩ := mem_flatMap.mp hr
  obtain ⟨-, r', -, hr'⟩ := Operation.orders_spec hc
  rw [hr'] at hcr
  rw [mem_singleton.mp hcr]
  have := h.mem_accepted (mem_append_right _ (mem_flatMap.mpr ⟨op, hop, hc⟩))
  exact ⟨c, this.1, this.2, hr'⟩

/-- Replies on the channels of other commands do not touch a lane. -/
theorem Lane.send_other {replies : Replies}
    (ho : ∀ c ∈ accepted, c.chunk = some id → c.answer replies = none) :
    Lane init id accepted (sent ++ replies) ops entry done := by
  have same : ∀ c ∈ ordersOf id accepted, c.answer (sent ++ replies) = c.answer sent := by
    intro c hc
    have hc := mem_filter.mp hc
    rw [Order.answer_append, ho c hc.1 (by simpa using hc.2), or_none]
  have same' : ∀ c ∈ done, c.answer (sent ++ replies) = c.answer sent :=
    fun c hc => Order.answer_stays (h.done_answered c hc) replies
  refine ⟨?_, ?_, ?_, ?_, h.distinct⟩
  · rw [← h.split]
    exact filter_congr (fun c hc => by simp only [kept, same c hc])
  · intro c hc
    rw [same' c hc]
    exact h.done_answered c hc
  · rw [answered_congr same']
    exact h.sequence
  · intro r hr
    obtain ⟨c, hc, hid, hcr⟩ := h.channel_accepted hr
    have := ho c hc hid
    rw [Order.answer_one hcr] at this
    rw [lookup_append, h.silent r hr, this]
    rfl

/-- A command of another chunk does not touch a lane. -/
theorem Lane.accept_other
    (hc : c.chunk ≠ some id) : Lane init id (accepted ++ [c]) sent ops entry done := by
  refine ⟨?_, h.done_answered, h.sequence, h.silent, h.distinct⟩
  simpa [ordersOf, filter_append, hc] using h.split

/-- A command of the chunk, on a channel of its own, goes behind the others. -/
theorem Lane.accept {r : Nat} {ops' : List Operation} (hc : c.chunk = some id)
    (hr : c.channels = [r]) (hs : sent.lookup r = none) (hn : r ∉ ops.flatMap Operation.channels)
    (hops : ops'.flatMap (·.orders id) = ops.flatMap (·.orders id) ++ [c]) :
    Lane init id (accepted ++ [c]) sent ops' entry done := by
  have hch : ops'.flatMap Operation.channels = ops.flatMap Operation.channels ++ [r] := by
    have := congrArg (List.flatMap Order.channels) hops
    simpa [flatMap_assoc, Operation.flatMap_channels, hr] using this
  have hk : kept sent c = true := by simp [kept, Order.answer, hr, hs]
  refine ⟨?_, h.done_answered, h.sequence, ?_, ?_⟩
  · rw [hops, ← append_assoc, ← h.split]
    simp [ordersOf, filter_append, hc, hk]
  · intro x hx
    rw [hch] at hx
    rcases mem_append.mp hx with hx | hx
    · exact h.silent x hx
    · rw [mem_singleton.mp hx]; exact hs
  · rw [hch]
    exact nodup_append.mpr ⟨h.distinct, nodup_singleton r, fun a ha b hb hab => by
      rw [mem_singleton.mp hb] at hab; exact hn (hab ▸ ha)⟩

end

/-- The operation at the head gets one reply for all its callers, and is done. -/
theorem Lane.answer {op : Operation} {rest : List Operation} {o : Reply} {entry' : Option Version}
    (h : Lane init id accepted sent (op :: rest) entry done) (ho : o ≠ .Canceled)
    (hx : Sequence entry ((op.orders id).map (fun c => (c, o))) entry') :
    Lane init id accepted (sent ++ op.channels.map (fun r => (r, o))) rest entry'
      (done ++ op.orders id) := by
  obtain ⟨split, done_answered, sequence, silent, distinct⟩ := h
  rw [flatMap_cons] at split silent distinct
  obtain ⟨-, distinct_rest, apart⟩ := nodup_append.mp distinct
  set replies := op.channels.map (fun r => (r, o)) with hreplies
  -- The new replies reach the commands of `op`, which had none, and no answered ones.
  have new : ∀ c ∈ op.orders id, c.answer (sent ++ replies) = some o := by
    intro c hc
    obtain ⟨-, r, hr, hcr⟩ := Operation.orders_spec hc
    rw [Order.answer_one hcr, lookup_append, silent r (mem_append_left _ hr), hreplies,
      lookup_map_pair, if_pos hr]
    rfl
  have old : ∀ c ∈ done, c.answer (sent ++ replies) = c.answer sent :=
    fun c hc => Order.answer_stays (done_answered c hc) replies
  refine ⟨?_, ?_, ?_, ?_, distinct_rest⟩
  · rw [append_assoc, ← split]
    refine filter_congr (fun c _ => ?_)
    unfold kept
    rw [Order.answer_append, hreplies, Order.answer_map]
    cases c.answer sent with
    | some => rfl
    | none => split <;> simp [ho]
  · intro c hc
    rcases mem_append.mp hc with hc | hc
    · rw [old c hc]
      exact done_answered c hc
    · rw [new c hc]; rfl
  · have h1 : answered (sent ++ replies) done = answered sent done := answered_congr old
    have h2 : answered (sent ++ replies) (op.orders id) =
        (op.orders id).map (fun c => (c, o)) := by
      unfold answered
      rw [← filterMap_eq_map]
      exact filterMap_congr (fun c hc => by rw [new c hc]; rfl)
    unfold answered at h1 h2 ⊢
    rw [filterMap_append, h1, h2]
    exact sequence.append hx
  · intro r hr
    rw [lookup_append, silent r (mem_append_right _ hr), hreplies, lookup_map_pair,
      if_neg (fun hm => apart r hm r hr rfl)]
    rfl

/-- Some callers of the read at the head have gone. -/
theorem Lane.cancel {range : Option (Nat × Nat)} {lsn : Nat} {all left : List Waiter}
    {rest : List Operation}
    (h : Lane init id accepted sent (.Read range lsn all :: rest) entry done) {gone : List Nat}
    (hleft : left.map Waiter.reply = (all.map Waiter.reply).filter (· ∉ gone)) (lsn' : Nat) :
    Lane init id accepted
      (sent ++ ((all.map Waiter.reply).filter (· ∈ gone)).map (fun r => (r, .Canceled)))
      (.Read range lsn' left :: rest) entry done := by
  obtain ⟨split, done_answered, sequence, silent, distinct⟩ := h
  rw [flatMap_cons] at split silent distinct
  simp only [Operation.channels] at silent distinct
  generalize hw : all.map Waiter.reply = waiters at *
  obtain ⟨nodup, distinct_rest, apart⟩ := nodup_append.mp distinct
  set replies := (waiters.filter (· ∈ gone)).map (fun r => (r, Reply.Canceled)) with hreplies
  have look : ∀ r, (sent ++ replies).lookup r =
      (sent.lookup r).or (if r ∈ waiters ∧ r ∈ gone then some .Canceled else none) := by
    intro r
    rw [lookup_append, hreplies, lookup_map_pair]
    simp only [mem_filter, decide_eq_true_eq]
  have old : ∀ c ∈ done, c.answer (sent ++ replies) = c.answer sent :=
    fun c hc => Order.answer_stays (done_answered c hc) replies
  -- A kept command stays kept unless it is one of the silent ones that have gone.
  have kept_eq : ∀ c, kept (sent ++ replies) c = (kept (sent ++ replies) c && kept sent c) := by
    intro c
    unfold kept
    rw [Order.answer_append]
    cases c.answer sent with
    | none => simp
    | some => simp
  refine ⟨?_, ?_, ?_, ?_, ?_⟩
  · have step : (ordersOf id accepted).filter (kept (sent ++ replies)) =
        ((ordersOf id accepted).filter (kept sent)).filter (kept (sent ++ replies)) := by
      rw [List.filter_filter]
      exact filter_congr (fun c _ => kept_eq c)
    have hdone : done.filter (kept (sent ++ replies)) = done := by
      refine filter_eq_self.mpr (fun c hc => ?_)
      have hk : kept sent c = true := by
        have : c ∈ (ordersOf id accepted).filter (kept sent) := by
          rw [split]; exact mem_append_left _ hc
        exact (mem_filter.mp this).2
      unfold kept at hk ⊢
      rwa [old c hc]
    have hhead : ((Operation.Read range lsn all).orders id).filter (kept (sent ++ replies)) =
        (Operation.Read range lsn' left).orders id := by
      simp only [Operation.orders]
      rw [hw, hleft, List.filter_map]
      congr 1
      refine filter_congr (fun r hr => ?_)
      have hs := silent r (mem_append_left _ hr)
      have hw : r ∈ waiters := hr
      have ha : (Order.Read id range r).answer (sent ++ replies) =
          if r ∈ gone then some .Canceled else none := by
        rw [Order.answer_one rfl, look, hs]
        simp [hw]
      simp only [Function.comp, kept, ha]
      by_cases hg : r ∈ gone <;> simp [hg]
    have hrest : (rest.flatMap (·.orders id)).filter (kept (sent ++ replies)) =
        rest.flatMap (·.orders id) := by
      refine filter_eq_self.mpr (fun c hc => ?_)
      obtain ⟨op, hop, hc⟩ := mem_flatMap.mp hc
      obtain ⟨-, r, hr, hcr⟩ := Operation.orders_spec hc
      have hr' : r ∈ rest.flatMap Operation.channels := mem_flatMap.mpr ⟨op, hop, hr⟩
      have hw : r ∉ waiters := fun hw => apart r hw r hr' rfl
      have hs := silent r (mem_append_right _ hr')
      simp [kept, Order.answer_one hcr, look, hs, hw]
    rw [step, split, filter_append, filter_append, hdone, hhead, hrest, flatMap_cons]
  · intro c hc
    rw [old c hc]
    exact done_answered c hc
  · rw [answered_congr old]
    exact sequence
  · intro r hr
    rw [flatMap_cons] at hr
    rw [look]
    rcases mem_append.mp hr with hr | hr
    · rw [Operation.channels, hleft, mem_filter] at hr
      have hg : r ∉ gone := by simpa using hr.2
      rw [silent r (mem_append_left _ hr.1), if_neg (fun hm => hg hm.2)]
      rfl
    · rw [silent r (mem_append_right _ hr), if_neg (fun hm => apart r hm.1 r hr rfl)]
      rfl
  · rw [flatMap_cons, Operation.channels, hleft]
    exact nodup_append.mpr ⟨nodup.filter _, distinct_rest, fun a ha b hb =>
      apart a (mem_filter.mp ha).1 b hb⟩

/-- What a lane says of the commands as they were accepted: a front part is answered, and the
answers are an execution; the rest has no answers but for canceled reads. -/
theorem Lane.served (h : Lane init id accepted sent ops entry done)
    (hc : ∀ c ∈ accepted, c.answer sent = some .Canceled → ∃ id range r, c = .Read id range r) :
    ∃ front rest, ordersOf id accepted = front ++ rest ∧ (∀ c ∈ front, (c.answer sent).isSome) ∧
      (∀ c ∈ rest, c.answer sent = none ∨ c.answer sent = some .Canceled) ∧
      Sequence init (answered sent front) entry ∧
      (ops = [] → ∀ c ∈ rest, c.answer sent = some .Canceled) := by
  obtain ⟨front, rest, happ, hfront, hrest⟩ := filter_eq_append_iff.mp h.split
  have canceled : ∀ c, kept sent c = false → c.answer sent = some .Canceled := by
    intro c hk
    simpa [kept] using hk
  refine ⟨front, rest, happ, ?_, ?_, ?_, ?_⟩
  · intro c hcf
    by_cases hk : kept sent c = true
    · exact h.done_answered c (hfront ▸ mem_filter.mpr ⟨hcf, hk⟩)
    · rw [canceled c (by simpa using hk)]; rfl
  · intro c hcr
    by_cases hk : kept sent c = true
    · have hm : c ∈ ops.flatMap (·.orders id) := hrest ▸ mem_filter.mpr ⟨hcr, hk⟩
      obtain ⟨op, hop, hm⟩ := mem_flatMap.mp hm
      obtain ⟨-, r, hr, hch⟩ := Operation.orders_spec hm
      left
      simp [Order.answer, hch, h.silent r (mem_flatMap.mpr ⟨op, hop, hr⟩)]
    · exact .inr (canceled c (by simpa using hk))
  · refine Sequence.with_canceled ?_ ?_
    · have : (answered sent front).filter (fun x => x.2 ≠ .Canceled) = answered sent done := by
        rw [← hfront]
        unfold answered
        rw [filter_filterMap, filterMap_filter]
        refine filterMap_congr (fun c _ => ?_)
        unfold kept
        cases c.answer sent with
        | none => rfl
        | some o => by_cases ho : o = .Canceled <;> simp [ho]
      rw [this]
      exact h.sequence
    · intro c hcm
      obtain ⟨c', hc', he⟩ := mem_filterMap.mp hcm
      obtain ⟨o, ho, he⟩ := map_eq_some_iff.mp he
      cases he
      refine hc c ?_ ho
      have : c ∈ ordersOf id accepted := happ ▸ mem_append_left _ hc'
      exact (mem_filter.mp this).1
  · intro hops c hcr
    by_cases hk : kept sent c = true
    · have hm : c ∈ ops.flatMap (·.orders id) := hrest ▸ mem_filter.mpr ⟨hcr, hk⟩
      rw [hops] at hm
      cases hm
    · exact canceled c (by simpa using hk)

end Lane

end moat_cache_store
