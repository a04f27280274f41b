-- The invariant of the io_uring queue: every slot is free, carries a transfer, or
-- holds a completion, as the log says, through every call of the owner and every
-- choice of the kernel.
import Moat.UringTransfer

namespace moat_engine.io.uring

open checked moat_common List Function Option

variable {depth : Nat}

/-! ## Sound logs -/

def Event.is_issued : Event depth → Bool
  | .issued _ _ => true
  | _ => false

def Event.is_reaped : Event depth → Bool
  | .reaped _ _ _ => true
  | _ => false

/-- Another event does not change how many entries are outstanding. -/
theorem counted_snoc {log : List (Event depth)} {e : Event depth} {pending : Nat}
    (hi : e.is_issued = false) (hr : e.is_reaped = false)
    (h : log.countP Event.is_issued = log.countP Event.is_reaped + pending) :
    (log ++ [e]).countP Event.is_issued = (log ++ [e]).countP Event.is_reaped + pending := by
  simp [countP_append, hi, hr, h]

/-- Every event stands to the ones before it as it should. -/
inductive Sound (pool : Option Nat) (limit : Nat) : List (Event depth) → Prop
  | nil : Sound pool limit []
  | snoc {log : List (Event depth)} {e : Event depth} : Sound pool limit log →
      (∀ request, e = .accepted e.slot request → (life log e.slot).vacant) →
      (log ++ [e]).countP Event.is_issued ≤ (log ++ [e]).countP Event.is_reaped + depth →
      (∃ request, ((life log e.slot).note e).request = some request ∧
        ((life log e.slot).note e).Faithful pool limit request) →
      Sound pool limit (log ++ [e])

/-! ## The invariant -/

/-- The entries that were issued and not reaped. -/
def Ring.outstanding (ring : Ring depth) : Multiset (Sqe depth) :=
  (ring.sq ++ ring.submitted ++ ring.cq.map Cqe.sqe : List (Sqe depth))

/-- Those of one slot. -/
def Ring.sent (ring : Ring depth) (slot : Fin depth) : Multiset Entry :=
  (ring.outstanding.filter (fun sqe => sqe.user_data = slot)).map Sqe.entry

theorem sent_cons {ring ring' : Ring depth} {sqe : Sqe depth}
    (h : ring'.outstanding = sqe ::ₘ ring.outstanding) (slot : Fin depth) :
    ring'.sent slot =
      if sqe.user_data = slot then sqe.entry ::ₘ ring.sent slot else ring.sent slot := by
  unfold Ring.sent
  rw [h]
  by_cases hs : sqe.user_data = slot
  · rw [Multiset.filter_cons_of_pos (p := fun x : Sqe depth => x.user_data = slot) _ hs,
      Multiset.map_cons, if_pos hs]
  · rw [Multiset.filter_cons_of_neg (p := fun x : Sqe depth => x.user_data = slot) _ hs, if_neg hs]

/-- One slot, as all parts of the queue see it. -/
structure View where
  transfer : Option Transfer
  free : Nat
  ready : Nat
  completed : List Completion
  life : Life
  sent : Multiset Entry

def UringQueue.view (q : UringQueue depth) (s : Fin depth) : View where
  transfer := q.slots s
  free := q.free.count s
  ready := q.ready.count s
  completed := (q.completed.filter (fun p => decide (p.1 = s))).map Prod.snd
  life := uring.life q.log s
  sent := q.ring.sent s

theorem completed_snoc (completed : List (Fin depth × Completion)) (slot s : Fin depth)
    (c : Completion) :
    ((completed ++ [(slot, c)]).filter (fun p => decide (p.1 = s))).map Prod.snd =
      (completed.filter (fun p => decide (p.1 = s))).map Prod.snd ++
        if slot = s then [c] else [] := by
  rw [filter_append, map_append]
  by_cases h : slot = s <;> simp [h]

/-- A slot is free, carries a transfer, or holds a completion that nobody took yet. -/
inductive View.Placed (pool : Option Nat) (limit : Nat) : View → Prop
  | free {l : Life} : l.vacant → Placed pool limit ⟨none, 1, 0, [], l, 0⟩
  | active {t : Transfer} {ready : Nat} {l : Life} {sent : Multiset Entry} :
      Carried pool limit l t sent → (sent = 0 → Waits l t) → ready ≤ 1 → (0 < ready ↔ Waits l t) →
      Placed pool limit ⟨some t, 0, ready, [], l, sent⟩
  | done {c : Completion} {request : Request} {l : Life} :
      l.request = some request → l.Faithful pool limit request → l.finished = [c] → l.popped = [] →
      Placed pool limit ⟨none, 0, 0, [c], l, 0⟩

structure Inv (pool : Option Nat) (limit : Nat) (q : UringQueue depth) : Prop where
  pool_eq : q.pool = pool
  limit_eq : q.max_io_len = limit
  entries : q.ring.entries = next_power_of_two depth
  pending : q.pending = q.ring.outstanding.card
  pending_le : q.pending ≤ depth
  results : ∀ cqe ∈ q.ring.cq, cqe.result ≤ cqe.sqe.entry.len
  placed : ∀ s, (q.view s).Placed pool limit
  counted : q.log.countP Event.is_issued = q.log.countP Event.is_reaped + q.pending
  sound : Sound pool limit q.log

section Views

variable {pool : Option Nat} {limit : Nat} {v : View}

variable (h : v.Placed pool limit)
include h

theorem View.Placed.of_free (hf : 0 < v.free) : ∃ l, v = ⟨none, 1, 0, [], l, 0⟩ ∧ l.vacant := by
  cases h with
  | free hl => exact ⟨_, rfl, hl⟩
  | active => cases hf
  | done => cases hf

theorem View.Placed.of_transfer {t : Transfer} (ht : v.transfer = some t) :
    ∃ ready l sent, v = ⟨some t, 0, ready, [], l, sent⟩ ∧ Carried pool limit l t sent ∧
      (sent = 0 → Waits l t) ∧ ready ≤ 1 ∧ (0 < ready ↔ Waits l t) := by
  cases h with
  | free => cases ht
  | active h1 h2 h3 h4 =>
    cases ht
    exact ⟨_, _, _, rfl, h1, h2, h3, h4⟩
  | done => cases ht

theorem View.Placed.of_ready (hr : 0 < v.ready) : ∃ t, v.transfer = some t := by
  cases h with
  | free => cases hr
  | active => exact ⟨_, rfl⟩
  | done => cases hr

theorem View.Placed.of_sent (hs : v.sent ≠ 0) : ∃ t, v.transfer = some t := by
  cases h with
  | free | done => exact absurd rfl hs
  | active => exact ⟨_, rfl⟩

theorem View.Placed.of_completed {c : Completion} {rest : List Completion}
    (hc : v.completed = c :: rest) :
    ∃ request l, v = ⟨none, 0, 0, [c], l, 0⟩ ∧ l.request = some request ∧
      l.Faithful pool limit request ∧ l.finished = [c] ∧ l.popped = [] := by
  cases h with
  | free => cases hc
  | active => cases hc
  | done h1 h2 h3 h4 =>
    cases hc
    exact ⟨_, _, rfl, h1, h2, h3, h4⟩

/-- The view of a slot, part by part. -/
theorem View.Placed.of_view {q : UringQueue depth} {s : Fin depth}
    (htransfer : q.slots s = v.transfer) (hfree : q.free.count s = v.free)
    (hready : q.ready.count s = v.ready)
    (hcompleted : (q.completed.filter (fun p => decide (p.1 = s))).map Prod.snd = v.completed)
    (hlife : uring.life q.log s = v.life) (hsent : q.ring.sent s = v.sent) :
    (q.view s).Placed pool limit := by
  unfold UringQueue.view
  rw [htransfer, hfree, hready, hcompleted, hlife, hsent]
  exact h

end Views

theorem le_next_power_of_two (n : Nat) : n ≤ next_power_of_two n := by
  unfold next_power_of_two
  split
  · assumption
  · have := @Nat.lt_log2_self (n - 1)
    omega

section Steps

variable {pool : Option Nat} {limit : Nat} {q q' : UringQueue depth} {slot : Fin depth}

theorem Inv.build (depth limit : Nat) (pool : Option Nat) (deferred notification : Bool) :
    Inv pool limit (UringQueue.build depth limit pool deferred notification) := by
  refine ⟨rfl, rfl, rfl, rfl, Nat.zero_le _, nofun, fun s => ?_, rfl, .nil⟩
  have hfree : (List.finRange depth).count s = 1 :=
    count_eq_one_of_mem (nodup_finRange depth) (mem_finRange s)
  have hview : (UringQueue.build depth limit pool deferred notification).view s =
      ⟨none, 1, 0, [], life [] s, 0⟩ := by
    rw [← hfree]
    rfl
  rw [hview]
  exact .free (.inl rfl)

/-- The kernel moves entries along, and nothing else changes. -/
theorem Inv.of_ring (h : Inv pool limit q) {ring : Ring depth}
    (hentries : ring.entries = q.ring.entries) (hout : ring.outstanding = q.ring.outstanding)
    (hresults : ∀ cqe ∈ ring.cq, cqe.result ≤ cqe.sqe.entry.len) :
    Inv pool limit { q with ring } := by
  refine ⟨h.pool_eq, h.limit_eq, hentries.trans h.entries, ?_, h.pending_le, hresults, fun s => ?_,
    h.counted, h.sound⟩
  · rw [h.pending, hout]
  · have hview : UringQueue.view { q with ring } s = q.view s := by
      simp only [UringQueue.view, Ring.sent, hout]
    rw [hview]
    exact h.placed s

theorem submit_outstanding (ring : Ring depth) (count : Nat) :
    (ring.submit count).outstanding = ring.outstanding := by
  unfold Ring.outstanding Ring.submit
  rw [Multiset.coe_eq_coe]
  have hsplit : ring.sq.Perm (ring.sq.drop count ++ ring.sq.take count) := by
    nth_rewrite 1 [← take_append_drop count ring.sq]
    exact perm_append_comm
  refine List.Perm.append_right _ ?_
  simp only
  refine List.Perm.trans ?_ (hsplit.append_right _).symm
  rw [append_assoc]
  exact List.Perm.append_left _ perm_append_comm

theorem arrive_outstanding (ring : Ring depth) (arrival : Arrival) :
    (ring.arrive arrival).outstanding = ring.outstanding := by
  unfold Ring.arrive
  split
  · rfl
  · rename_i sqe hsqe
    split
    · unfold Ring.outstanding
      rw [Multiset.coe_eq_coe]
      obtain ⟨hi, rfl⟩ := List.getElem?_eq_some_iff.mp hsqe
      have hperm := getElem_cons_eraseIdx_perm hi
      simp only [map_append, map_cons, map_nil, append_assoc]
      refine List.Perm.append_left _ ?_
      refine List.Perm.trans ?_ (hperm.append_right _)
      rw [cons_append, ← append_assoc]
      exact perm_append_singleton _ _
    · rfl

theorem arrive_frame (ring : Ring depth) (arrival : Arrival)
    (h : ∀ cqe ∈ ring.cq, cqe.result ≤ cqe.sqe.entry.len) :
    (ring.arrive arrival).entries = ring.entries ∧
      ∀ cqe ∈ (ring.arrive arrival).cq, cqe.result ≤ cqe.sqe.entry.len := by
  unfold Ring.arrive
  split
  · exact ⟨rfl, h⟩
  · split
    · rename_i hle
      refine ⟨rfl, fun cqe hc => ?_⟩
      rcases mem_append.mp hc with hc | hc
      · exact h cqe hc
      · cases mem_singleton.mp hc
        exact hle
    · exact ⟨rfl, h⟩

theorem Inv.arrive (h : Inv pool limit q) (arrival : Arrival) :
    Inv pool limit { q with ring := q.ring.arrive arrival } := by
  obtain ⟨h1, h2⟩ := arrive_frame q.ring arrival h.results
  exact h.of_ring h1 (arrive_outstanding q.ring arrival) h2

theorem Inv.enter (h : Inv pool limit q) (count : Nat) (arrivals : List Arrival) :
    Inv pool limit { q with ring := arrivals.foldl Ring.arrive (q.ring.submit count) } := by
  have hsub : Inv pool limit { q with ring := q.ring.submit count } :=
    h.of_ring rfl (submit_outstanding q.ring count) h.results
  generalize q.ring.submit count = ring at hsub
  induction arrivals generalizing ring with
  | nil => exact hsub
  | cons a _ ih => exact ih _ (hsub.arrive a)

/-! ## Pieces and results -/

/-- What is left to issue: a bound on the rounds of `stage` that are to come. -/
def UringQueue.work (q : UringQueue depth) : Nat :=
  (q.ready.map (fun s => (q.slots s).elim 0 (fun t => t.request.len - t.submitted) + 1)).sum

theorem Inv.stage_one (h : Inv pool limit q) (hlimit : 0 < limit) {ready : List (Fin depth)}
    (hready : q.ready = slot :: ready) (hlt : q.pending < depth) :
    ∃ q', q.stage_one slot ready = some q' ∧ Inv pool limit q' ∧ q'.pending = q.pending + 1 ∧
      q'.work < q.work := by
  have hcount : ∀ s, q.ready.count s = ready.count s + if slot = s then 1 else 0 := by
    intro s
    rw [hready, count_cons]
    simp
  have hpos : 0 < q.ready.count slot := by
    rw [hcount, if_pos rfl]
    exact Nat.succ_pos _
  obtain ⟨t, ht⟩ := (h.placed slot).of_ready hpos
  obtain ⟨r, l, sent, hview, hc, -, hle, hw⟩ := (h.placed slot).of_transfer ht
  obtain ⟨-, hfree, hr, hdone, hlife, hsent⟩ := View.mk.inj hview
  have hwaits := hw.mp (hr ▸ hpos)
  obtain ⟨entry, t', hnext, hc', hreq, hmore⟩ := hc.next hlimit hwaits slot
  have hroom : q.ring.sq.length < q.ring.entries := by
    have h1 := h.pending
    rw [Ring.outstanding, Multiset.coe_card, length_append, length_append] at h1
    have h2 := le_next_power_of_two depth
    rw [h.entries]
    omega
  have hslot : q.slots slot = some t := ht
  have hnot : slot ∉ ready := by
    have := hcount slot
    rw [if_pos rfl, hr] at this
    exact count_eq_zero.mp (by omega)
  unfold UringQueue.stage_one
  simp only [hslot, bind_some, h.limit_eq, hnext, if_pos hroom]
  refine ⟨_, rfl, ?_, rfl, ?_⟩
  rotate_left
  · have hsame : ready.map (fun s => (update q.slots slot (some t') s).elim 0
        (fun t => t.request.len - t.submitted) + 1) =
        ready.map (fun s => (q.slots s).elim 0 (fun t => t.request.len - t.submitted) + 1) := by
      refine map_congr_left fun s hs => ?_
      have hne : s ≠ slot := fun hn => hnot (hn ▸ hs)
      rw [update_of_ne hne]
    unfold UringQueue.work
    simp only [hready, map_cons, sum_cons, hslot, elim_some]
    split
    · rename_i hmore'
      have hlt := hmore hmore'
      rw [Transfer.has_remaining, decide_eq_true_eq, hreq] at hmore'
      rw [map_append, sum_append, hsame]
      simp only [map_singleton, update_self, elim_some, sum_singleton, hreq]
      omega
    · rw [hsame]
      omega
  have hout : ∀ ring : Ring depth, ring.sq = q.ring.sq ++ [⟨entry, slot⟩] →
      ring.submitted = q.ring.submitted → ring.cq = q.ring.cq →
      ring.outstanding = ⟨entry, slot⟩ ::ₘ q.ring.outstanding := by
    intro ring h1 h2 h3
    rw [Ring.outstanding, h1, h2, h3, Ring.outstanding, Multiset.cons_coe, Multiset.coe_eq_coe]
    simp only [append_assoc, singleton_append]
    exact perm_middle
  have hout := hout { q.ring with sq := q.ring.sq ++ [⟨entry, slot⟩] } rfl rfl rfl
  have hcounted : (q.log ++ [Event.issued slot entry]).countP Event.is_issued =
      (q.log ++ [Event.issued slot entry]).countP Event.is_reaped + (q.pending + 1) := by
    simp only [countP_append, h.counted]
    show _ + 1 = _ + 0 + _
    omega
  have hfaith := hc'.faithful
  rw [← hlife] at hc' hfaith
  refine ⟨h.pool_eq, rfl, h.entries, ?_, hlt, h.results, fun s => ?_, hcounted,
    .snoc h.sound (by rintro _ ⟨⟩) (by omega) ⟨_, hc'.request, hfaith⟩⟩
  · rw [hout, Multiset.card_cons, h.pending]
  · have hready' := hcount s
    by_cases hs : s = slot
    · subst hs
      have hzero : ready.count s = 0 := count_eq_zero.mpr hnot
      have hnote : ((life q.log s).note (Event.issued s entry)).issued ≠ [] :=
        append_ne_nil_of_right_ne_nil _ (cons_ne_nil _ _)
      have hw' : 0 < (if t'.has_remaining = true then 1 else 0) ↔
          Waits ((life q.log s).note (.issued s entry)) t' := by
        rw [Waits, or_iff_left hnote]
        split <;> simp_all
      refine (View.Placed.active hc' (fun hn => absurd hn Multiset.cons_ne_zero)
        (by split <;> omega) hw').of_view (update_self _ _ _) hfree ?_ hdone
        (life_snoc_self _ _) ?_
      · simp only
        split <;> simp [hzero]
      · rw [sent_cons hout, if_pos rfl, hsent]
    · refine (h.placed s).of_view (update_of_ne hs _ _) rfl ?_ rfl
        (@life_snoc_ne _ q.log (.issued slot entry) s hs) ?_
      · rw [if_neg (Ne.symm hs)] at hready'
        simp only [UringQueue.view, hready']
        split <;> simp [Ne.symm hs]
      · rw [sent_cons hout, if_neg (Ne.symm hs)]
        rfl

/-- Every round issues an entry, until nothing is left or no more may be pending. -/
theorem Inv.stage_loop (h : Inv pool limit q) (hlimit : 0 < limit) {rounds : Nat}
    (hrounds : q.pending + rounds ≤ depth) : ∃ q', UringQueue.stage_loop rounds q = some q' ∧
      Inv pool limit q' ∧ q'.work ≤ q.work ∧ (0 < rounds → q.ready ≠ [] → q'.work < q.work) := by
  induction rounds generalizing q with
  | zero => exact ⟨q, rfl, h, le_rfl, fun hn => absurd hn (lt_irrefl 0)⟩
  | succ _ ih =>
    rw [UringQueue.stage_loop]
    cases hr : q.ready with
    | nil => exact ⟨q, rfl, h, le_rfl, fun _ hn => absurd rfl hn⟩
    | cons =>
      obtain ⟨q1, h1, hinv, hp, hwork⟩ := h.stage_one hlimit hr (by omega)
      obtain ⟨q2, h2, hinv2, hwork2, -⟩ := ih hinv (by omega)
      refine ⟨q2, ?_, hinv2, by omega, fun _ _ => by omega⟩
      simp only [h1, bind_some]
      exact h2

theorem Inv.stage (h : Inv pool limit q) (hlimit : 0 < limit) : ∃ q', q.stage = some q' ∧
    Inv pool limit q' ∧ q'.work ≤ q.work ∧
      (q.pending < depth → q.ready ≠ [] → q'.work < q.work) := by
  have hle := h.pending_le
  obtain ⟨q', h1, h2, h3, h4⟩ := @Inv.stage_loop _ _ _ _ h hlimit (depth - q.pending) (by omega)
  exact ⟨q', h1, h2, h3, fun hlt => h4 (by omega)⟩

/-- The queue while `cq` is still to be reaped. -/
def UringQueue.with_cq (q : UringQueue depth) (cq : List (Cqe depth)) : UringQueue depth :=
  { q with ring := { q.ring with cq } }

theorem work_congr (hready : q'.ready = q.ready)
    (h : ∀ s ∈ q.ready, (q'.slots s).elim 0 (fun t => t.request.len - t.submitted) =
      (q.slots s).elim 0 (fun t => t.request.len - t.submitted)) : q'.work = q.work := by
  unfold UringQueue.work
  rw [hready]
  exact congrArg List.sum (map_congr_left fun s hs => by rw [h s hs])

theorem with_cq_outstanding (q : UringQueue depth) (cqe : Cqe depth) (rest : List (Cqe depth)) :
    (q.with_cq (cqe :: rest)).ring.outstanding = cqe.sqe ::ₘ (q.with_cq rest).ring.outstanding := by
  unfold Ring.outstanding UringQueue.with_cq
  rw [Multiset.cons_coe, Multiset.coe_eq_coe]
  exact perm_middle

/-- The slot of an entry that came back carries its transfer. -/
theorem Inv.reaps {entry : Entry} {actual : Int} {rest : List (Cqe depth)}
    (h : Inv pool limit (q.with_cq (⟨⟨entry, slot⟩, actual⟩ :: rest))) :
    ∃ t, q.slots slot = some t ∧ q.free.count slot = 0 ∧ q.ready.count slot ≤ 1 ∧
      (q.completed.filter (fun p => decide (p.1 = slot))).map Prod.snd = [] ∧
      Carried pool limit (life q.log slot) t (entry ::ₘ (q.with_cq rest).ring.sent slot) ∧
      (0 < q.ready.count slot ↔ Waits (life q.log slot) t) ∧ (life q.log slot).issued ≠ [] := by
  have hsent := sent_cons (with_cq_outstanding q ⟨⟨entry, slot⟩, actual⟩ rest) slot
  rw [if_pos rfl] at hsent
  obtain ⟨t, ht⟩ := (h.placed slot).of_sent (by
    rw [show ((q.with_cq (⟨⟨entry, slot⟩, actual⟩ :: rest)).view slot).sent = _ from hsent]
    exact Multiset.cons_ne_zero)
  obtain ⟨r, l, sent, hview, hc, -, hle, hw⟩ := (h.placed slot).of_transfer ht
  obtain ⟨-, hfree, rfl, hdone, rfl, hsent'⟩ := View.mk.inj hview
  obtain rfl := hsent'.symm.trans hsent
  exact ⟨t, ht, hfree, hle, hdone, hc, hw, hc.issued_ne⟩

theorem Inv.reap_one {cqe : Cqe depth} {rest : List (Cqe depth)}
    (h : Inv pool limit (q.with_cq (cqe :: rest))) : ∃ q', q.reap_one cqe = some q' ∧
      Inv pool limit (q'.with_cq rest) ∧ q'.ring = q.ring ∧ q'.ready = q.ready ∧
      q'.pending ≤ q.pending ∧ q'.work = q.work := by
  obtain ⟨⟨entry, slot⟩, actual⟩ := cqe
  obtain ⟨t, ht, hfree, hle, hdone, hc, hw, hissued⟩ := h.reaps
  have hout := with_cq_outstanding q ⟨⟨entry, slot⟩, actual⟩ rest
  have hactual : actual ≤ entry.len := h.results ⟨⟨entry, slot⟩, actual⟩ mem_cons_self
  obtain ⟨t', hcomplete, hc', hreq, hsub⟩ := hc.complete hactual slot
  have hpending : q.pending = (q.with_cq rest).ring.outstanding.card + 1 := by
    rw [← Multiset.card_cons, ← hout]
    exact h.pending
  have hple : q.pending ≤ depth := h.pending_le
  have hother : ∀ s, s ≠ slot → (q.with_cq rest).ring.sent s =
      (q.with_cq (⟨⟨entry, slot⟩, actual⟩ :: rest)).ring.sent s := by
    intro s hs
    rw [sent_cons hout, if_neg (Ne.symm hs)]
  have hcounted : (q.log ++ [Event.reaped slot entry actual]).countP Event.is_issued =
      (q.log ++ [Event.reaped slot entry actual]).countP Event.is_reaped + (q.pending - 1) := by
    have hcount : q.log.countP Event.is_issued = q.log.countP Event.is_reaped + q.pending :=
      h.counted
    simp only [countP_append, hcount]
    show _ + 0 = _ + 1 + _
    omega
  have hsound : Sound pool limit (q.log ++ [Event.reaped slot entry actual]) :=
    .snoc h.sound (by rintro _ ⟨⟩) (by omega) ⟨_, hc'.request, hc'.faithful⟩
  have hrem : t'.has_remaining = t.has_remaining := by
    rw [Transfer.has_remaining, hreq, hsub, Transfer.has_remaining]
  have hresults : ∀ cqe ∈ rest, cqe.result ≤ cqe.sqe.entry.len :=
    fun cqe hm => h.results cqe (mem_cons_of_mem _ hm)
  unfold UringQueue.reap_one
  simp only [sub?_eq (show 1 ≤ q.pending by omega), ht, bind_some, hcomplete, map_some]
  refine ⟨_, rfl, ?_⟩
  split
  · rename_i hlast
    rw [Bool.and_eq_true, Bool.not_eq_true', beq_iff_eq, Multiset.card_eq_zero] at hlast
    have hzero : q.ready.count slot = 0 := by
      by_contra hn
      rcases hw.mp (Nat.pos_of_ne_zero hn) with hr | hr
      · rw [hlast.1] at hr
        cases hr
      · exact hissued hr
    rw [hlast.2] at hc'
    have hfinish := hc'.finish (hrem.trans hlast.1) hissued slot
    have hlife : life (q.log ++ [.reaped slot entry actual]) slot =
        (life q.log slot).note (.reaped slot entry actual) := life_snoc_self _ _
    have hlife' : life (q.log ++ [.reaped slot entry actual] ++ [.finished slot t'.finish]) slot =
        ((life q.log slot).note (.reaped slot entry actual)).note (.finished slot t'.finish) := by
      rw [← hlife]
      exact life_snoc_self _ _
    have hcounted' := @counted_snoc _ _ (.finished slot t'.finish) _ rfl rfl hcounted
    refine ⟨⟨h.pool_eq, h.limit_eq, h.entries, ?_, (Nat.sub_le _ _).trans hple, hresults,
      fun s => ?_, hcounted', .snoc hsound (by rintro _ ⟨⟩) (by omega) ⟨t'.request, ?_, ?_⟩⟩, rfl,
      rfl,
      Nat.sub_le _ _, work_congr rfl fun s hs => ?_⟩
    · show q.pending - 1 = (q.with_cq rest).ring.outstanding.card
      omega
    · by_cases hs : s = slot
      · subst hs
        have hlast' := congrArg (· ++ [t'.finish]) hc'.finished
        rw [← hlife'] at hfinish
        refine (View.Placed.done (by rw [hlife']; exact hc'.request) hfinish
          (by rw [hlife']; exact hlast') (by rw [hlife']; exact hc'.popped)).of_view
          (update_self _ _ _) hfree hzero ?_ rfl hlast.2
        show ((q.completed ++ [(s, t'.finish)]).filter _).map Prod.snd = _
        rw [completed_snoc, hdone, if_pos rfl]
        rfl
      · refine (h.placed s).of_view (update_of_ne hs _ _) rfl rfl ?_ ?_ (hother s hs)
        · show ((q.completed ++ [(slot, t'.finish)]).filter _).map Prod.snd = _
          rw [completed_snoc, if_neg (Ne.symm hs), append_nil]
          rfl
        · exact (life_snoc_ne (e := .finished slot t'.finish) hs).trans
            (life_snoc_ne (e := .reaped slot entry actual) hs)
    · show ((life (q.log ++ [.reaped slot entry actual]) slot).note _).request = _
      rw [hlife]
      exact hc'.request
    · show ((life (q.log ++ [.reaped slot entry actual]) slot).note _).Faithful _ _ _
      rw [hlife]
      exact hfinish
    · have hne : s ≠ slot := fun hn => count_eq_zero.mp hzero (hn ▸ hs)
      simp [hne]
  · rename_i hlast
    have hbusy : (q.with_cq rest).ring.sent slot = 0 → t.has_remaining = true := by
      intro hz
      rw [hz] at hlast
      simpa using hlast
    have hw' : Waits ((life q.log slot).note (.reaped slot entry actual)) t' ↔
        Waits (life q.log slot) t := by
      unfold Waits
      rw [hrem]
      exact Iff.rfl
    refine ⟨⟨h.pool_eq, h.limit_eq, h.entries, ?_, ?_, hresults, fun s => ?_, hcounted, hsound⟩,
      rfl, rfl,
      Nat.sub_le _ _, work_congr rfl fun s hs => ?_⟩
    · show q.pending - 1 = (q.with_cq rest).ring.outstanding.card
      omega
    · exact (Nat.sub_le _ _).trans hple
    · by_cases hs : s = slot
      · subst hs
        exact (View.Placed.active hc' (fun hz => hw'.mpr (.inl (hbusy hz))) hle
          (hw.trans hw'.symm)).of_view (update_self _ _ _) hfree rfl hdone
          (life_snoc_self _ _) rfl
      · exact (h.placed s).of_view (update_of_ne hs _ _) rfl rfl rfl
          (@life_snoc_ne _ q.log (.reaped slot entry actual) s hs) (hother s hs)
    · by_cases hs : s = slot
      · subst hs
        simp [ht, hreq, hsub]
      · simp [hs]

theorem Inv.reap (h : Inv pool limit q) : ∃ q', q.reap = some q' ∧ Inv pool limit q' ∧
    q'.ring = { q.ring with cq := [] } ∧ q'.ready = q.ready ∧ q'.pending ≤ q.pending ∧
    q'.work = q.work := by
  have hloop : ∀ (cq : List (Cqe depth)) (q : UringQueue depth), Inv pool limit (q.with_cq cq) →
      ∃ q', cq.foldlM UringQueue.reap_one q = some q' ∧ Inv pool limit (q'.with_cq []) ∧
        q'.ring = q.ring ∧ q'.ready = q.ready ∧ q'.pending ≤ q.pending ∧ q'.work = q.work := by
    intro cq
    induction cq with
    | nil => exact fun q h => ⟨q, rfl, h, rfl, rfl, le_rfl, rfl⟩
    | cons _ _ ih =>
      intro q h
      obtain ⟨q1, h1, hinv, hring, hready, hpending, hwork⟩ := h.reap_one
      obtain ⟨q2, h2, hinv2, hring2, hready2, hpending2, hwork2⟩ := ih q1 hinv
      refine ⟨q2, ?_, hinv2, hring2.trans hring, hready2.trans hready, hpending2.trans hpending,
        hwork2.trans hwork⟩
      rw [foldlM_cons, h1]
      exact h2
  obtain ⟨q', h1, h2, hring, hready, hpending, hwork⟩ := hloop q.ring.cq (q.with_cq []) h
  refine ⟨q', h1, ?_, hring, hready, hpending, hwork⟩
  have hsame : q'.with_cq [] = q' := by
    rw [UringQueue.with_cq, ← show q'.ring.cq = [] from congrArg Ring.cq hring]
  rw [← hsame]
  exact h2

end Steps

end moat_engine.io.uring
