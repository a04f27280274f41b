-- What the io_uring queue guarantees: each accepted request is cut into pieces
-- that cover it once, and has one completion, with the result of its pieces, after
-- all of them came back.
import Moat.UringRuns

namespace moat_engine.io.uring

open checked moat_common List Function Option

variable {depth : Nat}

section Calls

variable {pool : Option Nat} {limit : Nat} {q q' : UringQueue depth} {slot : Fin depth}

/-! ## Submissions and completions -/

variable {request : Request} {log : List (Event depth)}

/-- The life of a request that is not valid. -/
theorem refused_faithful {error : Error} (h : admits pool request = .error error) :
    Life.Faithful pool limit ⟨some request, [], [], [⟨request, .error error⟩], []⟩ request := by
  refine ⟨fun e he => ⟨rfl, fun c hc => ?_⟩, fun fixed hf => ?_, le_rfl, le_rfl, .inl rfl,
    fun c hc => ?_, fun fixed hf => ?_, fun fixed hf => ?_⟩
  · rw [mem_singleton.mp hc, Except.error.inj (h.symm.trans he)]
  · rw [h] at hf
    cases hf
  · rw [mem_singleton.mp hc]
  · rw [h] at hf
    cases hf
  · rw [h] at hf
    cases hf

section

variable (h : Inv pool limit q)
include h

theorem Inv.try_submit (hq : q.try_submit request = .ok q') : Inv pool limit q' := by
  unfold UringQueue.try_submit at hq
  cases hfree : q.free with
  | nil => simp only [hfree] at hq; cases hq
  | cons slot free =>
    simp only [hfree] at hq
    have hcount : ∀ s, q.free.count s = free.count s + if slot = s then 1 else 0 := by
      intro s
      rw [hfree, count_cons]
      simp
    have hpos : 0 < q.free.count slot := by
      rw [hcount, if_pos rfl]
      exact Nat.succ_pos _
    obtain ⟨l, hview, hvacant⟩ := (h.placed slot).of_free hpos
    obtain ⟨hslot, hone, hready, hdone, rfl, hsent⟩ := View.mk.inj hview
    have hzero : free.count slot = 0 := by
      have := hcount slot
      rw [if_pos rfl, hone] at this
      omega
    have hother : ∀ s, s ≠ slot → free.count s = (q.view s).free := by
      intro s hs
      have := hcount s
      rw [if_neg (Ne.symm hs)] at this
      exact this.symm
    have hlife :
      life (q.log ++ [Event.accepted slot request]) slot = ⟨some request, [], [], [], []⟩ :=
      life_snoc_self _ _
    have hcounted := @counted_snoc _ _ (.accepted slot request) _ rfl rfl h.counted
    have hle := h.pending_le
    split at hq
    · rename_i error hadmits
      rw [h.pool_eq] at hadmits
      have hfaith := @refused_faithful pool limit request error hadmits
      have hlife' : life (q.log ++ [.accepted slot request] ++
          [.finished slot ⟨request, .error error⟩]) slot =
          ⟨some request, [], [], [⟨request, .error error⟩], []⟩ := by
        rw [show life _ slot = _ from life_snoc_self _ (.finished slot ⟨request, .error error⟩)]
        show (life (q.log ++ [.accepted slot request]) slot).note _ = _
        rw [hlife]
        rfl
      have hempty : Life.Faithful pool limit ⟨some request, [], [], [], []⟩ request :=
        ⟨fun e _ => ⟨rfl, nofun⟩, fun _ _ => ⟨0, .nil⟩, le_rfl, Nat.zero_le _, .inl rfl, nofun,
          fun _ _ hn => absurd rfl hn, fun _ _ => nofun⟩
      have hcounted' := @counted_snoc _ _ (.finished slot ⟨request, .error error⟩) _ rfl rfl
        hcounted
      cases hq
      refine ⟨h.pool_eq, h.limit_eq, h.entries, h.pending, hle, h.results, fun s => ?_, hcounted',
        .snoc (.snoc h.sound (fun _ _ => hvacant) (by omega) ⟨request, rfl, hempty⟩)
          nofun (by omega)
          ⟨request, ?_, ?_⟩⟩
      · by_cases hs : s = slot
        · subst hs
          refine (View.Placed.done rfl hfaith rfl rfl).of_view hslot hzero hready ?_ hlife' hsent
          simp only
          rw [completed_snoc, if_pos rfl, hdone]
          rfl
        · refine (h.placed s).of_view rfl (hother s hs) rfl ?_ ?_ rfl
          · simp only
            rw [completed_snoc, if_neg (Ne.symm hs), append_nil]
            rfl
          · exact (life_snoc_ne (e := .finished slot ⟨request, .error error⟩) hs).trans
              (life_snoc_ne (e := .accepted slot request) hs)
      · show ((life (q.log ++ [.accepted slot request]) slot).note _).request = _
        rw [hlife]
        rfl
      · show ((life (q.log ++ [.accepted slot request]) slot).note _).Faithful _ _ _
        rw [hlife]
        exact hfaith
    · rename_i fixed hadmits
      rw [h.pool_eq] at hadmits
      have hc := @Carried.new pool limit fixed request hadmits
      cases hq
      refine ⟨h.pool_eq, h.limit_eq, h.entries, h.pending, hle, h.results, fun s => ?_, hcounted,
        .snoc h.sound (fun _ _ => hvacant) (by omega) ⟨request, rfl, hc.faithful⟩⟩
      by_cases hs : s = slot
      · subst hs
        refine (View.Placed.active hc (fun _ => .inr rfl) le_rfl ⟨fun _ => .inr rfl, fun _ =>
          Nat.one_pos⟩).of_view (update_self _ _ _) hzero ?_ hdone hlife hsent
        simp only
        rw [count_append, hready]
        simp
      · refine (h.placed s).of_view (update_of_ne hs _ _) (hother s hs) ?_ rfl
          (@life_snoc_ne _ q.log (.accepted slot request) s hs) rfl
        simp only
        rw [count_append, count_singleton]
        simp [Ne.symm hs, UringQueue.view]

theorem Inv.pop {completion : Completion}
    (hq : q.pop = some (completion, q')) : Inv pool limit q' := by
  unfold UringQueue.pop at hq
  cases hcompleted : q.completed with
  | nil => simp only [hcompleted] at hq; cases hq
  | cons p completed =>
    obtain ⟨slot, c⟩ := p
    simp only [hcompleted, some.injEq, Prod.mk.injEq] at hq
    obtain ⟨rfl, rfl⟩ := hq
    have hfilter : ∀ s, (q.completed.filter (fun p => decide (p.1 = s))).map Prod.snd =
        (if slot = s then [c] else []) ++
          (completed.filter (fun p => decide (p.1 = s))).map Prod.snd := by
      intro s
      rw [hcompleted]
      by_cases hs : slot = s <;> simp [hs]
    have hhead : (q.view slot).completed =
        c :: (completed.filter (fun p => decide (p.1 = slot))).map Prod.snd := by
      rw [UringQueue.view, hfilter, if_pos rfl]
      rfl
    obtain ⟨request, l, hview, hreq, hfaith, hfin, hpop⟩ := (h.placed slot).of_completed hhead
    obtain ⟨hslot, hfree, hready, hdone, rfl, hsent⟩ := View.mk.inj hview
    have hrest : (completed.filter (fun p => decide (p.1 = slot))).map Prod.snd = [] := by
      rw [hfilter, if_pos rfl] at hdone
      exact (List.cons.inj hdone).2
    have hpopped : ((life q.log slot).note (.popped slot c)).popped = [c] := by
      rw [Life.note, hpop]
      rfl
    have hfaith' : ((life q.log slot).note (.popped slot c)).Faithful pool limit request :=
      ⟨hfaith.refused, hfaith.cut, hfaith.returned, hfaith.once,
        .inr ⟨hpopped.trans hfin.symm, by rw [hpopped]; rfl⟩, hfaith.same, hfaith.whole,
          hfaith.result⟩
    have hcounted := @counted_snoc _ _ (.popped slot c) _ rfl rfl h.counted
    have hle := h.pending_le
    refine ⟨h.pool_eq, h.limit_eq, h.entries, h.pending, hle, h.results, fun s => ?_, hcounted,
      .snoc h.sound (by rintro _ ⟨⟩) (by omega) ⟨request, hreq, hfaith'⟩⟩
    by_cases hs : s = slot
    · subst hs
      have hvacant : ((life q.log s).note (.popped s c)).vacant := by
        refine .inr ?_
        rw [hpopped]
        rintro ⟨⟩
      refine (View.Placed.free hvacant).of_view hslot ?_ hready hrest (life_snoc_self _ _) hsent
      show (s :: q.free).count s = 1
      rw [count_cons_self, hfree]
    · refine (h.placed s).of_view rfl ?_ rfl ?_ (@life_snoc_ne _ q.log (.popped slot c) s hs) rfl
      · exact count_cons_of_ne (Ne.symm hs)
      · rw [UringQueue.view, hfilter, if_neg (Ne.symm hs)]
        rfl

/-! ## Polls -/

theorem Inv.poll_enter (entered : UringQueue.Entered) :
    ∃ result q', q.poll_enter entered = some (result, q') ∧ Inv pool limit q' ∧
      q'.work = q.work := by
  have henter := h.enter entered.count entered.arrivals
  obtain ⟨q1, h1, hinv, -, -, -, hwork⟩ := henter.reap
  unfold UringQueue.poll_enter
  simp only [h1, map_some]
  split
  · split
    · exact ⟨_, _, rfl, hinv, hwork⟩
    · exact ⟨_, _, rfl, henter, rfl⟩
  · exact ⟨_, _, rfl, hinv, hwork⟩

/-- The part of a poll before the enter issues something as long as there is something left and
there is room. -/
theorem Inv.poll_staged (hlimit : 0 < limit) (wait : Bool)
    {kernel : UringQueue.Kernel} (hread : q.read_notification kernel.read = .ok ()) :
    ∃ q1, q.poll wait kernel = (if q1.pending = 0 then some (.ok (), q1) else
        q1.poll_enter (kernel.enter (if wait = true ∧ q1.completed = [] then 1 else 0))) ∧
      Inv pool limit q1 ∧ q1.work ≤ q.work ∧
      (q.pending < depth → q.ready ≠ [] → q1.work < q.work) := by
  obtain ⟨q0, h0, hinv0, hready, hpending, hwork⟩ : ∃ q0,
      (if q.deferred = true then some q else q.reap) = some q0 ∧ Inv pool limit q0 ∧
        q0.ready = q.ready ∧ q0.pending ≤ q.pending ∧ q0.work = q.work := by
    split
    · exact ⟨q, rfl, h, rfl, le_rfl, rfl⟩
    · obtain ⟨q0, h0, hinv, -, hready, hpending, hwork⟩ := h.reap
      exact ⟨q0, h0, hinv, hready, hpending, hwork⟩
  obtain ⟨q1, h1, hinv1, hwork1, hless⟩ := hinv0.stage hlimit
  rw [hwork, hready] at hless
  refine ⟨q1, ?_, hinv1, by omega, fun hlt hne => hless (by omega) hne⟩
  rw [UringQueue.poll, hread]
  simp only [h0, bind_some, h1]

theorem Inv.poll (hlimit : 0 < limit) (wait : Bool)
    (kernel : UringQueue.Kernel) : ∃ result q', q.poll wait kernel = some (result, q') ∧
      Inv pool limit q' ∧ q'.work ≤ q.work ∧
      (result = .ok () → q.pending < depth → q.ready ≠ [] → q'.work < q.work) := by
  cases hread : q.read_notification kernel.read with
  | error error => exact ⟨.error error, q, by rw [UringQueue.poll, hread], h, le_rfl, nofun⟩
  | ok =>
    obtain ⟨q1, hpoll, hinv1, hwork, hless⟩ := h.poll_staged hlimit wait hread
    rw [hpoll]
    split
    · exact ⟨_, q1, rfl, hinv1, hwork, fun _ => hless⟩
    · obtain ⟨result, q2, h2, hinv2, hwork2⟩ :=
        hinv1.poll_enter (kernel.enter (if wait = true ∧ q1.completed = [] then 1 else 0))
      exact ⟨result, q2, h2, hinv2, hwork2.trans_le hwork,
        fun _ hlt hne => hwork2.trans_lt (hless hlt hne)⟩

theorem Inv.act (hlimit : 0 < limit) (a : Action) :
    ∃ q', q.act a = some q' ∧ Inv pool limit q' := by
  cases a with
  | try_submit request =>
    simp only [UringQueue.act]
    split
    · rename_i q' hq
      exact ⟨q', rfl, h.try_submit hq⟩
    · exact ⟨q, rfl, h⟩
  | poll wait kernel =>
    obtain ⟨result, q', hq, hinv, -⟩ := h.poll hlimit wait kernel
    exact ⟨q', by rw [UringQueue.act, hq]; rfl, hinv⟩
  | pop =>
    simp only [UringQueue.act]
    split
    · rename_i c q' hq
      exact ⟨q', rfl, h.pop hq⟩
    · exact ⟨q, rfl, h⟩
  | arrive arrival => exact ⟨_, rfl, h.arrive arrival⟩

theorem Inv.run (hlimit : 0 < limit) (actions : List Action) :
    ∃ q', q.run actions = some q' ∧ Inv pool limit q' := by
  induction actions generalizing q with
  | nil => exact ⟨q, rfl, h⟩
  | cons a _ ih =>
    obtain ⟨q1, h1, hinv1⟩ := h.act hlimit a
    obtain ⟨q2, h2, hinv2⟩ := ih hinv1
    refine ⟨q2, ?_, hinv2⟩
    rw [UringQueue.run, foldlM_cons, h1]
    exact h2

end

/-! ## Every request is completed -/

/-- The slot has no request, or one that has its completion. -/
def Life.settled (l : Life) : Prop := l.request = none ∨ l.finished.length = 1

/-- Polls that succeed, in each of which the kernel returns all it has. -/
inductive UringQueue.Drains : UringQueue depth → List (Bool × UringQueue.Kernel) →
    UringQueue depth → Prop
  | nil (q : UringQueue depth) : Drains q [] q
  | cons {q q1 q2 : UringQueue depth} {wait : Bool} {kernel : UringQueue.Kernel}
      {polls : List (Bool × UringQueue.Kernel)} : q.poll wait kernel = some (.ok (), q1) →
      q1.pending = 0 → Drains q1 polls q2 → Drains q ((wait, kernel) :: polls) q2

theorem Sound.faithful (h : Sound pool limit log) (slot : Fin depth)
    (hr : (life log slot).request = some request) :
    (life log slot).Faithful pool limit request := by
  induction h with
  | nil => cases hr
  | @snoc _ e _ _ _ hlast ih =>
    by_cases hs : slot = e.slot
    · subst hs
      rw [life_snoc_self] at hr ⊢
      obtain ⟨r, hr', hf⟩ := hlast
      obtain rfl := some.inj (hr'.symm.trans hr)
      exact hf
    · rw [life_snoc_ne hs] at hr ⊢
      exact ih hr

theorem View.Placed.settled {v : View} (h : v.Placed pool limit) (hsent : v.sent = 0)
    (hready : v.ready = 0)
    (hf : ∀ request, v.life.request = some request → v.life.Faithful pool limit request) :
    v.life.settled := by
  cases h with
  | @free l hv =>
    rcases hv with hn | hp
    · exact .inl hn
    · cases hr : l.request with
      | none => exact .inl hr
      | some request =>
        rcases (hf request hr).popped with hn | ⟨he, hlen⟩
        · exact absurd hn hp
        · exact .inr (he ▸ hlen)
  | active _ hbusy _ hw =>
    have hpos := hw.mpr (hbusy hsent)
    exact absurd hready hpos.ne'
  | done _ _ hfin => exact .inr (by rw [hfin]; rfl)

/-- With nothing left to issue and nothing outstanding, every request has its completion. -/
theorem Inv.settled (h : Inv pool limit q) (hready : q.ready = []) (hpending : q.pending = 0)
    (slot : Fin depth) : (life q.log slot).settled := by
  refine (h.placed slot).settled ?_ ?_ fun request hr => h.sound.faithful slot hr
  · have hcard := h.pending
    rw [hpending, eq_comm, Multiset.card_eq_zero] at hcard
    rw [UringQueue.view, Ring.sent, hcard]
    rfl
  · rw [UringQueue.view, hready]
    rfl

theorem work_eq_zero (h : q.work = 0) : q.ready = [] := by
  unfold UringQueue.work at h
  cases hr : q.ready with
  | nil => rfl
  | cons =>
    rw [hr, map_cons, sum_cons] at h
    omega

/-- After as many polls as there is work, and one more, every request has its completion. -/
theorem Inv.drains (h : Inv pool limit q) (hlimit : 0 < limit)
    {polls : List (Bool × UringQueue.Kernel)} (hd : q.Drains polls q')
    (hlen : q.work < polls.length ∨ q.pending = 0 ∧ q.work ≤ polls.length) (slot : Fin depth) :
    (life q'.log slot).settled := by
  induction hd with
  | nil =>
    rcases hlen with hn | ⟨hp, hw⟩
    · exact absurd hn (Nat.not_lt_zero _)
    · exact h.settled (work_eq_zero (Nat.le_zero.mp hw)) hp slot
  | @cons q _ _ wait kernel _ hpoll hp1 _ ih =>
    obtain ⟨result, q1', hq, hinv, hwork, hless⟩ := h.poll hlimit wait kernel
    rw [hpoll] at hq
    obtain ⟨rfl, rfl⟩ := Prod.mk.inj (some.inj hq)
    refine ih hinv (.inr ⟨hp1, ?_⟩)
    rw [length_cons] at hlen
    rcases hlen with hlt | ⟨hp, hle⟩
    · omega
    · by_cases hr : q.ready = []
      · have hzero : q.work = 0 := by
          rw [UringQueue.work, hr]
          rfl
        omega
      · have hdepth : 0 < depth := by
          obtain ⟨s, -⟩ := exists_mem_of_ne_nil _ hr
          exact Nat.zero_lt_of_lt s.isLt
        have := hless rfl (by omega) hr
        omega

/-! ## A kernel that returns everything -/

/-- Takes and returns as many entries as there can be. -/
def serving (depth : Nat) : UringQueue.Kernel :=
  ⟨.ok (), fun _ => ⟨depth, List.replicate depth ⟨0, 0⟩, .ok ()⟩⟩

theorem arrive_head {ring : Ring depth} {sqe : Sqe depth} {rest : List (Sqe depth)}
    (h : ring.submitted = sqe :: rest) : (ring.arrive ⟨0, 0⟩).submitted = rest := by
  simp [Ring.arrive, h]

theorem arrive_all (ring : Ring depth) (count : Nat) (h : ring.submitted.length ≤ count) :
    ((List.replicate count ⟨0, 0⟩).foldl Ring.arrive ring).submitted = [] ∧
      ((List.replicate count ⟨0, 0⟩).foldl Ring.arrive ring).sq = ring.sq := by
  induction count generalizing ring with
  | zero => exact ⟨length_eq_zero_iff.mp (Nat.le_zero.mp h), rfl⟩
  | succ count ih =>
    rw [replicate_succ, foldl_cons]
    have hsq : (ring.arrive ⟨0, 0⟩).sq = ring.sq := by
      unfold Ring.arrive
      split
      · rfl
      · split <;> rfl
    have hlen : (ring.arrive ⟨0, 0⟩).submitted.length ≤ count := by
      cases hs : ring.submitted with
      | nil => simp [Ring.arrive, hs]
      | cons =>
        rw [arrive_head hs]
        rw [hs, length_cons] at h
        omega
    obtain ⟨h1, h2⟩ := ih _ hlen
    exact ⟨h1, h2.trans hsq⟩

theorem Inv.serve (h : Inv pool limit q) (hlimit : 0 < limit) :
    ∃ q', q.poll false (serving depth) = some (.ok (), q') ∧ Inv pool limit q' ∧
      q'.pending = 0 := by
  have hread : q.read_notification (serving depth).read = .ok () := by
    unfold UringQueue.read_notification
    cases q.notification <;> rfl
  obtain ⟨q1, hpoll, hinv1, -⟩ := h.poll_staged hlimit false hread
  rw [hpoll]
  split
  · rename_i hzero
    exact ⟨q1, rfl, hinv1, hzero⟩
  · -- the kernel takes all entries, returns all of them, and all of them are reaped
    have hlen : q1.ring.sq.length + q1.ring.submitted.length ≤ depth := by
      have hcard := hinv1.pending
      have hle := hinv1.pending_le
      rw [Ring.outstanding, Multiset.coe_card, length_append, length_append] at hcard
      omega
    have hsubmitted : (q1.ring.submit depth).submitted.length ≤ depth := by
      simp only [Ring.submit, length_append, length_take]
      omega
    have hsq : (q1.ring.submit depth).sq = [] := by
      simp only [Ring.submit]
      exact drop_eq_nil_of_le (by omega)
    obtain ⟨hall, hsame⟩ := arrive_all _ depth hsubmitted
    obtain ⟨q2, h2, hinv2, hring, -⟩ := (hinv1.enter depth (List.replicate depth ⟨0, 0⟩)).reap
    refine ⟨q2, ?_, hinv2, ?_⟩
    · simp only [UringQueue.poll_enter, serving, h2, map_some]
    · rw [hinv2.pending, Ring.outstanding, hring]
      simp only [hall, hsame, hsq]
      rfl

theorem Inv.drain (h : Inv pool limit q) (hlimit : 0 < limit) (count : Nat) :
    ∃ polls q', polls.length = count ∧ q.Drains polls q' := by
  induction count generalizing q with
  | zero => exact ⟨[], q, rfl, .nil q⟩
  | succ _ ih =>
    obtain ⟨q1, h1, hinv1, hp1⟩ := h.serve hlimit
    obtain ⟨polls, q2, hlen, hd⟩ := ih hinv1
    exact ⟨(false, serving depth) :: polls, q2, by rw [length_cons, hlen], .cons h1 hp1 hd⟩

theorem Sound.of_prefix {log' : List (Event depth)} (h : Sound pool limit log)
    (hp : log' <+: log) : Sound pool limit log' := by
  induction h with
  | nil =>
    rw [prefix_nil.mp hp]
    exact .nil
  | @snoc _ _ hs h1 h2 h3 ih =>
    rcases prefix_concat_iff.mp hp with rfl | hp
    · exact .snoc hs h1 h2 h3
    · exact ih hp

theorem Sound.outstanding_le (h : Sound pool limit log) :
    log.countP Event.is_issued ≤ log.countP Event.is_reaped + depth := by
  cases h with
  | nil => exact Nat.zero_le _
  | snoc _ _ hle => exact hle

theorem Sound.vacant
    (h : Sound pool limit (log ++ [.accepted slot request])) : (life log slot).vacant := by
  generalize hl : log ++ [Event.accepted slot request] = log' at h
  cases h with
  | nil => exact absurd hl (append_ne_nil_of_right_ne_nil _ nofun)
  | snoc _ hv =>
    obtain ⟨rfl, he⟩ := append_inj' hl rfl
    obtain rfl := (List.cons.inj he).1
    exact hv request rfl

end Calls

/-! ## Every run -/

/-- In every run, at every moment of it: no more than `depth` entries are outstanding, each request
that a slot took is carried out faithfully, and a slot takes a request only when the last one left.
From every state of it, polls in which the kernel returns what it has complete every request, and
there are such polls. -/
theorem requests_are_carried_out (depth limit : Nat) (hlimit : 0 < limit)
    (pool : Option Nat) (deferred notification : Bool) (actions : List Action) :
    ∃ q, (UringQueue.build depth limit pool deferred notification).run actions = some q ∧
      (∀ log, log <+: q.log → log.countP Event.is_issued ≤ log.countP Event.is_reaped + depth ∧
        (∀ slot request, (life log slot).request = some request →
          (life log slot).Faithful pool limit request) ∧
        ∀ slot request, log ++ [.accepted slot request] <+: q.log → (life log slot).vacant) ∧
      (∀ polls q', q.Drains polls q' → q.work < polls.length → ∀ slot, (life q'.log slot).settled) ∧
      ∀ count, ∃ polls q', polls.length = count ∧ q.Drains polls q' := by
  obtain ⟨q, hq, hinv⟩ := (Inv.build depth limit pool deferred notification).run hlimit actions
  refine ⟨q, hq, fun log hlog => ?_, fun polls q' hd hlen => hinv.drains hlimit hd (.inl hlen),
    hinv.drain hlimit⟩
  have hsound := hinv.sound.of_prefix hlog
  exact ⟨hsound.outstanding_le, fun slot request hr => hsound.faithful slot hr,
    fun slot request hp => (hinv.sound.of_prefix hp).vacant⟩

/-- Two pages into a buffer at 65536. -/
def twoPages : Request :=
  ⟨9, .Read, 4096, 8192, some (.Heap ⟨65536, 8192, by decide⟩)⟩

/-- The second page comes back first, and the first one is short. -/
def twoPieces : List Action :=
  [.try_submit twoPages, .poll false ⟨.ok (), fun _ => ⟨2, [⟨1, 4096⟩, ⟨0, 512⟩], .ok ()⟩⟩]

theorem two_pages_in_two_pieces :
    ∃ q, (UringQueue.build 2 4096 none true false).run twoPieces = some q ∧
      (life q.log 0).issued = [.Read 65536 4096 4096, .Read 69632 4096 8192] ∧
      (life q.log 0).finished.map Completion.result = [.ok 4608] ∧
      (life q.log 0).Faithful none 4096 twoPages := by
  obtain ⟨q, hq, hall, -⟩ :=
    requests_are_carried_out 2 4096 (by decide) none true false twoPieces
  have hissued : ((UringQueue.build 2 4096 none true false).run twoPieces).map (fun q =>
      ((life q.log 0).request, (life q.log 0).issued,
      (life q.log 0).finished.map Completion.result)) =
      some (some twoPages, [.Read 65536 4096 4096, .Read 69632 4096 8192], [.ok 4608]) := by rfl
  rw [hq, map_some, some.injEq, Prod.mk.injEq, Prod.mk.injEq] at hissued
  obtain ⟨hreq, hi, hf⟩ := hissued
  exact ⟨q, hq, hi, hf, (hall q.log prefix_rfl).2.1 0 twoPages hreq⟩

end moat_engine.io.uring
