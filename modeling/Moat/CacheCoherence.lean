-- The directory of every disk keeps its laws and its limits in every run, and it
-- agrees with the store as long as a request that fails has had no effect.
import Moat.CacheAgreement

namespace moat_cache

open moat_common catalog registry scheduler List Function Option

/-- The errors of a directory and a store that do not agree. -/
def coherenceErrors : List Error :=
  [.Corrupt "catalog version changed outside cache ownership",
    .Corrupt "catalog version mismatch during invalidation",
    .Corrupt "catalog changed during invalidation"]

/-- What the job knows is not about the store. -/
def JobStage.light : JobStage → Bool
  | .Stored _ | .Removing _ _ | .Evicted _ | .Evicting _ _ => false
  | _ => true

/-- The stage comes after `old` without a new lock, reservation or victim, and neither is about the
store. -/
def JobStage.follows (stage old : JobStage) : Bool :=
  old.light && stage.light && (!stage.controls || old.controls) && stage.victim.isNone &&
    stage.reserved == old.reserved

variable {j : Mutation} {c : Config}

theorem Mutation.touches_light (h : j.stage.light = true)
    (id : ChunkId) : j.touches c id = false := by
  unfold Mutation.touches
  cases hst : j.stage <;> rw [hst] at h <;> first | rfl | cases h

theorem Mutation.storing_light (h : j.stage.light = true) (d : Nat) : j.storing c d = false := by
  unfold Mutation.storing
  cases hst : j.stage with
  | Stored => rw [hst] at h; cases h
  | _ => rfl

theorem Mutation.coheres_light {store : Nat → Store} {disks : Nat → State}
    (h : j.stage.light = true) : j.Coheres c store disks := by
  unfold Mutation.Coheres
  cases hst : j.stage <;> rw [hst] at h <;> trivial

/-- `honest` says that a request which fails has had no effect. -/
structure Kept (c : Config) (honest : Prop) (s : System) : Prop where
  guarded : Guarded c s.disks s.control s.jobs
  coherent : honest → Coherent c s.store s.disks s.jobs
  clean : honest → (∀ j ∈ s.jobs, ∀ e, j.stage.outcome = some (.Failed e) → e ∉ coherenceErrors) ∧
    ∀ e, s.failures = some e → e ∉ coherenceErrors

namespace Kept

variable {c : Config} {honest : Prop} {init : Nat → Store} {past : Past} {s s' : System} {n d : Nat}
  {j : Mutation} {o : Choice} {control' : Nat → Option Nat}

variable {stage : JobStage}

theorem clean_set (h : Kept c honest s) {failures : Option Error}
    (he : honest → ∀ e, stage.outcome = some (.Failed e) → e ∉ coherenceErrors)
    (hf : honest → ∀ e, failures = some e → e ∉ coherenceErrors) :
    honest → (∀ x ∈ s.jobs.set n { j with stage }, ∀ e, x.stage.outcome = some (.Failed e) →
      e ∉ coherenceErrors) ∧ ∀ e, failures = some e → e ∉ coherenceErrors := by
  refine fun hh => ⟨fun x hx e hxe => ?_, hf hh⟩
  rcases mem_or_eq_of_mem_set hx with hx | rfl
  · exact (h.clean hh).1 x hx e hxe
  · exact he hh e hxe

variable {e : Error} {m lsn : Nat} {j' : Mutation} {v id : ChunkId} {b : Bytes} {store : Store}
  {p : Prepared}

/-- The others' reservations are of other chunks. -/
theorem others_unreserved (hl : Lined c s.scheduler s.jobs)
    (hrun : jobOf c n j.key ∈ s.scheduler.running) (hne : m ≠ n) (hm : s.jobs[m]? = some j')
    (hid : c.identify j'.key = c.identify j.key) : j'.stage.reserved = false := by
  rcases hl.alone hrun hm hid hne with ⟨-, o, hst⟩ | ⟨-, hst⟩ <;> rw [hst] <;> rfl

theorem store_error (e : moat_cache_store.Error) : Error.Store e ∉ coherenceErrors := by
  simp [coherenceErrors]

theorem decide_error {st st' : State} {disk : Disk} {len allocation free : Nat}
    (h : st.decide disk id len allocation free = (.error e, st')) : e ∉ coherenceErrors := by
  unfold State.decide at h
  split at h
  · cases h; simp [coherenceErrors]
  dsimp only at h
  split at h
  · cases h
  split at h
  · split at h <;> cases h
    simp [coherenceErrors]
  split at h
  · cases h
  · split at h <;> cases h
    simp [coherenceErrors]

theorem decode_error {f : Format} {bytes : Bytes} (h : f.decode bytes = .error e) :
    e ∉ coherenceErrors := by
  unfold Format.decode at h
  dsimp only at h
  repeat' split at h
  all_goals first | (cases h; done) | (cases h; simp [coherenceErrors])

variable (h : Kept c honest s)
include h

theorem coheres (hh : honest) (hj : s.jobs[n]? = some j) : j.Coheres c s.store s.disks :=
  (h.coherent hh).coheres j (mem_of_getElem? hj)

theorem clean_goes (ho : ∀ e, stage.outcome ≠ some (.Failed e)) :
    honest → (∀ x ∈ s.jobs.set n { j with stage }, ∀ e, x.stage.outcome = some (.Failed e) →
      e ∉ coherenceErrors) ∧ ∀ e, s.failures = some e → e ∉ coherenceErrors :=
  h.clean_set (fun _ e he => absurd he (ho e)) (fun hh => (h.clean hh).2)

theorem clean_fail (he : honest → e ∉ coherenceErrors) :
    honest → (∀ x ∈ s.jobs.set n { j with stage := .Finishing (.Failed e) }, ∀ e,
      x.stage.outcome = some (.Failed e) → e ∉ coherenceErrors) ∧
      ∀ e', s.failures.or (some e) = some e' → e' ∉ coherenceErrors := by
  refine h.clean_set (fun hh e' hx => ?_) (fun hh e' hx => ?_)
  · cases hx
    exact he hh
  · cases hf : s.failures with
    | none =>
      rw [hf] at hx
      cases hx
      exact he hh
    | some =>
      rw [hf] at hx
      cases hx
      exact (h.clean hh).2 _ hf

/-- Only marks of a directory change. -/
theorem same {state : State} (hs : (s.disks d).Same state)
    (hsound : state.Sound) : Kept c honest (s.set_disk d state) :=
  ⟨h.guarded.same hs hsound, fun hh => (h.coherent hh).set_disk hs.record hs.clock, h.clean⟩

/-- A request to the store has failed. -/
theorem set_store (store : Store) (hs : honest → store = s.store d) :
    Kept c honest (s.set_store d store) := by
  refine ⟨h.guarded, fun hh => ?_, h.clean⟩
  simp only [System.set_store, hs hh, update_eq_self]
  exact h.coherent hh

variable (hj : s.jobs[n]? = some j)
include hj

/-- A job goes on; what it knows afterwards is not about the store. -/
theorem to_stage
    (hg : Guarded c s.disks control' (s.jobs.set n { j with stage })) (hlight : stage.light = true)
    (hold : ∀ id, j.touches c id = false) (ho : ∀ e, stage.outcome ≠ some (.Failed e)) :
    Kept c honest ({ s with control := control' }.to_stage n j stage) where
  guarded := hg
  coherent := fun hh => (h.coherent hh).set_job hj (Mutation.coheres_light hlight)
    (fun id ht => by rw [hold id] at ht; cases ht)
    (fun d hs => by rw [Mutation.storing_light hlight d] at hs; cases hs)
  clean := h.clean_goes ho

/-- A job goes on with what it has, and neither stage is about the store. -/
theorem goes {old : JobStage} (hst : j.stage = old) (hf : stage.follows old = true)
    (ho : ∀ e, stage.outcome ≠ some (.Failed e)) : Kept c honest (s.to_stage n j stage) := by
  simp only [JobStage.follows, Bool.and_eq_true, Bool.or_eq_true, Bool.not_eq_true', beq_iff_eq,
    isNone_iff_eq_none] at hf
  obtain ⟨⟨⟨⟨hold, hnew⟩, hc⟩, hv⟩, hr⟩ := hf
  subst hst
  refine h.to_stage hj (h.guarded.stay hj (fun hs => ?_) (fun v hv' => ?_) hr) hnew
    (Mutation.touches_light hold) ho
  · rw [hs] at hc
    simpa using hc
  · rw [hv] at hv'
    cases hv'

theorem fail
    (hg : Guarded c s.disks control' (s.jobs.set n { j with stage := .Finishing (.Failed e) }))
    (hold : ∀ id, j.touches c id = false) (he : honest → e ∉ coherenceErrors) :
    Kept c honest ({ s with control := control' }.fail n j e) where
  guarded := hg
  coherent := fun hh => (h.coherent hh).set_job hj (Mutation.coheres_light rfl)
    (fun id ht => by rw [hold id] at ht; cases ht)
    (fun d hs => by cases hs)
  clean := h.clean_fail he

/-- No other job has its hands on the chunk that a job evicts. -/
theorem untouched_victim (hh : honest) (hv : j.stage.victim = some v)
    (hd : c.disk_of v = c.place j.key) (hne : m ≠ n) (hm : s.jobs[m]? = some j') :
    j'.touches c v = false := by
  have hk := h.coheres hh hm
  have hc := JobStage.controls_of_victim hv
  cases ht : j'.touches c v with
  | false => rfl
  | true =>
    unfold Mutation.touches at ht
    unfold Mutation.Coheres at hk
    split at ht <;> rename_i hst
    · have hid := of_decide_eq_true ht
      have hp : c.place j'.key = c.place j.key := by rw [← hd, ← hid]; rfl
      have hn := h.guarded.victim n j v hj hv
      have hact := h.guarded.mem_active hm (by rw [hst]; rfl)
      rw [hp, hid] at hact
      exact absurd hact hn
    · have hid := of_decide_eq_true ht
      have hp : c.place j'.key = c.place j.key := by rw [← hd, ← hid]; rfl
      exact absurd (h.guarded.alone hj hc hm (by rw [hst]; rfl) hp) hne
    · simp only [hst] at hk
      have hp : c.place j'.key = c.place j.key := by rw [← hd, ← hk.1, of_decide_eq_true ht]
      exact absurd (h.guarded.alone hj hc hm (by rw [hst]; rfl) hp) hne
    · cases ht

/-- The slot of a job's chunk, or of a victim, is what the store has. -/
theorem agree (hh : honest) (hown : j.touches c id = false)
    (hothers : ∀ (m : Nat) (j' : Mutation), m ≠ n → s.jobs[m]? = some j' →
    j'.touches c id = false) :
    (s.disks (c.disk_of id)).record id = (s.store (c.disk_of id)).record id := by
  refine (h.coherent hh).agree id (fun x hx => ?_)
  obtain ⟨m, hm⟩ := mem_iff_getElem?.mp hx
  by_cases hmn : m = n
  · subst hmn
    rw [hj] at hm
    cases hm
    exact hown
  · exact hothers m x hmn hm

/-- The store has the version that the slot names, or nothing. -/
theorem live_lsn (hh : honest) (hown : j.touches c id = false)
    (hothers : ∀ (m : Nat) (j' : Mutation), m ≠ n → s.jobs[m]? = some j' → j'.touches c id = false)
    (hslot : ∀ l, (s.disks (c.disk_of id)).lsn id = some l → l = lsn) {l : Nat}
    (hl : (s.store (c.disk_of id)).live id = some (l, b)) : l = lsn := by
  refine hslot l ?_
  rw [State.lsn_eq_record, h.agree hj hh hown hothers, Store.record, hl]
  rfl

/-! ## Evictions -/

/-- The directory has chosen a victim. -/
theorem evicting (hst : j.stage = .Deciding) {len allocation free : Nat} {disk : Disk}
    {state : State} (hd : (s.disks (c.place j.key)).decide disk id len allocation free =
      (.ok (.Evict v lsn), state)) :
    Kept c honest ((s.set_disk (c.place j.key) state).to_stage n j (.Evicting v lsn)) := by
  obtain ⟨hsame, hsound, hvic⟩ := State.decide_other hd (by simp)
  obtain ⟨hl, -, hn⟩ := hvic v lsn rfl
  have h₁ := h.same hsame (hsound (h.guarded.sound _))
  have hslot : v ∈ (s.disks (c.place j.key)).slots := by
    rw [← AList.lookup_isSome, ← isSome_map (f := Slot.lsn), ← State.lsn, hl]
    rfl
  have hself : ((s.set_disk (c.place j.key) state).disks (c.place j.key)) = state :=
    update_self ..
  refine ⟨h₁.guarded.stay hj (fun _ => by rw [hst]; rfl) (fun v' hv => ?_) (by rw [hst]; rfl),
    fun hh => (h₁.coherent hh).set_job hj ?_ (fun i ht => ?_) (fun d hs => by cases hs),
    h₁.clean_goes (by rintro _ ⟨⟩)⟩
  · cases hv
    rw [hself, hsame.active]
    exact hn
  · refine ⟨h.guarded.placed _ v hslot, ?_⟩
    rw [hself, State.lsn_eq_record, hsame.record, ← State.lsn_eq_record]
    exact hl
  · rw [Mutation.touches_light (by rw [hst]; rfl)] at ht
    cases ht

/-- The victim is gone from the store. -/
theorem evicted (hst : j.stage = .Evicting v lsn) {result : moat_cache_store.DeleteResult}
    (hd : (s.store (c.place j.key)).delete v lsn o = some (.ok result, store))
    (hr : result ≠ .Changed) :
    Kept c honest ((s.set_store (c.place j.key) store).to_stage n j (.Evicted v)) := by
  refine ⟨h.guarded.stay hj (fun _ => by rw [hst]; rfl) (fun v' hv => ?_) (by rw [hst]; rfl),
    fun hh => ?_, h.clean_goes nofun⟩
  · cases hv
    exact h.guarded.victim n j v hj (by rw [hst]; rfl)
  · have hk := h.coheres hh hj
    simp only [Mutation.Coheres, hst] at hk
    obtain ⟨hdead, hother, hdrawn⟩ := Store.delete_ok hd hr
    change Coherent c (update s.store (c.place j.key) store) s.disks
      (s.jobs.set n { j with stage := .Evicted v })
    rw [← hk.1] at hother hdrawn ⊢
    refine (h.coherent hh).answer hj hother
      (fun i => by simp only [Mutation.touches, hst]) (decide_eq_true rfl)
      hdrawn (fun d hs => by cases hs) ⟨hk.1, ?_⟩
      (fun m j' hne hm => h.untouched_victim hj hh (by rw [hst]; rfl) hk.1 hne hm)
    simp only [← hk.1, update_self]
    exact hdead

/-- The store never answers that a victim has changed. -/
theorem evict_unchanged (hh : honest) (hst : j.stage = .Evicting v lsn)
    (hd : (s.store (c.place j.key)).delete v lsn o = some (.ok .Changed, store)) : False := by
  have hk := h.coheres hh hj
  simp only [Mutation.Coheres, hst] at hk
  obtain ⟨l, b, hl, hne⟩ := Store.delete_changed hd
  obtain ⟨hdisk, hlsn⟩ := hk
  rw [← hdisk] at hl hlsn
  refine hne (h.live_lsn hj hh (by simp only [Mutation.touches, hst])
    (fun m j' hne hm => h.untouched_victim hj hh (by rw [hst]; rfl) hdisk hne hm)
    (fun l' hl' => ?_) hl).symm
  rw [hlsn] at hl'
  cases hl'
  rfl

/-- The slot of the victim goes. -/
theorem deciding (hst : j.stage = .Evicted v) :
    Kept c honest ((s.set_disk (c.place j.key) ((s.disks (c.place j.key)).remove v)).to_stage n j
      .Deciding) := by
  have hn := h.guarded.victim n j v hj (by rw [hst]; rfl)
  refine ⟨(h.guarded.remove hn).stay hj (fun _ => by rw [hst]; rfl) (fun v' hv => by cases hv)
    (by rw [hst]; rfl), fun hh => ?_,
    h.clean_goes nofun⟩
  have hk := h.coheres hh hj
  simp only [Mutation.Coheres, hst] at hk
  change Coherent c s.store (update s.disks (c.place j.key)
    ((s.disks (c.place j.key)).remove v)) (s.jobs.set n { j with stage := .Deciding })
  obtain ⟨hd, hdead⟩ := hk
  rw [← hd] at hdead ⊢
  refine (h.coherent hh).follow hj (fun i hi => ?_) ?_ (fun i ht => ?_) ?_ (fun d hs => by cases hs)
    trivial (fun m j' lsn hne hm hst' => ?_)
  · rw [State.record_remove, if_neg hi]
  · rw [State.record_remove, if_pos rfl, Store.record, hdead]
    rfl
  · simp only [Mutation.touches, hst, decide_eq_true_eq] at ht
    exact ht.symm
  · rw [(State.rest_remove _ v).1]
    exact Nat.le_add_right _ _
  · have hk' := h.coheres hh hm
    simp only [Mutation.Coheres, hst'] at hk'
    exact hne (h.guarded.alone hj (by rw [hst]; rfl) hm (by rw [hst']; rfl) (hk'.1.symm.trans hd))

/-- The policy clock never runs out: it counts LSNs. -/
theorem clock_runs (hh : honest) (hst : j.stage = .Stored lsn) (len : Nat) :
    ((s.disks (c.place j.key)).insert (c.identify j.key) lsn len).2 = true := by
  have hc := (h.coherent hh).clock (c.place j.key)
  have hd := (s.store (c.place j.key)).length_drawn
  have hpos : 0 < s.jobs.countP (Mutation.storing c (c.place j.key)) :=
    countP_pos_iff.mpr ⟨j, mem_of_getElem? hj, by simp [Mutation.storing, hst]⟩
  have hclock := ((s.disks (c.place j.key)).rest_remove (c.identify j.key)).1
  unfold State.insert
  dsimp only
  rw [if_pos (by omega)]

/-! ## Writes -/

/-- A job drops its reservation and ends in an error. -/
theorem unreserve (hl : Lined c s.scheduler s.jobs)
    (hrun : jobOf c n j.key ∈ s.scheduler.running) (hst : j.stage = .Putting) (out : Outcome) :
    Guarded c (update s.disks (c.place j.key)
      ((s.disks (c.place j.key)).finish (c.identify j.key))) s.control
      (s.jobs.set n { j with stage := .Finishing out }) ∧
    (honest → Coherent c s.store (update s.disks (c.place j.key)
      ((s.disks (c.place j.key)).finish (c.identify j.key)))
      (s.jobs.set n { j with stage := .Finishing out })) := by
  have hrec := (s.disks (c.place j.key)).record_finish (c.identify j.key)
  refine ⟨h.guarded.unreserve hj (fun m j' hne hm hid => others_unreserved hl hrun hne hm hid)
    ((h.guarded.sound _).finish _) (State.Within.finish (h.guarded.within _) _) (fun i hne => ?_)
    (fun hm => (State.mem_finish hm).2 rfl) (fun i _ => hrec i) rfl rfl, fun hh => ?_⟩
  · exact State.lookup_finish _ hne
  · refine ((h.coherent hh).set_disk hrec (State.clock_finish _ _)).set_job hj trivial
      (fun i ht => ?_) (fun d hs => by cases hs)
    rw [Mutation.touches_light (by rw [hst]; rfl)] at ht
    cases ht

variable (hi : Inv c init past s)
  (hrun : jobOf c n j.key ∈ s.scheduler.running)
include hi hrun

/-- No other job has its hands on the chunk of a running job. -/
theorem untouched (hh : honest) (hc : j.stage.controls = true ∨ j.stage.reserved = true)
    (hne : m ≠ n) (hm : s.jobs[m]? = some j') : j'.touches c (c.identify j.key) = false := by
  have hk := h.coheres hh hm
  have halone : c.identify j'.key = c.identify j.key →
      (∃ o, j'.stage = .Finished o) ∨ j'.stage = .Submitted := fun hid =>
    (hi.lined.alone hrun hm hid hne).imp (·.2) (·.2)
  cases ht : j'.touches c (c.identify j.key) with
  | false => rfl
  | true =>
    unfold Mutation.touches at ht
    unfold Mutation.Coheres at hk
    split at ht <;> rename_i hst
    · rcases halone (of_decide_eq_true ht) with ⟨o, h1⟩ | h1 <;> rw [hst] at h1 <;> cases h1
    · rcases halone (of_decide_eq_true ht) with ⟨o, h1⟩ | h1 <;> rw [hst] at h1 <;> cases h1
    · -- Somebody else is evicting the chunk: that takes the control, and leaves reservations alone.
      simp only [hst] at hk
      have hv := of_decide_eq_true ht
      have hp : c.place j'.key = c.place j.key := by rw [← hk.1, hv]; rfl
      rcases hc with hc | hc
      · exact absurd (h.guarded.alone hj hc hm (by rw [hst]; rfl) hp) hne
      · have hn := h.guarded.victim m j' _ hm (by rw [hst]; rfl)
        rw [hp, hv] at hn
        exact absurd (h.guarded.mem_active hj hc) hn
    · cases ht

/-- The store has the version. -/
theorem stored (hst : j.stage = .Putting) (ht : j.task = .Write p b)
    (hp : (s.store (c.place j.key)).put (c.identify j.key) b o = some (.ok lsn, store)) :
    Kept c honest ((s.set_store (c.place j.key) store).to_stage n j (.Stored lsn)) := by
  refine ⟨h.guarded.stay hj (fun hc => by cases hc) (fun v hv => by cases hv) (by rw [hst]; rfl),
    fun hh => ?_, h.clean_goes nofun⟩
  rcases Store.put_cases hp with ⟨hd, rfl, hr | ⟨⟨e, hr⟩, -⟩⟩ | ⟨-, e, hr⟩
  · cases hr
    have hself :
      Mutation.storing c (c.disk_of (c.identify j.key)) { j with stage := .Stored o.lsn } =
        true := decide_eq_true rfl
    refine (h.coherent hh).answer hj (fun i hne => Store.live_publish_other _ _ hd hne)
      (Mutation.touches_light (by rw [hst]; rfl)) (decide_eq_true rfl) ?_
      (fun d hs => (of_decide_eq_true hs).symm) ⟨p, b, ht, ?_⟩
      (fun m j' hne hm => h.untouched hj hi hrun hh (.inr (by rw [hst]; rfl)) hne hm)
    · rw [hself]
      rfl
    · simp only [Config.place, update_self]
      exact Store.live_publish_self ..
  · cases hr
  · cases hr

/-- The slot follows, and the reservation is done. -/
theorem commit (hst : j.stage = .Stored lsn) (ht : j.task = .Write p b) (stage : JobStage)
    (hlight : stage.light = true) (hc : stage.controls = false) (hres : stage.reserved = false)
    (hok : honest → ((s.disks (c.place j.key)).insert (c.identify j.key) lsn b.length).2 = true) :
    Guarded c (update s.disks (c.place j.key)
      (((s.disks (c.place j.key)).insert (c.identify j.key) lsn b.length).1.finish
        (c.identify j.key))) s.control (s.jobs.set n { j with stage }) ∧
    (honest → Coherent c s.store (update s.disks (c.place j.key)
      (((s.disks (c.place j.key)).insert (c.identify j.key) lsn b.length).1.finish
        (c.identify j.key))) (s.jobs.set n { j with stage })) := by
  have hreserved : j.stage.reserved = true := by rw [hst]; rfl
  have hrec : ∀ i, (((s.disks (c.place j.key)).insert (c.identify j.key) lsn b.length).1.finish
      (c.identify j.key)).record i = if i = c.identify j.key then
        (if ((s.disks (c.place j.key)).insert (c.identify j.key) lsn b.length).2 then
          some (lsn, b.length) else none) else (s.disks (c.place j.key)).record i := fun i => by
    rw [State.record_finish, State.record_insert]
  obtain ⟨p', b', allocation, ht', -, hact⟩ := h.guarded.reserved n j hj hreserved
  rw [ht] at ht'
  cases ht'
  refine ⟨h.guarded.unreserve hj
    (fun m j' hne hm hid => others_unreserved hi.lined hrun hne hm hid)
    (((h.guarded.sound _).insert _ _ _).finish _)
    (State.Within.commit (h.guarded.sound _) (h.guarded.within _) hact rfl rfl) (fun i hne => ?_)
    (fun hm => (State.mem_finish hm).2 rfl) (fun i hne => ?_) hc hres, fun hh => ?_⟩
  · rw [State.lookup_finish _ hne, State.active_insert]
  · rw [hrec, if_neg hne]
  · have hk := h.coheres hh hj
    simp only [Mutation.Coheres, hst] at hk
    obtain ⟨p', b', ht', hlive⟩ := hk
    rw [ht] at ht'
    cases ht'
    refine (h.coherent hh).follow hj (fun i hne => ?_) ?_ (fun i hti => ?_) ?_
      (fun d hs => by rw [Mutation.storing_light hlight d] at hs; cases hs)
      (Mutation.coheres_light hlight) (fun m j' l hne hm hst' => ?_)
    · rw [hrec, if_neg hne]
      rfl
    · rw [hrec, if_pos rfl, hok hh, if_pos rfl, Store.record]
      rw [show (s.store (c.disk_of (c.identify j.key))).live (c.identify j.key) = some (lsn, b)
        from hlive]
      rfl
    · simp only [Mutation.touches, hst, decide_eq_true_eq] at hti
      exact hti.symm
    · have hself : j.storing c (c.disk_of (c.identify j.key)) = true := by
        simp only [Mutation.storing, hst]
        exact decide_eq_true rfl
      rw [Mutation.storing_light hlight, hself, State.clock_finish]
      exact State.clock_insert ..
    · have hk' := h.coheres hh hm
      simp only [Mutation.Coheres, hst'] at hk'
      have hn := h.guarded.victim m j' _ hm (by rw [hst']; rfl)
      rw [← hk'.1] at hn
      exact hn (h.guarded.mem_active hj hreserved)

theorem write {encoded : Bytes} (ht : j.task = .Write p encoded) (ho : honest → o.executed = false)
    (hs : s.write c n j p encoded o j.stage = some s') : Kept c honest s' := by
  cases hst : j.stage with
  | Submitted =>
    have hold := Mutation.touches_light (c := c) (j := j) (by rw [hst]; rfl)
    have hg : ∀ stage : JobStage, stage.controls = false → stage.reserved = false →
        Guarded c s.disks s.control (s.jobs.set n { j with stage }) := fun stage hc hr =>
      h.guarded.stay hj (fun hc' => by rw [hc] at hc'; cases hc')
        (fun v hv => by rw [JobStage.controls_of_victim hv] at hc; cases hc)
        (by rw [hst, hr]; rfl)
    simp only [System.write, hst] at hs
    split at hs
    · cases hs
      exact h.fail hj (hg _ rfl rfl) hold (fun _ => store_error _)
    split at hs <;> cases hs
    · exact h.fail hj (hg _ rfl rfl) hold (fun _ => by simp [coherenceErrors])
    · exact h.goes hj hst rfl (by rintro _ ⟨⟩)
  | Control =>
    simp only [System.write, hst] at hs
    split at hs
    · cases hs
    · rename_i hfree
      cases hs
      exact h.to_stage hj (h.guarded.take hj (by simpa using hfree) rfl (by rw [hst]; rfl)) rfl
        (Mutation.touches_light (by rw [hst]; rfl)) (by rintro _ ⟨⟩)
  | Deciding =>
    have hold := Mutation.touches_light (c := c) (j := j) (by rw [hst]; rfl)
    have hctl : j.stage.controls = true := by rw [hst]; rfl
    have hrel : ∀ e : Error, Guarded c s.disks (update s.control (c.place j.key) none)
        (s.jobs.set n { j with stage := .Finishing (.Failed e) }) := fun e =>
      h.guarded.release hj hctl rfl (by rw [hst]; rfl)
    simp only [System.write, hst] at hs
    split at hs
    · cases hs
      exact h.fail hj (hrel _) hold (fun _ => store_error _)
    · cases hs
      exact h.fail hj (hrel _) hold (fun _ => store_error _)
    rename_i allocation _ hcost
    split at hs <;> rename_i hd <;> cases hs
    · obtain ⟨hsame, hsound, -⟩ := State.decide_other hd (by simp)
      have h₁ := h.same hsame (hsound (h.guarded.sound _))
      exact h₁.fail hj (h₁.guarded.release hj hctl rfl (by rw [hst]; rfl)) hold
        (fun _ => decide_error hd)
    · obtain ⟨-, hstate, -⟩ := State.decide_reserved hd
      refine ⟨h.guarded.reserve hj hst ht hcost hd, fun hh => ?_,
        h.clean_goes (by rintro _ ⟨⟩)⟩
      refine ((h.coherent hh).set_disk (fun i => ?_) ?_).set_job hj trivial
        (fun i hti => by rw [hold i] at hti; cases hti) (fun d hs => by cases hs)
      · rw [hstate]
        rfl
      · rw [hstate]
    · exact h.evicting hj hst hd
    · obtain ⟨hsame, hsound, -⟩ := State.decide_other hd (by simp)
      have h₁ := h.same hsame (hsound (h.guarded.sound _))
      exact h₁.goes hj hst rfl (by rintro _ ⟨⟩)
  | Evicting victim lsn =>
    have hold : ∀ i, j.touches c i = false := fun i => by simp only [Mutation.touches, hst]
    have hrel : ∀ e : Error, Guarded c s.disks (update s.control (c.place j.key) none)
        (s.jobs.set n { j with stage := .Finishing (.Failed e) }) := fun e =>
      h.guarded.release hj (by rw [hst]; rfl) rfl (by rw [hst]; rfl)
    simp only [System.write, hst] at hs
    split at hs
    · cases hs
    · rename_i e store hd
      cases hs
      exact (h.set_store store (fun hh => Store.delete_error hd (ho hh))).fail hj (hrel _) hold
        (fun _ => store_error _)
    · rename_i store hd
      cases hs
      exact (h.set_store store (fun hh => (h.evict_unchanged hj hh hst hd).elim)).fail hj
        (hrel _) hold
        (fun hh => (h.evict_unchanged hj hh hst hd).elim)
    · rename_i store hne hd
      cases hs
      exact h.evicted hj hst hd hne
  | Evicted =>
    simp only [System.write, hst] at hs
    cases hs
    exact h.deciding hj hst
  | Parked =>
    simp only [System.write, hst] at hs
    cases hs
    exact h.goes hj hst rfl (by rintro _ ⟨⟩)
  | Putting =>
    simp only [System.write, hst] at hs
    split at hs
    · cases hs
      obtain ⟨hg, hc⟩ := h.unreserve hj hi.lined hrun hst .Unwound
      exact ⟨hg, hc, h.clean_goes (by rintro _ ⟨⟩)⟩
    split at hs
    · cases hs
    · rename_i e store hp
      cases hs
      have h₁ := h.set_store (d := c.place j.key) store (fun hh => Store.put_error hp (ho hh))
      obtain ⟨hg, hc⟩ := h₁.unreserve hj hi.lined hrun hst (.Failed (.Store e))
      exact ⟨hg, hc, h₁.clean_fail (fun _ => store_error e)⟩
    · rename_i lsn store hp
      cases hs
      exact h.stored hj hi hrun hst ht hp
  | Stored lsn =>
    simp only [System.write, hst] at hs
    split at hs <;> rename_i state hins <;> cases hs
    · obtain ⟨hg, hc⟩ := h.commit hj hi hrun hst ht .Written rfl rfl rfl
        (fun _ => by rw [hins])
      rw [hins] at hg hc
      exact ⟨hg, hc, h.clean_goes (by rintro _ ⟨⟩)⟩
    · have hno : honest → False := fun hh => by
        have := h.clock_runs hj hh hst encoded.length
        rw [hins] at this
        cases this
      obtain ⟨hg, hc⟩ := h.commit hj hi hrun hst ht (.Finishing .Unwound) rfl rfl rfl
        (fun hh => (hno hh).elim)
      rw [hins] at hg hc
      exact ⟨hg, hc, h.clean_goes (by rintro _ ⟨⟩)⟩
  | Written =>
    simp only [System.write, hst] at hs
    split at hs
    · cases hs
    split at hs
    · cases hs
    simp only [some.injEq] at hs
    subst hs
    split
    · have : Kept c honest (s.to_stage n j (.Finishing .Unwound)) := h.goes hj hst rfl
        (by rintro _ ⟨⟩)
      split <;> exact ⟨this.guarded, this.coherent, this.clean⟩
    · have : Kept c honest (s.to_stage n j (.Finishing .Inserted)) := h.goes hj hst rfl
        (by rintro _ ⟨⟩)
      split <;> exact ⟨this.guarded, this.coherent, this.clean⟩
  | _ => simp [System.write, hst] at hs

/-! ## Invalidations -/

/-- The chunk of an invalidation is gone from the store, and its slot has to follow. -/
theorem removing (hctl : j.stage.controls = true) (hlight : j.stage.light = true)
    (hres : j.stage.reserved = false) (store : Store)
    (hdead : honest → store.live (c.identify j.key) = none)
    (hother : ∀ i, i ≠ c.identify j.key → store.live i = (s.store (c.place j.key)).live i)
    (hdrawn : (s.store (c.place j.key)).drawn.length ≤ store.drawn.length) (lsn : Nat)
    (removed : Bool) :
    Kept c honest ((s.set_store (c.place j.key) store).to_stage n j (.Removing lsn removed)) := by
  refine ⟨h.guarded.stay hj (fun _ => hctl) (fun v hv => by cases hv) hres.symm,
    fun hh => (h.coherent hh).answer hj hother (Mutation.touches_light hlight) (decide_eq_true rfl)
      hdrawn (fun d hs => by cases hs) ?_
      (fun m j' hne hm => h.untouched hj hi hrun hh (.inl hctl) hne hm),
    h.clean_goes nofun⟩
  simp only [Mutation.Coheres, Config.place, update_self]
  exact hdead hh

/-- The store has the version that an invalidation has found in the slot. -/
theorem removal_lsn (hh : honest) (hctl : j.stage.controls = true) (hlight : j.stage.light = true)
    (hk : ∀ l, (s.disks (c.place j.key)).lsn (c.identify j.key) = some l → l = lsn) {l : Nat}
    (hl : (s.store (c.place j.key)).live (c.identify j.key) = some (l, b)) : l = lsn :=
  h.live_lsn hj hh (Mutation.touches_light hlight _)
    (fun _ _ hne hm => h.untouched hj hi hrun hh (.inl hctl) hne hm) hk hl

theorem remove {removed : Bool} (ho : honest → o.executed = false)
    (hs : s.remove c n j removed o j.stage = some s') : Kept c honest s' := by
  have hrel : j.stage.controls = true → j.stage.reserved = false → ∀ out,
      Guarded c s.disks (update s.control (c.place j.key) none)
        (s.jobs.set n { j with stage := .Finishing out }) := fun hc hr out =>
    h.guarded.release hj hc rfl (by rw [hr]; rfl)
  cases hst : j.stage with
  | Submitted =>
    simp only [System.remove, hst] at hs
    cases hs
    exact h.goes hj hst rfl (by rintro _ ⟨⟩)
  | Control =>
    simp only [System.remove, hst] at hs
    split at hs
    · cases hs
    · rename_i hfree
      cases hs
      exact h.to_stage hj (h.guarded.take hj (by simpa using hfree) rfl (by rw [hst]; rfl)) rfl
        (Mutation.touches_light (by rw [hst]; rfl)) (by rintro _ ⟨⟩)
  | Versioning =>
    have hold := Mutation.touches_light (c := c) (j := j) (by rw [hst]; rfl)
    simp only [System.remove, hst] at hs
    split at hs <;> cases hs
    · exact h.to_stage hj (hrel (by rw [hst]; rfl) (by rw [hst]; rfl) _) rfl hold
        (by rintro _ ⟨⟩)
    · exact h.goes hj hst rfl (by rintro _ ⟨⟩)
  | Reading lsn =>
    have hold := Mutation.touches_light (c := c) (j := j) (by rw [hst]; rfl)
    have hctl : j.stage.controls = true := by rw [hst]; rfl
    have hres : j.stage.reserved = false := by rw [hst]; rfl
    have hk := hi.knows hj hst
    simp only [System.remove, hst] at hs
    split at hs
    · cases hs
      exact h.fail hj (hrel hctl hres _) hold (fun _ => store_error _)
    · rename_i hget
      cases hs
      have hdead : (s.store (c.place j.key)).live (c.identify j.key) = none := by
        unfold Store.get at hget
        split at hget
        · cases hget
        · simpa using hget
      have hsame : s.set_store (c.place j.key) (s.store (c.place j.key)) = s := by
        simp [System.set_store]
      have := h.removing hj hi hrun hctl (by rw [hst]; rfl) hres (s.store (c.place j.key))
        (fun _ => hdead) (fun _ _ => rfl) (Nat.le_refl _) lsn removed
      rw [hsame] at this
      exact this
    · rename_i chunk hget
      split at hs
      · rename_i hne
        cases hs
        refine h.fail hj (hrel hctl hres _) hold (fun hh => absurd ?_ hne)
        have hlive : (s.store (c.place j.key)).live (c.identify j.key) =
            some (chunk.lsn, chunk.bytes) := by
          unfold Store.get at hget
          split at hget
          · cases hget
          · obtain ⟨x, hx, he⟩ := map_eq_some_iff.mp (Except.ok.inj hget)
            cases he
            exact hx
        exact h.removal_lsn hj hi hrun hh hctl (by rw [hst]; rfl) hk hlive
      split at hs
      · rename_i e hdec
        cases hs
        exact h.fail hj (hrel hctl hres _) hold (fun _ => decode_error hdec)
      split at hs <;> cases hs
      · exact h.to_stage hj (hrel hctl hres _) rfl hold (by rintro _ ⟨⟩)
      · exact h.goes hj hst rfl (by rintro _ ⟨⟩)
  | Deleting lsn =>
    have hold := Mutation.touches_light (c := c) (j := j) (by rw [hst]; rfl)
    have hctl : j.stage.controls = true := by rw [hst]; rfl
    have hres : j.stage.reserved = false := by rw [hst]; rfl
    have hk := hi.knows hj hst
    simp only [System.remove, hst] at hs
    split at hs
    · cases hs
    rename_i result store hd
    split at hs <;> cases hs
    · rename_i e
      have h₁ :=
        (h.set_store (d := c.place j.key) store (fun hh => Store.delete_error hd (ho hh))).fail hj
        (hrel hctl hres _) hold (fun _ => store_error e)
      exact ⟨h₁.guarded, h₁.coherent, h₁.clean⟩
    · have hno : honest → False := fun hh => by
        obtain ⟨l, b, hl, hne⟩ := Store.delete_changed hd
        exact hne (h.removal_lsn hj hi hrun hh hctl (by rw [hst]; rfl) hk.1 hl).symm
      have h₁ := (h.set_store (d := c.place j.key) store (fun hh => (hno hh).elim)).fail
        (e := .Corrupt "catalog changed during invalidation") hj (hrel hctl hres _) hold
        (fun hh => (hno hh).elim)
      exact ⟨h₁.guarded, h₁.coherent, h₁.clean⟩
    · rename_i result hne
      obtain ⟨hdead, hother, hdrawn⟩ := Store.delete_ok hd hne
      have h₁ := h.removing hj hi hrun hctl (by rw [hst]; rfl) hres _ (fun _ => hdead)
        hother hdrawn lsn
        true
      exact ⟨h₁.guarded, h₁.coherent, h₁.clean⟩
  | Removing lsn done =>
    have hctl : j.stage.controls = true := by rw [hst]; rfl
    have hres : j.stage.reserved = false := by rw [hst]; rfl
    have hk := hi.knows hj hst
    simp only [System.remove, hst] at hs
    cases hs
    refine ⟨(h.guarded.remove_version (hi.not_active hj hrun hres) lsn).release hj hctl rfl
      (by rw [hres]; rfl), fun hh => ?_,
      h.clean_goes (by rintro _ ⟨⟩)⟩
    have hkc := h.coheres hh hj
    simp only [Mutation.Coheres, hst] at hkc
    have hrec := (s.disks (c.place j.key)).record_remove_version (c.identify j.key) lsn
    refine (h.coherent hh).follow hj (fun i hne => ?_) ?_ (fun i hti => ?_) ?_
      (fun d hs => by cases hs) trivial (fun m j' l hne hm hst' => ?_)
    · rw [show (s.disks (c.disk_of (c.identify j.key))) = s.disks (c.place j.key) from rfl, hrec,
        if_neg (fun hc => hne hc.1)]
    · rw [hrec, Store.record, show (s.store (c.disk_of (c.identify j.key))).live
        (c.identify j.key) = none
          from hkc]
      split
      · rfl
      · rename_i hne
        cases hl : (s.disks (c.place j.key)).lsn (c.identify j.key) with
        | none =>
          rw [State.lsn_eq_record, map_eq_none_iff] at hl
          rw [hl]
          rfl
        | some l =>
          rw [hk l hl] at hl
          exact absurd ⟨rfl, hl⟩ hne
    · simp only [Mutation.touches, hst, decide_eq_true_eq] at hti
      exact hti.symm
    · rw [State.clock_remove_version]
      exact Nat.le_add_right _ _
    · have hk' := h.coheres hh hm
      simp only [Mutation.Coheres, hst'] at hk'
      exact hne (h.guarded.alone hj hctl hm (by rw [hst']; rfl) hk'.1.symm)
  | _ => simp [System.remove, hst] at hs

/-! ## Jobs -/

theorem job (ho : honest → o.executed = false) (hs : s.job c n j o = some s') :
    Kept c honest s' := by
  -- The end of a job changes neither the directory nor the store.
  have hend : ∀ out (stage : JobStage), j.stage.outcome = some out → stage.outcome = some out →
      Kept c honest (s.to_stage n j stage) := by
    intro out stage hold hnew
    have hlight : stage.light = true := by cases stage <;> first | rfl | cases hnew
    have hno : stage.controls = false ∧ stage.reserved = false := by
      cases stage <;> first | exact ⟨rfl, rfl⟩ | cases hnew
    have hno' : j.stage.light = true ∧ j.stage.reserved = false := by
      cases hst : j.stage <;> rw [hst] at hold <;> first | exact ⟨rfl, rfl⟩ | cases hold
    refine ⟨h.guarded.stay hj (fun hc => by rw [hno.1] at hc; cases hc)
      (fun v hv => by rw [JobStage.controls_of_victim hv] at hno; cases hno.1)
      (by rw [hno.2, hno'.2]),
      fun hh => (h.coherent hh).set_job hj (Mutation.coheres_light hlight)
        (fun id ht => by rw [Mutation.touches_light hno'.1] at ht; cases ht)
        (fun d hs => by rw [Mutation.storing_light hlight d] at hs; cases hs),
      h.clean_set (fun hh e he => ?_) (fun hh => (h.clean hh).2)⟩
    rw [hnew, ← hold] at he
    exact (h.clean hh).1 j (mem_of_getElem? hj) e he
  unfold System.job at hs
  cases hst : j.stage with
  | Finishing out =>
    simp only [hst] at hs
    split at hs
    · cases hs
    split at hs
    · cases hs
    · cases hs
      have := hend out (.Released out) (by rw [hst]; rfl) rfl
      exact ⟨this.guarded, this.coherent, this.clean⟩
  | Released out =>
    simp only [hst] at hs
    cases hs
    have := hend out (.Replying out) (by rw [hst]; rfl) rfl
    exact ⟨this.guarded, this.coherent, this.clean⟩
  | Replying out =>
    simp only [hst] at hs
    cases hs
    have := hend out (.Finished out) (by rw [hst]; rfl) rfl
    cases out <;> exact ⟨this.guarded, this.coherent, this.clean⟩
  | Finished =>
    simp only [hst] at hs
    cases hs
  | _ =>
    simp only [hst] at hs
    rw [← hst] at hs
    cases ht : j.task with
    | Write => rw [ht] at hs; exact h.write hj hi hrun ht ho hs
    | Remove => rw [ht] at hs; exact h.remove hj hi hrun ho hs

end Kept
end moat_cache
