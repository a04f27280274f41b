-- What keeps the directory in order while jobs interleave: one job at a time has
-- the control of a disk, a victim is nobody's reservation, and a reservation has
-- charged what its commit will add to the slot as it is.
import Moat.CacheOpen

namespace moat_cache

open moat_common catalog Function

/-- The job has its disk's control. -/
def JobStage.controls : JobStage → Bool
  | .Deciding | .Evicting _ _ | .Evicted _ | .Parked | .Versioning | .Reading _ | .Deleting _
  | .Removing _ _ => true
  | _ => false

/-- The chunk that a job evicts. -/
def JobStage.victim : JobStage → Option ChunkId
  | .Evicting v _ | .Evicted v => some v
  | _ => none

theorem JobStage.controls_of_victim {stage : JobStage} {v : ChunkId} (h : stage.victim = some v) :
    stage.controls = true := by
  cases stage <;> first | rfl | cases h

structure Guarded (c : Config) (disks : Nat → State) (control : Nat → Option Nat)
    (jobs : List Mutation) : Prop where
  sound : ∀ d, (disks d).Sound
  within : ∀ d, (disks d).Within (c.disk d)
  placed : ∀ d id, id ∈ (disks d).slots → c.disk_of id = d
  control : ∀ (n : Nat) (j : Mutation), jobs[n]? = some j → j.stage.controls = true →
    control (c.place j.key) = some n
  victim : ∀ (n : Nat) (j : Mutation) v, jobs[n]? = some j → j.stage.victim = some v →
    v ∉ (disks (c.place j.key)).active
  active : ∀ d id, id ∈ (disks d).active → ∃ (n : Nat) (j : Mutation), jobs[n]? = some j ∧
    c.identify j.key = id ∧ c.place j.key = d ∧ j.stage.reserved = true
  reserved : ∀ (n : Nat) (j : Mutation), jobs[n]? = some j → j.stage.reserved = true →
    ∃ p b allocation, j.task = .Write p b ∧ c.write_cost (c.place j.key) b.length = .ok allocation ∧
      (disks (c.place j.key)).active.lookup (c.identify j.key) =
        some ((disks (c.place j.key)).charge (c.identify j.key) b.length allocation)

theorem catalog.State.charge_congr {s s' : State} {id : ChunkId} (h : s'.record id = s.record id)
    (len allocation : Nat) : s'.charge id len allocation = s.charge id len allocation := by
  unfold State.charge
  rw [State.len_eq_record, h, ← State.len_eq_record, ← State.isNone_record, h, State.isNone_record]

namespace Guarded

variable {c : Config} {disks : Nat → State} {control control' : Nat → Option Nat}
  {jobs : List Mutation} {n d : Nat} {j : Mutation} {id : ChunkId}

/-- Only one job controls a disk. -/
theorem alone (h : Guarded c disks control jobs) (hj : jobs[n]? = some j)
    (hc : j.stage.controls = true) {m : Nat} {j' : Mutation} (hm : jobs[m]? = some j')
    (hc' : j'.stage.controls = true) (hp : c.place j'.key = c.place j.key) : m = n := by
  have h1 := h.control n j hj hc
  have h2 := h.control m j' hm hc'
  rw [hp, h1] at h2
  cases h2
  rfl

/-- A reservation is active. -/
theorem mem_active (h : Guarded c disks control jobs) (hj : jobs[n]? = some j)
    (hr : j.stage.reserved = true) : c.identify j.key ∈ (disks (c.place j.key)).active := by
  obtain ⟨p, b, allocation, -, -, hl⟩ := h.reserved n j hj hr
  rw [← AList.lookup_isSome, hl]
  rfl

variable {state : State} {stage : JobStage}

variable (h : Guarded c disks control jobs)
include h

/-- One disk's directory changes: slots that are reserved stay as they are. -/
theorem set_disk (hs : state.Sound) (hw : state.Within (c.disk d))
    (hp : ∀ id, id ∈ state.slots → c.disk_of id = d) (ha : state.active = (disks d).active)
    (hr : ∀ id, id ∈ (disks d).active → state.record id = (disks d).record id) :
    Guarded c (update disks d state) control jobs := by
  refine ⟨fun e => ?_, fun e => ?_, fun e id hm => ?_, h.control, fun n j v hj hv => ?_,
    fun e id hm => ?_, fun n j hj hres => ?_⟩
  · by_cases he : e = d
    · rw [he, update_self]; exact hs
    · rw [update_of_ne he]; exact h.sound e
  · by_cases he : e = d
    · rw [he, update_self]; exact hw
    · rw [update_of_ne he]; exact h.within e
  · by_cases he : e = d
    · subst he
      rw [update_self] at hm
      exact hp id hm
    · rw [update_of_ne he] at hm
      exact h.placed e id hm
  · have hn := h.victim n j v hj hv
    by_cases he : c.place j.key = d
    · rw [he] at hn
      rw [he, update_self, ha]
      exact hn
    · rw [update_of_ne he]
      exact hn
  · by_cases he : e = d
    · rw [he, update_self, ha] at hm
      rw [he]
      exact h.active d id hm
    · rw [update_of_ne he] at hm
      exact h.active e id hm
  · obtain ⟨p, b, allocation, ht, hcost, hl⟩ := h.reserved n j hj hres
    refine ⟨p, b, allocation, ht, hcost, ?_⟩
    by_cases he : c.place j.key = d
    · have hm := h.mem_active hj hres
      rw [he] at hm hl ⊢
      rw [update_self, ha, hl, State.charge_congr (hr _ hm)]
    · rw [update_of_ne he]
      exact hl

/-- Only marks change. -/
theorem same (hsame : (disks d).Same state)
    (hs : state.Sound) : Guarded c (update disks d state) control jobs :=
  h.set_disk hs (hsame.within (h.within d))
    (fun id hm => h.placed d id (by
      rw [State.mem_slots, ← hsame.record, ← State.mem_slots]; exact hm))
    hsame.active (fun id _ => hsame.record id)

/-- A slot goes that nobody has reserved. -/
theorem remove (hn : id ∉ (disks d).active) :
    Guarded c (update disks d ((disks d).remove id)) control jobs := by
  refine h.set_disk ((h.sound d).remove id) (State.Within.remove (h.sound d) (h.within d) id)
    (fun i hm => ?_) ((disks d).active_remove id) (fun i hm => ?_)
  · rw [State.slots_remove, AList.mem_erase] at hm
    exact h.placed d i hm.2
  · rw [State.record_remove, if_neg (by rintro rfl; exact hn hm)]

theorem remove_version (hn : id ∉ (disks d).active) (lsn : Nat) :
    Guarded c (update disks d ((disks d).remove_version id lsn)) control jobs := by
  unfold State.remove_version
  split
  · exact h.remove hn
  · rw [update_eq_self]
    exact h

theorem admission {j : Mutation} (hs : j.stage = .Submitted) :
    Guarded c disks control (jobs ++ [j]) := by
  refine ⟨h.sound, h.within, h.placed, fun m j' hm hc => ?_, fun m j' v hm hv => ?_,
    fun e id hm => ?_, fun m j' hm hres => ?_⟩
  · rcases getElem?_append_cases hm with ⟨-, rfl⟩ | hm
    · rw [hs] at hc; cases hc
    · exact h.control m j' hm hc
  · rcases getElem?_append_cases hm with ⟨-, rfl⟩ | hm
    · rw [hs] at hv; cases hv
    · exact h.victim m j' v hm hv
  · obtain ⟨m, j', hm', hrest⟩ := h.active e id hm
    exact ⟨m, j', by rw [List.getElem?_append_left (List.getElem?_eq_some_iff.mp hm').1]; exact hm',
      hrest⟩
  · rcases getElem?_append_cases hm with ⟨-, rfl⟩ | hm
    · rw [hs] at hres; cases hres
    · exact h.reserved m j' hm hres

variable (hj : jobs[n]? = some j)
include hj

/-- A job goes on; its disk's control may change hands. -/
theorem set_job (hothers : ∀ (m : Nat) (j' : Mutation), m ≠ n → jobs[m]? = some j' →
      j'.stage.controls = true → control' (c.place j'.key) = some m)
    (hown : stage.controls = true → control' (c.place j.key) = some n)
    (hv : ∀ v, stage.victim = some v → v ∉ (disks (c.place j.key)).active)
    (hr : stage.reserved = j.stage.reserved) :
    Guarded c disks control' (jobs.set n { j with stage }) := by
  refine ⟨h.sound, h.within, h.placed, fun m j' hm hc => ?_, fun m j' v hm hvic => ?_,
    fun e id hm => ?_, fun m j' hm hres => ?_⟩
  · rcases getElem?_set_cases hm with ⟨rfl, rfl⟩ | ⟨hne, hm⟩
    · exact hown hc
    · exact hothers m j' hne hm hc
  · rcases getElem?_set_cases hm with ⟨rfl, rfl⟩ | ⟨-, hm⟩
    · exact hv v hvic
    · exact h.victim m j' v hm hvic
  · obtain ⟨m, j', hm', hid, hp, hres⟩ := h.active e id hm
    by_cases hmn : m = n
    · subst hmn
      rw [hj] at hm'
      cases hm'
      exact ⟨m, _, List.getElem?_set_self (List.getElem?_eq_some_iff.mp hj).1, hid, hp,
        hr.trans hres⟩
    · exact ⟨m, j', by rw [List.getElem?_set_ne (Ne.symm hmn)]; exact hm', hid, hp, hres⟩
  · rcases getElem?_set_cases hm with ⟨rfl, rfl⟩ | ⟨-, hm⟩
    · exact h.reserved m j hj (hr.symm.trans hres)
    · exact h.reserved m j' hm hres

/-- A job goes on with the control that it has. -/
theorem stay (hc : stage.controls = true → j.stage.controls = true)
    (hv : ∀ v, stage.victim = some v → v ∉ (disks (c.place j.key)).active)
    (hr : stage.reserved = j.stage.reserved) :
    Guarded c disks control (jobs.set n { j with stage }) :=
  h.set_job hj (fun m j' _ hm hc' => h.control m j' hm hc')
    (fun hs => h.control n j hj (hc hs)) hv hr

/-- A job gets the control of its disk, which nobody has. -/
theorem take (hfree : control (c.place j.key) = none) (hv : stage.victim = none)
    (hr : stage.reserved = j.stage.reserved) :
    Guarded c disks (update control (c.place j.key) (some n))
      (jobs.set n { j with stage }) := by
  refine h.set_job hj (fun m j' hne hm hc => ?_) (fun _ => update_self ..)
    (fun v hvic => by rw [hv] at hvic; cases hvic) hr
  have hctl := h.control m j' hm hc
  by_cases hp : c.place j'.key = c.place j.key
  · rw [hp, hfree] at hctl
    cases hctl
  · rw [update_of_ne hp]
    exact hctl

/-- A job gives the control of its disk back. -/
theorem release (hc : j.stage.controls = true) (hs : stage.controls = false)
    (hr : stage.reserved = j.stage.reserved) :
    Guarded c disks (update control (c.place j.key) none)
      (jobs.set n { j with stage }) := by
  refine h.set_job hj (fun m j' hne hm hc' => ?_) (fun hs' => by rw [hs] at hs'; cases hs')
    (fun v hvic => by rw [JobStage.controls_of_victim hvic] at hs; cases hs) hr
  by_cases hp : c.place j'.key = c.place j.key
  · exact absurd (h.alone hj hc hm hc' hp) hne
  · rw [update_of_ne hp]
    exact h.control m j' hm hc'

/-- A job's directory changes at the job's own chunk only, and the job has no control afterwards. -/
theorem set_own (hs : state.Sound) (hw : state.Within (c.disk (c.place j.key)))
    (ha : ∀ i, i ≠ c.identify j.key →
      state.active.lookup i = (disks (c.place j.key)).active.lookup i)
    (hr : ∀ i, i ≠ c.identify j.key → state.record i = (disks (c.place j.key)).record i)
    (hothers : ∀ (m : Nat) (j' : Mutation), m ≠ n → jobs[m]? = some j' →
      c.identify j'.key = c.identify j.key → j'.stage.reserved = false)
    (hctl : ∀ (m : Nat) (j' : Mutation), m ≠ n → jobs[m]? = some j' →
      j'.stage.controls = true → control' (c.place j'.key) = some m)
    (hvic : ∀ (m : Nat) (j' : Mutation) v, m ≠ n → jobs[m]? = some j' → j'.stage.victim = some v →
      c.place j'.key = c.place j.key → v ∉ state.active) (hc : stage.controls = false)
    (hin : c.identify j.key ∈ state.active → stage.reserved = true)
    (hres : stage.reserved = true → ∃ p b allocation, j.task = .Write p b ∧
      c.write_cost (c.place j.key) b.length = .ok allocation ∧
      state.active.lookup (c.identify j.key) =
        some (state.charge (c.identify j.key) b.length allocation)) :
    Guarded c (update disks (c.place j.key) state) control'
      (jobs.set n { j with stage }) := by
  refine ⟨fun e => ?_, fun e => ?_, fun e id hm => ?_, fun m j' hm hc' => ?_,
    fun m j' v hm hv => ?_, fun e id hm => ?_, fun m j' hm hres' => ?_⟩
  · by_cases he : e = c.place j.key
    · rw [he, update_self]; exact hs
    · rw [update_of_ne he]; exact h.sound e
  · by_cases he : e = c.place j.key
    · rw [he, update_self]; exact hw
    · rw [update_of_ne he]; exact h.within e
  · by_cases he : e = c.place j.key
    · by_cases hi : id = c.identify j.key
      · rw [hi, he]
        rfl
      · rw [he, update_self, State.mem_slots, hr id hi, ← State.mem_slots] at hm
        rw [he]
        exact h.placed _ id hm
    · rw [update_of_ne he] at hm
      exact h.placed e id hm
  · rcases getElem?_set_cases hm with ⟨rfl, rfl⟩ | ⟨hne, hm⟩
    · rw [hc] at hc'; cases hc'
    · exact hctl m j' hne hm hc'
  · rcases getElem?_set_cases hm with ⟨rfl, rfl⟩ | ⟨hne, hm⟩
    · rw [JobStage.controls_of_victim hv] at hc
      cases hc
    · by_cases hp : c.place j'.key = c.place j.key
      · rw [hp, update_self]
        exact hvic m j' v hne hm hv hp
      · rw [update_of_ne hp]
        exact h.victim m j' v hm hv
  · -- The reservations of other chunks are those of other jobs.
    have hkeep : ∀ (e : Nat) (id : ChunkId), id ∈ (disks e).active →
        (e = c.place j.key → id ≠ c.identify j.key) →
        ∃ (m : Nat) (j' : Mutation), (jobs.set n { j with stage })[m]? = some j' ∧
          c.identify j'.key = id ∧ c.place j'.key = e ∧ j'.stage.reserved = true := by
      intro e id hm hne
      obtain ⟨m, j', hm', hid, hp, hres'⟩ := h.active e id hm
      have hmn : m ≠ n := by
        rintro rfl
        rw [hj] at hm'
        cases hm'
        exact hne hp.symm hid.symm
      exact ⟨m, j', by rw [List.getElem?_set_ne (Ne.symm hmn)]; exact hm', hid, hp, hres'⟩
    by_cases he : e = c.place j.key
    · rw [he, update_self] at hm
      by_cases hi : id = c.identify j.key
      · exact ⟨n, _, List.getElem?_set_self (List.getElem?_eq_some_iff.mp hj).1, hi.symm, he.symm,
          hin (hi ▸ hm)⟩
      · rw [← AList.lookup_isSome, ha id hi, AList.lookup_isSome] at hm
        rw [he]
        exact hkeep _ id hm (fun _ => hi)
    · rw [update_of_ne he] at hm
      exact hkeep e id hm (fun hc => absurd hc he)
  · rcases getElem?_set_cases hm with ⟨rfl, rfl⟩ | ⟨hne, hm⟩
    · rw [update_self]
      exact hres hres'
    · obtain ⟨p', b', allocation', ht', hcost', hl⟩ := h.reserved m j' hm hres'
      refine ⟨p', b', allocation', ht', hcost', ?_⟩
      by_cases hp : c.place j'.key = c.place j.key
      · have hi : c.identify j'.key ≠ c.identify j.key := fun hi => by
          rw [hothers m j' hne hm hi] at hres'
          cases hres'
        rw [hp] at hl ⊢
        rw [update_self, ha _ hi, hl, State.charge_congr (hr _ hi)]
      · rw [update_of_ne hp]
        exact hl

/-- A job that controls its disk gets a reservation, and gives the control back. -/
theorem reserve (hst : j.stage = .Deciding) {p : Prepared} {b : Bytes} (ht : j.task = .Write p b)
    {allocation free : Nat} (hcost : c.write_cost (c.place j.key) b.length = .ok allocation)
    (hd : (disks (c.place j.key)).decide (c.disk (c.place j.key)) (c.identify j.key) b.length
      allocation free = (.ok .Reserved, state)) :
    Guarded c (update disks (c.place j.key) state)
      (update control (c.place j.key) none) (jobs.set n { j with stage := .Putting }) := by
  obtain ⟨hn, hstate, hw⟩ := State.decide_reserved hd
  have hctl : j.stage.controls = true := by rw [hst]; rfl
  -- Apart from the new reservation, the directory is as it was.
  have hrec : ∀ i, state.record i = (disks (c.place j.key)).record i := fun i => by
    rw [hstate]
    rfl
  refine h.set_own hj ?_ hw (fun i hi => ?_) (fun i _ => hrec i) (fun m j' hne hm hid => ?_)
    (fun m j' hne hm hc => ?_) (fun m j' v hne hm hv hp => ?_) rfl (fun _ => rfl)
    (fun _ => ⟨p, b, allocation, ht, hcost, ?_⟩)
  · rw [hstate]
    exact (h.sound _).reserve hn _
  · rw [hstate]
    exact AList.lookup_insert_ne hi
  · rw [Bool.eq_false_iff]
    intro hres
    have hm := h.mem_active hm hres
    rw [Config.place, hid] at hm
    exact hn hm
  · by_cases hp : c.place j'.key = c.place j.key
    · exact absurd (h.alone hj hctl hm hc hp) hne
    · rw [update_of_ne hp]
      exact h.control m j' hm hc
  · -- Nobody else on this disk is evicting: that needs its control.
    exact absurd (h.alone hj hctl hm (JobStage.controls_of_victim hv) hp) hne
  · rw [State.charge_congr (hrec _), hstate]
    exact AList.lookup_insert _

/-- A reservation goes, with or without a new version in its slot. -/
theorem unreserve (hothers : ∀ (m : Nat) (j' : Mutation), m ≠ n → jobs[m]? = some j' →
      c.identify j'.key = c.identify j.key → j'.stage.reserved = false) (hs : state.Sound)
    (hw : state.Within (c.disk (c.place j.key))) (ha : ∀ i, i ≠ c.identify j.key →
      state.active.lookup i = (disks (c.place j.key)).active.lookup i)
    (hself : c.identify j.key ∉ state.active)
    (hr : ∀ i, i ≠ c.identify j.key → state.record i = (disks (c.place j.key)).record i)
    (hc : stage.controls = false) (hres : stage.reserved = false) :
    Guarded c (update disks (c.place j.key) state) control
      (jobs.set n { j with stage }) := by
  refine h.set_own hj hs hw ha hr hothers (fun m j' _ hm hctl => h.control m j' hm hctl)
    (fun m j' v _ hm hv hp hin => ?_) hc (fun hin => absurd hin hself)
    (fun hr => by rw [hres] at hr; cases hr)
  have hne : v ≠ c.identify j.key := by
    rintro rfl
    exact hself hin
  rw [← AList.lookup_isSome, ha v hne, AList.lookup_isSome, ← hp] at hin
  exact h.victim m j' v hm hv hin

end Guarded
end moat_cache
