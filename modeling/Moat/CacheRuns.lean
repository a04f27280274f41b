-- Every step of a job keeps the invariants of the cache, and so does every run
-- from a cache that has just been opened.
import Moat.CacheCalls

namespace moat_cache

open moat_common registry scheduler Function

/-! ## Jobs -/

/-- The job has not ended. -/
def JobStage.working (stage : JobStage) : Bool := stage.outcome.isNone

variable {stage : JobStage} {result : Except moat_cache_store.Error moat_cache_store.DeleteResult}

theorem JobStage.of_working (h : stage.working = true) :
    stage.leased = true ∧ stage.pending = true ∧ stage.failed = false ∧
      ∀ o, stage ≠ .Finished o := by
  cases stage with
  | Finishing o | Released o | Replying o | Finished o => cases h
  | _ => exact ⟨rfl, rfl, rfl, fun o ho => by cases ho⟩

namespace Inv

variable {c : Config} {init : Nat → Store} {past : Past} {s s' : System} {n : Nat} {j : Mutation}
  {o : Choice}

theorem set_control (h : Inv c init past s) (d : Nat) (holder : Option Nat) :
    Inv c init past (s.set_control d holder) :=
  ⟨h.leased, h.lined, h.logged, h.traced, h.resident, h.granted, h.told, h.shut⟩

theorem knows (h : Inv c init past s) (hj : s.jobs[n]? = some j)
    (hst : j.stage = stage) : Mutation.Knows c past s.disks n { j with stage } := by
  subst hst
  exact h.traced.jobs_know n j hj

variable {d lsn : Nat} {state : catalog.State} {id : ChunkId} {store : Store} {p : Prepared}
  {encoded : Bytes}

theorem not_mem_finish (d : Nat) (id : ChunkId) (state : catalog.State) :
    id ∉ ((s.set_disk d (state.finish id)).disks d).active := by
  simp only [System.set_disk, update_self]
  exact fun hm => (catalog.State.mem_finish hm).2 rfl

variable (h : Inv c init past s)
include h

theorem set_disk (hl : ∀ id, state.lsn id = none ∨ state.lsn id = (s.disks d).lsn id)
    (ha : ∀ id, id ∈ state.active → id ∈ (s.disks d).active ∨
      ∃ (n : Nat) (j : Mutation), s.jobs[n]? = some j ∧ c.identify j.key = id ∧
        j.stage.reserved = true) : Inv c init past (s.set_disk d state) :=
  ⟨h.leased, h.lined, h.logged, h.traced.set_disk hl ha, h.resident, h.granted, h.told, h.shut⟩

theorem tombstone (hd : (s.store d).draws id lsn) :
    Inv c init past (s.set_store d ((s.store d).publish id ⟨lsn, none⟩ hd)) :=
  ⟨h.leased, h.lined, h.logged, h.traced.tombstone hd, h.resident, h.granted, h.told, h.shut⟩

/-- The store answers a delete. -/
theorem delete (hd : (s.store d).delete id lsn o = some (result, store)) :
    Inv c init past (s.set_store d store) := by
  rcases Store.delete_cases hd with ⟨hdr, -, -, rfl, -⟩ | ⟨rfl, -⟩
  · exact h.tombstone hdr
  · have hsame : s.set_store d (s.store d) = s := by simp [System.set_store]
    rw [hsame]
    exact h

/-- The reservation of a job is dropped. -/
theorem finish (d : Nat) (id : ChunkId) : Inv c init past (s.set_disk d ((s.disks d).finish id)) :=
  h.set_disk (fun _ => .inr (catalog.State.lsn_finish ..))
    (fun _ hm => .inl (catalog.State.mem_finish hm).1)

/-- The directory has decided, without a reservation. -/
theorem decided {len allocation free : Nat} {disk : catalog.Disk}
    {result : Except Error catalog.Action}
    (hd : (s.disks d).decide disk id len allocation free = (result, state))
    (hr : result ≠ .ok .Reserved) : Inv c init past (s.set_disk d state) := by
  have hsame := (catalog.State.decide_other hd hr).1
  exact h.set_disk (fun i => .inr (hsame.lsn i)) (fun i hm => .inl (hsame.active ▸ hm))

/-- Memory loses entries. -/
theorem set_memory {memory : Memory}
    (hm : ∀ k e, memory.lookup k = some e → s.memory.lookup k = some e) :
    Inv c init past { s with memory } :=
  ⟨h.leased, h.lined, h.logged, h.traced, h.resident.set_memory (fun k e hl => .inr (hm k e hl)),
    h.granted, h.told, h.shut⟩

theorem set_scheduler {scheduler : Scheduler}
    (hl : Lined c scheduler s.jobs) : Inv c init past { s with scheduler } :=
  ⟨h.leased, hl, h.logged, h.traced, h.resident, h.granted, h.told, h.shut⟩

theorem populate {i g : Nat} {key : Bytes} (hx : s.calls[i]? = some (.Token key g))
    (hk : p.entry.key = key) (hs : s.populate i key g p = some s') : Inv c init past s' := by
  unfold System.populate at hs
  split at hs
  · rename_i hclosed
    cases hs
    obtain ⟨z, hz⟩ := h.leased.registered hx rfl
    exact (h.move (y := .Leaving key) hx rfl rfl (.inl rfl) trivial).emit rfl rfl
      ⟨key, (h.leased.captured i _ key g _ hx rfl z hz).1, .inr (h.shut hclosed)⟩
  split at hs
  · cases hs
  rename_i z hz
  split at hs
  · cases hs
  split at hs <;> cases hs
  · subst hk
    exact h.move hx rfl rfl (.inr rfl) trivial
  · rename_i hg
    obtain ⟨hmark, -, hq, -⟩ := h.leased.captured i _ key g _ hx rfl z hz
    have hnot : quiet (.granted i key) key s.log = false := by
      simpa using fun hquiet => hg (hq.mpr hquiet)
    exact (h.move (y := .Leaving key) hx rfl rfl (.inl rfl) trivial).emit rfl rfl
      ⟨key, hmark, .inl hnot⟩

theorem begin_ {y : Call} (hl : y.lease = none) (hp : y.promoting = none)
    (hc : ∀ i, y.captured i = none) (hk : y.Knows c past) : Inv c init past (s.begin_ y) :=
  ⟨h.leased.begin_ hl hp hc, h.lined, h.logged, h.traced.begin_ hk, h.resident.begin_ hp,
    h.granted.begin_, h.told, h.shut⟩

section

variable (hj : s.jobs[n]? = some j)
include hj

/-- The store answers a put. -/
theorem put (ht : j.task = .Write p encoded) {result : Except moat_cache_store.Error Nat}
    (hp : (s.store (c.place j.key)).put (c.identify j.key) encoded o = some (result, store)) :
    ∃ past', Inv c init past' (s.set_store (c.place j.key) store) ∧
      ∀ lsn, result = .ok lsn → past' (c.identify j.key) lsn = some (some n, encoded) := by
  rcases Store.put_cases hp with ⟨hd, rfl, hr⟩ | ⟨rfl, e, rfl⟩
  · obtain ⟨past', htr, -, hpast⟩ := h.traced.publish (n := n) (v := ⟨o.lsn, some encoded⟩) hd
      (fun b hb => by cases hb; exact ⟨j, p, hj, rfl, ht⟩)
    refine ⟨past', ⟨h.leased, h.lined, h.logged, htr, h.resident, h.granted, h.told, h.shut⟩,
      fun lsn hl => ?_⟩
    rcases hr with rfl | ⟨⟨e, rfl⟩, -⟩
    · cases hl
      exact hpast encoded rfl
    · cases hl
  · have hsame : s.set_store (c.place j.key) (s.store (c.place j.key)) = s := by
      simp [System.set_store]
    rw [hsame]
    exact ⟨past, h, fun lsn hl => by cases hl⟩

/-- Memory takes the version of a job that nothing has overtaken. -/
theorem commit (hw : j.stage.working = true) (ht : j.task = .Write p encoded) {z : Registered}
    (hz : s.registry.keys.lookup j.key = some z) (hg : z.generation = j.generation) (fits : Bool)
    (victims : List Bytes) :
    Inv c init past ({ s with memory := s.memory.commit_entry p fits victims }.emit
      (.committed n)) := by
  obtain ⟨hlease, -⟩ := JobStage.of_working hw
  obtain ⟨-, hlast⟩ := h.leased.own n j hj hlease z hz
  obtain ⟨hkey, -⟩ := h.traced.tasks n j p encoded hj ht
  obtain ⟨token, hadm⟩ := h.logged.known n j hj
  rw [ht] at hadm
  have hle : ∀ m e t, .admitted m j.key e t ∈ s.log → m ≤ n := fun m e t hm => by
    obtain ⟨j', hj', hk', -⟩ := h.logged.admitted m j.key e t hm
    by_contra hlt
    exact hlast hg m j' (by omega) hj' hk'
  have hfresh : Fresh c init s.log p.entry := by
    refine ⟨some n, ⟨token, by rw [hkey]; exact hadm⟩, fun m e t hm hn => ?_⟩
    have h1 := hle m e t (hkey ▸ hm)
    have h2 : n < m := hn n rfl
    omega
  have hr : Resident c init (s.memory.commit_entry p fits victims) s.calls s.log :=
    h.resident.set_memory (fun k e hl => by
      rcases Memory.lookup_commit hl with ⟨rfl, rfl⟩ | ⟨-, hl⟩
      · exact .inl ⟨rfl, hfresh⟩
      · exact .inr hl)
  exact (show Inv c init past { s with memory := s.memory.commit_entry p fits victims } from
    ⟨h.leased, h.lined, h.logged, h.traced, hr, h.granted, h.told, h.shut⟩).emit rfl rfl
    ⟨j.key, p.entry, token, hadm, hle⟩

/-- A chunk of the key that it invalidates is deleted. -/
theorem deletion {removed : Bool} (ht : j.task = .Remove removed) (hst : j.stage = .Deleting lsn)
    (hd : (s.store (c.place j.key)).delete (c.identify j.key) lsn o = some (result, store)) :
    Inv c init past { s.set_store (c.place j.key) store with
      log := s.log ++ moat_cache.deletion n (c.identify j.key)
        (s.store (c.place j.key)) store } := by
  have h₁ := h.delete hd
  have hnone : moat_cache.deletion n (c.identify j.key) (s.store (c.place j.key)) store = [] →
      Inv c init past { s.set_store (c.place j.key) store with
        log := s.log ++
          moat_cache.deletion n (c.identify j.key) (s.store (c.place j.key)) store } := by
    intro he
    rw [he, List.append_nil]
    exact h₁
  rcases Store.delete_cases hd with ⟨hdr, chunk, hl, rfl, -⟩ | ⟨rfl, -⟩
  · have hdel : moat_cache.deletion n (c.identify j.key) (s.store (c.place j.key))
        ((s.store (c.place j.key)).publish (c.identify j.key) ⟨o.lsn, none⟩ hdr) =
          [.deleted n chunk] := by
      unfold moat_cache.deletion
      rw [hl, Store.live_publish_self]
      rfl
    rw [hdel]
    refine h₁.emit rfl rfl ?_
    have hk := h.knows hj hst
    obtain ⟨-, w, b, env, hp, hdec, hkey⟩ := hk
    obtain ⟨w', hp'⟩ := h.traced.stored _ lsn chunk hl
    rw [hp] at hp'
    cases hp'
    obtain ⟨token, hadm⟩ := h.logged.known n j hj
    rw [ht] at hadm
    exact ⟨j.key, token, env, hadm, hdec, hkey⟩
  · refine hnone ?_
    unfold moat_cache.deletion
    cases hl : (s.store (c.place j.key)).live (c.identify j.key) with
    | none => rfl
    | some => rfl

variable (hrun : jobOf c n j.key ∈ s.scheduler.running)
include hrun

/-- A running job goes on with its disk work. -/
theorem to_stage (hw : j.stage.working = true) (hl : stage.leased = true)
    (hp : stage.pending = true) (hf : stage.failed = false)
    (hk : Mutation.Knows c past s.disks n { j with stage })
    (hs : stage.settled = true → j.stage.settled = true ∨
      ∀ lsn w b, (s.disks (c.place j.key)).lsn (c.identify j.key) = some lsn →
        past (c.identify j.key) lsn = some (w, b) → newer w n →
          ∀ env, c.format.decode b = .ok env → env.key ≠ j.key)
    (hr : j.stage.reserved = true → stage.reserved = false →
      c.identify j.key ∉ (s.disks (c.place j.key)).active) :
    Inv c init past (s.to_stage n j stage) := by
  obtain ⟨h1, h2, h3, h4⟩ := JobStage.of_working hw
  exact ⟨h.leased.stage hj (hl.trans h1.symm) (hp.trans h2.symm), h.lined.set_job hj hrun stage,
    h.logged.set_job hj (hf.trans h3.symm) h4, h.traced.set_job hj hk hs hr, h.resident, h.granted,
      h.told, h.shut⟩

/-- A running job ends its disk work in an error. -/
theorem end_ (hw : j.stage.working = true) (out : Outcome) (ho : out.ok = false)
    (hr : j.stage.reserved = true → c.identify j.key ∉ (s.disks (c.place j.key)).active) :
    Inv c init past ((s.to_stage n j (.Finishing out)).emit (.failed n)) := by
  obtain ⟨h1, h2, h3, h4⟩ := JobStage.of_working hw
  have hs : (JobStage.Finishing out).failed = true := by
    simp [JobStage.failed, JobStage.outcome, ho]
  have hl : (JobStage.Finishing out).leased = j.stage.leased := h1.symm
  refine ⟨(h.leased.stage hj hl h2.symm).emit_neutral rfl, h.lined.set_job hj hrun _,
    h.logged.fail hj hs h4, h.traced.set_job hj trivial (fun hset => ?_) (fun hres _ => hr hres),
    h.resident.emit rfl, h.granted.emit_neutral rfl, h.told.emit trivial,
    fun hc => List.mem_append_left _ (h.shut hc)⟩
  rw [JobStage.not_settled_of_failed hs] at hset
  cases hset

theorem fail (hw : j.stage.working = true)
    (hr : j.stage.reserved = true → c.identify j.key ∉ (s.disks (c.place j.key)).active)
    (e : Error) :
    Inv c init past (s.fail n j e) := by
  have he := h.end_ hj hrun hw (.Failed e) rfl hr
  exact ⟨he.leased, he.lined, he.logged, he.traced, he.resident, he.granted, he.told, he.shut⟩

/-- The job of a chunk that runs is the only one with a reservation. -/
theorem not_active (hr : j.stage.reserved = false) :
    c.identify j.key ∉ (s.disks (c.place j.key)).active := by
  intro hm
  obtain ⟨m, j', hj', hid, hres⟩ := h.traced.active _ hm
  by_cases hmn : m = n
  · subst hmn
    rw [hj] at hj'
    cases hj'
    rw [hr] at hres
    cases hres
  · rcases h.lined.alone hrun hj' hid hmn with ⟨-, o, hst⟩ | ⟨-, hst⟩ <;> rw [hst] at hres <;>
      cases hres

/-- A job gets its reservation. -/
theorem reserved (hw : j.stage.working = true) (hres : j.stage.reserved = false)
    {len allocation free : Nat} {disk : catalog.Disk}
    (hd : (s.disks (c.place j.key)).decide disk (c.identify j.key) len allocation free =
      (.ok .Reserved, state)) :
    Inv c init past ((s.set_disk (c.place j.key) state).to_stage n j .Putting) := by
  obtain ⟨-, rfl, -⟩ := catalog.State.decide_reserved hd
  have h₁ : Inv c init past (s.to_stage n j .Putting) :=
    h.to_stage hj hrun hw rfl rfl rfl trivial (fun hc => by cases hc)
      (fun hc => by rw [hres] at hc; cases hc)
  refine h₁.set_disk (fun i => .inr rfl) (fun i hm => ?_)
  rcases AList.mem_insert _ |>.mp hm with rfl | hm
  swap
  · exact .inl hm
  · exact .inr ⟨n, { j with stage := .Putting },
      List.getElem?_set_self (List.getElem?_eq_some_iff.mp hj).1, rfl, rfl⟩

/-- The slot of a job's chunk takes what the job has stored. -/
theorem commit_slot (hst : j.stage = .Stored lsn) (len : Nat) :
    Inv c init past (s.set_disk (c.place j.key)
      (((s.disks (c.place j.key)).insert (c.identify j.key) lsn len).1.finish
        (c.identify j.key))) :=
  ⟨h.leased, h.lined, h.logged,
    h.traced.commit_slot hj hst (fun _ _ hm hid hne => h.lined.alone hrun hm hid hne), h.resident,
    h.granted, h.told, h.shut⟩

section

variable {old : JobStage} (hst : j.stage = old) (hw : (old.working && !old.reserved) = true)
include hst hw

/-- A job without a reservation goes from `old` to another stage of its disk work. -/
theorem goes (hs : (stage.working && !stage.settled) = true)
    (hk : Mutation.Knows c past s.disks n { j with stage }) :
    Inv c init past (s.to_stage n j stage) := by
  simp only [Bool.and_eq_true, Bool.not_eq_true'] at hw hs
  obtain ⟨h1, h2, h3, -⟩ := JobStage.of_working hs.1
  exact h.to_stage hj hrun (hst ▸ hw.1) h1 h2 h3 hk (fun hc => by rw [hs.2] at hc; cases hc)
    (fun hc => by rw [hst, hw.2] at hc; cases hc)

theorem fails (e : Error) : Inv c init past (s.fail n j e) := by
  simp only [Bool.and_eq_true, Bool.not_eq_true'] at hw
  exact h.fail hj hrun (hst ▸ hw.1) (fun hc => by rw [hst, hw.2] at hc; cases hc) e

end

theorem write (ht : j.task = .Write p encoded) (hs : s.write c n j p encoded o j.stage = some s') :
    ∃ past', Inv c init past' s' := by
  cases hst : j.stage with
  | Submitted =>
    simp only [System.write, hst] at hs
    split at hs
    · cases hs
      exact ⟨past, h.fails hj hrun hst rfl _⟩
    split at hs <;> cases hs
    · exact ⟨past, h.fails hj hrun hst rfl _⟩
    · exact ⟨past, h.goes hj hrun hst rfl rfl trivial⟩
  | Control =>
    simp only [System.write, hst] at hs
    split at hs
    · cases hs
    · cases hs
      exact ⟨past, (h.set_control _ _).goes hj hrun hst rfl rfl trivial⟩
  | Deciding =>
    have hres : j.stage.reserved = false := by rw [hst]; rfl
    simp only [System.write, hst] at hs
    split at hs
    · cases hs
      exact ⟨past, (h.set_control _ _).fails hj hrun hst rfl _⟩
    · cases hs
      exact ⟨past, (h.set_control _ _).fails hj hrun hst rfl _⟩
    split at hs <;> rename_i hd <;> cases hs
    · exact ⟨past, ((h.decided hd (by simp)).set_control _ _).fails hj hrun hst rfl _⟩
    · exact ⟨past, (h.reserved hj hrun (by rw [hst]; rfl) hres hd).set_control _ _⟩
    · exact ⟨past, (h.decided hd (by simp)).goes hj hrun hst rfl rfl trivial⟩
    · exact ⟨past, (h.decided hd (by simp)).goes hj hrun hst rfl rfl trivial⟩
  | Evicting victim lsn =>
    simp only [System.write, hst] at hs
    split at hs
    · cases hs
    · rename_i e store hd
      cases hs
      exact ⟨past, ((h.delete hd).set_control _ _).fails hj hrun hst rfl _⟩
    · rename_i store hd
      cases hs
      exact ⟨past, ((h.delete hd).set_control _ _).fails hj hrun hst rfl _⟩
    · rename_i store _ hd
      cases hs
      exact ⟨past, (h.delete hd).goes hj hrun hst rfl rfl trivial⟩
  | Evicted =>
    simp only [System.write, hst] at hs
    cases hs
    refine ⟨past, (h.set_disk (fun i => ?_) (fun i hm => ?_)).goes hj hrun hst rfl rfl trivial⟩
    · rw [catalog.State.lsn_remove]
      split
      · exact .inl rfl
      · exact .inr rfl
    · rw [catalog.State.active_remove] at hm
      exact .inl hm
  | Parked =>
    simp only [System.write, hst] at hs
    cases hs
    exact ⟨past, h.goes hj hrun hst rfl rfl trivial⟩
  | Putting =>
    simp only [System.write, hst] at hs
    split at hs
    · cases hs
      exact ⟨past, (h.finish _ _).end_ hj hrun (by rw [hst]; rfl) .Unwound rfl
        (fun _ => not_mem_finish _ _ _)⟩
    split at hs
    · cases hs
    · rename_i e store hp
      cases hs
      obtain ⟨past', h', -⟩ := h.put hj ht hp
      exact ⟨past', (h'.finish _ _).fail hj hrun (by rw [hst]; rfl)
        (fun _ => not_mem_finish _ _ _) _⟩
    · rename_i lsn store hp
      cases hs
      obtain ⟨past', h', hpast⟩ := h.put hj ht hp
      exact ⟨past', h'.to_stage hj hrun (by rw [hst]; rfl) rfl rfl rfl
        ⟨p, encoded, ht, hpast lsn rfl⟩ (fun hc => by cases hc) (fun _ hc => by cases hc)⟩
  | Stored lsn =>
    have hslot := h.commit_slot hj hrun hst encoded.length
    simp only [System.write, hst] at hs
    split at hs <;> rename_i state hi <;> cases hs <;> rw [hi] at hslot
    · refine ⟨past, hslot.to_stage hj hrun (by rw [hst]; rfl) rfl rfl rfl trivial
        (fun _ => .inr fun l w b hl hp hn => ?_) (fun _ _ => not_mem_finish _ _ _)⟩
      -- The slot has the version of this very job.
      have hk := h.knows hj hst
      obtain ⟨-, b', -, hpast⟩ := hk
      have hlsn : state.lsn (c.identify j.key) = some lsn := by
        have := (s.disks (c.place j.key)).lsn_insert (c.identify j.key) lsn encoded.length
          (c.identify j.key)
        rw [hi] at this
        simpa using this
      simp only [System.set_disk, update_self, catalog.State.lsn_finish, hlsn] at hl
      cases hl
      rw [hpast] at hp
      cases hp
      exact absurd (hn n rfl) (Nat.lt_irrefl n)
    · exact ⟨past, hslot.end_ hj hrun (by rw [hst]; rfl) .Unwound rfl
        (fun _ => not_mem_finish _ _ _)⟩
  | Written =>
    simp only [System.write, hst] at hs
    split at hs
    · cases hs
    rename_i z hz
    split at hs
    · cases hs
    simp only [Option.some.injEq] at hs
    have hc : ∀ s₁, s₁ = (if z.generation = j.generation ∧ s.registry.closed = false then
        { s with memory := s.memory.commit_entry p o.fits o.victims }.emit (.committed n)
        else s) → Inv c init past s₁ ∧ s₁.jobs = s.jobs ∧ s₁.scheduler = s.scheduler := by
      rintro s₁ rfl
      split
      · rename_i hcond
        exact ⟨h.commit hj (by rw [hst]; rfl) ht hz hcond.1 _ _, rfl, rfl⟩
      · exact ⟨h, rfl, rfl⟩
    obtain ⟨h₁, hjobs, hsched⟩ := hc _ rfl
    have hj' := hjobs ▸ hj
    have hrun' := hsched ▸ hrun
    subst hs
    split
    · exact ⟨past, h₁.end_ hj' hrun' (by rw [hst]; rfl) .Unwound rfl
        (by simp [hst, JobStage.reserved])⟩
    · exact ⟨past, h₁.to_stage hj' hrun' (by rw [hst]; rfl) rfl rfl rfl trivial
        (fun _ => .inl (by rw [hst]; rfl)) (by simp [hst, JobStage.reserved])⟩
  | _ => simp [System.write, hst] at hs

theorem remove {removed : Bool} (ht : j.task = .Remove removed)
    (hs : s.remove c n j removed o j.stage = some s') : Inv c init past s' := by
  cases hst : j.stage with
  | Submitted =>
    simp only [System.remove, hst] at hs
    cases hs
    exact h.goes hj hrun hst rfl rfl trivial
  | Control =>
    simp only [System.remove, hst] at hs
    split at hs
    · cases hs
    · cases hs
      exact (h.set_control _ _).goes hj hrun hst rfl rfl trivial
  | Versioning =>
    simp only [System.remove, hst] at hs
    split at hs <;> rename_i hv <;> cases hs
    · -- Nothing of the chunk is on the disk.
      have hna := h.not_active hj hrun (by rw [hst]; rfl)
      rw [catalog.State.version_on_of_not_active hna] at hv
      refine (h.set_control _ _).to_stage hj hrun (by rw [hst]; rfl) rfl rfl rfl trivial
        (fun _ => .inr fun l w b hl => ?_) (by simp [hst, JobStage.reserved])
      rw [show (s.disks (c.place j.key)).lsn (c.identify j.key) = some l from hl] at hv
      cases hv
    · refine h.goes hj hrun hst rfl rfl fun l hl => ?_
      rw [catalog.State.version_on_lsn hv] at hl
      cases hl
      rfl
  | Reading lsn =>
    have hk := h.knows hj hst
    simp only [System.remove, hst] at hs
    split at hs
    · cases hs
      exact (h.set_control _ _).fails hj hrun hst rfl _
    · cases hs
      exact h.goes hj hrun hst rfl rfl hk
    · rename_i chunk hget
      obtain ⟨w, hpast⟩ := h.traced.read hget
      split at hs
      · cases hs
        exact (h.set_control _ _).fails hj hrun hst rfl _
      rename_i hlsn
      rw [ne_eq, not_not] at hlsn
      split at hs
      · cases hs
        exact (h.set_control _ _).fails hj hrun hst rfl _
      rename_i env hdec
      split at hs <;> rename_i hkey <;> cases hs
      · -- The chunk is another key's, and stays.
        refine (h.set_control _ _).to_stage hj hrun (by rw [hst]; rfl) rfl rfl rfl trivial
          (fun _ => .inr fun l w' b hl hp _ env' hdec' => ?_) (by simp [hst, JobStage.reserved])
        rw [hk l hl, ← hlsn, hpast] at hp
        cases hp
        rw [hdec] at hdec'
        cases hdec'
        exact hkey
      · rw [ne_eq, not_not] at hkey
        exact h.goes hj hrun hst rfl rfl
          ⟨hk, w, chunk.bytes, env, by rw [← hlsn]; exact hpast, hdec, hkey⟩
  | Deleting lsn =>
    have hk := h.knows hj hst
    simp only [System.remove, hst] at hs
    split at hs
    · cases hs
    rename_i result store hd
    have h₁ := h.deletion hj ht hst hd
    split at hs <;> cases hs
    · exact (h₁.set_control _ _).fails hj hrun hst rfl _
    · exact (h₁.set_control _ _).fails hj hrun hst rfl _
    · exact h₁.goes hj hrun hst rfl rfl hk.1
  | Removing lsn done =>
    have hk := h.knows hj hst
    simp only [System.remove, hst] at hs
    cases hs
    have hlsn := (s.disks (c.place j.key)).lsn_remove_version (c.identify j.key) lsn
    have h₁ : Inv c init past (s.set_disk (c.place j.key)
        ((s.disks (c.place j.key)).remove_version (c.identify j.key) lsn)) := by
      refine h.set_disk (fun i => ?_) (fun i hm => ?_)
      · rw [hlsn]
        split
        · exact .inl rfl
        · exact .inr rfl
      · rw [catalog.State.active_remove_version] at hm
        exact .inl hm
    refine (h₁.set_control _ _).to_stage hj hrun (by rw [hst]; rfl) rfl rfl rfl trivial
      (fun _ => .inr fun l w b hl => ?_) (by simp [hst, JobStage.reserved])
    simp only [System.set_control, System.set_disk, update_self, hlsn, true_and] at hl
    split at hl
    · cases hl
    · rename_i hne
      rw [hk l hl] at hl
      exact absurd hl hne
  | _ => simp [System.remove, hst] at hs

/-- A job ends: its mutation is dropped, its lease, and it replies. -/
theorem finishing {out : Outcome} (hold : j.stage.outcome = some out)
    (hnew : stage.outcome = some out) (hopen : ∀ o, j.stage ≠ .Finished o) {r : Registry}
    (hc : r.closed = s.registry.closed)
    (hl : Leased r s.calls (s.jobs.set n { j with stage }) s.log) :
    Inv c init past ({ s with registry := r }.to_stage n j stage) := by
  have hk : Mutation.Knows c past s.disks n { j with stage } := by
    cases stage <;> trivial
  refine ⟨hl, h.lined.set_job hj hrun stage, h.logged.set_job hj ?_ hopen,
    h.traced.set_job hj hk (fun hs => .inl ?_) (fun hc => ?_), h.resident, h.granted, h.told,
    fun hr => h.shut (hc.symm.trans hr)⟩
  · rw [JobStage.failed, JobStage.failed, hold, hnew]
  · have hw : stage ≠ .Written := by rintro rfl; cases hnew
    simp only [JobStage.settled, hw, decide_false, Bool.false_or, hnew] at hs
    simp only [JobStage.settled, hold, hs, Bool.or_true]
  · cases hst : j.stage <;> rw [hst] at hold hc <;> first | (cases hold; done) | cases hc

theorem job (hs : s.job c n j o = some s') : ∃ past', Inv c init past' s' := by
  unfold System.job at hs
  cases hst : j.stage with
  | Finishing =>
    simp only [hst] at hs
    split at hs
    · cases hs
    split at hs
    · cases hs
    · cases hs
      exact ⟨past, h.finishing hj hrun (by rw [hst]; rfl) rfl (by simp [hst])
        (Registry.closed_update ..)
        (h.leased.unpend hj (by rw [hst]; rfl) rfl (by rw [hst]; rfl) rfl)⟩
  | Released =>
    simp only [hst] at hs
    cases hs
    exact ⟨past, h.finishing hj hrun (by rw [hst]; rfl) rfl (by simp [hst])
      (Registry.closed_release ..)
      (h.leased.release_job hj (by rw [hst]; rfl) rfl (by rw [hst]; rfl))⟩
  | Replying out =>
    simp only [hst] at hs
    cases hs
    have h₁ : Inv c init past (s.to_stage n j (.Finished out)) :=
      h.finishing hj hrun (by rw [hst]; rfl) rfl (by simp [hst]) rfl
        (h.leased.stage hj (by rw [hst]; rfl) (by rw [hst]; rfl))
    have hself :
      (s.to_stage n j (.Finished out)).jobs[n]? = some { j with stage := .Finished out } :=
      List.getElem?_set_self (List.getElem?_eq_some_iff.mp hj).1
    have hsucc : out.ok = true → Inv c init past ((s.to_stage n j (.Finished out)).emit
        (.succeeded n)) := fun hok =>
      ⟨h₁.leased.emit_neutral rfl, h₁.lined, h₁.logged.succeed hself rfl hok, h₁.traced,
        h₁.resident.emit rfl, h₁.granted.emit_neutral rfl, h₁.told.emit trivial,
        fun hc => List.mem_append_left _ (h₁.shut hc)⟩
    cases out with
    | Inserted => exact ⟨past, hsucc rfl⟩
    | Invalidated => exact ⟨past, hsucc rfl⟩
    | Failed => exact ⟨past, h₁⟩
    | Unwound => exact ⟨past, h₁⟩
  | Finished =>
    simp only [hst] at hs
    cases hs
  | _ =>
    simp only [hst] at hs
    rw [← hst] at hs
    cases ht : j.task with
    | Write => rw [ht] at hs; exact h.write hj hrun ht hs
    | Remove => rw [ht] at hs; exact ⟨past, h.remove hj hrun ht hs⟩

end

/-! ## Runs -/

theorem act {a : Action} (hs : s.act c a = some s') : ∃ past', Inv c init past' s' := by
  cases a with
  | get_memory key =>
    have h₁ := h.emit (e := .started s.calls.length key) rfl rfl trivial
    simp only [System.act] at hs
    split at hs <;> cases hs
    · exact ⟨past, (h₁.begin_ (y := .Done) rfl rfl (fun _ => rfl) trivial).emit rfl rfl trivial⟩
    · exact ⟨past, h₁.begin_ rfl rfl (fun _ => rfl) trivial⟩
  | lookup key =>
    have h₁ := h.emit (e := .started s.calls.length key) rfl rfl trivial
    simp only [System.act] at hs
    split at hs <;> cases hs
    · exact ⟨past, (h₁.begin_ (y := .Done) rfl rfl (fun _ => rfl) trivial).emit rfl rfl
        (fun _ _ => rfl)⟩
    · exact ⟨past, h₁.begin_ rfl rfl (fun _ => rfl) trivial⟩
  | insert =>
    simp only [System.act] at hs
    split at hs <;> cases hs
    · exact ⟨past, (h.begin_ (y := .Done) rfl rfl (fun _ => rfl) trivial).emit rfl rfl
        (fun _ _ => rfl)⟩
    · exact ⟨past, h.begin_ rfl rfl (fun _ => rfl) trivial⟩
  | invalidate =>
    cases hs
    exact ⟨past, h.begin_ rfl rfl (fun _ => rfl) trivial⟩
  | populate i value properties priority admitted =>
    simp only [System.act] at hs
    split at hs
    · rename_i key g hx
      exact ⟨past, h.populate hx rfl hs⟩
    · cases hs
  | drop_token i =>
    simp only [System.act] at hs
    split at hs <;> cases hs
    rename_i key g hx
    exact ⟨past, h.move hx rfl rfl (.inl rfl) trivial⟩
  | drop_lookup i =>
    simp only [System.act] at hs
    split at hs <;> cases hs <;> rename_i hx
    · exact ⟨past, h.move hx rfl rfl (.inl rfl) trivial⟩
    · exact ⟨past, h.move hx rfl rfl (.inl rfl) trivial⟩
  | call i o =>
    simp only [System.act] at hs
    split at hs
    · rename_i x hx
      exact ⟨past, h.call hx hs⟩
    · cases hs
  | job n o =>
    simp only [System.act] at hs
    split at hs
    · rename_i j hj
      split at hs
      · rename_i hrun
        exact h.job hj hrun hs
      · cases hs
    · cases hs
  | receive =>
    simp only [System.act] at hs
    split at hs <;> cases hs
    rename_i scheduler hr
    exact ⟨past, h.set_scheduler (h.lined.receive hr)⟩
  | completed n =>
    simp only [System.act] at hs
    split at hs
    · rename_i key generation task out hj
      split at hs <;> cases hs
      rename_i hrun
      exact ⟨past, h.set_scheduler ((h.lined.completed hj hrun rfl).budget _)⟩
    · cases hs
  | fenced =>
    simp only [System.act] at hs
    split at hs <;> cases hs <;> rename_i hf
    · exact ⟨past, h.leased, (h.lined.fenced hf).budget _, h.logged, h.traced, h.resident,
        h.granted, h.told, h.shut⟩
    · exact ⟨past, h.leased, h.lined.fenced hf, h.logged, h.traced,
        h.resident.set_memory (fun k e hl => by cases hl), h.granted, h.told, h.shut⟩
  | shrink =>
    cases hs
    exact ⟨past, h.set_memory (fun k e hl => Memory.lookup_trim hl)⟩
  | flush =>
    simp only [System.act] at hs
    split at hs
    · cases hs
      exact ⟨past, h⟩
    · rename_i scheduler hr
      split at hs <;> cases hs
      · exact ⟨past, h⟩
      · exact ⟨past, h.set_scheduler ((h.lined.reserve hr).submit_fence 0)⟩
  | close =>
    simp only [System.act] at hs
    split at hs <;> cases hs
    · exact ⟨past, h⟩
    · have he := h.emit (e := .closed) rfl rfl trivial
      exact ⟨past, he.leased.registry_congr rfl, he.lined.submit_fence 1, he.logged, he.traced,
        he.resident, he.granted, he.told, fun _ => List.mem_append_right _ List.mem_cons_self⟩

theorem run {as : List Action} (hs : s.run c as = some s') : ∃ past', Inv c init past' s' := by
  induction as generalizing s past with
  | nil => cases hs; exact ⟨past, h⟩
  | cons a as ih =>
    simp only [System.run] at hs
    split at hs
    · cases hs
    · rename_i s₁ ha
      obtain ⟨past₁, h₁⟩ := h.act ha
      exact ih h₁ hs

end Inv
end moat_cache
