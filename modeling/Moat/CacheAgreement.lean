-- The directory and the store agree on every chunk that no job has under its
-- hands: a chunk is out of agreement only from the answer of the store until the
-- slot follows.
import Moat.CacheGuards

namespace moat_cache

open moat_common catalog List Function

/-- The store has answered for this chunk, and its slot has not followed yet. -/
def Mutation.touches (c : Config) (id : ChunkId) (j : Mutation) : Bool :=
  match j.stage with
  | .Stored _ | .Removing _ _ => c.identify j.key = id
  | .Evicted v => v = id
  | _ => false

/-- The job has a version on disk `d` that is not in its slot yet. -/
def Mutation.storing (c : Config) (d : Nat) (j : Mutation) : Bool :=
  match j.stage with
  | .Stored _ => c.place j.key = d
  | _ => false

/-- What a job knows of the store. -/
def Mutation.Coheres (c : Config) (store : Nat → Store) (disks : Nat → State)
    (j : Mutation) : Prop :=
  match j.stage with
  | .Stored lsn => ∃ p b, j.task = .Write p b ∧
      (store (c.place j.key)).live (c.identify j.key) = some (lsn, b)
  | .Removing _ _ => (store (c.place j.key)).live (c.identify j.key) = none
  | .Evicted v => c.disk_of v = c.place j.key ∧ (store (c.place j.key)).live v = none
  | .Evicting v lsn => c.disk_of v = c.place j.key ∧ (disks (c.place j.key)).lsn v = some lsn
  | _ => True

structure Coherent (c : Config) (store : Nat → Store) (disks : Nat → State)
    (jobs : List Mutation) : Prop where
  agree : ∀ id, (∀ j ∈ jobs, j.touches c id = false) →
    (disks (c.disk_of id)).record id = (store (c.disk_of id)).record id
  coheres : ∀ j ∈ jobs, j.Coheres c store disks
  clock : ∀ d, (disks d).clock + jobs.countP (Mutation.storing c d) ≤ (store d).drawn.length

theorem Store.length_drawn (s : Store) : s.drawn.length < 2 ^ 64 := by
  have hsub : ∀ n ∈ s.drawn, n ∈ List.range' 1 (2 ^ 64 - 1) := fun n hn => by
    have := s.range n hn
    rw [mem_range'_1]
    omega
  have := (subperm_of_subset s.nodup hsub).length_le
  rw [length_range'] at this
  omega

namespace Coherent

variable {c : Config} {store : Nat → Store} {disks : Nat → State} {jobs : List Mutation}
  {n d : Nat} {j : Mutation} {id : ChunkId}

variable (h : Coherent c store disks jobs) {stage : JobStage}
include h

/-- No slot changes in what it says. -/
theorem set_disk {state : State}
    (hr : ∀ id, state.record id = (disks d).record id) (hc : state.clock = (disks d).clock) :
    Coherent c store (update disks d state) jobs := by
  have hrec : ∀ e id, (update disks d state e).record id = (disks e).record id := by
    intro e id
    by_cases he : e = d
    · rw [he, update_self]; exact hr id
    · rw [update_of_ne he]
  refine ⟨fun id hid => ?_, fun j hj => ?_, fun e => ?_⟩
  · rw [hrec]; exact h.agree id hid
  · have hk := h.coheres j hj
    unfold Mutation.Coheres at hk ⊢
    split <;> rename_i hst <;> simp only [hst] at hk
    · exact hk
    · exact hk
    · exact hk
    · rw [State.lsn_eq_record, hrec, ← State.lsn_eq_record]
      exact hk
    · trivial
  · by_cases he : e = d
    · rw [he, update_self, hc]; exact h.clock d
    · rw [update_of_ne he]; exact h.clock e

theorem admission {j : Mutation} (hs : j.stage = .Submitted) :
    Coherent c store disks (jobs ++ [j]) := by
  refine ⟨fun id hid => h.agree id (fun x hx => hid x (mem_append_left _ hx)), fun x hx => ?_,
    fun e => ?_⟩
  · rcases mem_append.mp hx with hx | hx
    · exact h.coheres x hx
    · rw [mem_singleton.mp hx]
      unfold Mutation.Coheres
      simp only [hs]
  · have hn : Mutation.storing c e j = false := by
      unfold Mutation.storing
      simp only [hs]
    rw [countP_append, countP_singleton, hn]
    exact h.clock e

variable (hj : jobs[n]? = some j)
include hj

/-- A chunk that a job did not touch, and that no job touches when it goes on, is in agreement. -/
theorem agree_set (hown : j.touches c id = false)
    (hid : ∀ x ∈ jobs.set n { j with stage }, x.touches c id = false) :
    (disks (c.disk_of id)).record id = (store (c.disk_of id)).record id := by
  refine h.agree id (fun x hx => ?_)
  obtain ⟨m, hm⟩ := mem_iff_getElem?.mp hx
  by_cases hmn : m = n
  · subst hmn
    rw [hj] at hm
    cases hm
    exact hown
  · exact hid x (mem_of_getElem? (by rw [List.getElem?_set_ne (Ne.symm hmn)]; exact hm))

/-- A job goes on, and what it knows is so. A chunk that it lets go is in agreement. -/
theorem set_job (hk : Mutation.Coheres c store disks { j with stage })
    (ht : ∀ id, j.touches c id = true → Mutation.touches c id { j with stage } = false →
      (disks (c.disk_of id)).record id = (store (c.disk_of id)).record id)
    (hs : ∀ d, Mutation.storing c d { j with stage } = true → j.storing c d = true) :
    Coherent c store disks (jobs.set n { j with stage }) := by
  have hlen := (List.getElem?_eq_some_iff.mp hj).1
  have hself : { j with stage } ∈ jobs.set n { j with stage } :=
    mem_of_getElem? (List.getElem?_set_self hlen)
  refine ⟨fun id hid => ?_, fun x hx => ?_, fun e => ?_⟩
  · cases htj : j.touches c id with
    | true => exact ht id htj (hid _ hself)
    | false => exact h.agree_set hj htj hid
  · rcases mem_or_eq_of_mem_set hx with hx | rfl
    · exact h.coheres x hx
    · exact hk
  · have hc := countP_set_add hj { j with stage } (Mutation.storing c e)
    have hle := Bool.toNat_le_toNat (hs e)
    have := h.clock e
    omega

/-- The store answers a job for one chunk, whose slot has to follow. -/
theorem answer {st : Store} (hother : ∀ i, i ≠ id → st.live i = (store (c.disk_of id)).live i)
    (hold : ∀ i, j.touches c i = false) (htouch : Mutation.touches c id { j with stage } = true)
    (hdrawn : (store (c.disk_of id)).drawn.length +
      (Mutation.storing c (c.disk_of id) { j with stage }).toNat ≤ st.drawn.length)
    (hstoring : ∀ d, Mutation.storing c d { j with stage } = true → d = c.disk_of id)
    (hk : Mutation.Coheres c (update store (c.disk_of id) st) disks { j with stage })
    (hjobs : ∀ (m : Nat) (j' : Mutation), m ≠ n → jobs[m]? = some j' → j'.touches c id = false) :
    Coherent c (update store (c.disk_of id) st) disks (jobs.set n { j with stage }) := by
  have hlen := (List.getElem?_eq_some_iff.mp hj).1
  have hself : { j with stage } ∈ jobs.set n { j with stage } :=
    mem_of_getElem? (List.getElem?_set_self hlen)
  have hlive : ∀ e i, i ≠ id →
      (update store (c.disk_of id) st e).live i = (store e).live i := by
    intro e i hi
    by_cases he : e = c.disk_of id
    · rw [he, update_self]; exact hother i hi
    · rw [update_of_ne he]
  refine ⟨fun i hi => ?_, fun x hx => ?_, fun e => ?_⟩
  · have hne : i ≠ id := by
      rintro rfl
      rw [hi _ hself] at htouch
      cases htouch
    rw [Store.record, hlive _ i hne, ← Store.record]
    exact h.agree_set hj (hold i) hi
  · obtain ⟨m, hm⟩ := mem_iff_getElem?.mp hx
    rcases getElem?_set_cases hm with ⟨-, rfl⟩ | ⟨hne, hm⟩
    · exact hk
    · have ht := hjobs m x hne hm
      have hkx := h.coheres x (mem_of_getElem? hm)
      unfold Mutation.touches at ht
      unfold Mutation.Coheres at hkx ⊢
      split <;> rename_i hst <;> simp only [hst] at hkx ht
      · obtain ⟨p, b, hp, hl⟩ := hkx
        exact ⟨p, b, hp, by rw [hlive _ _ (of_decide_eq_false ht)]; exact hl⟩
      · rw [hlive _ _ (of_decide_eq_false ht)]
        exact hkx
      · rw [hlive _ _ (of_decide_eq_false ht)]
        exact hkx
      · exact hkx
      · trivial
  · have hc := countP_set_add hj { j with stage } (Mutation.storing c e)
    have := h.clock e
    by_cases he : e = c.disk_of id
    · subst he
      rw [update_self]
      omega
    · have hn : Mutation.storing c e { j with stage } = false := by
        cases hb : Mutation.storing c e { j with stage } with
        | false => rfl
        | true => exact absurd (hstoring e hb) he
      rw [update_of_ne he]
      rw [hn, Bool.toNat_false] at hc
      omega

/-- The slot of one chunk follows the store. -/
theorem follow {state : State}
    (hother : ∀ i, i ≠ id → state.record i = (disks (c.disk_of id)).record i)
    (hagree : state.record id = (store (c.disk_of id)).record id)
    (hold : ∀ i, j.touches c i = true → i = id)
    (hclock : state.clock + (Mutation.storing c (c.disk_of id) { j with stage }).toNat ≤
      (disks (c.disk_of id)).clock + (j.storing c (c.disk_of id)).toNat)
    (hstoring : ∀ d, Mutation.storing c d { j with stage } = true → j.storing c d = true)
    (hk : Mutation.Coheres c store (update disks (c.disk_of id) state) { j with stage })
    (hvictims : ∀ (m : Nat) (j' : Mutation) lsn, m ≠ n → jobs[m]? = some j' →
      j'.stage ≠ .Evicting id lsn) :
    Coherent c store (update disks (c.disk_of id) state) (jobs.set n { j with stage }) := by
  have hrec : ∀ e i, i ≠ id →
      (update disks (c.disk_of id) state e).record i = (disks e).record i := by
    intro e i hi
    by_cases he : e = c.disk_of id
    · rw [he, update_self]; exact hother i hi
    · rw [update_of_ne he]
  refine ⟨fun i hi => ?_, fun x hx => ?_, fun e => ?_⟩
  · by_cases hid : i = id
    · subst hid
      rw [update_self]
      exact hagree
    · rw [hrec _ i hid]
      exact h.agree_set hj (Bool.eq_false_iff.mpr fun ht => hid (hold i ht)) hi
  · obtain ⟨m, hm⟩ := mem_iff_getElem?.mp hx
    rcases getElem?_set_cases hm with ⟨-, rfl⟩ | ⟨hne, hm⟩
    · exact hk
    · have hkx := h.coheres x (mem_of_getElem? hm)
      unfold Mutation.Coheres at hkx ⊢
      split <;> rename_i hst <;> simp only [hst] at hkx
      · exact hkx
      · exact hkx
      · exact hkx
      · rename_i v lsn
        have hv : v ≠ id := by
          rintro rfl
          exact hvictims m x lsn hne hm hst
        rw [State.lsn_eq_record, hrec _ v hv, ← State.lsn_eq_record]
        exact hkx
      · trivial
  · have hc := countP_set_add hj { j with stage } (Mutation.storing c e)
    have := h.clock e
    by_cases he : e = c.disk_of id
    · subst he
      rw [update_self]
      omega
    · rw [update_of_ne he]
      have hle := Bool.toNat_le_toNat (hstoring e)
      omega

end Coherent
end moat_cache
