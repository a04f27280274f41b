-- The invariant of a pipeline whose queue has not failed: slots, the queues of
-- slots and the accepted requests fit together. Every step keeps it.
import Moat.PipelineStep

namespace moat_engine.pipeline

open byte_list moat_common List
open moat_engine.io (Operation Queue Request Script)

/-! ## Lists without duplicates -/

theorem nodup_concat {α : Type} {l : List α} {x : α} (h : l.Nodup) (hx : x ∉ l) :
    (l ++ [x]).Nodup := by
  rw [nodup_append]
  refine ⟨h, by simp, ?_⟩
  intro a ha b hb hab
  rw [mem_singleton] at hb
  subst hb hab
  exact hx ha

/-- What stays after an erasure differs from what was erased. -/
theorem key_ne_of_mem_eraseIdx {α β : Type} {f : α → β} {l : List α} {i : Nat} {x e : α}
    (h : (l.map f).Nodup) (hx : l[i]? = some x) (he : e ∈ l.eraseIdx i) : f e ≠ f x := by
  induction l generalizing i with
  | nil => cases hx
  | cons _ _ ih =>
    rw [map_cons, nodup_cons] at h
    cases i with
    | zero =>
      rw [List.getElem?_cons_zero] at hx
      cases hx
      rw [eraseIdx_cons_zero] at he
      intro hc
      apply h.1
      rw [← hc]
      exact mem_map_of_mem he
    | succ =>
      rw [List.getElem?_cons_succ] at hx
      rw [eraseIdx_cons_succ] at he
      rcases mem_cons.mp he with rfl | he
      · intro hc
        apply h.1
        rw [hc]
        exact mem_map_of_mem (mem_of_getElem? hx)
      · exact ih h.2 hx he

/-! ## The invariant -/

inductive Kind where
  | write
  | read
  | empty
  | flush
deriving DecidableEq

def Pending.kind : Pending → Kind
  | .Write _ => .write
  | .Read _ => .read
  | .VerifiedRead _ => .read
  | .EmptyRead _ _ => .empty
  | .Flush _ _ => .flush

/-- What kind of operation a slot holds. -/
def Pipeline.kindAt (p : Pipeline) (s : Nat) : Option Kind := (p.slot s).map Pending.kind

structure Live (p : Pipeline) : Prop where
  healthy : p.queue_failed = false
  depth_le : p.queue.depth ≤ 32768
  slots_len : p.slots.length = p.queue.depth
  accepted_le : p.queue.accepted.length ≤ p.queue.depth
  free_lt : ∀ s ∈ p.free, s < p.slots.length
  free_none : ∀ s ∈ p.free, p.slot s = none
  free_nodup : p.free.Nodup
  writes_nodup : p.writes.Nodup
  writes_iff : ∀ s, s ∈ p.writes ↔ p.kindAt s = some .write
  ready_nodup : p.ready_reads.Nodup
  ready_iff : ∀ s, s ∈ p.ready_reads ↔ p.kindAt s = some .empty
  flush_iff : ∀ s, p.flush_slot = some s ↔ p.kindAt s = some .flush
  tokens_nodup : (p.queue.accepted.map (·.2.token)).Nodup
  carried : ∀ e ∈ p.queue.accepted, e.2.token ≠ CONTROL_TOKEN →
    ∃ q, p.slot e.2.token = some q ∧ q.Carries e.2
  control_carried : ∀ e ∈ p.queue.accepted, e.2.token = CONTROL_TOKEN → p.control_active = true
  control_token : ∀ r, p.control = some r → r.token = CONTROL_TOKEN ∧ p.control_active = false
  flush_alone : p.flush_slot.isSome = true → p.control = none ∧ p.control_active = false

variable {s : Nat} {p : Pipeline}

theorem kindAt_eq {q : Pending} (h : p.slot s = some q) : p.kindAt s = some q.kind := by
  unfold Pipeline.kindAt
  rw [h]
  rfl

namespace Live

variable (h : Live p)
include h

/-- A queued write is in its slot. -/
theorem write_slot (hs : s ∈ p.writes) : ∃ w, p.slot s = some (.Write w) := by
  have hk := (h.writes_iff s).mp hs
  unfold Pipeline.kindAt at hk
  cases hq : p.slot s with
  | none => rw [hq] at hk; cases hk
  | some q =>
    rw [hq] at hk
    cases q with
    | Write w => exact ⟨w, rfl⟩
    | _ => cases hk

theorem empty_slot (hs : s ∈ p.ready_reads) : ∃ t b, p.slot s = some (.EmptyRead t b) := by
  have hk := (h.ready_iff s).mp hs
  unfold Pipeline.kindAt at hk
  cases hq : p.slot s with
  | none => rw [hq] at hk; cases hk
  | some q =>
    rw [hq] at hk
    cases q with
    | EmptyRead t b => exact ⟨t, b, rfl⟩
    | _ => cases hk

theorem flush_pending (hs : p.flush_slot = some s) : ∃ t b, p.slot s = some (.Flush t b) := by
  have hk := (h.flush_iff s).mp hs
  unfold Pipeline.kindAt at hk
  cases hq : p.slot s with
  | none => rw [hq] at hk; cases hk
  | some q =>
    rw [hq] at hk
    cases q with
    | Flush t b => exact ⟨t, b, rfl⟩
    | _ => cases hk

theorem slot_ne_control (hs : s < p.slots.length) : s ≠ CONTROL_TOKEN := by
  have h1 := h.depth_le
  rw [h.slots_len] at hs
  unfold CONTROL_TOKEN
  omega

/-- A free slot has no request in the queue. -/
theorem token_of_free (hs : s ∈ p.free) : s ∉ p.queue.accepted.map (·.2.token) := by
  intro hm
  obtain ⟨e, he, rfl⟩ := mem_map.mp hm
  obtain ⟨q, hq, -⟩ := h.carried e he (h.slot_ne_control (h.free_lt _ hs))
  rw [h.free_none _ hs] at hq
  cases hq

/-- A slot whose operation carries no request has none in the queue. -/
theorem token_of_idle {q : Pending} (hs : p.slot s = some q)
    (hq : ∀ r, ¬ q.Carries r) : s ∉ p.queue.accepted.map (·.2.token) := by
  intro hm
  obtain ⟨e, he, rfl⟩ := mem_map.mp hm
  obtain ⟨q', hq', hc⟩ := h.carried e he (h.slot_ne_control (slot_lt hs))
  rw [hs] at hq'
  cases hq'
  exact hq _ hc

/-- While a flush waits for its writes, the queue has room for its sync. -/
theorem room_for_sync {ticket : Nat} (hf : p.flush_slot = some s)
    (hs : p.slot s = some (.Flush ticket false)) : p.queue.accepted.length < p.queue.depth := by
  have hidle := h.token_of_idle hs (fun r hc => by cases hc.1)
  obtain ⟨-, hoff⟩ := h.flush_alone (by rw [hf]; rfl)
  have hsub : s :: p.queue.accepted.map (·.2.token) ⊆ List.range p.queue.depth := by
    intro t ht
    rw [mem_range, ← h.slots_len]
    rcases mem_cons.mp ht with rfl | ht
    · exact slot_lt hs
    · obtain ⟨e, he, rfl⟩ := mem_map.mp ht
      have hk : e.2.token ≠ CONTROL_TOKEN := by
        intro hk
        have := h.control_carried e he hk
        rw [hoff] at this
        cases this
      obtain ⟨q, hq, -⟩ := h.carried e he hk
      exact slot_lt hq
  have hle := (subperm_of_subset (nodup_cons.mpr ⟨hidle, h.tokens_nodup⟩) hsub).length_le
  rw [length_cons, length_map, length_range] at hle
  omega

/-- A change of one slot keeps the invariant when the queues of slots follow it and the queue
holds no other request for it. -/
theorem change {p' : Pipeline} {q : Option Pending} (hs : s < p.slots.length)
    (hslots : p'.slots = p.slots.set s q)
    (hfree : ∀ t ∈ p'.free, (t ∈ p.free ∧ t ≠ s) ∨ (t = s ∧ q = none)) (hfn : p'.free.Nodup)
    (hw : ∀ t, t ∈ p'.writes ↔ if t = s then q.map Pending.kind = some .write else t ∈ p.writes)
    (hwn : p'.writes.Nodup) (hr : ∀ t, t ∈ p'.ready_reads ↔
      if t = s then q.map Pending.kind = some .empty else t ∈ p.ready_reads)
    (hrn : p'.ready_reads.Nodup) (hfl : ∀ t, p'.flush_slot = some t ↔
      if t = s then q.map Pending.kind = some .flush else p.flush_slot = some t)
    (ha : ∀ e ∈ p'.queue.accepted, (e ∈ p.queue.accepted ∧ e.2.token ≠ s) ∨
      (e.2.token = s ∧ ∃ q', q = some q' ∧ q'.Carries e.2))
    (hn : (p'.queue.accepted.map (·.2.token)).Nodup) (hd : p'.queue.depth = p.queue.depth)
    (hl : p'.queue.accepted.length ≤ p.queue.depth) (hc : p'.control = p.control)
    (hca : p'.control_active = p.control_active) (hqf : p'.queue_failed = p.queue_failed)
    (halone : p'.flush_slot.isSome = true → p.control = none ∧ p.control_active = false) :
    Live p' := by
  have hslot : ∀ t, p'.slot t = if t = s then q else p.slot t := by
    intro t
    rw [slot_of_set hslots t]
    by_cases ht : t = s
    · rw [if_pos ⟨ht, hs⟩, if_pos ht]
    · rw [if_neg (fun hc => ht hc.1), if_neg ht]
  have hkind : ∀ t, p'.kindAt t = if t = s then q.map Pending.kind else p.kindAt t := by
    intro t
    unfold Pipeline.kindAt
    rw [hslot t]
    split <;> rfl
  have hlen : p'.slots.length = p.slots.length := by rw [hslots, length_set]
  refine
    { healthy := by rw [hqf]; exact h.healthy
      depth_le := by rw [hd]; exact h.depth_le
      slots_len := by rw [hlen, hd]; exact h.slots_len
      accepted_le := by rw [hd]; exact hl
      free_lt := ?_, free_none := ?_, free_nodup := hfn, writes_nodup := hwn, writes_iff := ?_
      ready_nodup := hrn, ready_iff := ?_, flush_iff := ?_, tokens_nodup := hn, carried := ?_
      control_carried := ?_, control_token := ?_, flush_alone := ?_ }
  · intro t ht
    rw [hlen]
    rcases hfree t ht with ⟨h1, -⟩ | ⟨rfl, -⟩
    · exact h.free_lt t h1
    · exact hs
  · intro t ht
    rw [hslot t]
    rcases hfree t ht with ⟨h1, h2⟩ | ⟨h1, h2⟩
    · rw [if_neg h2]; exact h.free_none t h1
    · rw [if_pos h1]; exact h2
  · intro t
    rw [hw t, hkind t]
    split
    · rfl
    · exact h.writes_iff t
  · intro t
    rw [hr t, hkind t]
    split
    · rfl
    · exact h.ready_iff t
  · intro t
    rw [hfl t, hkind t]
    split
    · rfl
    · exact h.flush_iff t
  · intro e he hk
    rcases ha e he with ⟨h1, h2⟩ | ⟨h1, q', h2, h3⟩
    · rw [hslot, if_neg h2]; exact h.carried e h1 hk
    · rw [hslot, if_pos h1]; exact ⟨q', h2, h3⟩
  · intro e he hk
    rw [hca]
    rcases ha e he with ⟨h1, -⟩ | ⟨h1, -⟩
    · exact h.control_carried e h1 hk
    · exact absurd (h1 ▸ hk) (h.slot_ne_control hs)
  · intro r hr
    rw [hca]
    exact h.control_token r (hc ▸ hr)
  · intro hf
    rw [hc, hca]
    exact halone hf

end Live

/-! ## Admission -/

theorem admission_ok {write : Bool} {t : Nat} (h : p.admission write = .ok t) :
    t = p.next_ticket ∧ p.queue_failed = false ∧ p.free ≠ [] ∧ p.queue.vacant ≠ 0 ∧
      (write = true → p.segment.isSome = true ∧ p.failed_at = none ∧ p.flush_slot = none) := by
  unfold Pipeline.admission at h
  split at h
  · cases h
  rename_i hq
  simp only at h
  split at h
  · cases h
  rename_i href
  split at h
  · cases h
  rename_i hfree
  split at h
  · cases h
  cases h
  refine ⟨rfl, by simpa using hq, fun hc => hfree (Or.inl hc), fun hc => hfree (Or.inr (Or.inl hc)),
    ?_⟩
  intro hw
  rw [if_pos hw] at href
  split at href
  · cases href
  rename_i hseg
  split at href
  · cases href
  rename_i hfail
  split at href
  · cases href
  rename_i hflush
  exact ⟨by cases hs : p.segment <;> simp_all, hfail, by cases hs : p.flush_slot <;> simp_all⟩

/-! ## Steps keep the invariant -/

section steps

variable {p p' : Pipeline} {s : Nat} {q : Pending}

variable {queue : Queue} {e : Nat × Request} {choice : io.Pop} {serial : Nat} {request : Request}

theorem mem_push {r : Request}
    (he : e ∈ (queue.push r).accepted) : e ∈ queue.accepted ∨ e.2 = r := by
  rcases mem_append.mp he with h | h
  · exact Or.inl h
  · rw [mem_singleton] at h
    subst h
    exact Or.inr rfl

theorem push_tokens {r : Request}
    (h : (queue.accepted.map (·.2.token)).Nodup) (hr : r.token ∉ queue.accepted.map (·.2.token)) :
    ((queue.push r).accepted.map (·.2.token)).Nodup := by
  unfold Queue.push
  rw [map_append]
  exact nodup_concat h hr

theorem mem_popped (he : e ∈ (queue.popped choice serial request).accepted) :
    e ∈ queue.accepted := mem_of_mem_eraseIdx he

theorem popped_tokens (h : (queue.accepted.map (·.2.token)).Nodup) :
    ((queue.popped choice serial request).accepted.map (·.2.token)).Nodup :=
  h.sublist ((eraseIdx_sublist _ _).map _)

theorem popped_token_ne (h : (queue.accepted.map (·.2.token)).Nodup)
    (hq : queue.accepted[choice.index]? = some (serial, request))
    (he : e ∈ (queue.popped choice serial request).accepted) : e.2.token ≠ request.token :=
  key_ne_of_mem_eraseIdx (f := fun x => x.2.token) h hq he

theorem popped_length (hq : queue.accepted[choice.index]? = some (serial, request)) :
    (queue.popped choice serial request).accepted.length + 1 = queue.accepted.length := by
  have hlt := (List.getElem?_eq_some_iff.mp hq).1
  unfold Queue.popped
  rw [length_eraseIdx_of_lt hlt]
  omega

theorem popped_le (queue : Queue) (choice : io.Pop) (serial : Nat) (request : Request) :
    (queue.popped choice serial request).accepted.length ≤ queue.accepted.length :=
  (eraseIdx_sublist _ _).length_le

/-- An operation takes the slot on top of the free stack. -/
theorem Live.place {rest : List Nat} (h : Live p) (hf : p.free = s :: rest)
    (hslots : p'.slots = p.slots.set s (some q)) (hfree : p'.free = rest)
    (hw : p'.writes = if q.kind = .write then p.writes ++ [s] else p.writes)
    (hr : p'.ready_reads = if q.kind = .empty then p.ready_reads ++ [s] else p.ready_reads)
    (hfl : p'.flush_slot = if q.kind = .flush then some s else p.flush_slot)
    (hq : p'.queue = p.queue ∨ ∃ r, r.token = s ∧ q.Carries r ∧ p.queue.vacant ≠ 0 ∧
      p'.queue = p.queue.push r) (hc : p'.control = p.control)
    (hca : p'.control_active = p.control_active) (hqf : p'.queue_failed = p.queue_failed)
    (halone : q.kind = .flush →
      p.flush_slot = none ∧ p.control = none ∧ p.control_active = false) : Live p' := by
  have hm : s ∈ p.free := by rw [hf]; exact mem_cons_self
  have hn := h.free_nodup
  rw [hf, nodup_cons] at hn
  have hnone := h.free_none s hm
  have hk : p.kindAt s = none := by unfold Pipeline.kindAt; rw [hnone]; rfl
  have hsw : s ∉ p.writes := by rw [h.writes_iff, hk]; simp
  have hsr : s ∉ p.ready_reads := by rw [h.ready_iff, hk]; simp
  have hsf : p.flush_slot ≠ some s := by rw [Ne, h.flush_iff, hk]; simp
  have htok := h.token_of_free hm
  refine h.change (h.free_lt s hm) hslots ?_ (hfree ▸ hn.2) ?_ ?_ ?_ ?_ ?_ ?_ ?_ ?_ ?_ hc hca hqf ?_
  · intro t ht
    rw [hfree] at ht
    refine Or.inl ⟨?_, ?_⟩
    · rw [hf]; exact mem_cons_of_mem _ ht
    · intro hts
      exact hn.1 (hts ▸ ht)
  · intro t
    rw [hw]
    by_cases hkw : q.kind = .write <;> by_cases hts : t = s <;> simp_all
  · rw [hw]
    split
    · exact nodup_concat h.writes_nodup hsw
    · exact h.writes_nodup
  · intro t
    rw [hr]
    by_cases hkw : q.kind = .empty <;> by_cases hts : t = s <;> simp_all
  · rw [hr]
    split
    · exact nodup_concat h.ready_nodup hsr
    · exact h.ready_nodup
  · intro t
    rw [hfl]
    by_cases hkw : q.kind = .flush
    · obtain ⟨h1, -⟩ := halone hkw
      by_cases hts : t = s
      · simp [hkw, hts]
      · simp [hkw, hts, h1, Ne.symm hts]
    · by_cases hts : t = s
      · subst hts; simp [hkw, hsf]
      · simp [hkw, hts]
  · intro e he
    rcases hq with hq | ⟨r, hr1, hr2, -, hq⟩
    · rw [hq] at he
      exact Or.inl ⟨he, fun ht => htok (ht ▸ mem_map_of_mem he)⟩
    · rw [hq] at he
      rcases mem_push he with he | he
      · exact Or.inl ⟨he, fun ht => htok (ht ▸ mem_map_of_mem he)⟩
      · exact Or.inr ⟨he ▸ hr1, q, rfl, he ▸ hr2⟩
  · rcases hq with hq | ⟨r, hr1, -, -, hq⟩
    · rw [hq]; exact h.tokens_nodup
    · rw [hq]; exact push_tokens h.tokens_nodup (hr1 ▸ htok)
  · rcases hq with hq | ⟨r, -, -, -, hq⟩ <;> rw [hq]
    rfl
  · rcases hq with hq | ⟨r, -, -, hv, hq⟩ <;> rw [hq]
    · exact h.accepted_le
    · unfold Queue.vacant at hv
      simp only [Queue.push, length_append, length_singleton]
      omega
  · intro hsome
    by_cases hkf : q.kind = .flush
    · exact (halone hkf).2
    · rw [hfl, if_neg hkf] at hsome
      exact h.flush_alone hsome

/-- An operation leaves its slot. -/
theorem Live.clear (h : Live p) (hs : p.slot s = some q)
    (hslots : p'.slots = p.slots.set s none) (hfree : p'.free = s :: p.free)
    (hw : p'.writes = p.writes.erase s) (hr : p'.ready_reads = p.ready_reads.erase s)
    (hfl : p'.flush_slot = if q.kind = .flush then none else p.flush_slot)
    (hq : (p'.queue = p.queue ∧ ∀ r, ¬ q.Carries r) ∨ ∃ choice serial request,
      p.queue.accepted[choice.index]? = some (serial, request) ∧ request.token = s ∧
      p'.queue = p.queue.popped choice serial request)
    (hc : p'.control = p.control) (hca : p'.control_active = p.control_active)
    (hqf : p'.queue_failed = p.queue_failed) : Live p' := by
  have hk := kindAt_eq hs
  have hsf : s ∉ p.free := fun hm => by rw [h.free_none s hm] at hs; cases hs
  refine h.change (slot_lt hs) hslots ?_ ?_ ?_ ?_ ?_ ?_ ?_ ?_ ?_ ?_ ?_ hc hca hqf ?_
  · intro t ht
    rw [hfree] at ht
    rcases mem_cons.mp ht with rfl | ht
    · exact Or.inr ⟨rfl, rfl⟩
    · exact Or.inl ⟨ht, fun hts => hsf (hts ▸ ht)⟩
  · rw [hfree]; exact nodup_cons.mpr ⟨hsf, h.free_nodup⟩
  · intro t
    rw [hw, h.writes_nodup.mem_erase_iff]
    by_cases hts : t = s <;> simp [hts]
  · rw [hw]; exact h.writes_nodup.erase s
  · intro t
    rw [hr, h.ready_nodup.mem_erase_iff]
    by_cases hts : t = s <;> simp [hts]
  · rw [hr]; exact h.ready_nodup.erase s
  · intro t
    have hiff := h.flush_iff s
    rw [hk] at hiff
    rw [hfl]
    by_cases hkf : q.kind = .flush
    · have h1 : p.flush_slot = some s := hiff.mpr (by rw [hkf])
      by_cases hts : t = s
      · simp [hkf, hts]
      · simp [hkf, hts, h1, Ne.symm hts]
    · by_cases hts : t = s
      · subst hts
        simp [hkf, hiff]
      · simp [hkf, hts]
  · intro e he
    left
    rcases hq with ⟨hq, hidle⟩ | ⟨choice, serial, request, h1, h2, hq⟩
    · rw [hq] at he
      exact ⟨he, fun ht => h.token_of_idle hs hidle (ht ▸ mem_map_of_mem he)⟩
    · rw [hq] at he
      exact ⟨mem_popped he, h2 ▸ popped_token_ne h.tokens_nodup h1 he⟩
  · rcases hq with ⟨hq, -⟩ | ⟨choice, serial, request, h1, -, hq⟩ <;> rw [hq]
    · exact h.tokens_nodup
    · exact popped_tokens h.tokens_nodup
  · rcases hq with ⟨hq, -⟩ | ⟨choice, serial, request, -, -, hq⟩ <;> rw [hq]
    rfl
  · rcases hq with ⟨hq, -⟩ | ⟨choice, serial, request, h1, -, hq⟩ <;> rw [hq]
    · exact h.accepted_le
    · exact Nat.le_trans (popped_le _ _ _ _) h.accepted_le
  · intro hsome
    rw [hfl] at hsome
    split at hsome
    · cases hsome
    · exact h.flush_alone hsome

/-- An operation goes on in its slot. -/
theorem Live.update {q' : Pending} (h : Live p) (hs : p.slot s = some q)
    (hslots : p'.slots = p.slots.set s (some q')) (hk : q'.kind = q.kind) (hfree : p'.free = p.free)
    (hw : p'.writes = p.writes) (hr : p'.ready_reads = p.ready_reads)
    (hfl : p'.flush_slot = p.flush_slot)
    (ha : ∀ e ∈ p'.queue.accepted, (e ∈ p.queue.accepted ∧ e.2.token ≠ s) ∨
      (e.2.token = s ∧ q'.Carries e.2)) (hn : (p'.queue.accepted.map (·.2.token)).Nodup)
    (hd : p'.queue.depth = p.queue.depth) (hl : p'.queue.accepted.length ≤ p.queue.depth)
    (hc : p'.control = p.control) (hca : p'.control_active = p.control_active)
    (hqf : p'.queue_failed = p.queue_failed) : Live p' := by
  have hks := kindAt_eq hs
  have hsf : s ∉ p.free := fun hm => by rw [h.free_none s hm] at hs; cases hs
  have hmap : (some q').map Pending.kind = p.kindAt s := by rw [hks, Option.map_some, hk]
  refine h.change (slot_lt hs) hslots ?_ (hfree ▸ h.free_nodup) ?_ (hw ▸ h.writes_nodup) ?_
    (hr ▸ h.ready_nodup) ?_ ?_ hn hd hl hc hca hqf (hfl ▸ h.flush_alone)
  · intro t ht
    rw [hfree] at ht
    exact Or.inl ⟨ht, fun hts => hsf (hts ▸ ht)⟩
  · intro t
    rw [hw]
    by_cases hts : t = s
    · rw [if_pos hts, hmap, hts]; exact h.writes_iff s
    · rw [if_neg hts]
  · intro t
    rw [hr]
    by_cases hts : t = s
    · rw [if_pos hts, hmap, hts]; exact h.ready_iff s
    · rw [if_neg hts]
  · intro t
    rw [hfl]
    by_cases hts : t = s
    · rw [if_pos hts, hmap, hts]; exact h.flush_iff s
    · rw [if_neg hts]
  · intro e he
    rcases ha e he with h1 | ⟨h1, h2⟩
    · exact Or.inl h1
    · exact Or.inr ⟨h1, q', rfl, h2⟩

/-- A slot that holds no write is not in the queue of writes. -/
theorem Live.erase_writes (h : Live p) (hs : p.slot s = some q) (hk : q.kind ≠ .write) :
    p.writes.erase s = p.writes := by
  apply erase_of_not_mem
  rw [h.writes_iff, kindAt_eq hs]
  simpa using hk

theorem Live.erase_ready (h : Live p) (hs : p.slot s = some q) (hk : q.kind ≠ .empty) :
    p.ready_reads.erase s = p.ready_reads := by
  apply erase_of_not_mem
  rw [h.ready_iff, kindAt_eq hs]
  simpa using hk

end steps

/-- What an accepted frame is made of. -/
theorem prepare_parts {buffer : Bytes} {encode : Encode} {f : Prepared}
    (h : p.prepare buffer encode = .ok f) :
    ∃ ticket segment position metadata reserved_new, p.admission true = .ok ticket ∧
      p.segment = some segment ∧ encode segment p.limits buffer = .ok (position, f.buffer) ∧
      frame.Metadata.decode f.buffer p.limits position = .ok metadata ∧
      p.reserve_entries (entries metadata p.current) = .ok reserved_new ∧
      segment.append metadata = .ok f.segment ∧
      f.write = ⟨ticket, entries metadata p.current, reserved_new, none⟩ ∧
      f.len = metadata.header.frame_len ∧ f.offset = p.base p.current + position.offset := by
  unfold Pipeline.prepare at h
  split at h
  · cases h
  · cases h
  rename_i ticket segment ha hs
  split at h
  · cases h
  rename_i position out hm
  split at h
  · cases h
  rename_i metadata hd
  simp only at h
  repeat' split at h
  all_goals cases h
  exact ⟨ticket, segment, position, metadata, _, ha, hs, hm, hd, ‹_›, ‹_›, rfl, rfl, rfl⟩

/-- An accepted frame has a ticket and a free slot. -/
theorem prepare_admission {buffer : Bytes} {encode : Encode} {f : Prepared}
    (h : p.prepare buffer encode = .ok f) :
    p.admission true = .ok f.write.ticket ∧ f.write.completed = none := by
  obtain ⟨_, _, _, _, _, ha, -, -, -, -, -, hw, -⟩ := prepare_parts h
  rw [hw]
  exact ⟨ha, rfl⟩

/-- Every step keeps the invariant. -/
theorem Does.live {p' : Pipeline} {a : Act} (d : Does p a p') (h : Live p) : Live p' := by
  cases d with
  | @launch _ _ f _ _ hp hf =>
    obtain ⟨ha, hnone⟩ := prepare_admission hp
    obtain ⟨-, -, -, hv, -⟩ := admission_ok ha
    exact h.place (q := .Write f.write) hf rfl rfl rfl rfl rfl
      (Or.inr ⟨_, rfl, ⟨hnone, rfl⟩, hv, rfl⟩) rfl rfl rfl (fun hk => by cases hk)
  | @flush _ _ _ _ hn hc hi hf =>
    exact h.place (q := .Flush p.next_ticket false) hf rfl rfl rfl rfl rfl (Or.inl rfl) rfl rfl rfl
      (fun _ => ⟨hn, hc, hi⟩)
  | @read_empty _ _ _ buffers _ _ _ _ _ hf =>
    exact h.place (q := .EmptyRead p.next_ticket buffers) hf rfl rfl rfl rfl rfl (Or.inl rfl) rfl
      rfl rfl (fun hk => by cases hk)
  | @read_direct _ _ _ _ s _ ha _ _ _ hf =>
    obtain ⟨-, -, -, hv, -⟩ := admission_ok ha
    exact h.place (q := .Read _) hf rfl rfl rfl rfl rfl
      (Or.inr ⟨⟨s, .Read, _, _, _⟩, rfl, rfl, hv, rfl⟩) rfl rfl rfl (fun hk => by cases hk)
  | @read_verified _ _ _ _ s _ ha _ _ hv hf =>
    obtain ⟨-, -, -, hv, -⟩ := admission_ok ha
    exact h.place (q := .VerifiedRead _) hf rfl rfl rfl rfl rfl
      (Or.inr ⟨⟨s, .Read, _, _, _⟩, rfl, rfl, hv, rfl⟩) rfl rfl rfl (fun hk => by cases hk)
  | @retire _ _ _ _ _ hw hs hc =>
    refine h.clear hs rfl rfl ?_ (h.erase_ready hs (by simp [Pending.kind])).symm rfl
      (Or.inl ⟨rfl, fun r hr => ?_⟩) rfl rfl rfl
    · rw [hw, erase_cons_head]
    · rw [hr.1] at hc; cases hc
  | @flush_failed _ _ _ _ _ hs | @flush_fence _ _ _ _ hs =>
    exact h.clear hs rfl rfl (h.erase_writes hs (by simp [Pending.kind])).symm
      (h.erase_ready hs (by simp [Pending.kind])).symm rfl
      (Or.inl ⟨rfl, fun r hr => by cases hr.1⟩) rfl rfl rfl
  | @submit_sync _ _ hf _ hs =>
    have hroom := h.room_for_sync hf hs
    have hidle := h.token_of_idle hs (fun r hr => by cases hr.1)
    refine h.update hs rfl rfl rfl rfl rfl rfl ?_ (push_tokens h.tokens_nodup hidle) rfl ?_ rfl rfl
      rfl
    · intro e he
      rcases mem_push he with he | he
      · exact Or.inl ⟨he, fun ht => hidle (ht ▸ mem_map_of_mem he)⟩
      · exact Or.inr ⟨by rw [he], by rw [he]; exact ⟨rfl, rfl, rfl⟩⟩
    · simp only [Queue.push, length_append, length_singleton]
      omega
  | @empty_read _ _ _ _ hr hs =>
    refine h.clear hs rfl rfl (h.erase_writes hs (by simp [Pending.kind])).symm ?_ rfl
      (Or.inl ⟨rfl, fun r hc => hc⟩) rfl rfl rfl
    rw [hr, erase_cons_head]
  | @write_done _ _ _ _ _ hq _ hs =>
    refine h.update hs rfl rfl rfl rfl rfl rfl ?_ (popped_tokens h.tokens_nodup) rfl ?_ rfl rfl rfl
    · intro e he
      exact Or.inl ⟨mem_popped he, popped_token_ne h.tokens_nodup hq he⟩
    · exact Nat.le_trans (popped_le _ _ _ _) h.accepted_le
  | @direct_done _ _ _ _ _ hq _ hs | @verified_done _ _ _ _ _ _ _ hq _ hs
  | @sync_done _ _ _ _ _ _ hq _ hs =>
    exact h.clear hs rfl rfl (h.erase_writes hs (by simp [Pending.kind])).symm
      (h.erase_ready hs (by simp [Pending.kind])).symm rfl (Or.inr ⟨_, _, _, hq, rfl, rfl⟩) rfl rfl
      rfl
  | @verified_more choice serial request _ _ _ hq _ hs =>
    have hfresh : request.token ∉
        (p.queue.popped choice serial request).accepted.map (·.2.token) := by
      intro hm
      obtain ⟨e, he, ht⟩ := mem_map.mp hm
      exact popped_token_ne h.tokens_nodup hq he ht
    refine h.update hs rfl rfl rfl rfl rfl rfl ?_
      (push_tokens (popped_tokens h.tokens_nodup) hfresh) rfl ?_ rfl rfl rfl
    · intro e he
      rcases mem_push he with he | he
      · exact Or.inl ⟨mem_popped he, popped_token_ne h.tokens_nodup hq he⟩
      · exact Or.inr ⟨by rw [he], by rw [he]; rfl⟩
    · have := popped_length hq
      have := h.accepted_le
      simp only [Queue.push, length_append, length_singleton]
      omega
  | @control_submit request hc =>
    obtain ⟨htok, hoff⟩ := h.control_token request hc
    have hfresh : request.token ∉ p.queue.accepted.map (·.2.token) := by
      intro hm
      obtain ⟨e, he, ht⟩ := mem_map.mp hm
      have := h.control_carried e he (ht.trans htok)
      rw [hoff] at this
      cases this
    refine { h with
      accepted_le := ?_
      tokens_nodup := push_tokens h.tokens_nodup hfresh
      carried := ?_
      control_carried := fun _ _ _ => rfl
      control_token := fun r hr => by cases hr
      flush_alone := fun hf => ?_ }
    · simp only [Queue.push, length_append, length_singleton]
      omega
    · intro e he hne
      rcases mem_push he with he | he
      · exact h.carried e he hne
      · exact absurd (by rw [he]; exact htok) hne
    · have := (h.flush_alone hf).1
      rw [hc] at this
      cases this
  | @control_done _ _ _ hq hk =>
    refine { h with
      accepted_le := ?_
      tokens_nodup := popped_tokens h.tokens_nodup
      carried := fun e he hne => h.carried e (mem_popped he) hne
      control_carried := ?_
      control_token := fun r hr => ⟨(h.control_token r hr).1, rfl⟩
      flush_alone := fun hf => ⟨(h.flush_alone hf).1, rfl⟩ }
    · exact Nat.le_trans (popped_le _ _ _ _) h.accepted_le
    · intro e he ht
      exact absurd (ht.trans hk.symm) (popped_token_ne h.tokens_nodup hq he)

end moat_engine.pipeline
