-- One transfer: its next piece and its next result, against the life of its
-- slot.
import Moat.UringLife

namespace moat_engine.io.uring

open checked moat_common List Option

variable {depth : Nat}

/-! ## Admission -/

section Admission

variable {pool : Option Nat} {request : Request} {fixed : Option Nat}

theorem admits_valid (h : admits pool request = .ok fixed) : request.validate = .ok () := by
  unfold admits at h
  cases hv : request.validate with
  | error => rw [hv] at h; cases h
  | ok => rfl

/-- What the checks of a request give. -/
theorem admits_range (h : admits pool request = .ok fixed) :
    request.len ≤ 2 ^ 31 - 1 ∧ request.offset + request.len < 2 ^ 64 ∧
      (request.operation = .Sync → request.len = 0) ∧
      (request.operation ≠ .Sync → 0 < request.len ∧
        ∃ buffer, request.buffer = some buffer ∧ request.len ≤ buffer.memory.len) := by
  have hv := admits_valid h
  unfold Request.validate at hv
  cases hop : request.operation with
  | Sync =>
    simp only [hop] at hv
    split at hv
    · rename_i hvalid
      simp only [Bool.and_eq_true, beq_iff_eq] at hvalid
      exact ⟨by omega, by omega, fun _ => hvalid.1.2, fun hn => absurd rfl hn⟩
    · cases hv
  | Read | Write =>
    simp only [hop] at hv
    split at hv
    · rename_i hvalid
      simp only [Bool.and_eq_true, decide_eq_true_eq] at hvalid
      obtain ⟨⟨⟨⟨⟨hpos, hlen⟩, -⟩, -⟩, hend⟩, hbuffer⟩ := hvalid
      obtain ⟨buffer, hb, hle⟩ := (any_eq_true _ _).mp hbuffer
      exact ⟨hlen, hend, nofun, fun _ => ⟨hpos, buffer, hb, of_decide_eq_true hle⟩⟩
    · cases hv

end Admission

/-! ## Transfers in their slots -/

/-- The transfer stands where its life says; `sent` are its entries that have not come back. -/
structure Carried (pool : Option Nat) (limit : Nat) (l : Life) (t : Transfer)
    (sent : Multiset Entry) : Prop where
  request : l.request = some t.request
  admitted : admits pool t.request = .ok t.fixed
  ptr : t.ptr = (Transfer.new t.request t.fixed).ptr
  cut : Cut t.request t.fixed limit l.issued t.submitted
  account : (l.issued : Multiset Entry) = (l.reaped.map Prod.fst : List Entry) + sent
  in_flight : t.in_flight = sent.card
  result : t.result = outcome (l.reaped.map Prod.snd)
  bounded : ∀ p ∈ l.reaped, p.2 ≤ p.1.len
  finished : l.finished = []
  popped : l.popped = []

/-- There is something left to issue. -/
def Waits (l : Life) (t : Transfer) : Prop := t.has_remaining = true ∨ l.issued = []

section Carried

variable {pool : Option Nat} {limit : Nat} {l : Life} {t : Transfer} {sent : Multiset Entry}
  {request : Request} {fixed : Option Nat} {entries : List Entry} {pos : Nat} {entry : Entry}

theorem Cut.pos_le (h : Cut request fixed limit entries pos) : pos ≤ request.len := by
  cases h with
  | nil | sync => exact Nat.zero_le _
  | piece _ _ _ _ _ _ _ _ _ hle => exact hle

theorem Carried.faithful (h : Carried pool limit l t sent) : l.Faithful pool limit t.request := by
  refine ⟨fun error he => ?_, fun fixed hf => ?_, ?_, ?_, .inl h.popped, ?_, ?_, ?_⟩
  · rw [h.admitted] at he
    cases he
  · obtain rfl := Except.ok.inj (h.admitted.symm.trans hf)
    exact ⟨_, h.cut⟩
  · rw [h.account]
    exact Multiset.le_add_right _ _
  · rw [h.finished]
    exact Nat.zero_le _
  · rw [h.finished]
    exact nofun
  · rw [h.finished]
    exact fun _ _ hn => absurd rfl hn
  · rw [h.finished]
    exact nofun

theorem Carried.new (request : Request) (hfixed : admits pool request = .ok fixed) :
    Carried pool limit ⟨some request, [], [], [], []⟩ (Transfer.new request fixed) 0 :=
  ⟨rfl, hfixed, rfl, .nil, rfl, rfl, rfl, nofun, rfl, rfl⟩

/-- The next piece starts where the last one ended. -/
theorem Carried.next (h : Carried pool limit l t sent) (hlimit : 0 < limit) (hw : Waits l t)
    (slot : Fin depth) : ∃ entry t', t.next limit = some (entry, t') ∧
      Carried pool limit (l.note (.issued slot entry)) t' (entry ::ₘ sent) ∧
      t'.request = t.request ∧ (t'.has_remaining = true → t.submitted < t'.submitted) := by
  obtain ⟨hlen, hend, hsync, hdata⟩ := admits_range h.admitted
  have hpos := h.cut.pos_le
  have hmod : min limit (t.request.len - t.submitted) % 2 ^ 32 =
      min limit (t.request.len - t.submitted) := Nat.mod_eq_of_lt (by omega)
  unfold Transfer.next
  rw [sub?_eq hpos, fits?_eq (by omega)]
  simp only [bind_some, map_some, hmod]
  have haccount : ∀ entry : Entry, ((l.issued ++ [entry] : List Entry) : Multiset Entry) =
      (l.reaped.map Prod.fst : List Entry) + entry ::ₘ sent := by
    intro entry
    rw [← Multiset.coe_add, h.account, add_assoc, Multiset.coe_singleton, add_comm sent,
      Multiset.singleton_add]
  refine ⟨_, _, rfl, ⟨h.request, h.admitted, h.ptr, ?_, haccount _, ?_, h.result, h.bounded,
    h.finished, h.popped⟩, rfl, ?_⟩
  · by_cases hop : t.request.operation = .Sync
    · -- a sync has no bytes, so it waits only before its entry
      have hzero := hsync hop
      have hsub : t.submitted = 0 := by omega
      have hnil : l.issued = [] := by
        rcases hw with hr | hn
        · rw [Transfer.has_remaining, decide_eq_true_eq] at hr
          omega
        · exact hn
      simp only [Life.note, hop, hnil, hzero, hsub]
      simpa [Entry.new] using Cut.sync hop
    · obtain ⟨hlt, buffer, hb, hle⟩ := hdata hop
      have hrest : 0 < t.request.len - t.submitted := by
        rcases hw with hr | hn
        · rw [Transfer.has_remaining, decide_eq_true_eq] at hr
          omega
        · have := h.cut.sum_len
          rw [hn] at this
          simp at this
          omega
      have hptr : (t.ptr + t.submitted) % 2 ^ 64 = buffer.memory.ptr + t.submitted := by
        rw [h.ptr, Transfer.new, hb]
        have := buffer.memory.in_range
        exact Nat.mod_eq_of_lt (by simp only [elim_some]; omega)
      obtain ⟨hop', hindex, hp, hl, ho⟩ := Entry.new_fields hop t.fixed
        ((t.ptr + t.submitted) % 2 ^ 64) (min limit (t.request.len - t.submitted))
        (t.request.offset + t.submitted)
      have hcut := Cut.piece h.cut hop hb hop' hindex ho (hp.trans hptr) (by omega) (by omega)
        (by omega)
      rw [hl] at hcut
      exact hcut
  · rw [Multiset.card_cons, h.in_flight]
  · intro hr
    rw [Transfer.has_remaining, decide_eq_true_eq] at hr
    simp only at hr ⊢
    omega

/-- What came back is not more than what was issued. -/
theorem Carried.sum_le (h : Carried pool limit l t sent) :
    (l.reaped.map (fun p => p.1.len)).sum + (sent.map Entry.len).sum = t.submitted := by
  have hsum := congrArg (fun m => (Multiset.map Entry.len m).sum) h.account
  simp only [Multiset.map_add, Multiset.sum_add, Multiset.map_coe, Multiset.sum_coe,
    List.map_map] at hsum
  rw [← h.cut.sum_len, hsum]
  rfl

theorem Carried.issued_ne (h : Carried pool limit l t (entry ::ₘ sent)) : l.issued ≠ [] := by
  intro hn
  have hcard := congrArg Multiset.card h.account
  rw [hn, Multiset.card_add, Multiset.card_cons] at hcard
  simp at hcard

/-- The next result of an entry that was sent. -/
theorem Carried.complete (h : Carried pool limit l t (entry ::ₘ sent)) {actual : Int}
    (hactual : actual ≤ entry.len) (slot : Fin depth) :
    ∃ t', t.complete actual = some (!t.has_remaining && sent.card == 0, t') ∧
      Carried pool limit (l.note (.reaped slot entry actual)) t' sent ∧
      t'.request = t.request ∧ t'.submitted = t.submitted := by
  have hflight := h.in_flight
  rw [Multiset.card_cons] at hflight
  have hresult : Transfer.add_result actual t.result =
      some (outcome (l.reaped.map Prod.snd ++ [actual])) := by
    rw [outcome_append, ← h.result]
    cases hr : t.result with
    | error => rfl
    | ok bytes =>
      -- the sum is at most the length of the request
      have hbytes : bytes ≤ (l.reaped.map (fun p => p.1.len)).sum := by
        have hle := sum_le_len h.bounded
        have hout := h.result
        rw [hr, outcome] at hout
        split at hout
        · cases hout
        · have := Except.ok.inj hout
          omega
      have hsum := h.sum_le
      rw [Multiset.map_cons, Multiset.sum_cons] at hsum
      have hlen := (admits_range h.admitted).1
      have hpos := h.cut.pos_le
      unfold Transfer.add_result
      simp only
      split
      · rfl
      · rw [fits?_eq (by omega)]
        rfl
  refine ⟨{ t with in_flight := sent.card, result := outcome (l.reaped.map Prod.snd ++ [actual]) },
    ?_, ⟨h.request, h.admitted, h.ptr, h.cut, ?_, rfl, ?_, ?_, h.finished, h.popped⟩, rfl, rfl⟩
  · rw [Transfer.complete, hflight, sub?_eq (Nat.le_add_left _ _), hresult]
    rfl
  · rw [Life.note, map_append, ← Multiset.coe_add, add_assoc, map_singleton,
      Multiset.coe_singleton, Multiset.singleton_add]
    exact h.account
  · rw [Life.note, map_append]
    rfl
  · intro p hp
    rcases mem_append.mp hp with hp | hp
    · exact h.bounded p hp
    · cases mem_singleton.mp hp
      exact hactual

/-- A transfer whose last entry came back is whole. -/
theorem Carried.finish (h : Carried pool limit l t 0) (hrest : t.has_remaining = false)
    (hissued : l.issued ≠ []) (slot : Fin depth) :
    (l.note (.finished slot t.finish)).Faithful pool limit t.request := by
  have haccount : (l.issued : Multiset Entry) = (l.reaped.map Prod.fst : List Entry) := by
    rw [h.account, add_zero]
  have hend : t.submitted = t.request.len := by
    have := h.cut.pos_le
    rw [Transfer.has_remaining, decide_eq_false_iff_not] at hrest
    omega
  have hfinished : (l.note (.finished slot t.finish)).finished = [t.finish] := by
    rw [Life.note, h.finished]
    rfl
  have hcut := h.cut
  rw [hend] at hcut
  refine ⟨fun error he => ?_, fun fixed hf => ?_, haccount.ge, ?_, .inl h.popped, ?_, ?_, ?_⟩
  · rw [h.admitted] at he
    cases he
  · obtain rfl := Except.ok.inj (h.admitted.symm.trans hf)
    exact ⟨_, h.cut⟩
  · rw [hfinished]
    rfl
  · rw [hfinished]
    intro c hc
    rw [mem_singleton.mp hc]
    rfl
  · intro fixed hf _
    obtain rfl := Except.ok.inj (h.admitted.symm.trans hf)
    refine ⟨hcut, hcut.covers, fun hs => ?_, haccount.symm⟩
    exact (hcut.sync_length hs).resolve_left hissued
  · intro fixed _ c hc
    rw [hfinished] at hc
    rw [mem_singleton.mp hc]
    refine ⟨h.result, ?_⟩
    have hlen : (l.reaped.map (fun p => p.1.len)).sum = t.request.len := by
      have := h.sum_le
      simpa [hend] using this
    rw [Transfer.finish, h.result, ← hlen]
    exact outcome_complete h.bounded

end Carried

end moat_engine.io.uring
