-- The laws of one disk's directory: its totals are the sums over its slots and
-- reservations, its order and its slots are inverse to each other, and a
-- reservation makes room for what its commit adds.
import Moat.CacheCatalog
import Moat.Tally

namespace moat_cache.catalog

open moat_common tally List Option

/-- The totals are the sums, and the order and the slots are inverse to each other. -/
structure State.Sound (s : State) : Prop where
  bytes : s.bytes = total Slot.len s.slots
  order : ∀ position id, (position, id) ∈ s.order ↔
    ∃ slot, s.slots.lookup id = some slot ∧ slot.position = position
  sorted : s.order.Pairwise (fun a b => a.1 < b.1)
  clock : ∀ e ∈ s.order, e.1 ≤ s.clock
  extra : s.extra = total Active.extra s.active
  new : s.new = total (fun a => a.new.toNat) s.active
  allocation : s.allocation = total Active.allocation s.active

/-- What is there and what is reserved stays below the limits. -/
def State.Within (s : State) (disk : Disk) : Prop :=
  s.bytes + s.extra ≤ disk.capacity ∧ s.slots.entries.length + s.new ≤ disk.entries

/-- The length of a slot. -/
def State.len (s : State) (id : ChunkId) : Nat := ((s.slots.lookup id).map (·.len)).getD 0

/-- What a slot says of its chunk. -/
def State.record (s : State) (id : ChunkId) : Option (Nat × Nat) :=
  (s.slots.lookup id).map (fun slot => (slot.lsn, slot.len))

/-! ## Slots -/

variable {s s' : State} {id : ChunkId} {disk : Disk} {len : Nat}

theorem State.remove_none (h : s.slots.lookup id = none) : s.remove id = s := by
  unfold State.remove
  rw [h]

theorem State.slots_remove (s : State) (id : ChunkId) : (s.remove id).slots = s.slots.erase id := by
  unfold State.remove
  cases h : s.slots.lookup id with
  | none => exact (erase_of_lookup_none h).symm
  | some => rfl

/-- Everything but the slots, the order and the bytes stays. -/
theorem State.rest_remove (s : State) (id : ChunkId) :
    (s.remove id).clock = s.clock ∧ (s.remove id).active = s.active ∧
      (s.remove id).extra = s.extra ∧ (s.remove id).new = s.new ∧
      (s.remove id).allocation = s.allocation := by
  unfold State.remove
  split <;> exact ⟨rfl, rfl, rfl, rfl, rfl⟩

namespace State.Sound

variable {s : State} {id : ChunkId}

variable (h : s.Sound)
include h

/-- No two slots have the same position. -/
theorem position_inj {a b : ChunkId} {x y : Slot} (ha : s.slots.lookup a = some x)
    (hb : s.slots.lookup b = some y) (hp : x.position = y.position) : a = b := by
  have h1 := (h.order x.position a).mpr ⟨x, ha, rfl⟩
  have h2 := (h.order x.position b).mpr ⟨y, hb, hp.symm⟩
  by_contra hne
  obtain ⟨i, hi, hia⟩ := getElem_of_mem h1
  obtain ⟨k, hk, hkb⟩ := getElem_of_mem h2
  have hs := pairwise_iff_getElem.mp h.sorted
  rcases Nat.lt_trichotomy i k with hlt | rfl | hlt
  · have := hs i k hi hk hlt
    rw [hia, hkb] at this
    exact Nat.lt_irrefl _ this
  · rw [hia] at hkb
    cases hkb
    exact hne rfl
  · have := hs k i hk hi hlt
    rw [hia, hkb] at this
    exact Nat.lt_irrefl _ this

theorem remove (id : ChunkId) : (s.remove id).Sound := by
  obtain ⟨hclock, hactive, hextra, hnew, halloc⟩ := s.rest_remove id
  cases hl : s.slots.lookup id with
  | none => rw [State.remove_none hl]; exact h
  | some old =>
    have hrem : s.remove id = { s with
        slots := s.slots.erase id
        order := s.order.filter (fun e => e.1 ≠ old.position)
        bytes := s.bytes - old.len } := by
      unfold State.remove
      rw [hl]
    refine ⟨?_, fun position i => ?_, ?_, fun e he => ?_, by rw [hextra, hactive]; exact h.extra,
      by rw [hnew, hactive]; exact h.new, by rw [halloc, hactive]; exact h.allocation⟩
    · have := total_erase (f := Slot.len) hl
      rw [hrem]
      simp only [h.bytes]
      omega
    · rw [hrem]
      simp only [mem_filter, decide_eq_true_eq, h.order]
      constructor
      · rintro ⟨⟨slot, hs, rfl⟩, hne⟩
        refine ⟨slot, ?_, rfl⟩
        rw [AList.lookup_erase_ne (by rintro rfl; rw [hl] at hs; cases hs; exact hne rfl)]
        exact hs
      · rintro ⟨slot, hs, rfl⟩
        have hid : i ≠ id := by
          rintro rfl
          rw [AList.lookup_erase] at hs
          cases hs
        rw [AList.lookup_erase_ne hid] at hs
        exact ⟨⟨slot, hs, rfl⟩, fun hp => hid (h.position_inj hs hl hp)⟩
    · rw [hrem]
      exact h.sorted.filter _
    · rw [hrem] at he ⊢
      exact h.clock e (mem_filter.mp he).1

theorem insert (id : ChunkId) (lsn len : Nat) : (s.insert id lsn len).1.Sound := by
  have hr := h.remove id
  have hnone : (s.remove id).slots.lookup id = none := by
    rw [State.slots_remove, AList.lookup_erase]
  unfold State.insert
  dsimp only
  split
  · refine ⟨?_, fun position i => ?_, ?_, fun e he => ?_, hr.extra, hr.new, hr.allocation⟩
    · rw [total_insert_none hnone, ← hr.bytes]
    · simp only [mem_append, mem_singleton, Prod.mk.injEq, hr.order]
      by_cases hi : i = id
      · subst hi
        simp only [AList.lookup_insert, hnone, some.injEq]
        constructor
        · rintro (⟨slot, hs, -⟩ | ⟨rfl, -⟩)
          · cases hs
          · exact ⟨_, rfl, rfl⟩
        · rintro ⟨slot, rfl, rfl⟩
          exact .inr ⟨rfl, trivial⟩
      · simp only [AList.lookup_insert_ne hi, hi, and_false, or_false]
    · refine pairwise_append.mpr ⟨hr.sorted, pairwise_singleton _ _, fun a ha b hb => ?_⟩
      rw [mem_singleton.mp hb]
      exact Nat.lt_succ_of_le (hr.clock a ha)
    · rcases mem_append.mp he with he | he
      · exact Nat.le_succ_of_le (hr.clock e he)
      · rw [mem_singleton.mp he]
  · exact hr

/-- A slot is visited, or no longer, and the hand moves. -/
theorem revisit {slot : Slot} (hl : s.slots.lookup id = some slot) (visited : Bool) :
    State.Sound { s with slots := s.slots.insert id { slot with visited } } := by
  refine ⟨?_, fun position i => ?_, h.sorted, h.clock, h.extra, h.new, h.allocation⟩
  · have := total_replace (f := Slot.len) hl { slot with visited }
    simp only at this ⊢
    rw [h.bytes]
    omega
  · rw [h.order]
    by_cases hi : i = id
    · subst hi
      simp only [AList.lookup_insert, hl, some.injEq, exists_eq_left']
    · simp only [AList.lookup_insert_ne hi]

theorem hand (hand : Nat) : State.Sound { s with hand } :=
  ⟨h.bytes, h.order, h.sorted, h.clock, h.extra, h.new, h.allocation⟩

/-! ## Reservations -/

theorem finish (id : ChunkId) : (s.finish id).Sound := by
  unfold State.finish
  split
  · exact h
  · rename_i a ha
    have h1 := total_erase (f := Active.extra) ha
    have h2 := total_erase (f := fun a => a.new.toNat) ha
    have h3 := total_erase (f := Active.allocation) ha
    refine ⟨h.bytes, h.order, h.sorted, h.clock, ?_, ?_, ?_⟩
    · simp only [h.extra]; omega
    · simp only [h.new]; omega
    · simp only [h.allocation]; omega

/-- A reservation, before it is counted, is not there. -/
theorem reserve (hn : id ∉ s.active) (a : Active) :
    State.Sound { s with
      active := s.active.insert id a
      extra := s.extra + a.extra
      new := s.new + a.new.toNat
      allocation := s.allocation + a.allocation } := by
  have hl := AList.lookup_eq_none.mpr hn
  refine ⟨h.bytes, h.order, h.sorted, h.clock, ?_, ?_, ?_⟩
  · rw [total_insert_none hl, ← h.extra]
  · rw [total_insert_none hl, ← h.new]
  · rw [total_insert_none hl, ← h.allocation]

end State.Sound

/-! ## Marks -/

/-- The states differ in marks and in the hand only. -/
structure State.Same (s s' : State) : Prop where
  record : ∀ id, s'.record id = s.record id
  size : s'.slots.entries.length = s.slots.entries.length
  clock : s'.clock = s.clock
  bytes : s'.bytes = s.bytes
  active : s'.active = s.active
  extra : s'.extra = s.extra
  new : s'.new = s.new
  allocation : s'.allocation = s.allocation

theorem State.lsn_eq_record (s : State) (id : ChunkId) : s.lsn id = (s.record id).map (·.1) := by
  simp [State.lsn, State.record, Function.comp_def]

theorem State.len_eq_record (s : State) (id : ChunkId) :
    s.len id = ((s.record id).map (·.2)).getD 0 := by
  simp [State.len, State.record, Function.comp_def]

theorem State.isNone_record (s : State) (id : ChunkId) :
    (s.record id).isNone = (s.slots.lookup id).isNone := by
  simp [State.record]

theorem State.mem_slots : id ∈ s.slots ↔ (s.record id).isSome := by
  rw [← AList.lookup_isSome, State.record, isSome_map]

namespace State.Same

variable {s s' s'' : State}

theorem refl (s : State) : s.Same s := ⟨fun _ => rfl, rfl, rfl, rfl, rfl, rfl, rfl, rfl⟩

theorem trans (h : s.Same s') (h' : s'.Same s'') : s.Same s'' :=
  ⟨fun id => (h'.record id).trans (h.record id), h'.size.trans h.size, h'.clock.trans h.clock,
    h'.bytes.trans h.bytes, h'.active.trans h.active, h'.extra.trans h.extra, h'.new.trans h.new,
    h'.allocation.trans h.allocation⟩

theorem revisit {slot : Slot} (hl : s.slots.lookup id = some slot) (visited : Bool) :
    s.Same { s with slots := s.slots.insert id { slot with visited } } := by
  refine ⟨fun i => ?_, ?_, rfl, rfl, rfl, rfl, rfl, rfl⟩
  · unfold State.record
    by_cases hi : i = id
    · subst hi
      simp only [AList.lookup_insert, hl, map_some]
    · simp only [AList.lookup_insert_ne hi]
  · have := total_replace (f := fun _ => 1) hl { slot with visited }
    rw [total_one, total_one] at this
    simp only
    omega

theorem hand (s : State) (hand : Nat) : s.Same { s with hand } :=
  ⟨fun _ => rfl, rfl, rfl, rfl, rfl, rfl, rfl, rfl⟩

theorem within (h : s.Same s') (hw : s.Within disk) : s'.Within disk := by
  unfold State.Within
  rw [h.bytes, h.extra, h.size, h.new]
  exact hw

end State.Same

theorem State.Same.lsn (h : s.Same s') (id : ChunkId) : s'.lsn id = s.lsn id := by
  rw [State.lsn_eq_record, h.record, ← State.lsn_eq_record]

/-- What the sweeping hand finds: a slot that is neither excluded nor reserved. -/
theorem State.sweep_spec (exclude : Option ChunkId) (turns : Nat) (s : State) :
    s.Same (State.sweep exclude turns s).2 ∧ (s.Sound → (State.sweep exclude turns s).2.Sound) ∧
      ∀ id lsn, (State.sweep exclude turns s).1 = some (id, lsn) →
        s.lsn id = some lsn ∧ some id ≠ exclude ∧ id ∉ s.active := by
  induction turns generalizing s with
  | zero => exact ⟨.refl s, fun hs => hs, fun id lsn h => by cases h⟩
  | succ turns ih =>
    unfold State.sweep
    split
    · exact ⟨.refl s, fun hs => hs, fun id lsn h => by cases h⟩
    · rename_i position i _
      have hhand := State.Same.hand s position
      dsimp only
      split
      · obtain ⟨h1, h2, h3⟩ := ih { s with hand := position }
        exact ⟨hhand.trans h1, fun hs => h2 (hs.hand position), h3⟩
      · rename_i hfree
        rw [not_or] at hfree
        split
        · exact ⟨hhand, fun hs => hs.hand position, fun id lsn h => by cases h⟩
        · rename_i slot hslot
          split
          · obtain ⟨h1, h2, h3⟩ := ih { s with
              hand := position, slots := s.slots.insert i { slot with visited := false } }
            have hsame := hhand.trans
              (State.Same.revisit (s := { s with hand := position }) hslot false)
            refine ⟨hsame.trans h1, fun hs => h2 ((hs.hand position).revisit hslot false),
              fun id lsn h => ?_⟩
            have := h3 id lsn h
            rwa [hsame.lsn, hsame.active] at this
          · refine ⟨hhand, fun hs => hs.hand position, fun id lsn h => ?_⟩
            cases h
            refine ⟨?_, hfree⟩
            rw [State.lsn, hslot, map_some]

section
variable (s : State)

theorem State.victim_spec (policy : DiskPolicy) (exclude : Option ChunkId) :
    s.Same (s.victim policy exclude).2 ∧ (s.Sound → (s.victim policy exclude).2.Sound) ∧
      ∀ id lsn, (s.victim policy exclude).1 = some (id, lsn) →
        s.lsn id = some lsn ∧ some id ≠ exclude ∧ id ∉ s.active := by
  cases policy with
  | Fifo =>
    refine ⟨.refl s, fun hs => hs, fun id lsn h => ?_⟩
    obtain ⟨e, he, hm⟩ := bind_eq_some_iff.mp h
    obtain ⟨slot, hslot, hx⟩ := map_eq_some_iff.mp hm
    cases hx
    have := List.find?_some he
    simp only [decide_eq_true_eq] at this
    exact ⟨by rw [State.lsn, hslot, map_some], this⟩
  | Sieve => exact State.sweep_spec ..

theorem State.validate_hit_spec (id : ChunkId) (lsn : Nat) :
    s.Same (s.validate_hit id lsn).2 ∧ (s.Sound → (s.validate_hit id lsn).2.Sound) := by
  unfold State.validate_hit
  split
  · exact ⟨.refl s, fun hs => hs⟩
  · split
    · exact ⟨.refl s, fun hs => hs⟩
    · rename_i hslot
      split
      · exact ⟨State.Same.revisit hslot true, fun hs => hs.revisit hslot true⟩
      · exact ⟨.refl s, fun hs => hs⟩

theorem State.record_remove (id i : ChunkId) :
    (s.remove id).record i = if i = id then none else s.record i := by
  unfold State.record
  rw [State.slots_remove]
  split
  · rename_i hi
    rw [hi, AList.lookup_erase, map_none]
  · rename_i hi
    rw [AList.lookup_erase_ne hi]

theorem State.record_insert (id : ChunkId) (lsn len : Nat) (i : ChunkId) :
    (s.insert id lsn len).1.record i =
      if i = id then (if (s.insert id lsn len).2 then some (lsn, len) else none) else
        s.record i := by
  have hrem := s.record_remove id i
  unfold State.insert
  dsimp only
  split
  · unfold State.record at hrem ⊢
    by_cases hi : i = id
    · subst hi
      simp only [AList.lookup_insert, if_true, map_some]
    · simp only [AList.lookup_insert_ne hi]
      rw [hrem]
      simp only [if_neg hi]
  · rw [hrem]
    rfl

theorem State.record_finish (id i : ChunkId) : (s.finish id).record i = s.record i := by
  unfold State.finish
  split <;> rfl

theorem State.clock_finish (id : ChunkId) : (s.finish id).clock = s.clock := by
  unfold State.finish
  split <;> rfl

theorem State.clock_remove_version (id : ChunkId) (expected : Nat) :
    (s.remove_version id expected).clock = s.clock := by
  unfold State.remove_version
  split
  · exact (s.rest_remove id).1
  · rfl

theorem State.clock_insert (id : ChunkId) (lsn len : Nat) :
    (s.insert id lsn len).1.clock ≤ s.clock + 1 := by
  have := (s.rest_remove id).1
  unfold State.insert
  dsimp only
  split <;> simp only <;> omega

theorem State.lookup_finish {i : ChunkId} (hi : i ≠ id) :
    (s.finish id).active.lookup i = s.active.lookup i := by
  unfold State.finish
  split
  · rfl
  · exact AList.lookup_erase_ne hi

theorem State.record_remove_version (id : ChunkId) (expected : Nat) (i : ChunkId) :
    (s.remove_version id expected).record i =
      if i = id ∧ s.lsn id = some expected then none else s.record i := by
  have hiff : (s.slots.lookup id).any (fun slot => slot.lsn = expected) = true ↔
      s.lsn id = some expected := by
    unfold State.lsn
    cases s.slots.lookup id <;> simp
  unfold State.remove_version
  by_cases h : s.lsn id = some expected
  · rw [if_pos (hiff.mpr h), State.record_remove]
    simp only [h, and_true]
  · rw [if_neg (fun hc => h (hiff.mp hc)), if_neg (fun hc => h hc.2)]

theorem State.lsn_remove (id i : ChunkId) :
    (s.remove id).lsn i = if i = id then none else s.lsn i := by
  rw [State.lsn_eq_record, State.record_remove, State.lsn_eq_record]
  split <;> rfl

theorem State.lsn_insert (id : ChunkId) (lsn len : Nat) (i : ChunkId) :
    (s.insert id lsn len).1.lsn i =
      if i = id then (if (s.insert id lsn len).2 then some lsn else none) else s.lsn i := by
  rw [State.lsn_eq_record, State.record_insert, State.lsn_eq_record]
  split
  · split <;> rfl
  · rfl

theorem State.lsn_finish (id i : ChunkId) : (s.finish id).lsn i = s.lsn i := by
  rw [State.lsn_eq_record, State.record_finish, ← State.lsn_eq_record]

theorem State.lsn_remove_version (id : ChunkId) (expected : Nat) (i : ChunkId) :
    (s.remove_version id expected).lsn i =
      if i = id ∧ s.lsn id = some expected then none else s.lsn i := by
  rw [State.lsn_eq_record, State.record_remove_version, s.lsn_eq_record i]
  split <;> rfl

end

/-! ## What the directory decides -/

/-- The reservation of a write. -/
def State.charge (s : State) (id : ChunkId) (len allocation : Nat) : Active :=
  ⟨len - s.len id, (s.slots.lookup id).isNone, allocation⟩

theorem State.decide_reserved {allocation free : Nat}
    (h : s.decide disk id len allocation free = (.ok .Reserved, s')) :
    id ∉ s.active ∧ s' = { s with
      active := s.active.insert id (s.charge id len allocation)
      extra := s.extra + (s.charge id len allocation).extra
      new := s.new + (s.charge id len allocation).new.toNat
      allocation := s.allocation + (s.charge id len allocation).allocation } ∧
      s'.Within disk := by
  unfold State.decide at h
  split at h
  · cases h
  · rename_i hn
    dsimp only at h
    split at h
    · rename_i hfits
      cases h
      refine ⟨hn, rfl, ?_⟩
      unfold State.Within
      simp only
      rw [← Nat.add_assoc, ← Nat.add_assoc]
      exact hfits.1
    · split at h
      · split at h <;> cases h
      · split at h
        · cases h
        · split at h <;> cases h

/-- Without a reservation only marks change, and a victim is a slot that nobody has reserved. -/
theorem State.decide_other {allocation free : Nat} {result : Except Error Action}
    (h : s.decide disk id len allocation free = (result, s')) (hr : result ≠ .ok .Reserved) :
    s.Same s' ∧ (s.Sound → s'.Sound) ∧ ∀ victim lsn, result = .ok (.Evict victim lsn) →
      s.lsn victim = some lsn ∧ victim ≠ id ∧ victim ∉ s.active := by
  have hv := s.victim_spec disk.policy (some id)
  unfold State.decide at h
  split at h
  · cases h
    exact ⟨.refl s, fun hs => hs, fun _ _ h => by cases h⟩
  · dsimp only at h
    split at h
    · cases h
      exact absurd rfl hr
    · split at h
      · split at h <;> cases h <;> exact ⟨.refl s, fun hs => hs, fun _ _ h => by cases h⟩
      · split at h
        · rename_i hvic
          rw [hvic] at hv
          cases h
          refine ⟨hv.1, hv.2.1, fun victim lsn he => ?_⟩
          cases he
          obtain ⟨h1, h2, h3⟩ := hv.2.2 _ _ rfl
          exact ⟨h1, fun he => h2 (by rw [he]), h3⟩
        · rename_i hvic
          rw [hvic] at hv
          split at h <;> cases h <;> exact ⟨hv.1, hv.2.1, fun _ _ h => by cases h⟩

/-! ## The limits -/

theorem State.bytes_remove (h : s.Sound) (id : ChunkId) :
    (s.remove id).bytes + s.len id = s.bytes := by
  have hs := (h.remove id).bytes
  rw [State.slots_remove] at hs
  unfold State.len
  cases hl : s.slots.lookup id with
  | none => simp [State.remove_none hl]
  | some =>
    have := total_erase (f := Slot.len) hl
    simp only [map_some, getD_some]
    rw [hs, h.bytes]
    exact this

theorem State.size_remove (s : State) (id : ChunkId) :
    (s.remove id).slots.entries.length + (s.slots.lookup id).isSome.toNat =
      s.slots.entries.length := by
  rw [State.slots_remove]
  cases hl : s.slots.lookup id with
  | none => simp [erase_of_lookup_none hl]
  | some =>
    have := total_erase (f := fun _ => 1) hl
    rw [total_one, total_one] at this
    simpa using this

theorem State.Within.remove (h : s.Sound) (hw : s.Within disk)
    (id : ChunkId) : (s.remove id).Within disk := by
  obtain ⟨-, -, hextra, hnew, -⟩ := s.rest_remove id
  have hb := s.bytes_remove h id
  have hz := s.size_remove id
  unfold State.Within at hw ⊢
  rw [hextra, hnew]
  omega

theorem State.Within.finish (hw : s.Within disk) (id : ChunkId) : (s.finish id).Within disk := by
  unfold State.finish
  split
  · exact hw
  · unfold State.Within at hw ⊢
    simp only
    omega

/-- A commit fits: its reservation has charged what it adds. -/
theorem State.Within.commit {lsn : Nat} {a : Active}
    (h : s.Sound) (hw : s.Within disk) (ha : s.active.lookup id = some a)
    (hextra : a.extra = len - s.len id) (hnew : a.new = (s.slots.lookup id).isNone) :
    ((s.insert id lsn len).1.finish id).Within disk := by
  obtain ⟨-, hactive, he, hn, -⟩ := s.rest_remove id
  have hb := s.bytes_remove h id
  have hz := s.size_remove id
  have h1 := le_total (f := Active.extra) ha
  have h2 := le_total (f := fun a => a.new.toNat) ha
  rw [← h.extra] at h1
  rw [← h.new] at h2
  unfold State.Within at hw
  unfold State.insert
  dsimp only
  split
  · have hnone : (s.remove id).slots.lookup id = none := by
      rw [State.slots_remove, AList.lookup_erase]
    have hi := total_insert_none (f := fun _ => 1) hnone ⟨lsn, len, (s.remove id).clock + 1, false⟩
    rw [total_one, total_one] at hi
    unfold State.finish State.Within
    simp only [hactive, ha, he, hn]
    rw [hnew] at h2 ⊢
    have hc : (s.slots.lookup id).isNone.toNat + (s.slots.lookup id).isSome.toNat = 1 := by
      cases s.slots.lookup id <;> rfl
    constructor <;> omega
  · exact State.Within.finish (State.Within.remove h hw id) id

/-! ## The reservations over one step -/

/-- What a step can do to the reservations: nothing, make one, or end one. -/
inductive State.Charged (s s' : State) : Prop
  | same (h : s'.active = s.active)
  | made (id : ChunkId) (a : Active) (hn : s.active.lookup id = none)
      (h : s'.active = s.active.insert id a)
  | ended (id : ChunkId) (a : Active) (hl : s.active.lookup id = some a)
      (h : s'.active = s.active.erase id)

theorem State.charged_finish (s : State) (id : ChunkId) : s.Charged (s.finish id) := by
  unfold State.finish
  split
  · exact .same rfl
  · rename_i a ha
    exact .ended id a ha rfl

theorem State.charged_decide (s : State) (disk : Disk) (id : ChunkId) (len allocation free : Nat) :
    s.Charged (s.decide disk id len allocation free).2 := by
  obtain ⟨result, s', h⟩ : ∃ result s', s.decide disk id len allocation free = (result, s') :=
    ⟨_, _, rfl⟩
  rw [h]
  by_cases hr : result = .ok .Reserved
  · subst hr
    obtain ⟨hn, rfl, -⟩ := State.decide_reserved h
    exact .made id _ (AList.lookup_eq_none.mpr hn) rfl
  · exact .same (State.decide_other h hr).1.active

/-- A reservation that is made adds its charge to the totals, and one that ends takes exactly its
charge back. -/
theorem State.Charged.totals (h : s.Charged s') (hs : s.Sound) (hs' : s'.Sound) :
    (s'.active = s.active ∧ s'.extra = s.extra ∧ s'.new = s.new ∧ s'.allocation = s.allocation) ∨
    (∃ id a, s.active.lookup id = none ∧ s'.active = s.active.insert id a ∧
      s'.extra = s.extra + a.extra ∧ s'.new = s.new + a.new.toNat ∧
      s'.allocation = s.allocation + a.allocation) ∨
    ∃ id a, s.active.lookup id = some a ∧ s'.active = s.active.erase id ∧
      s'.extra + a.extra = s.extra ∧ s'.new + a.new.toNat = s.new ∧
      s'.allocation + a.allocation = s.allocation := by
  rw [hs.extra, hs.new, hs.allocation, hs'.extra, hs'.new, hs'.allocation]
  cases h with
  | same h =>
    rw [h]
    exact .inl ⟨rfl, rfl, rfl, rfl⟩
  | made id a hn h =>
    rw [h]
    exact .inr (.inl ⟨id, a, hn, rfl, total_insert_none hn a, total_insert_none hn a,
      total_insert_none hn a⟩)
  | ended id a hl h =>
    rw [h]
    exact .inr (.inr ⟨id, a, hl, rfl, total_erase hl, total_erase hl, total_erase hl⟩)

/-- No subtraction of the directory goes below zero. -/
def State.Covered (s : State) : Prop :=
  (∀ id slot, s.slots.lookup id = some slot → slot.len ≤ s.bytes) ∧
    ∀ id a, s.active.lookup id = some a →
      a.extra ≤ s.extra ∧ a.new.toNat ≤ s.new ∧ a.allocation ≤ s.allocation

theorem State.Sound.covered (h : s.Sound) : s.Covered := by
  refine ⟨fun id slot hl => ?_, fun id a hl => ⟨?_, ?_, ?_⟩⟩
  · rw [h.bytes]
    exact le_total hl
  · rw [h.extra]
    exact le_total hl
  · rw [h.new]
    exact le_total (f := fun a => a.new.toNat) hl
  · rw [h.allocation]
    exact le_total hl

/-- The order is a map from positions to chunks. -/
theorem State.Sound.order_inj (h : s.Sound) {position : Nat} {a b : ChunkId}
    (ha : (position, a) ∈ s.order) (hb : (position, b) ∈ s.order) : a = b := by
  obtain ⟨x, hx, hpx⟩ := (h.order position a).mp ha
  obtain ⟨y, hy, hpy⟩ := (h.order position b).mp hb
  exact h.position_inj hx hy (hpx.trans hpy.symm)

end moat_cache.catalog
