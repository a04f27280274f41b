-- The operations in flight: each ticket of the session belongs to the active
-- operation of one chain, and what completes is what that operation asked for.
import Moat.StoreLane

namespace moat_cache_store

open moat_common moat_server Option
open moat_server.storage (Version Session Versions view)

/-! ## Published versions -/

theorem lookup_publish (index : Versions) (id : ChunkId) (v : Version)
    (hnew : ∀ old ∈ index.lookup id, old.lsn < v.lsn) (k : ChunkId) :
    (index.publish id v).lookup k = if k = id then some v else index.lookup k := by
  have hins : (index.insert id v).lookup k = if k = id then some v else index.lookup k := by
    by_cases hk : k = id
    · subst hk; rw [if_pos rfl, AList.lookup_insert]
    · rw [if_neg hk, AList.lookup_insert_ne hk]
  unfold Versions.publish
  cases h : index.lookup id with
  | none => exact hins
  | some old =>
    simp only
    rw [if_pos (hnew old h)]
    exact hins

/-- `stat` tells of a live version exactly. -/
theorem stat_some {s : Session} {id : ChunkId} {x : Nat × Nat} (h : s.stat id = some x) :
    ∃ value, s.index.lookup id = some ⟨x.1, some value⟩ := by
  unfold Session.stat at h
  split at h
  · rename_i lsn value hv
    cases h
    exact ⟨value, hv⟩
  · cases h

theorem stat_none {s : Session} {id : ChunkId} (h : s.stat id = none) :
    (s.index.lookup id).bind (·.value) = none := by
  unfold Session.stat at h
  split at h
  · cases h
  · rename_i hn
    cases hl : s.index.lookup id with
    | none => rfl
    | some v =>
      obtain ⟨lsn, value⟩ := v
      cases value with
      | none => rfl
      | some b => exact absurd hl (hn lsn b)

/-! ## Flights -/

/-- What is known of a write in flight: its chain's active operation asked for it, in the state that
its chunk is in. -/
inductive Asked (entry : Option Version) (v : Version) : Option Operation → Prop where
  | put {value r p} (hv : v.value = some value) : Asked entry v (some (.Put value r p))
  | delete {expected r p lsn old} (hv : v.value = none) (he : entry = some ⟨lsn, some old⟩)
    (hx : ∀ e ∈ expected, e = lsn) : Asked entry v (some (.Delete expected r p))

theorem Asked.operation {entry : Option Version} {v : Version} {a : Option Operation}
    (h : Asked entry v a) : ∃ op, a = some op := by
  cases h <;> exact ⟨_, rfl⟩

/-- What the flight of ticket `t` stands for. `active` gives the active operation of each chain, and
`fence` the ticket of the fence. -/
inductive Stands (index : Versions) (reads : AList (fun _ : Nat => ChunkId))
    (writes : AList (fun _ : Nat => ChunkId × Nat)) (fence : Option Nat)
    (active : ChunkId → Option Operation) (t : Nat) : storage.Flight → Prop where
  | read {id range lsn waiters value} (hr : reads.lookup t = some id) (hw : writes.lookup t = none)
    (ha : active id = some (.Read range lsn waiters))
    (he : index.lookup id = some ⟨lsn, some value⟩) :
    Stands index reads writes fence active t (.read (view value range))
  | write {id v} (hr : reads.lookup t = none) (hw : writes.lookup t = some (id, v.lsn))
    (hnew : ∀ old ∈ index.lookup id, old.lsn < v.lsn) (ha : Asked (index.lookup id) v (active id)) :
    Stands index reads writes fence active t (.write id v)
  | flush (hr : reads.lookup t = none) (hw : writes.lookup t = none) (hf : fence = some t) :
    Stands index reads writes fence active t .flush

/-- The tickets of the session and the worker's two tables agree, and point at active operations. -/
structure Flights (s : Session) (reads : AList (fun _ : Nat => ChunkId))
    (writes : AList (fun _ : Nat => ChunkId × Nat)) (fence : Option Nat)
    (active : ChunkId → Option Operation) : Prop where
  stands : ∀ t f, s.flights.lookup t = some f → Stands s.index reads writes fence active t f
  reads_sub : ∀ t id, reads.lookup t = some id → t ∈ s.flights
  writes_sub : ∀ t x, writes.lookup t = some x → t ∈ s.flights
  fence_sub : ∀ t, fence = some t → s.flights.lookup t = some .flush
  unique : ∀ t t' id, (reads.lookup t = some id ∨ ∃ l, writes.lookup t = some (id, l)) →
    (reads.lookup t' = some id ∨ ∃ l, writes.lookup t' = some (id, l)) → t = t'
  ticket_lt : ∀ t ∈ s.flights, t < s.next_ticket
  index_lsn : ∀ id v, s.index.lookup id = some v → v.lsn < s.next_lsn
  flight_lsn : ∀ t id v, s.flights.lookup t = some (.write id v) → v.lsn < s.next_lsn

section Flights

variable {s s' : Session} {reads : AList (fun _ : Nat => ChunkId)}
  {writes : AList (fun _ : Nat => ChunkId × Nat)} {fence : Option Nat}
  {active active' : ChunkId → Option Operation} {id : ChunkId}

variable {t : Nat} {reads' : AList (fun _ : Nat => ChunkId)}
  {writes' : AList (fun _ : Nat => ChunkId × Nat)} {fence' : Option Nat}

/-- A ticket of `id` in flight means that its chain has an active operation. -/
theorem Flights.busy (h : Flights s reads writes fence active)
    (ht : reads.lookup t = some id ∨ ∃ l, writes.lookup t = some (id, l)) : active id ≠ none := by
  have hm : t ∈ s.flights := by
    rcases ht with ht | ⟨l, ht⟩
    · exact h.reads_sub t id ht
    · exact h.writes_sub t _ ht
  obtain ⟨f, hf⟩ := isSome_iff_exists.mp (AList.lookup_isSome.mpr hm)
  cases h.stands t f hf with
  | read hr hw ha =>
    simp only [hr, hw, some.injEq, reduceCtorEq, exists_false, or_false] at ht
    simp [← ht, ha]
  | write hr hw _ ha =>
    simp only [hr, hw, reduceCtorEq, false_or, some.injEq, Prod.mk.injEq,
      exists_and_left] at ht
    rw [← ht.1]
    intro hnone
    rw [hnone] at ha
    cases ha
  | flush hr hw => simp [hr, hw] at ht

/-- What a ticket stands for does not depend on chains that have no ticket. -/
theorem Stands.congr {index : Versions} {f : storage.Flight}
    (h : Stands index reads writes fence active t f) {index' : Versions}
    (hr : reads'.lookup t = reads.lookup t) (hw : writes'.lookup t = writes.lookup t)
    (hf : fence = some t → fence' = some t)
    (hi : ∀ i, (reads.lookup t = some i ∨ ∃ l, writes.lookup t = some (i, l)) →
      index'.lookup i = index.lookup i ∧ (active' i = active i ∨ ∃ range lsn ws ws',
        active i = some (.Read range lsn ws) ∧ active' i = some (.Read range lsn ws'))) :
    Stands index' reads' writes' fence' active' t f := by
  cases h with
  | read hr' hw' ha he =>
    obtain ⟨h1, h2⟩ := hi _ (.inl hr')
    rcases h2 with h2 | ⟨range, lsn, ws, ws', e1, e2⟩
    · exact .read (hr.trans hr') (hw.trans hw') (h2.trans ha) (h1.trans he)
    · rw [ha] at e1
      cases e1
      exact .read (hr.trans hr') (hw.trans hw') e2 (h1.trans he)
  | write hr' hw' hnew ha =>
    obtain ⟨h1, h2⟩ := hi _ (.inr ⟨_, hw'⟩)
    refine .write (hr.trans hr') (hw.trans hw') (h1 ▸ hnew) ?_
    rw [h1]
    rcases h2 with h2 | ⟨range, lsn, ws, ws', e1, e2⟩
    · rw [h2]; exact ha
    · rw [e1] at ha; cases ha
  | flush hr' hw' hf' => exact .flush (hr.trans hr') (hw.trans hw') (hf hf')

/-- More callers may wait for an active read. -/
theorem Flights.join (h : Flights s reads writes fence active)
    (ha : ∀ i, active' i = active i ∨ ∃ range lsn ws ws', active i = some (.Read range lsn ws) ∧
      active' i = some (.Read range lsn ws')) : Flights s reads writes fence active' :=
  ⟨fun t f hf => (h.stands t f hf).congr rfl rfl (fun hf => hf) (fun i _ => ⟨rfl, ha i⟩),
    h.reads_sub, h.writes_sub, h.fence_sub, h.unique, h.ticket_lt, h.index_lsn, h.flight_lsn⟩

/-! ## Starting -/

theorem ticket_ge {a : storage.Admission} {n : Nat} (h : a.ticket n = .ok t) : n ≤ t := by
  cases a with
  | Accepted => cases h; omega
  | NoBuffer => cases h
  | Rejected => cases h

theorem read_cases (s : Session) (id : ChunkId) (range : Option (Nat × Nat))
    (a : storage.Admission) :
    (∃ e, s.read id range a = (.error e, s)) ∨
      ∃ t lsn value, s.next_ticket ≤ t ∧ s.index.lookup id = some ⟨lsn, some value⟩ ∧
        s.read id range a = (.ok t, s.launch t (.read (view value range))) := by
  unfold Session.read
  split
  · rename_i lsn value hv
    dsimp only
    split
    · exact .inl ⟨_, rfl⟩
    · cases ht : a.ticket s.next_ticket with
      | error e => exact .inl ⟨e, rfl⟩
      | ok t => exact .inr ⟨t, lsn, value, ticket_ge ht, hv, rfl⟩
  · exact .inl ⟨_, rfl⟩

theorem write_cases (s : Session) (id : ChunkId) (value : Option Bytes) (a : storage.Admission) :
    (∃ e, s.write id value a = (.error e, s)) ∨
      ∃ t, s.next_ticket ≤ t ∧ s.write id value a = (.ok (t, s.next_lsn),
        { s.launch t (.write id ⟨s.next_lsn, value⟩) with next_lsn := s.next_lsn + 1 }) := by
  unfold Session.write
  dsimp only
  split
  · exact .inl ⟨_, rfl⟩
  · split
    · exact .inl ⟨_, rfl⟩
    · cases ht : a.ticket s.next_ticket with
      | error e => exact .inl ⟨e, rfl⟩
      | ok t => exact .inr ⟨t, ticket_ge ht, rfl⟩

theorem flush_cases (s : Session) (a : storage.Admission) :
    (∃ e, s.flush a = (.error e, s)) ∨
      ∃ t, s.next_ticket ≤ t ∧ s.flush a = (.ok t, s.launch t .flush) := by
  unfold Session.flush
  cases ht : a.ticket s.next_ticket with
  | error e => exact .inl ⟨e, rfl⟩
  | ok t => exact .inr ⟨t, ticket_ge ht, rfl⟩

variable (h : Flights s reads writes fence active)
include h

theorem Flights.fresh
    (ht : s.next_ticket ≤ t) : t ∉ s.flights ∧ reads.lookup t = none ∧ writes.lookup t = none := by
  have hn : t ∉ s.flights := fun hm => absurd (h.ticket_lt t hm) (by omega)
  refine ⟨hn, ?_, ?_⟩
  · cases hr : reads.lookup t with
    | none => rfl
    | some i => exact absurd (h.reads_sub t i hr) hn
  · cases hw : writes.lookup t with
    | none => rfl
    | some x => exact absurd (h.writes_sub t x hw) hn

theorem Flights.fence_lt (ht : fence = some t) : t < s.next_ticket :=
  h.ticket_lt t (AList.lookup_isSome.mp (by rw [h.fence_sub t ht]; rfl))

/-- A new flight under a fresh ticket `t`: the tables change at `t` only, and only the chain that
it is for, which had none, gets an active operation. -/
theorem Flights.launch {next_lsn : Nat} {f : storage.Flight} (ht : s.next_ticket ≤ t)
    (hl : s.next_lsn ≤ next_lsn) (hr : ∀ t' ≠ t, reads'.lookup t' = reads.lookup t')
    (hw : ∀ t' ≠ t, writes'.lookup t' = writes.lookup t')
    (hf : ∀ t' ≠ t, (fence = some t' ↔ fence' = some t')) (hft : fence' = some t → f = .flush)
    (hnew : Stands s.index reads' writes' fence' active' t f)
    (hid : ∀ i, (reads'.lookup t = some i ∨ ∃ l, writes'.lookup t = some (i, l)) → active i = none)
    (hother : ∀ i, active i ≠ none → active' i = active i)
    (hlsn : ∀ i v, f = .write i v → v.lsn < next_lsn) :
    Flights { s.launch t f with next_lsn } reads' writes' fence' active' := by
  have fresh := h.fresh ht
  have old : ∀ t' i, (reads.lookup t' = some i ∨ ∃ l, writes.lookup t' = some (i, l)) → t' ≠ t := by
    rintro t' i (hm | ⟨l, hm⟩) rfl
    · rw [fresh.2.1] at hm; cases hm
    · rw [fresh.2.2] at hm; cases hm
  have mem : ∀ t', t' = t ∨ t' ∈ s.flights → t' ∈ (s.flights.insert t f) :=
    fun t' hm => (AList.mem_insert _).mpr hm
  -- A ticket in the new tables is `t`, or stands where it stood.
  have cases' : ∀ t' i, (reads'.lookup t' = some i ∨ ∃ l, writes'.lookup t' = some (i, l)) →
      t' = t ∨ (reads.lookup t' = some i ∨ ∃ l, writes.lookup t' = some (i, l)) := by
    intro t' i hm
    by_cases htt : t' = t
    · exact .inl htt
    · rw [hr t' htt, hw t' htt] at hm
      exact .inr hm
  refine ⟨?_, ?_, ?_, ?_, ?_, ?_, ?_, ?_⟩
  · intro t' f' hf'
    by_cases htt : t' = t
    · subst htt
      rw [show ({ s.launch t' f with next_lsn } : Session).flights = s.flights.insert t' f from rfl,
        AList.lookup_insert] at hf'
      cases hf'
      exact hnew
    · rw [show ({ s.launch t f with next_lsn } : Session).flights = s.flights.insert t f from rfl,
        AList.lookup_insert_ne htt] at hf'
      refine (h.stands t' f' hf').congr (hr t' htt) (hw t' htt) (hf t' htt).mp ?_
      intro i hi
      exact ⟨rfl, .inl (hother i (h.busy hi))⟩
  · intro t' i hm
    rcases cases' t' i (.inl hm) with htt | hm
    · exact mem t' (.inl htt)
    · rcases hm with hm | ⟨l, hm⟩
      · exact mem t' (.inr (h.reads_sub t' i hm))
      · exact mem t' (.inr (h.writes_sub t' _ hm))
  · rintro t' ⟨i, l⟩ hm
    rcases cases' t' i (.inr ⟨l, hm⟩) with htt | hm
    · exact mem t' (.inl htt)
    · rcases hm with hm | ⟨l, hm⟩
      · exact mem t' (.inr (h.reads_sub t' i hm))
      · exact mem t' (.inr (h.writes_sub t' _ hm))
  · intro t' hm
    rw [show ({ s.launch t f with next_lsn } : Session).flights = s.flights.insert t f from rfl]
    by_cases htt : t' = t
    · subst htt
      rw [AList.lookup_insert, hft hm]
    · rw [AList.lookup_insert_ne htt]
      exact h.fence_sub t' ((hf t' htt).mpr hm)
  · intro t1 t2 i h1 h2
    rcases cases' t1 i h1 with e1 | h1' <;> rcases cases' t2 i h2 with e2 | h2'
    · rw [e1, e2]
    · exact absurd (hid i (e1 ▸ h1)) (h.busy h2')
    · exact absurd (hid i (e2 ▸ h2)) (h.busy h1')
    · exact h.unique t1 t2 i h1' h2'
  · intro t' hm
    show t' < t + 1
    rcases (AList.mem_insert _).mp hm with rfl | hm
    · omega
    · have := h.ticket_lt t' hm; omega
  · intro i v hv
    exact Nat.lt_of_lt_of_le (h.index_lsn i v hv) hl
  · intro t' i v hv
    by_cases htt : t' = t
    · subst htt
      rw [show ({ s.launch t' f with next_lsn } : Session).flights = s.flights.insert t' f from rfl,
        AList.lookup_insert] at hv
      exact hlsn i v (some.inj hv)
    · rw [show ({ s.launch t f with next_lsn } : Session).flights = s.flights.insert t f from rfl,
        AList.lookup_insert_ne htt] at hv
      exact Nat.lt_of_lt_of_le (h.flight_lsn t' i v hv) hl

/-! ## Landing -/

/-- A flight ends: its ticket leaves the tables, and the chain that it was for, if any, has no
active operation any more. Only that chain's chunk may have a new version. -/
theorem Flights.land {index : Versions} (hr : reads'.lookup t = none)
    (hro : ∀ t' ≠ t, reads'.lookup t' = reads.lookup t') (hw : writes'.lookup t = none)
    (hwo : ∀ t' ≠ t, writes'.lookup t' = writes.lookup t') (hf : fence' ≠ some t)
    (hfo : ∀ t' ≠ t, (fence = some t' ↔ fence' = some t'))
    (hlsn : ∀ i v, index.lookup i = some v → v.lsn < s.next_lsn)
    (hother : ∀ i, ¬ (reads.lookup t = some i ∨ ∃ l, writes.lookup t = some (i, l)) →
      index.lookup i = s.index.lookup i ∧ active' i = active i) :
    Flights (s.retire t index) reads' writes' fence' active' := by
  have ne : ∀ t' i, (reads'.lookup t' = some i ∨ ∃ l, writes'.lookup t' = some (i, l)) →
    t' ≠ t := by
    rintro t' i (hm | ⟨l, hm⟩) rfl
    · rw [hr] at hm; cases hm
    · rw [hw] at hm; cases hm
  have mem : ∀ t' ≠ t, t' ∈ s.flights → t' ∈ s.flights.erase t :=
    fun t' hne hm => (AList.mem_erase).mpr ⟨hne, hm⟩
  have look : ∀ t' f', (s.flights.erase t).lookup t' = some f' →
      t' ≠ t ∧ s.flights.lookup t' = some f' := by
    intro t' f' hl
    by_cases htt : t' = t
    · subst htt; rw [AList.lookup_erase] at hl; cases hl
    · rw [AList.lookup_erase_ne htt] at hl; exact ⟨htt, hl⟩
  refine ⟨?_, ?_, ?_, ?_, ?_, ?_, hlsn, ?_⟩
  · intro t' f' hf'
    obtain ⟨htt, hf'⟩ := look t' f' hf'
    refine (h.stands t' f' hf').congr (hro t' htt) (hwo t' htt) (hfo t' htt).mp ?_
    intro i hi
    have := hother i (fun hi' => htt (h.unique t' t i hi hi'))
    exact ⟨this.1, .inl this.2⟩
  · intro t' i hm
    have htt := ne t' i (.inl hm)
    rw [hro t' htt] at hm
    exact mem t' htt (h.reads_sub t' i hm)
  · rintro t' ⟨i, l⟩ hm
    have htt := ne t' i (.inr ⟨l, hm⟩)
    rw [hwo t' htt] at hm
    exact mem t' htt (h.writes_sub t' _ hm)
  · intro t' hm
    have htt : t' ≠ t := fun he => hf (he ▸ hm)
    rw [show (s.retire t index).flights = s.flights.erase t from rfl, AList.lookup_erase_ne htt]
    exact h.fence_sub t' ((hfo t' htt).mpr hm)
  · intro t1 t2 i h1 h2
    have n1 := ne t1 i h1
    have n2 := ne t2 i h2
    rw [hro t1 n1, hwo t1 n1] at h1
    rw [hro t2 n2, hwo t2 n2] at h2
    exact h.unique t1 t2 i h1 h2
  · intro t' hm
    exact h.ticket_lt t' (AList.mem_erase.mp hm).2
  · intro t' i v hv
    exact h.flight_lsn t' i v (look t' _ hv).2

end Flights

end moat_cache_store
