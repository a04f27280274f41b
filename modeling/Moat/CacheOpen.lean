-- What the cache starts from: the directory of each disk has a slot for every
-- live chunk of the store's inventory, trimmed to the limits of the disk.
import Moat.CacheRuns

namespace moat_cache

open moat_common moat_cache_store catalog registry scheduler List Function Option

/-- What the store knows of a chunk that the directory should know too. -/
def Store.record (s : Store) (id : ChunkId) : Option (Nat × Nat) :=
  (s.live id).map (fun x => (x.1, x.2.length))

theorem Store.record_publish (s : Store) (id : ChunkId) (v : moat_server.storage.Version)
    (h : s.draws id v.lsn) (i : ChunkId) :
    (s.publish id v h).record i =
      if i = id then v.value.map (fun value => (v.lsn, value.length)) else s.record i := by
  unfold Store.record
  by_cases hi : i = id
  · subst hi
    rw [if_pos rfl, Store.live_publish_self, Option.map_map]
    rfl
  · rw [if_neg hi, Store.live_publish_other s v h hi]

/-! ## The inventory -/

theorem Store.mem_inventory {s : Store} {e : InventoryEntry} :
    e ∈ s.inventory ↔ ∃ value, s.live e.id = some (e.lsn, value) ∧ e.len = value.length := by
  unfold Store.inventory
  rw [mem_mergeSort, mem_filterMap]
  constructor
  · rintro ⟨⟨id, v⟩, hm, hv⟩
    obtain ⟨value, hval, rfl⟩ := map_eq_some_iff.mp hv
    refine ⟨value, ?_, rfl⟩
    have hl : s.chunks.lookup id = some v := AList.mem_lookup_iff.mpr hm
    have hv : v.value = some value := hval
    simp only [Store.live, hl, bind_some, hv, map_some]
  · rintro ⟨value, hl, hlen⟩
    refine ⟨⟨e.id, ⟨e.lsn, some value⟩⟩, AList.mem_lookup_iff.mp (Store.live_lookup hl), ?_⟩
    simp only [map_some, ← hlen]

/-- There are no more live chunks than LSNs drawn. -/
theorem Store.length_inventory (s : Store) : s.inventory.length ≤ s.drawn.length := by
  have hnodup : (s.chunks.entries.map (fun e => e.2.lsn)).Nodup := by
    refine List.Nodup.map_on (fun x hx y hy hl => ?_) (List.NodupKeys.nodup s.chunks.nodupKeys)
    have hx' := AList.mem_lookup_iff.mpr (show ⟨x.1, x.2⟩ ∈ s.chunks.entries from hx)
    have hy' := AList.mem_lookup_iff.mpr (show ⟨y.1, y.2⟩ ∈ s.chunks.entries from hy)
    have hid := s.distinct x.1 y.1 x.2 y.2 hx' hy' hl
    obtain ⟨a, v⟩ := x
    obtain ⟨b, w⟩ := y
    simp only at hid hx' hy'
    subst hid
    rw [hx'] at hy'
    cases hy'
    rfl
  have hsub : ∀ n ∈ s.chunks.entries.map (fun e => e.2.lsn), n ∈ s.drawn := by
    intro n hn
    obtain ⟨e, he, rfl⟩ := mem_map.mp hn
    exact s.recorded e.1 e.2 (AList.mem_lookup_iff.mpr he)
  calc s.inventory.length ≤ s.chunks.entries.length := by
        unfold Store.inventory
        rw [length_mergeSort]
        exact length_filterMap_le _ _
    _ = (s.chunks.entries.map (fun e => e.2.lsn)).length := by rw [length_map]
    _ ≤ s.drawn.length := (subperm_of_subset hnodup hsub).length_le

/-- The directory after the loop over the inventory. -/
structure Loaded (c : Config) (d : Nat) (inventory : List InventoryEntry)
    (s s' : State) : Prop where
  sound : s.Sound → s'.Sound
  active : s'.active = s.active
  clock : s'.clock = s.clock + inventory.length
  fresh : ∀ e ∈ inventory, e.id ∉ s.slots
  placed : ∀ e ∈ inventory, c.disk_of e.id = d
  mem : ∀ e ∈ inventory, s'.record e.id = some (e.lsn, e.len)
  other : ∀ id, (∀ e ∈ inventory, e.id ≠ id) → s'.record id = s.record id

variable {s : System} {c : Config} {d : Nat} {store init : Store} {state : State}
  {choices : Nat → List Choice} {stores : Nat → Store} {b : Budgets}

theorem load_spec {inventory : List InventoryEntry} {s s' : State}
    (h : load c d inventory s = .ok s') : Loaded c d inventory s s' := by
  induction inventory generalizing s with
  | nil =>
    cases h
    exact ⟨fun hs => hs, rfl, rfl, forall_mem_nil _, forall_mem_nil _,
      forall_mem_nil _, fun _ _ => rfl⟩
  | cons entry inventory ih =>
    unfold load at h
    split at h
    · cases h
    rename_i hplace
    split at h
    · cases h
    rename_i hnew
    split at h
    · rename_i s₁ hi
      have h₁ := ih h
      have hrec := s.record_insert entry.id entry.lsn entry.len
      have hact := s.active_insert entry.id entry.lsn entry.len
      rw [hi] at hrec hact
      simp only [if_true] at hrec
      have hgrow : ∀ id, id ∈ s.slots → id ∈ s₁.slots := fun id hm => by
        rw [State.mem_slots, hrec]
        split
        · rfl
        · exact State.mem_slots.mp hm
      have hself : entry.id ∈ s₁.slots := by rw [State.mem_slots, hrec, if_pos rfl]; rfl
      have hne : ∀ e ∈ inventory, e.id ≠ entry.id := fun e he hid => h₁.fresh e he (hid ▸ hself)
      refine ⟨fun hs => h₁.sound ?_, h₁.active.trans hact, ?_, fun e he => ?_, fun e he => ?_,
        fun e he => ?_, fun id hid => ?_⟩
      · have := hs.insert entry.id entry.lsn entry.len
        rw [hi] at this
        exact this
      · have hclock : s₁.clock = s.clock + 1 := by
          have hc := (s.rest_remove entry.id).1
          unfold State.insert at hi
          dsimp only at hi
          split at hi <;> cases hi
          simp only [hc]
        rw [h₁.clock, hclock, length_cons]
        omega
      · rcases mem_cons.mp he with rfl | he
        · exact hnew
        · exact fun hm => h₁.fresh e he (hgrow _ hm)
      · rcases mem_cons.mp he with rfl | he
        · exact not_not.mp hplace
        · exact h₁.placed e he
      · rcases mem_cons.mp he with rfl | he
        · rw [h₁.other e.id hne, hrec, if_pos rfl]
        · exact h₁.mem e he
      · rw [h₁.other id (fun e he => hid e (mem_cons_of_mem _ he)), hrec,
          if_neg (fun he => hid entry mem_cons_self he.symm)]
    · cases h

/-! ## The trim -/

/-- A directory that agrees with its store, and has no reservations. -/
structure Opening (c : Config) (d : Nat) (init : Store) (state : State) (store : Store) : Prop where
  sound : state.Sound
  idle : state.active = ∅
  placed : ∀ id, id ∈ state.slots → c.disk_of id = d
  agree : ∀ id, c.disk_of id = d → state.record id = store.record id
  clock : state.clock ≤ store.drawn.length
  live : ∀ id lsn b, store.live id = some (lsn, b) → init.live id = some (lsn, b)

theorem State.sound_empty : State.empty.Sound := by
  refine ⟨rfl, fun position id => ?_, List.Pairwise.nil, forall_mem_nil _, rfl, rfl, rfl⟩
  simp [State.empty]

theorem Opening.load
    (h : load c d store.inventory .empty = .ok state) : Opening c d store state store := by
  have hl := load_spec h
  refine ⟨hl.sound State.sound_empty, hl.active, fun id hm => ?_, fun id _ => ?_, ?_,
    fun id lsn b hb => hb⟩
  · by_contra hne
    rw [State.mem_slots, hl.other id (fun e he hid => hne (hid ▸ hl.placed e he))] at hm
    cases hm
  · cases hlive : store.live id with
    | none =>
      rw [Store.record, hlive, hl.other id (fun e he hid => ?_)]
      · rfl
      · obtain ⟨value, hv, -⟩ := Store.mem_inventory.mp he
        rw [hid, hlive] at hv
        cases hv
    | some x =>
      obtain ⟨lsn, value⟩ := x
      rw [Store.record, hlive]
      exact hl.mem ⟨id, lsn, value.length⟩ (Store.mem_inventory.mpr ⟨value, hlive, rfl⟩)
  · rw [hl.clock]
    have := store.length_inventory
    simp only [State.empty]
    omega

/-- A chunk is deleted, and its slot goes. -/
theorem Opening.evict {store' : Store} (h : Opening c d init state store) {id : ChunkId} {lsn : Nat}
    {o : Choice} {result : DeleteResult} (hd : store.delete id lsn o = some (.ok result, store'))
    (hr : result ≠ .Changed) : Opening c d init (state.remove id) store' := by
  obtain ⟨hclock, hactive, -⟩ := state.rest_remove id
  have hplaced : ∀ i, i ∈ (state.remove id).slots → c.disk_of i = d := fun i hm => by
    rw [State.slots_remove, AList.mem_erase] at hm
    exact h.placed i hm.2
  rcases Store.delete_cases hd with ⟨hdr, value, hl, rfl, -⟩ | ⟨rfl, he | ⟨-, hl⟩ | ⟨he, -⟩⟩
  · refine ⟨h.sound.remove id, hactive.trans h.idle, hplaced, fun i hi => ?_, ?_,
      fun i l b hb => ?_⟩
    · rw [State.record_remove, Store.record_publish]
      split
      · rfl
      · exact h.agree i hi
    · rw [hclock]
      exact h.clock.trans (Nat.le_succ _)
    · by_cases hi : i = id
      · rw [hi, Store.live_publish_self] at hb
        cases hb
      · rw [Store.live_publish_other _ _ _ hi] at hb
        exact h.live i l b hb
  · obtain ⟨e, he⟩ := he
    cases he
  · refine ⟨h.sound.remove id, hactive.trans h.idle, hplaced,
      fun i hi => ?_, by rw [hclock]; exact h.clock,
      h.live⟩
    rw [State.record_remove]
    split
    · rename_i hid
      rw [hid, Store.record, hl]
      rfl
    · exact h.agree i hi
  · cases he
    exact absurd rfl hr

/-- The directory of an open disk. -/
structure Opened (c : Config) (d : Nat) (init : Store) (state : State) (store : Store) : Prop
    extends Opening c d init state store where
  within : state.Within (c.disk d)

/-- The choice of a victim changes no record. -/
theorem Opening.choose (h : Opening c d init state store) (policy : DiskPolicy) :
    Opening c d init (state.victim policy none).2 store := by
  obtain ⟨hsame, hsound, -⟩ := state.victim_spec policy none
  refine ⟨hsound h.sound, hsame.active.trans h.idle, fun i hm => ?_, fun i hi => ?_, ?_,
    h.live⟩
  · rw [State.mem_slots, hsame.record, ← State.mem_slots] at hm
    exact h.placed i hm
  · rw [hsame.record]
    exact h.agree i hi
  · rw [hsame.clock]
    exact h.clock

theorem Opening.trim {store' : Store} {state' : State}
    {choices : List Choice} (h : Opening c d init state store)
    (ht : trim (c.disk d) choices state store = .ok (state', store')) :
    Opened c d init state' store' := by
  induction choices generalizing state store with
  | nil =>
    unfold moat_cache.trim at ht
    split at ht
    · rename_i hw
      cases ht
      refine ⟨h, ?_⟩
      unfold State.Within
      rw [h.sound.extra, h.sound.new, h.idle]
      exact hw
    · cases ht
  | cons o choices ih =>
    unfold moat_cache.trim at ht
    split at ht
    · rename_i hw
      cases ht
      refine ⟨h, ?_⟩
      unfold State.Within
      rw [h.sound.extra, h.sound.new, h.idle]
      exact hw
    · simp only at ht
      split at ht
      · cases ht
      · rename_i id lsn state₁ hv
        have h₁ := h.choose (c.disk d).policy
        rw [hv] at h₁
        split at ht
        · cases ht
        · cases ht
        · cases ht
        · rename_i hd
          exact ih (h₁.evict hd (by assumption)) ht

theorem openDisks_spec {n : Nat}
    {opened : Nat → State × Store} (h : openDisks c choices stores n = .ok opened) (d : Nat) :
    (d < n → Opened c d (stores d) (opened d).1 (opened d).2) ∧
      (n ≤ d → opened d = (.empty, stores d)) := by
  induction n generalizing opened with
  | zero =>
    cases h
    exact ⟨fun hd => absurd hd (Nat.not_lt_zero d), fun _ => rfl⟩
  | succ n ih =>
    unfold openDisks at h
    split at h
    · cases h
    rename_i opened₁ h₁
    split at h
    · cases h
    rename_i disk hd
    cases h
    by_cases hdn : d = n
    · subst hdn
      rw [update_self]
      refine ⟨fun _ => ?_, fun hlt => by omega⟩
      unfold openDisk at hd
      split at hd
      · cases hd
      · rename_i state hl
        exact (Opening.load hl).trim hd
    · rw [update_of_ne hdn]
      exact ⟨fun hlt => (ih h₁).1 (by omega), fun hlt => (ih h₁).2 (by omega)⟩

/-- No chunk is placed on a disk that the cache does not have. -/
theorem Opened.empty (hd : c.disks ≤ d) (store : Store) : Opened c d store .empty store where
  sound := State.sound_empty
  idle := rfl
  placed := fun id hm => by cases hm
  agree := fun id hid => by
    have := c.disk_lt id
    omega
  clock := Nat.zero_le _
  live := fun _ _ _ hl => hl
  within := ⟨Nat.zero_le _, Nat.zero_le _⟩

/-! ## A new cache -/

/-- Nothing has been called yet, and every disk is open. -/
structure Started (c : Config) (stores : Nat → Store) (s : System) : Prop where
  opened : ∀ d, Opened c d (stores d) (s.disks d) (s.store d)
  registry : s.registry.keys = ∅ ∧ s.registry.closed = false
  scheduler : s.scheduler.Ordered ∧ ∀ id, s.scheduler.line id = []
  memory : s.memory = ∅
  control : s.control = fun _ => none
  failures : s.failures = none
  calls : s.calls = []
  jobs : s.jobs = []
  log : s.log = []

theorem System.new_spec (h : System.new c b choices stores = .ok s) : Started c stores s := by
  unfold System.new at h
  split at h
  · cases h
  split at h
  · cases h
  rename_i opened ho
  split at h
  · cases h
  rename_i scheduler hs
  cases h
  unfold Scheduler.new at hs
  split at hs
  · cases hs
  cases hs
  refine ⟨fun d => ?_, ⟨rfl, rfl⟩, ⟨?_, fun id => rfl⟩, rfl, rfl, rfl, rfl, rfl, rfl⟩
  · rcases Nat.lt_or_ge d c.disks with hd | hd
    · exact (openDisks_spec ho d).1 hd
    · simp only [(openDisks_spec ho d).2 hd]
      exact Opened.empty hd (stores d)
  · refine ⟨fun id => Nat.zero_le _, fun id => ?_, nodup_nil, fun id queue hq => by cases hq⟩
    simp [jobsOf]

/-- What the disks have when the cache is opened was written by nobody. -/
def found (c : Config) (s : System) : Past := fun id lsn =>
  match (s.store (c.disk_of id)).live id with
  | some (l, b) => if l = lsn then some (none, b) else none
  | none => none

theorem found_iff {id : ChunkId} {lsn : Nat} {x : Option Nat × Bytes} :
    found c s id lsn = some x ↔
      x.1 = none ∧ (s.store (c.disk_of id)).live id = some (lsn, x.2) := by
  unfold found
  obtain ⟨w, b⟩ := x
  cases hl : (s.store (c.disk_of id)).live id with
  | none => simp
  | some y =>
    obtain ⟨l, b'⟩ := y
    simp only [ite_none_right_eq_some, some.injEq, Prod.mk.injEq]
    exact ⟨fun ⟨h1, h2, h3⟩ => ⟨h2.symm, h1, h3⟩, fun ⟨h1, h2, h3⟩ => ⟨h2, h1.symm, h3⟩⟩

theorem Inv.new (h : System.new c b choices stores = .ok s) : Inv c stores (found c s) s := by
  obtain ⟨hopen, ⟨hkeys, hclosed⟩, ⟨hord, hline⟩, hmem, -, -, hcalls, hjobs, hlog⟩ :=
    System.new_spec h
  refine ⟨?_, ?_, ?_, ?_, ?_, ?_, ?_, fun hc => by rw [hclosed] at hc; cases hc⟩
  · rw [hcalls, hjobs, hlog]
    refine ⟨fun k => ?_, fun k x hx => ?_, fun k x hx => ?_, fun i x k e hx => (by cases hx),
      fun i x k g mark hx => (by cases hx), fun n j hj => (by cases hj)⟩
    · rw [Registry.count, hkeys]
      rfl
    · rw [hkeys] at hx; cases hx
    · rw [hkeys] at hx; cases hx
  · rw [hjobs]
    refine ⟨hord, fun id job hm => ?_, fun id => ?_, fun id job hm => ?_,
      fun n j hj => (by cases hj)⟩
    · rw [hline] at hm; cases hm
    · rw [hline]; exact List.Pairwise.nil
    · rw [hline] at hm; cases hm
  · rw [hlog, hjobs]
    exact ⟨rfl, fun _ _ _ _ hm => (by cases hm), fun n j hj => (by cases hj), fun n => (by simp),
      fun n hm => (by cases hm)⟩
  · rw [hcalls, hjobs]
    refine ⟨fun id lsn b hl => ⟨none, found_iff.mpr ⟨rfl, hl⟩⟩, fun id lsn x hx => ?_,
      fun id lsn n b hx => ?_, fun id lsn b hx => ?_, fun id lsn hl => ?_, fun id hm => ?_,
      fun n j hj => (by cases hj), fun x hx => (by cases hx), fun n j p b hj => (by cases hj)⟩
    · obtain ⟨-, hl⟩ := found_iff.mp hx
      exact ⟨_, Store.live_lookup hl, Nat.le_refl _⟩
    · obtain ⟨hn, -⟩ := found_iff.mp hx
      cases hn
    · exact (hopen _).live id lsn b (found_iff.mp hx).2
    · rw [State.lsn_eq_record, (hopen _).agree id rfl, Store.record] at hl
      cases hlive : (s.store (c.disk_of id)).live id with
      | none => rw [hlive] at hl; cases hl
      | some y =>
        rw [hlive] at hl
        cases hl
        exact ⟨none, y.2, found_iff.mpr ⟨rfl, hlive⟩, fun m j hm => (by cases hm)⟩
    · rw [(hopen _).idle] at hm
      cases hm
  · rw [hmem, hcalls, hlog]
    exact ⟨fun k e hl => (by cases hl), fun x hx => (by cases hx)⟩
  · rw [hlog]
    intro i key hm
    cases hm
  · rw [hlog]
    intro before e after he
    simp at he

/-- The invariants hold in every run of the cache. -/
theorem Inv.of_run {s₀ : System} {as : List Action} (h : System.new c b choices stores = .ok s₀)
    (hr : s₀.run c as = some s) : ∃ past, Inv c stores past s :=
  (Inv.new h).run hr

end moat_cache
