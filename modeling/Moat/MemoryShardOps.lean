-- The operations under the shard's lock: each keeps the shard in order and within
-- its capacity, and hands out every version that leaves, once, with the reason.
import Moat.MemoryResidents

namespace moat_cache_memory

open checked slab links List Option

variable {K V P : Type}

namespace Shard

/-- The shard is in order and within its capacity, or LRU with pinned nodes only. -/
structure Good (hash : K → UInt64) (s : Shard K V P) (q : Fin 3 → List Nat) : Prop
    extends Kept hash s q where
  bounded : Bounded s q

/-- What came in and what was held is what is held and what went out, and the shard got no heavier
than it was or may be. -/
structure Books (s s' : Shard K V P) (new : List (Record K V P)) (removed : Removed K V P) :
    Prop where
  policy : s'.state.policy = s.state.policy
  held : ∀ r, (s.Holds r ∨ r ∈ new) ↔ (s'.Holds r ∨ r ∈ removed.map Prod.fst)
  gone : ∀ r ∈ removed.map Prod.fst, ¬ s'.Holds r
  nodup : (removed.map Prod.fst).Nodup
  weight : s'.weight ≤ max s.capacity s.weight

/-- The shard holds the version. -/
def HoldsVersion (s : Shard K V P) (v : Nat) : Prop := ∃ r, s.Holds r ∧ r.version = v

/-- Which versions a section pins and unpins: of those it still holds, the ones in `pin` and the
ones that were pinned and are not in `unpin`. No other pinned version is evicted. -/
structure Repins (s s' : Shard K V P) (pin unpin : Nat → Prop) (removed : Removed K V P) :
    Prop where
  pins : ∀ v, s'.Pins v ↔ (pin v ∨ s.Pins v ∧ ¬ unpin v) ∧ s'.HoldsVersion v
  evicted : ∀ e ∈ removed, e.2 = .Evicted → s.Pins e.1.version → unpin e.1.version

section

variable {hash : K → UInt64} {s s' : Shard K V P} {q q' : Fin 3 → List Nat} {id : Nat}
  {n : Node K V P}

theorem Pins.held {v : Nat} (h : s.Pins v) : s.HoldsVersion v := by
  obtain ⟨id, n, hn, hv, -⟩ := h
  exact ⟨n.record, .of_get hn, hv⟩

theorem Repins.of_iff {pin unpin : Nat → Prop} {removed : Removed K V P}
    (hp : ∀ v, s'.Pins v ↔ pin v ∨ s.Pins v ∧ ¬ unpin v)
    (he : ∀ e ∈ removed, e.2 = .Evicted → s.Pins e.1.version → unpin e.1.version) :
    Repins s s' pin unpin removed :=
  ⟨fun v => ⟨fun h => ⟨(hp v).mp h, h.held⟩, fun h => (hp v).mpr h.1⟩, he⟩

theorem Repins.congr {pin unpin pin' unpin' : Nat → Prop} {removed : Removed K V P}
    (h : Repins s s' pin unpin removed) (hp : ∀ v, pin' v ↔ pin v) (hu : ∀ v, unpin' v ↔ unpin v) :
    Repins s s' pin' unpin' removed :=
  ⟨fun v => by rw [h.pins, hp, hu], fun e he hev hpin => (hu _).mpr (h.evicted e he hev hpin)⟩

theorem Drops.books {out : List (Record K V P)} (h : Drops s s' out) (reason : RemovalReason) :
    Books s s' [] (out.map fun r => (r, reason)) := by
  have hout : (out.map fun r => (r, reason)).map Prod.fst = out := by
    rw [List.map_map]
    exact map_id _
  exact ⟨h.policy, fun r => by rw [hout, ← h.held]; simp, by rw [hout]; exact h.gone,
    by rw [hout]; exact h.nodup, h.lighter.trans (Nat.le_max_right _ _)⟩

theorem new_good (hash : K → UInt64) (policy : Policy) (capacity : Nat)
    (hp : ∀ c, policy = .Lfu c → ∃ k, c.sketch_width = 2 ^ k) :
    Good hash (Shard.new policy capacity : Shard K V P) fun _ => [] where
  sound := by
    refine ⟨⟨fun _ => .nil, fun i id => ?_, fun _ => rfl, fun id hid => (by cases hid)⟩,
      Ghost.new_good _ _, ?_, ?_, ?_⟩
    · refine ⟨fun hm => (by cases hm), ?_⟩
      rintro ⟨n, hn, -⟩
      cases hn
    · intro s hs
      cases policy with
      | Lfu c =>
        cases hs
        exact Sketch.new_good (hp c rfl)
      | Fifo | Lru | S3Fifo | Sieve => cases hs
    · rintro c rfl
      rfl
    · cases policy with
      | Fifo | Sieve => exact ⟨rfl, rfl⟩
      | S3Fifo => exact rfl
      | Lru | Lfu => exact Nat.zero_le _
  linked := fun id n hn => by cases hn
  weighed := rfl
  capacity := rfl
  indexed := fun h id => ⟨fun hm => (by cases hm), fun ⟨n, hn, _⟩ => by cases hn⟩
  once := nodup_nil
  hashed := fun r ⟨_, n, hn, _⟩ => by cases hn
  keys := fun _ _ n _ hn => by cases hn
  versions := fun _ _ n _ hn => by cases hn
  flags := fun v => ⟨fun hv => (by cases hv), fun ⟨r, ⟨_, n, hn, _⟩, _⟩ => by cases hn⟩
  bounded := .inl (Nat.zero_le _)

/-- A turn after which no pinned node is unpinned keeps the bound. -/
theorem Good.turn (h : Good hash s q) {st' : State} {nodes' : Nodes K V P}
    (ht : Turn s.state s.nodes st' nodes' q') (hq : ∀ x, Queued q' x ↔ Queued q x)
    (hpin : s.state.policy.pins = true → ∀ x ∈ q 2, x ∈ q' 2) :
    Good hash { s with state := st', nodes := nodes' } q' := by
  refine ⟨(h.toKept.turn ht hq).1, ?_⟩
  rcases h.bounded with hb | ⟨hp, h0, h1⟩
  · exact .inl hb
  · have hall : ∀ x, Queued q' x → x ∈ q' 2 := by
      intro x hx
      rw [hq, queued_iff, h0, h1] at hx
      exact hpin hp x (by simpa using hx)
    have hnil : ∀ i : Fin 3, i ≠ 2 → q' i = [] := fun i hi =>
      eq_nil_iff_forall_not_mem.mpr fun x hx => hi (ht.sound.unique hx (hall x ⟨i, hx⟩))
    exact .inr ⟨ht.policy ▸ hp, hnil 0 (by decide), hnil 1 (by decide)⟩

/-- Detaching keeps the bound. -/
theorem Good.detach (h : Good hash s q) (hn : s.nodes.get id = some n) :
    ∃ s', s.detach id = some (n.record, s') ∧ Good hash s' (take q id) ∧ Drops s s' [n.record] ∧
      (∀ v, s'.Pins v ↔ s.Pins v ∧ v ≠ n.record.version) ∧ s'.weight + n.record.weight =
      s.weight := by
  obtain ⟨s1, h1, hk1, hd1, hp1, -, hw1⟩ := h.toKept.detach hn
  refine ⟨s1, h1, ⟨hk1, ?_⟩, hd1, hp1, hw1⟩
  rcases h.bounded with hb | ⟨hp, hq0, hq1⟩
  · refine .inl ?_
    rw [hd1.capacity]
    exact hd1.lighter.trans hb
  · exact .inr ⟨hd1.policy ▸ hp, by simp [take, hq0], by simp [take, hq1]⟩

/-- Nothing that is left has the key or the version of a record that went. -/
theorem Kept.apart_of_drops (h : Kept hash s q) (hn : s.nodes.get id = some n)
    (hd : Drops s s' [n.record]) {r : Record K V P} (hr : s'.Holds r) :
    ¬ (r.key = n.record.key ∨ r.version = n.record.version) := by
  intro he
  rw [h.holds_inj ((hd.held r).mpr (.inl hr)) (.of_get hn) he] at hr
  exact hd.gone _ (mem_singleton_self _) hr

/-! ## Lookups -/

section

variable [DecidableEq K]

theorem find_some {key : K} {h : UInt64} (hf : s.find h key = some id) :
    ∃ n, s.nodes.get id = some n ∧ n.record.key = key := by
  obtain ⟨n, hn, hk⟩ := lookup_some hf
  exact ⟨n, hn, by simpa using hk⟩

theorem Kept.find_none {key : K} (h : Kept hash s q) (hf : s.find (hash key) key = none)
    {r : Record K V P} (hr : s.Holds r) : r.key ≠ key := by
  intro hk
  have := lookup_none h hf hr (by rw [h.hashed r hr, hk])
  simp [hk] at this

/-- A hit returns the version of the key that is held; LRU pins it. -/
theorem Good.get (h : Good hash s q) (key : K) :
    ∃ r s' q', s.get (hash key) key = some (r, s') ∧ Good hash s' q' ∧ Books s s' [] [] ∧
      s'.capacity = s.capacity ∧ (∀ rec, r = some rec ↔ s.Holds rec ∧ rec.key = key) ∧
      (s.state.policy.pins = true →
        Repins s s' (fun v => ∃ rec, r = some rec ∧ rec.version = v) (fun _ => False) []) := by
  unfold Shard.get
  cases hf : s.find (hash key) key with
  | none =>
    refine ⟨none, s, q, rfl, h, Drops.refl.books .Evicted, rfl, fun rec => ?_,
      fun _ => .of_iff (fun v => by simp) fun e he => by simp at he⟩
    exact ⟨fun hr => (by cases hr), fun ⟨hr, hk⟩ => absurd hk (h.find_none hf hr)⟩
  | some id =>
    obtain ⟨n, hn, hk⟩ := find_some hf
    have hiff : ∀ rec, some n.record = some rec ↔ s.Holds rec ∧ rec.key = key := by
      intro rec
      constructor
      · rintro ⟨⟩
        exact ⟨.of_get hn, hk⟩
      · rintro ⟨hr, hk'⟩
        rw [h.holds_inj hr (.of_get hn) (.inl (hk'.trans hk.symm))]
    have hid := h.linked id n hn
    simp only [hn, bind_some]
    cases hm : s.state.policy.mutable_hits with
    | true =>
      obtain ⟨st1, nodes1, q1, h1, ht1, hq1, hp1⟩ := h.sound.access hid hm
      have hg1 := h.turn ht1 hq1 fun hp x hx => (hp1 hp x).mpr (.inr hx)
      refine ⟨some n.record, _, q1, ?_, hg1, ((h.toKept.turn ht1 hq1).2).books .Evicted, rfl, hiff,
        ?_⟩
      · rw [if_pos rfl, h1]
        rfl
      · intro hp
        refine .of_iff (fun v => ?_) fun e he => by simp at he
        rw [hg1.pins_mem, h.pins_mem]
        simp only [ht1.record, hp1 hp, not_false_eq_true, and_true]
        constructor
        · rintro ⟨id', r, hr, hv, (rfl | hx)⟩
          · rw [hn, map_some] at hr
            exact .inl ⟨r, hr, hv⟩
          · exact .inr ⟨id', r, hr, hv, hx⟩
        · rintro (⟨r, hr, hv⟩ | ⟨id', r, hr, hv, hx⟩)
          · exact ⟨id, r, by rw [hn]; exact hr, hv, .inl rfl⟩
          · exact ⟨id', r, hr, hv, .inr hx⟩
    | false =>
      obtain ⟨nodes1, h1, ht1⟩ := h.sound.access_shared hid hm
      refine ⟨some n.record, _, q, ?_, h.turn ht1 (fun _ => .rfl) fun _ _ hx => hx,
        ((h.toKept.turn ht1 fun _ => .rfl).2).books .Evicted, rfl, hiff, ?_⟩
      · rw [if_neg (by simp), h1]
        rfl
      · intro hp
        cases hpol : s.state.policy with
        | Lru => rw [hpol] at hm; cases hm
        | Fifo | Lfu | S3Fifo | Sieve => rw [hpol] at hp; cases hp

/-- A removal takes out the version of the key that is held. -/
theorem Good.remove (h : Good hash s q) (key : K) :
    ∃ s' q' removed, s.remove (hash key) key = some (s', removed) ∧ Good hash s' q' ∧
      Books s s' [] removed ∧ s'.capacity = s.capacity ∧ (∀ r, s'.Holds r → r.key ≠ key) ∧
      (∀ e ∈ removed, e.1.key = key ∧ e.2 = .Removed) ∧
      Repins s s' (fun _ => False) (fun _ => False) removed := by
  unfold Shard.remove
  cases hf : s.find (hash key) key with
  | none =>
    exact ⟨s, q, [], rfl, h, Drops.refl.books .Evicted, rfl, fun r hr => h.find_none hf hr,
      fun e he => by simp at he, .of_iff (fun v => by simp) fun e he => by simp at he⟩
  | some =>
    obtain ⟨n, hn, hk⟩ := find_some hf
    obtain ⟨s1, h1, hg1, hd1, hp1, -⟩ := h.detach hn
    refine ⟨s1, _, [(n.record, .Removed)], by simp only [h1, map_some], hg1, hd1.books .Removed,
      hd1.capacity, ?_, by simpa using hk, ⟨fun v => ?_, fun e he hev => by simp_all⟩⟩
    rotate_left
    · rw [hp1]
      simp only [false_or, not_false_eq_true, and_true]
      refine and_congr_right fun hv => ⟨fun hne => ((hp1 v).mpr ⟨hv, hne⟩).held, ?_⟩
      rintro ⟨r, hr, rfl⟩ he
      exact h.apart_of_drops hn hd1 hr (.inr he)
    · exact fun r hr hkey => h.apart_of_drops hn hd1 hr (.inl (hkey.trans hk.symm))

end

/-! ## Clearing, resizing and releasing -/

theorem Good.detachAll {ids : List Nat} (h : Good hash s q) (hnd : ids.Nodup)
    (hids : ∀ id ∈ ids, Queued q id) :
    ∃ s' q' out, Shard.detachAll ids s = some (s', out.map fun r => (r, .Cleared)) ∧
      Good hash s' q' ∧
      Drops s s' out ∧ ∀ x, Queued q' x ↔ Queued q x ∧ x ∉ ids := by
  induction ids generalizing s q with
  | nil => exact ⟨s, q, [], rfl, h, .refl, fun x => by simp⟩
  | cons id _ ih =>
    obtain ⟨hnot, hnd⟩ := nodup_cons.mp hnd
    obtain ⟨n, hn⟩ := isSome_iff_exists.mp ((h.isSome_iff id).mpr (hids id mem_cons_self))
    obtain ⟨s1, h1, hg1, hd1, -, -⟩ := h.detach hn
    have htake : ∀ x, Queued (take q id) x ↔ Queued q x ∧ x ≠ id := fun x => by
      simp only [Queued, h.sound.toRep.mem_take, exists_and_right]
    obtain ⟨s2, q2, out, h2, hg2, hd2, hq2⟩ := ih hg1 hnd fun x hx =>
      (htake x).mpr ⟨hids x (mem_cons_of_mem _ hx), fun he => hnot (he ▸ hx)⟩
    refine ⟨s2, q2, n.record :: out, ?_, hg2, hd1.trans hd2, fun x => ?_⟩
    · simp only [Shard.detachAll, h1, bind_some, h2, map_some, map_cons]
    · rw [hq2, htake, mem_cons, not_or, and_assoc]

/-- Clearing empties the shard. -/
theorem Good.clear (h : Good hash s q) :
    ∃ s' q' removed, s.clear = some (s', removed) ∧ Good hash s' q' ∧ Books s s' [] removed ∧
      s'.capacity = s.capacity ∧ (∀ r, ¬ s'.Holds r) ∧ (∀ e ∈ removed, e.2 = .Cleared) ∧
      Repins s s' (fun _ => False) (fun _ => False) removed := by
  obtain ⟨s1, q1, out, h1, hg1, hd1, hq1⟩ := h.detachAll s.nodes.ids_nodup fun id hid =>
    (h.isSome_iff id).mp (Slab.mem_ids.mp hid)
  have hempty : ∀ id n, s1.nodes.get id ≠ some n := by
    intro id n hn
    obtain ⟨hx, hnot⟩ := (hq1 id).mp (hg1.linked id n hn)
    exact hnot (Slab.mem_ids.mpr ((h.isSome_iff id).mpr hx))
  refine ⟨{ s1 with state := s1.state.clear_history }, q1, out.map fun r => (r, .Cleared), ?_, ?_,
    ?_,
    hd1.capacity, ?_, ?_, ?_⟩
  · rw [Shard.clear, h1]
    rfl
  · exact ⟨⟨hg1.sound.clear_history, hg1.linked, hg1.weighed, hg1.capacity, hg1.indexed, hg1.once,
      hg1.hashed, hg1.keys, hg1.versions, hg1.flags⟩, hg1.bounded⟩
  · have hb := hd1.books .Cleared
    exact ⟨hb.policy, hb.held, hb.gone, hb.nodup, hb.weight⟩
  · rintro r ⟨id, n, hn, -⟩
    exact hempty id n hn
  · intro e he
    obtain ⟨r, -, rfl⟩ := mem_map.mp he
    rfl
  · refine ⟨fun v => ⟨?_, ?_⟩, fun e he hev => ?_⟩
    · rintro ⟨id, n, hn, -⟩
      exact absurd hn (hempty id n)
    · rintro ⟨-, r, ⟨id, n, hn, -⟩, -⟩
      exact absurd hn (hempty id n)
    · obtain ⟨r, -, rfl⟩ := mem_map.mp he
      cases hev

theorem evicted_reason {out : List (Record K V P)} :
    ∀ e ∈ out.map (fun r => (r, RemovalReason.Evicted)), e.2 = .Evicted := by
  intro e he
  obtain ⟨r, -, rfl⟩ := mem_map.mp he
  rfl

/-- A new capacity evicts what no longer fits, and no pinned version. -/
theorem Good.resize (h : Good hash s q) (capacity : Nat) :
    ∃ s' q' removed, s.resize capacity = some (s', removed) ∧ Good hash s' q' ∧
      Books s s' [] removed ∧
      s'.capacity = capacity ∧ (∀ e ∈ removed, e.2 = .Evicted) ∧
      (s.state.policy.pins = true → Repins s s' (fun _ => False) (fun _ => False) removed) := by
  obtain ⟨st1, nodes1, q1, h1, ht1, hq1, hp1⟩ := h.sound.resize capacity
  have hk1 : Kept hash { s with state := st1, nodes := nodes1, capacity := capacity } q1 :=
    h.toKept.rearrange ht1.sound ht1.record hq1 ht1.capacity
  obtain ⟨s2, q2, out, h2, hk2, hb2, hd2, hp2⟩ := hk1.trim []
  have hheld := holds_congr s { s with state := st1, nodes := nodes1, capacity := capacity }
    ht1.record
  refine ⟨s2, q2, out.map fun r => (r, .Evicted), ?_, ⟨hk2, hb2⟩, ?_, hd2.capacity, evicted_reason,
    ?_⟩
  · simp only [Shard.resize, h1, bind_some, h2, nil_append]
  · have hb := hd2.books .Evicted
    exact ⟨hb.policy.trans ht1.policy, fun r => by rw [← hb.held, hheld], hb.gone, hb.nodup,
      hd2.lighter.trans (Nat.le_max_right _ _)⟩
  · intro hp
    have hpins : ∀ v, Pins { s with state := st1, nodes := nodes1, capacity := capacity } v ↔
      s.Pins v := by
      intro v
      rw [hk1.pins_mem, h.pins_mem]
      simp only [ht1.record, hp1 hp]
    obtain ⟨hsame, hout⟩ := hp2 (by rw [ht1.policy]; exact hp)
    refine .of_iff (fun v => by rw [hsame, hpins]; simp) fun e he _ => ?_
    obtain ⟨r, hr, rfl⟩ := mem_map.mp he
    rw [← hpins]
    exact hout r hr

/-- A release with no handle left unpins the version, and evicts what does not fit. -/
theorem Good.release (h : Good hash s q) (key : K) (version references : Nat)
    (hkey : ∀ r, s.Holds r → r.version = version → r.hash = hash key) :
    ∃ s' q' removed, s.release (hash key) version references = some (s', removed) ∧
      Good hash s' q' ∧
      Books s s' [] removed ∧ s'.capacity = s.capacity ∧ (∀ e ∈ removed, e.2 = .Evicted) ∧
      (s.state.policy.pins = true →
        Repins s s' (fun _ => False) (fun v => v = version ∧ references = 0) removed) := by
  unfold Shard.release
  by_cases href : references = 0
  · rw [if_neg (not_not.mpr href)]
    cases hf : s.lookup (hash key) fun r => r.version = version with
    | none =>
      refine ⟨s, q, [], rfl, h, Drops.refl.books .Evicted, rfl, fun e he => by simp at he,
        fun _ => .of_iff (fun v => ?_) fun e he => by simp at he⟩
      rw [false_or]
      refine ⟨fun hv => ⟨hv, ?_⟩, fun hv => hv.1⟩
      rintro ⟨rfl, -⟩
      obtain ⟨id, n, hn, hv, -⟩ := hv
      have := lookup_none h.toKept hf (.of_get hn) (hkey _ (.of_get hn) hv)
      simp [hv] at this
    | some id =>
      obtain ⟨n, hn, hv⟩ := lookup_some hf
      have hv : n.record.version = version := by simpa using hv
      obtain ⟨st1, nodes1, q1, h1, ht1, hq1, hp1⟩ := h.sound.release (h.linked id n hn)
      obtain ⟨hk1, hd1⟩ := h.toKept.turn ht1 hq1
      obtain ⟨s2, q2, out, h2, hk2, hb2, hd2, hp2⟩ := hk1.trim []
      refine ⟨s2, q2, out.map fun r => (r, .Evicted), ?_, ⟨hk2, hb2⟩,
        (hd1.trans hd2).books .Evicted,
        (hd1.trans hd2).capacity, evicted_reason, ?_⟩
      · simp only [h1, bind_some, h2, nil_append]
      · intro hp
        have hpins : ∀ v, Pins { s with state := st1, nodes := nodes1 } v ↔ s.Pins v ∧
          v ≠ version := by
          intro v
          rw [hk1.pins_mem, h.pins_mem]
          simp only [ht1.record, hp1 hp]
          constructor
          · rintro ⟨id', r, hr, hrv, hne, hin⟩
            refine ⟨⟨id', r, hr, hrv, hin⟩, fun he => hne ?_⟩
            obtain ⟨m, hm, rfl⟩ := map_eq_some_iff.mp hr
            exact h.versions id' id m n hm hn (hrv.trans (he.trans hv.symm))
          · rintro ⟨⟨id', r, hr, hrv, hin⟩, hne⟩
            refine ⟨id', r, hr, hrv, fun he => hne ?_, hin⟩
            rw [he, hn] at hr
            cases hr
            exact hrv.symm.trans hv
        obtain ⟨hsame, hout⟩ := hp2 (by rw [ht1.policy]; exact hp)
        refine .of_iff (fun v => ?_) fun e he _ hpin => ?_
        · rw [hsame, hpins]
          simp [href]
        · obtain ⟨r, hr, rfl⟩ := mem_map.mp he
          have hnot := hout r hr
          rw [hpins, not_and_not_right] at hnot
          exact ⟨hnot hpin, href⟩
  · rw [if_pos href]
    exact ⟨s, q, [], rfl, h, Drops.refl.books .Evicted, rfl, fun e he => by simp at he,
      fun _ => .of_iff (fun v => by simp [href]) fun e he => by simp at he⟩

end

end Shard

end moat_cache_memory
