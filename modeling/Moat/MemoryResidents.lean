-- What a shard holds: which records are resident, which of them are pinned, and
-- how much they weigh; and what each operation under the lock does to that.
import Moat.MemoryShard

namespace moat_cache_memory

open checked slab links List Function
open Option hiding or_assoc any_eq_true

variable {K V P : Type} {r : Record K V P}

/-! ## All nodes in one sequence -/

def chain (q : Fin 3 → List Nat) : List Nat := q 0 ++ q 1 ++ q 2

theorem mem_chain {q : Fin 3 → List Nat} {id : Nat} : id ∈ chain q ↔ Queued q id := by
  rw [chain, mem_append, mem_append, queued_iff, or_assoc]

namespace Rep

variable {st st' : State} {nodes nodes' : Nodes K V P} {q q' : Fin 3 → List Nat} {id : Nat}
  (h : Rep st nodes q)
include h

theorem chain_nodup : (chain q).Nodup := by
  have hdis : ∀ {i j : Fin 3}, i ≠ j → ∀ a ∈ q i, ∀ b ∈ q j, a ≠ b :=
    fun hij a ha b hb he => hij (h.unique ha (he ▸ hb))
  refine nodup_append.mpr ⟨nodup_append.mpr ⟨(h.linked 0).nodup, (h.linked 1).nodup,
    hdis (by decide)⟩, (h.linked 2).nodup, fun a ha => ?_⟩
  rcases mem_append.mp ha with ha | ha
  · exact hdis (by decide) a ha
  · exact hdis (by decide) a ha

theorem total : st.total_weight = ((chain q).map (weightOf nodes)).sum := by
  simp only [State.total_weight, chain, map_append, sum_append, h.weighed]

/-- The total weight depends only on which nodes are linked. -/
theorem total_eq (h' : Rep st' nodes' q')
    (hw : ∀ id, Queued q id → weightOf nodes' id = weightOf nodes id)
    (hq : ∀ x, Queued q' x ↔ Queued q x) : st'.total_weight = st.total_weight := by
  have hperm : (chain q').Perm (chain q) :=
    (perm_ext_iff_of_nodup h'.chain_nodup h.chain_nodup).mpr fun x => by
      rw [mem_chain, mem_chain, hq]
  rw [h.total, h'.total, (hperm.map _).sum_eq]
  congr 1
  exact map_congr_left fun x hx => hw x (mem_chain.mp hx)

/-- One more node is linked. -/
theorem total_cons (h' : Rep st' nodes' q') (hid : ¬ Queued q id)
    (hw : ∀ x, Queued q x → weightOf nodes' x = weightOf nodes x)
    (hq : ∀ x, Queued q' x ↔ x = id ∨ Queued q x) :
    st'.total_weight = st.total_weight + weightOf nodes' id := by
  have hperm : (chain q').Perm (id :: chain q) :=
    (perm_ext_iff_of_nodup h'.chain_nodup (nodup_cons.mpr
      ⟨fun hm => hid (mem_chain.mp hm), h.chain_nodup⟩)).mpr fun x => by
      rw [mem_chain, hq, mem_cons, mem_chain]
  rw [h'.total, (hperm.map _).sum_eq, map_cons, sum_cons, h.total, Nat.add_comm]
  congr 2
  exact map_congr_left fun x hx => hw x (mem_chain.mp hx)

/-- A node that is in no list can come and go. -/
theorem frame (hout : ∀ i, id ∉ q i) (hget : ∀ j, j ≠ id → nodes'.get j = nodes.get j)
    (hnew : ∀ n, nodes'.get id = some n → n.queue = none) : Rep st nodes' q := by
  have hne : ∀ {i j}, j ∈ q i → j ≠ id := fun {i j} hj he => hout i (he ▸ hj)
  refine ⟨fun i => (h.linked i).congr fun j hj => ?_, fun i j => ?_, fun i => ?_, h.hand⟩
  · rw [linkOf, linkOf, hget j (hne hj)]
  · by_cases hj : j = id
    · subst hj
      refine ⟨fun hm => absurd hm (hout i), fun hx => ?_⟩
      obtain ⟨n, hn, hq⟩ := hx
      rw [hnew n hn] at hq
      cases hq
    · rw [h.queued, hget j hj]
  · rw [h.weighed]
    congr 1
    exact map_congr_left fun j hj => by rw [weightOf, weightOf, hget j (hne hj)]

end Rep

theorem Sound.frame {st : State} {nodes nodes' : Nodes K V P} {q : Fin 3 → List Nat} {id : Nat}
    (h : Sound st nodes q) (hout : ∀ i, id ∉ q i) (hget : ∀ j, j ≠ id → nodes'.get j = nodes.get j)
    (hnew : ∀ n, nodes'.get id = some n → n.queue = none) : Sound st nodes' q :=
  ⟨h.toRep.frame hout hget hnew, h.ghost, h.sketch, h.sketched, h.shape⟩

/-! ## What a shard holds -/

namespace Shard

/-- The record in a node. -/
def recordAt (nodes : Nodes K V P) (id : Nat) :
    Option (Record K V P) := (nodes.get id).map Node.record

theorem recordAt_some {nodes : Nodes K V P} {id : Nat} :
    recordAt nodes id = some r ↔ ∃ n, nodes.get id = some n ∧ n.record = r :=
  map_eq_some_iff

/-- The record is resident in the shard. -/
def Holds (s : Shard K V P) (r : Record K V P) : Prop :=
  ∃ id n, s.nodes.get id = some n ∧ n.record = r

/-- The version is in the pinned list. -/
def Pins (s : Shard K V P) (version : Nat) : Prop :=
  ∃ id n, s.nodes.get id = some n ∧ n.record.version = version ∧ n.queue = some 2

/-- The index and the flags are those of the records `rec`, with each key and each version once. -/
structure Table (hash : K → UInt64) (index : List (UInt64 × Nat)) (resident : Nat → Bool)
    (rec : Nat → Option (Record K V P)) : Prop where
  indexed : ∀ h id, (h, id) ∈ index ↔ ∃ r, rec id = some r ∧ r.hash = h
  once : index.Nodup
  hashed : ∀ id r, rec id = some r → r.hash = hash r.key
  apart : ∀ id id' r r', rec id = some r → rec id' = some r' →
    r.key = r'.key ∨ r.version = r'.version → id = id'
  flags : ∀ v, resident v = true ↔ ∃ r, (∃ id, rec id = some r) ∧ r.version = v

theorem update_eq_some {α : Type} {f : Nat → Option α} {id j : Nat} {o : Option α} {x : α} :
    update f id o j = some x ↔ j = id ∧ o = some x ∨ j ≠ id ∧ f j = some x := by
  by_cases hj : j = id
  · subst hj
    simp
  · simp [hj]

namespace Table

variable {hash : K → UInt64} {index : List (UInt64 × Nat)} {resident : Nat → Bool}
  {rec : Nat → Option (Record K V P)} {id : Nat} {record : Record K V P}

variable (h : Table hash index resident rec)
include h

/-- A record of a new key and a new version goes in. -/
theorem insert (hid : rec id = none) (hh : record.hash = hash record.key)
    (hnew : ∀ j r, rec j = some r → r.key ≠ record.key ∧ r.version ≠ record.version) :
    Table hash ((record.hash, id) :: index) (update resident record.version true)
      (update rec id (some record)) := by
  have hne : ∀ {j r}, rec j = some r → j ≠ id := by
    rintro j r hr rfl
    rw [hid] at hr
    cases hr
  refine ⟨fun a j => ?_, nodup_cons.mpr ⟨fun hm => ?_, h.once⟩, fun j r hr => ?_,
    fun j j' r r' hr hr' hk => ?_, fun v => ?_⟩
  · rw [mem_cons, h.indexed]
    constructor
    · rintro (he | ⟨r, hr, he⟩)
      · cases he
        exact ⟨record, update_eq_some.mpr (.inl ⟨rfl, rfl⟩), rfl⟩
      · exact ⟨r, update_eq_some.mpr (.inr ⟨hne hr, hr⟩), he⟩
    · rintro ⟨r, hr, rfl⟩
      rcases update_eq_some.mp hr with ⟨rfl, he⟩ | ⟨-, hr⟩
      · cases he
        exact .inl rfl
      · exact .inr ⟨r, hr, rfl⟩
  · obtain ⟨r, hr, -⟩ := (h.indexed _ _).mp hm
    exact hne hr rfl
  · rcases update_eq_some.mp hr with ⟨-, he⟩ | ⟨-, hr⟩
    · cases he
      exact hh
    · exact h.hashed j r hr
  · rcases update_eq_some.mp hr with ⟨hj, he⟩ | ⟨-, hr⟩ <;>
      rcases update_eq_some.mp hr' with ⟨hj', he'⟩ | ⟨-, hr'⟩
    · rw [hj, hj']
    · cases he
      obtain ⟨hk', hv⟩ := hnew _ _ hr'
      exact absurd (hk.imp Eq.symm Eq.symm) (not_or.mpr ⟨hk', hv⟩)
    · cases he'
      exact absurd hk (not_or.mpr (hnew _ _ hr))
    · exact h.apart j j' r r' hr hr' hk
  · by_cases hv : v = record.version
    · subst hv
      rw [update_self]
      exact ⟨fun _ => ⟨record, ⟨id, update_self ..⟩, rfl⟩, fun _ => rfl⟩
    · rw [update_of_ne hv, h.flags]
      constructor
      · rintro ⟨r, ⟨j, hr⟩, he⟩
        exact ⟨r, ⟨j, update_eq_some.mpr (.inr ⟨hne hr, hr⟩)⟩, he⟩
      · rintro ⟨r, ⟨j, hr⟩, he⟩
        rcases update_eq_some.mp hr with ⟨-, ho⟩ | ⟨-, hr⟩
        · cases ho
          exact absurd he.symm hv
        · exact ⟨r, ⟨j, hr⟩, he⟩

/-- A record goes. -/
theorem erase (hr : rec id = some record) :
    Table hash (index.erase (record.hash, id)) (update resident record.version false)
      (update rec id none) := by
  have hsub : ∀ {j r}, update rec id none j = some r ↔ j ≠ id ∧ rec j = some r := by
    intro j r
    rw [update_eq_some]
    simp
  refine ⟨fun a j => ?_, h.once.erase _, fun j r hj => h.hashed j r (hsub.mp hj).2,
    fun j j' r r' hj hj' => h.apart j j' r r' (hsub.mp hj).2 (hsub.mp hj').2, fun v => ?_⟩
  · rw [h.once.mem_erase_iff, h.indexed]
    constructor
    · rintro ⟨hne, r, hj, he⟩
      refine ⟨r, hsub.mpr ⟨?_, hj⟩, he⟩
      rintro rfl
      rw [hr] at hj
      cases hj
      exact hne (by rw [he])
    · rintro ⟨r, hj, he⟩
      exact ⟨fun hp => (hsub.mp hj).1 (Prod.ext_iff.mp hp).2, r, (hsub.mp hj).2, he⟩
  · by_cases hv : v = record.version
    · subst hv
      rw [update_self]
      refine ⟨fun hf => (by cases hf), ?_⟩
      rintro ⟨r, ⟨j, hj⟩, he⟩
      obtain ⟨hne, hj⟩ := hsub.mp hj
      exact absurd (h.apart j id r record hj hr (.inr he)) hne
    · rw [update_of_ne hv, h.flags]
      constructor
      · rintro ⟨r, ⟨j, hj⟩, rfl⟩
        refine ⟨r, ⟨j, hsub.mpr ⟨?_, hj⟩⟩, rfl⟩
        rintro rfl
        rw [hr] at hj
        cases hj
        exact hv rfl
      · rintro ⟨r, ⟨j, hj⟩, he⟩
        exact ⟨r, ⟨j, (hsub.mp hj).2⟩, he⟩

end Table

/-- The shard's books: every node of the slab is in one of the lists, the lists weigh what the
shard says, the index has exactly the nodes of the slab, with each key and each version once, and
the flags say who is resident. -/
structure Kept (hash : K → UInt64) (s : Shard K V P) (q : Fin 3 → List Nat) : Prop where
  sound : Sound s.state s.nodes q
  linked : ∀ id n, s.nodes.get id = some n → Queued q id
  weighed : s.weight = s.state.total_weight
  capacity : s.state.capacity = s.capacity
  indexed : ∀ h id, (h, id) ∈ s.index ↔ ∃ n, s.nodes.get id = some n ∧ n.record.hash = h
  once : s.index.Nodup
  hashed : ∀ r, s.Holds r → r.hash = hash r.key
  keys : ∀ id id' n n', s.nodes.get id = some n → s.nodes.get id' = some n' →
    n.record.key = n'.record.key → id = id'
  versions : ∀ id id' n n', s.nodes.get id = some n → s.nodes.get id' = some n' →
    n.record.version = n'.record.version → id = id'
  flags : ∀ v, s.resident v = true ↔ ∃ r, s.Holds r ∧ r.version = v

/-- No heavier than its capacity, or LRU with nothing but pinned nodes. -/
def Bounded (s : Shard K V P) (q : Fin 3 → List Nat) : Prop :=
  s.weight ≤ s.capacity ∨ s.state.policy.pins = true ∧ q 0 = [] ∧ q 1 = []

/-- The records `out` left the shard, and nothing else happened to what it holds. -/
structure Drops (s s' : Shard K V P) (out : List (Record K V P)) : Prop where
  policy : s'.state.policy = s.state.policy
  capacity : s'.capacity = s.capacity
  held : ∀ r, s.Holds r ↔ s'.Holds r ∨ r ∈ out
  gone : ∀ r ∈ out, ¬ s'.Holds r
  nodup : out.Nodup
  lighter : s'.weight ≤ s.weight
  stays : ∀ id n', s'.nodes.get id = some n' → ∃ n, s.nodes.get id = some n ∧ n.record = n'.record

namespace Drops

variable {s s' s'' : Shard K V P} {out out' : List (Record K V P)}

theorem refl : Drops s s [] :=
  ⟨rfl, rfl, fun _ => by simp, fun _ h => by simp at h, nodup_nil, Nat.le_refl _,
    fun _ n h => ⟨n, h, rfl⟩⟩

theorem trans (h : Drops s s' out) (h' : Drops s' s'' out') : Drops s s'' (out ++ out') where
  policy := h'.policy.trans h.policy
  capacity := h'.capacity.trans h.capacity
  held := fun r => by rw [h.held, h'.held, mem_append]; tauto
  gone := by
    intro r hr hs
    rcases mem_append.mp hr with hr | hr
    · exact h.gone r hr ((h'.held r).mpr (.inl hs))
    · exact h'.gone r hr hs
  nodup := nodup_append.mpr ⟨h.nodup, h'.nodup, fun a ha b hb he =>
    h.gone a ha ((h'.held a).mpr (.inr (he ▸ hb)))⟩
  lighter := h'.lighter.trans h.lighter
  stays := by
    intro id n'' hn''
    obtain ⟨n', hn', hr'⟩ := h'.stays id n'' hn''
    obtain ⟨n, hn, hr⟩ := h.stays id n' hn'
    exact ⟨n, hn, hr.trans hr'⟩

end Drops

section

variable {hash : K → UInt64} {s : Shard K V P} {q : Fin 3 → List Nat} {id : Nat} {n : Node K V P}

theorem Kept.mem_index (h : Kept hash s q) (hn : s.nodes.get id = some n) :
    (n.record.hash, id) ∈ s.index := (h.indexed _ _).mpr ⟨n, hn, rfl⟩

theorem Holds.of_get (hn : s.nodes.get id = some n) : s.Holds n.record := ⟨id, n, hn, rfl⟩

theorem holds_iff : s.Holds r ↔ ∃ id, recordAt s.nodes id = some r := by
  simp only [Holds, recordAt_some]

/-- What is held and what is pinned can be read from nodes with the same records. -/
theorem holds_congr (s s' : Shard K V P)
    (h : ∀ id, (s'.nodes.get id).map Node.record = (s.nodes.get id).map Node.record)
    (r : Record K V P) : s'.Holds r ↔ s.Holds r := by
  rw [holds_iff, holds_iff, show recordAt s'.nodes = recordAt s.nodes from funext h]

theorem Kept.pins_iff (h : Kept hash s q) (hn : s.nodes.get id = some n) :
    s.Pins n.record.version ↔ id ∈ q 2 := by
  rw [h.sound.queued]
  constructor
  · rintro ⟨id', n', hn', hv, hq⟩
    obtain rfl := h.versions id' id n' n hn' hn hv
    exact ⟨n', hn', hq⟩
  · rintro ⟨n', hn', hq⟩
    rw [hn] at hn'
    cases hn'
    exact ⟨id, n, hn, rfl, hq⟩

/-- What the table finds is a node with that hash that the comparison accepts. -/
theorem lookup_some {hash : UInt64} {same : Record K V P → Bool}
    (h : s.lookup hash same = some id) :
    ∃ n, s.nodes.get id = some n ∧ same n.record = true := by
  obtain ⟨e, he, rfl⟩ := map_eq_some_iff.mp h
  have hp := List.find?_some he
  simp only [Bool.and_eq_true, Option.any_eq_true] at hp
  exact hp.2

variable (h : Kept hash s q)
include h

theorem lookup_none {hash' : UInt64} {same : Record K V P → Bool} (hl : s.lookup hash' same = none)
    (hr : s.Holds r) (hh : r.hash = hash') : same r = false := by
  obtain ⟨id, n, hn, rfl⟩ := hr
  rw [lookup, map_eq_none_iff, List.find?_eq_none] at hl
  have := hl _ (h.mem_index hn)
  simpa [hh, hn] using this

theorem Kept.table : Table hash s.index s.resident (recordAt s.nodes) := by
  refine ⟨fun a id => ?_, h.once, fun id r hr => h.hashed r (holds_iff.mpr ⟨id, hr⟩),
    fun id id' r r' hr hr' hk => ?_, fun v => ?_⟩
  · rw [h.indexed]
    simp only [recordAt_some, exists_exists_and_eq_and]
  · obtain ⟨n, hn, rfl⟩ := recordAt_some.mp hr
    obtain ⟨n', hn', rfl⟩ := recordAt_some.mp hr'
    exact hk.elim (h.keys id id' n n' hn hn') (h.versions id id' n n' hn hn')
  · rw [h.flags]
    simp only [holds_iff]

omit h in
theorem Kept.of_table (ht : Table hash s.index s.resident (recordAt s.nodes))
    (hs : Sound s.state s.nodes q) (hl : ∀ id r, recordAt s.nodes id = some r → Queued q id)
    (hw : s.weight = s.state.total_weight) (hc : s.state.capacity = s.capacity) :
    Kept hash s q := by
  have at_ : ∀ {id n}, s.nodes.get id = some n → recordAt s.nodes id = some n.record :=
    fun hn => recordAt_some.mpr ⟨_, hn, rfl⟩
  refine ⟨hs, fun id n hn => hl id _ (at_ hn), hw, hc, fun a id => ?_, ht.once, fun r hr => ?_,
    fun id id' n n' hn hn' hk => ht.apart id id' _ _ (at_ hn) (at_ hn') (.inl hk),
    fun id id' n n' hn hn' hv => ht.apart id id' _ _ (at_ hn) (at_ hn') (.inr hv), fun v => ?_⟩
  · rw [ht.indexed]
    simp only [recordAt_some, exists_exists_and_eq_and]
  · obtain ⟨id, hr⟩ := holds_iff.mp hr
    exact ht.hashed id r hr
  · rw [ht.flags]
    simp only [holds_iff]

/-- A key is held once, and so is a version. -/
theorem Kept.holds_inj {r' : Record K V P} (hr : s.Holds r) (hr' : s.Holds r')
    (he : r.key = r'.key ∨ r.version = r'.version) : r = r' := by
  obtain ⟨id, hr⟩ := holds_iff.mp hr
  obtain ⟨id', hr'⟩ := holds_iff.mp hr'
  obtain rfl := h.table.apart id id' r r' hr hr' he
  exact some.inj (hr.symm.trans hr')

/-- The index, the keys and the flags do not depend on the order of the lists. -/
theorem Kept.rearrange {st' : State} {nodes' : Nodes K V P}
    {q' : Fin 3 → List Nat} {capacity : Nat} (hs : Sound st' nodes' q')
    (hrec : ∀ id, (nodes'.get id).map Node.record = (s.nodes.get id).map Node.record)
    (hq : ∀ x, Queued q' x ↔ Queued q x) (hc : st'.capacity = capacity) :
    Kept hash { s with state := st', nodes := nodes', capacity := capacity } q' := by
  have heq : recordAt nodes' = recordAt s.nodes := funext hrec
  refine .of_table ?_ hs (fun id r hr => ?_) ?_ hc
  · show Table hash s.index s.resident (recordAt nodes')
    rw [heq]
    exact h.table
  · obtain ⟨n, hn, -⟩ := recordAt_some.mp (heq ▸ hr)
    exact (hq id).mpr (h.linked id n hn)
  · rw [h.weighed]
    exact (h.sound.toRep.total_eq hs.toRep (fun id _ => weightOf_congr (hrec id)) hq).symm

/-- A turn of the policy drops nothing. -/
theorem Kept.turn {st' : State} {nodes' : Nodes K V P} {q' : Fin 3 → List Nat}
    (ht : Turn s.state s.nodes st' nodes' q') (hq : ∀ x, Queued q' x ↔ Queued q x) :
    Kept hash { s with state := st', nodes := nodes' } q' ∧
      Drops s { s with state := st', nodes := nodes' } [] := by
  refine ⟨h.rearrange ht.sound ht.record hq (ht.capacity.trans h.capacity), ⟨ht.policy, rfl, ?_, ?_,
    nodup_nil, Nat.le_refl _, ?_⟩⟩
  · intro r
    rw [← holds_congr s { s with state := st', nodes := nodes' } ht.record r]
    simp
  · intro r hr
    simp at hr
  · intro id n' hn'
    have := ht.record id
    rw [show nodes'.get id = some n' from hn', map_some, eq_comm, map_eq_some_iff] at this
    exact this

theorem Kept.isSome_iff (id : Nat) : (s.nodes.get id).isSome = true ↔ Queued q id := by
  constructor
  · intro hs
    obtain ⟨n, hn⟩ := isSome_iff_exists.mp hs
    exact h.linked id n hn
  · rintro ⟨i, hi⟩
    exact h.sound.isSome hi

/-- What is pinned is what the third sequence has. -/
theorem Kept.pins_mem (v : Nat) :
    s.Pins v ↔ ∃ id r, (s.nodes.get id).map Node.record = some r ∧ r.version = v ∧ id ∈ q 2 := by
  constructor
  · rintro ⟨id, n, hn, hv, hq⟩
    exact ⟨id, n.record, by rw [hn]; rfl, hv, (h.sound.queued 2 id).mpr ⟨n, hn, hq⟩⟩
  · rintro ⟨id, r, hr, hv, hq⟩
    obtain ⟨n, hn, rfl⟩ := map_eq_some_iff.mp hr
    rw [← hv]
    exact (h.pins_iff hn).mpr hq

/-- Detaching a node that is there takes its record out of the shard, and nothing else. -/
theorem Kept.detach (hn : s.nodes.get id = some n) :
    ∃ s', s.detach id = some (n.record, s') ∧ Kept hash s' (take q id) ∧ Drops s s' [n.record] ∧
      (∀ v, s'.Pins v ↔ s.Pins v ∧ v ≠ n.record.version) ∧
      s'.nodes.ids.length < s.nodes.ids.length ∧ s'.weight + n.record.weight = s.weight := by
  obtain ⟨st1, nodes1, h1, ht1, hs1⟩ := h.sound.remove hn
  obtain ⟨n1, hn1, hrec1, -⟩ := hs1.get hn
  obtain ⟨nodes2, h2, -, hg2⟩ := Slab.remove_some hn1
  have hself : recordAt s.nodes id = some n.record := recordAt_some.mpr ⟨n, hn, rfl⟩
  have hout : ∀ i, id ∉ take q id i := fun i hm => ((h.sound.toRep.mem_take).mp hm).2 rfl
  have hs2 : Sound st1 nodes2 (take q id) :=
    ht1.sound.frame hout (fun j hj => by rw [hg2, if_neg hj]) fun m hm => by
      rw [hg2, if_pos rfl] at hm
      cases hm
  have hrec : recordAt nodes2 = update (recordAt s.nodes) id none := by
    funext j
    rw [recordAt, hg2]
    by_cases hj : j = id
    · rw [if_pos hj, hj, update_self]
      rfl
    · rw [if_neg hj, update_of_ne hj]
      exact hs1.record j
  have hsub : ∀ {j r}, recordAt nodes2 j = some r ↔ j ≠ id ∧ recordAt s.nodes j = some r := by
    intro j r
    rw [hrec, update_eq_some]
    simp
  have hqtake : ∀ x, Queued (take q id) x ↔ Queued q x ∧ x ≠ id := fun x => by
    simp only [Queued, h.sound.toRep.mem_take, exists_and_right]
  -- the lists lose the weight of the node
  have hweight : s.state.total_weight = st1.total_weight + n.record.weight := by
    rw [← weightOf_some hn]
    refine hs2.toRep.total_cons h.sound.toRep (fun hx => ((hqtake id).mp hx).2 rfl) (fun x hx => ?_)
      (fun x => ?_)
    · refine (weightOf_congr (show recordAt nodes2 x = recordAt s.nodes x from ?_)).symm
      rw [hrec, update_of_ne ((hqtake x).mp hx).2]
    · rw [hqtake]
      by_cases hx : x = id
      · simp [hx, h.linked id n hn]
      · simp [hx]
  have hdetach : s.detach id = some (n.record, { s with
      index := s.index.erase (n.record.hash, id)
      nodes := nodes2
      state := st1
      weight := s.weight - n.record.weight
      resident := update s.resident n.record.version false }) := by
    have hle : n.record.weight ≤ s.weight := by rw [h.weighed, hweight]; omega
    simp only [Shard.detach, h1, bind_some, h2, hrec1, if_pos (h.mem_index hn), sub?_eq hle,
      map_some]
  have hk : Kept hash { s with
      index := s.index.erase (n.record.hash, id)
      nodes := nodes2
      state := st1
      weight := s.weight - n.record.weight
      resident := update s.resident n.record.version false } (take q id) := by
    refine .of_table ?_ hs2 (fun j r hr => ?_) ?_ (ht1.capacity.trans h.capacity)
    · show Table hash _ _ (recordAt nodes2)
      rw [hrec]
      exact h.table.erase hself
    · obtain ⟨hj, hr⟩ := hsub.mp hr
      obtain ⟨m, hm, -⟩ := recordAt_some.mp hr
      exact (hqtake j).mpr ⟨h.linked j m hm, hj⟩
    · show s.weight - n.record.weight = st1.total_weight
      rw [h.weighed, hweight]
      omega
  refine ⟨_, hdetach, hk, ⟨ht1.policy, rfl, fun r => ?_, fun r hr => ?_, nodup_singleton _,
    Nat.sub_le _ _, fun j m' hm' => ?_⟩, fun v => ?_, ?_, ?_⟩
  · rw [holds_iff, holds_iff, mem_singleton]
    constructor
    · rintro ⟨j, hr⟩
      by_cases hj : j = id
      · rw [hj, hself] at hr
        exact .inr (some.inj hr).symm
      · exact .inl ⟨j, hsub.mpr ⟨hj, hr⟩⟩
    · rintro (⟨j, hr⟩ | rfl)
      · exact ⟨j, (hsub.mp hr).2⟩
      · exact ⟨id, hself⟩
  · rw [mem_singleton.mp hr, holds_iff]
    rintro ⟨j, hr⟩
    obtain ⟨hj, hr⟩ := hsub.mp hr
    exact hj (h.table.apart j id _ _ hr hself (.inr rfl))
  · exact recordAt_some.mp (hsub.mp (recordAt_some.mpr ⟨m', hm', rfl⟩)).2
  · rw [hk.pins_mem, h.pins_mem]
    constructor
    · rintro ⟨j, r, hr, hv, hq⟩
      obtain ⟨hj, hr⟩ := hsub.mp hr
      refine ⟨⟨j, r, hr, hv, (h.sound.toRep.mem_take.mp hq).1⟩, fun he => hj ?_⟩
      exact h.table.apart j id r _ hr hself (.inr (hv.trans he))
    · rintro ⟨⟨j, r, hr, hv, hq⟩, hne⟩
      have hj : j ≠ id := by
        rintro rfl
        cases hself.symm.trans hr
        exact hne hv.symm
      exact ⟨j, r, hsub.mpr ⟨hj, hr⟩, hv, h.sound.toRep.mem_take.mpr ⟨hq, hj⟩⟩
  · refine Slab.ids_length_lt (by rw [hn]; rfl) (by rw [hg2, if_pos rfl]) fun j hj => ?_
    obtain ⟨m', hm'⟩ := isSome_iff_exists.mp hj
    obtain ⟨m, hm, -⟩ := recordAt_some.mp (hsub.mp (recordAt_some.mpr ⟨m', hm', rfl⟩)).2
    rw [hm]
    rfl
  · show s.weight - n.record.weight + n.record.weight = s.weight
    rw [h.weighed, hweight]
    omega

/-! ## Trimming -/

/-- Where nothing is linked, nothing weighs. -/
theorem Kept.weight_zero (hq : ∀ x, ¬ Queued q x) : s.weight = 0 := by
  have hnil : chain q = [] := eq_nil_iff_forall_not_mem.mpr fun x hx => hq x (mem_chain.mp hx)
  rw [h.weighed, h.sound.total, hnil]
  rfl

/-- Trimming evicts until the shard fits or nothing can be evicted, and never a pinned version. -/
theorem Kept.trimming {fuel : Nat} (hf : s.nodes.ids.length < fuel) (removed : Removed K V P) :
    ∃ s' q' out, Shard.trimming fuel s removed = some
      (s', removed ++ out.map (fun r => (r, .Evicted))) ∧
      Kept hash s' q' ∧ Bounded s' q' ∧ Drops s s' out ∧
      (s.state.policy.pins = true → (∀ v, s'.Pins v ↔ s.Pins v) ∧ ∀ r ∈ out,
      ¬ s.Pins r.version) := by
  induction fuel generalizing s q removed with
  | zero => omega
  | succ _ ih =>
    unfold Shard.trimming
    by_cases hheavy : s.capacity < s.weight
    · rw [if_pos hheavy]
      obtain ⟨r, st1, nodes1, q1, h1, ht1, hq1, hfound, hpin1⟩ := h.sound.victim
      obtain ⟨hk1, hd1⟩ := h.turn ht1 hq1
      have hpins1 : s.state.policy.pins = true →
          ∀ v, Pins { s with state := st1, nodes := nodes1 } v ↔ s.Pins v := by
        intro hp v
        rw [hk1.pins_mem, h.pins_mem]
        simp only [ht1.record, hpin1 hp]
      rw [h1, bind_some]
      cases r with
      | none =>
        obtain ⟨h0, h1, h2⟩ := hfound.none_empty rfl
        refine ⟨_, q1, [], by simp, hk1, ?_, hd1, fun hp => ⟨hpins1 hp, fun r hr => by simp at hr⟩⟩
        cases hp : s.state.policy.pins with
        | true => exact .inr ⟨by rw [hd1.policy]; exact hp, h0, h1⟩
        | false =>
          refine .inl ?_
          rw [hk1.weight_zero fun x hx => ?_]
          · exact Nat.zero_le _
          · rw [queued_iff, h0, h1, h2 hp] at hx
            simp at hx
      | some id =>
        obtain ⟨hid, hnp⟩ := hfound.some_queued id rfl
        obtain ⟨n, hn⟩ := isSome_iff_exists.mp ((hk1.isSome_iff id).mpr hid)
        obtain ⟨s2, h2, hk2, hd2, hp2, hlen, -⟩ := hk1.detach hn
        have hle : nodes1.ids.length ≤ s.nodes.ids.length := Slab.ids_length_le fun j hj =>
          (h.isSome_iff j).mpr ((hq1 j).mp ((hk1.isSome_iff j).mp hj))
        obtain ⟨s3, q3, out, h3, hk3, hb3, hd3, hp3⟩ :=
          ih hk2 (by have : s2.nodes.ids.length < nodes1.ids.length := hlen; omega)
            (removed ++ [(n.record, .Evicted)])
        have hpol : s2.state.policy = s.state.policy := hd2.policy.trans hd1.policy
        refine ⟨s3, q3, n.record :: out, ?_, hk3, hb3, hd1.trans (hd2.trans hd3), fun hp => ?_⟩
        · simp only [h2, bind_some, h3, append_assoc, map_cons, cons_append,
            nil_append]
        · obtain ⟨hsame, hout⟩ := hp3 (by rw [hpol]; exact hp)
          have hvictim : ¬ s.Pins n.record.version := by
            rw [← hpins1 hp, hk1.pins_iff hn]
            exact hnp hp
          refine ⟨fun v => ?_, fun r hr hpin => ?_⟩
          · rw [hsame, hp2, hpins1 hp]
            exact ⟨fun hv => hv.1, fun hv => ⟨hv, fun he => hvictim (he ▸ hv)⟩⟩
          · rcases mem_cons.mp hr with rfl | hr
            · exact hvictim hpin
            · refine hout r hr ((hp2 _).mpr ⟨(hpins1 hp _).mpr hpin, fun he => ?_⟩)
              -- the record that is evicted later is not the one evicted now
              have hr2 := (hd3.held r).mpr (.inr hr)
              have hr1 := (hd2.held r).mpr (.inl hr2)
              rw [hk1.holds_inj hr1 (.of_get hn) (.inr he)] at hr2
              exact hd2.gone _ (mem_singleton_self _) hr2
    · rw [if_neg hheavy]
      exact ⟨s, q, [], by simp, h, .inl (Nat.le_of_not_lt hheavy), .refl,
        fun _ => ⟨fun _ => .rfl, fun r hr => by simp at hr⟩⟩

theorem Kept.trim (removed : Removed K V P) :
    ∃ s' q' out, s.trim removed = some (s', removed ++ out.map (fun r => (r, .Evicted))) ∧
      Kept hash s' q' ∧ Bounded s' q' ∧ Drops s s' out ∧
      (s.state.policy.pins = true → (∀ v, s'.Pins v ↔ s.Pins v) ∧ ∀ r ∈ out, ¬ s.Pins r.version) :=
  h.trimming (Nat.lt_succ_of_le s.nodes.ids_length_le_entries) removed

omit h

/-- A node that may be evicted: any node, but for LRU only one that is not pinned. -/
def Evictable (s : Shard K V P) (id : Nat) : Prop :=
  ∃ n, s.nodes.get id = some n ∧ (s.state.policy.pins = true → n.queue ≠ some 2)

theorem Kept.evictable (h : Kept hash s q) (id : Nat) :
    s.Evictable id ↔ Queued q id ∧ (s.state.policy.pins = true → id ∉ q 2) := by
  rw [← h.isSome_iff, isSome_iff_exists, Evictable, ← exists_and_right]
  refine exists_congr fun n => and_congr_right fun hn => forall_congr' fun _ => ?_
  rw [h.sound.queued, hn]
  simp

/-- Every policy finds a victim while there is one, every loop that moves or evicts nodes ends,
and trimming makes room. -/
theorem eviction_terminates_and_makes_room :
    (∀ (s : Shard K V P) q, Kept hash s q →
      (∃ r st nodes, s.state.victim s.nodes = some (r, st, nodes) ∧
        (r = none → ∀ id, ¬ s.Evictable id) ∧
        ∀ id, r = some id → s.Evictable id ∧ ∃ n, nodes.get id = some n ∧ n.queue ≠ none) ∧
      ∀ removed, ∃ s' removed', s.trim removed = some (s', removed') ∧ s'.capacity = s.capacity ∧
        (s'.weight ≤ s'.capacity ∨ s'.state.policy.pins = true ∧ ∀ id, ¬ s'.Evictable id)) ∧
    (∀ st (nodes : Nodes K V P) q id n, Sound st nodes q → nodes.get id = some n → n.queue = none →
      ∃ st' nodes', st.insert nodes id = some (st', nodes')) ∧
    ∀ st (nodes : Nodes K V P) q, Rep st nodes q → ∀ src dst limit, src ≠ dst →
      ∃ st' nodes', st.demote nodes src dst limit = some (st', nodes') ∧
        (st'.lists src).weight ≤ limit := by
  refine ⟨fun s q h => ⟨?_, fun removed => ?_⟩, fun st nodes q id n h hn hq => ?_,
    fun st nodes q h src dst limit hne => ?_⟩
  · obtain ⟨r, st, nodes, q', hv, ht, hq, hfound, hpin⟩ := h.sound.victim
    have hmem : s.state.policy.pins = true → ∀ id, id ∈ q' 2 ↔ id ∈ q 2 := fun hp id => by
      rw [hpin hp]
    refine ⟨r, st, nodes, hv, fun hr id hid => ?_, fun id hr => ?_⟩
    · obtain ⟨hin, hp2⟩ := (h.evictable id).mp hid
      obtain ⟨h0, h1, h2⟩ := hfound.none_empty hr
      rw [← hq, queued_iff, h0, h1] at hin
      have hin : id ∈ q' 2 := by simpa using hin
      cases hp : s.state.policy.pins with
      | true => exact hp2 hp ((hmem hp id).mp hin)
      | false =>
        rw [h2 hp] at hin
        cases hin
    · obtain ⟨hin, hp2⟩ := hfound.some_queued id hr
      refine ⟨(h.evictable id).mpr ⟨(hq id).mp hin, fun hp hm => hp2 hp ((hmem hp id).mpr hm)⟩, ?_⟩
      obtain ⟨i, hi⟩ := hin
      obtain ⟨n, hn, hqi⟩ := ht.sound.get hi
      exact ⟨n, hn, by rw [hqi]; nofun⟩
  · obtain ⟨s', q', out, ht, hk, hb, hd, -⟩ := h.trim removed
    refine ⟨s', _, ht, hd.capacity, hb.imp_right fun hl => ⟨hl.1, fun id hid => ?_⟩⟩
    obtain ⟨hp, h0, h1⟩ := hl
    obtain ⟨hin, hp2⟩ := (hk.evictable id).mp hid
    rw [queued_iff, h0, h1] at hin
    exact hp2 hp (by simpa using hin)
  · obtain ⟨st', nodes', -, hi, -⟩ := h.insert hn hq
    exact ⟨st', nodes', hi⟩
  · obtain ⟨st', nodes', -, hd, -, -, -, -, hw⟩ := h.demote src dst hne limit
    exact ⟨st', nodes', hd, hw⟩

end

end Shard

end moat_cache_memory
