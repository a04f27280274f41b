-- A commit under the shard's lock: the old version of the key goes first, whatever
-- becomes of the new one, and an insertion never makes a full shard heavier.
import Moat.MemoryShardOps

namespace moat_cache_memory

open checked slab links List Function Option

variable {K V P : Type}

namespace Shard

section

variable {hash : K → UInt64} {s s' : Shard K V P} {q q' : Fin 3 → List Nat} {record : Record K V P}

/-- The shard with the new version in a node of its own, before it is trimmed. -/
theorem Kept.enter (h : Kept hash s q) (hh : record.hash = hash record.key)
    (hnew : ∀ r, s.Holds r → r.key ≠ record.key ∧ r.version ≠ record.version)
    {id : Nat} {nodes1 : Nodes K V P} (hfresh : s.nodes.get id = none)
    (hget : ∀ j, nodes1.get j = if j = id then some ⟨record, none, none, none, 0⟩ else
    s.nodes.get j) :
    ∃ st2 nodes2 q2, s.state.insert nodes1 id = some (st2, nodes2) ∧
      st2.policy = s.state.policy ∧
      Kept hash { s with
        index := (record.hash, id) :: s.index
        nodes := nodes2
        state := st2
        weight := s.weight + record.weight
        resident := update s.resident record.version true } q2 ∧
      recordAt nodes2 = update (recordAt s.nodes) id (some record) ∧
      (s.state.policy.pins = true → ∀ x, x ∈ q2 2 ↔ x = id ∨ x ∈ q 2) := by
  have hout : ∀ i, id ∉ q i := fun i hi => by
    have := h.sound.isSome hi
    rw [hfresh] at this
    cases this
  have hs1 : Sound s.state nodes1 q := h.sound.frame hout (fun j hj => by rw [hget, if_neg hj])
    fun n hn => by
      rw [hget, if_pos rfl] at hn
      cases hn
      rfl
  have hid1 : nodes1.get id = some ⟨record, none, none, none, 0⟩ := by rw [hget, if_pos rfl]
  obtain ⟨st2, nodes2, q2, h2, ht2, hq2, hp2⟩ := hs1.insert hid1 rfl
  have hrec : recordAt nodes2 = update (recordAt s.nodes) id (some record) := by
    funext j
    rw [recordAt, ht2.record, hget]
    by_cases hj : j = id
    · rw [if_pos hj, hj, update_self]
      rfl
    · rw [if_neg hj, update_of_ne hj]
      rfl
  -- the new node adds its weight
  have hweight : st2.total_weight = s.state.total_weight + record.weight := by
    obtain ⟨m, hm, hr⟩ := recordAt_some.mp
      (show recordAt nodes2 id = some record by rw [hrec, update_self])
    rw [← hr, ← weightOf_some hm]
    refine h.sound.toRep.total_cons ht2.sound.toRep (fun hx => hx.elim hout) (fun x hx => ?_) hq2
    obtain ⟨i, hi⟩ := hx
    refine weightOf_congr (show recordAt nodes2 x = recordAt s.nodes x from ?_)
    rw [hrec, update_of_ne]
    rintro rfl
    exact hout i hi
  refine ⟨st2, nodes2, q2, h2, ht2.policy, .of_table ?_ ht2.sound (fun j r hr => ?_) ?_
    (ht2.capacity.trans h.capacity), hrec, hp2⟩
  · show Table hash _ _ (recordAt nodes2)
    rw [hrec]
    exact h.table.insert (by rw [recordAt, hfresh]; rfl) hh fun j r hr => hnew r
      (holds_iff.mpr ⟨j, hr⟩)
  · rw [show recordAt nodes2 = _ from hrec, update_eq_some] at hr
    rcases hr with ⟨hj, -⟩ | ⟨-, hr⟩
    · exact (hq2 j).mpr (.inl hj)
    · obtain ⟨m, hm, -⟩ := recordAt_some.mp hr
      exact (hq2 j).mpr (.inr (h.linked j m hm))
  · show s.weight + record.weight = st2.total_weight
    rw [hweight, h.weighed]

/-- Two versions of weight one and two. -/
def lightVersion : Record Nat Nat Nat := ⟨1, 1, 1, 1, 0, 1, .Normal⟩

def heavyVersion : Record Nat Nat Nat := ⟨2, 2, 2, 2, 0, 2, .Normal⟩

/-- Both of them in a shard of weight two, which is trimmed. -/
theorem two_versions_make_room :
    ∃ (s : Shard Nat Nat Nat) (q : Fin 3 → List Nat), Kept (fun _ => 0) s q ∧ s.capacity = 2 ∧
      s.weight = 3 ∧ ∃ s' removed, s.trim [] = some (s', removed) ∧ s'.weight ≤ 2 := by
  have hnew : Good (fun _ => 0) (Shard.new .Fifo 2 : Shard Nat Nat Nat) fun _ => [] :=
    new_good _ _ _ fun _ hc => by cases hc
  obtain ⟨st1, nodes1, q1, -, hpol1, hk1, hrec1, -⟩ :=
    hnew.toKept.enter (rfl : lightVersion.hash = 0) (fun r ⟨_, n, hn, _⟩ => by cases hn)
      ((Slab.new : Nodes Nat Nat Nat).get_fresh ⟨lightVersion, none, none, none, 0⟩)
      ((Slab.new : Nodes Nat Nat Nat).get_insert ⟨lightVersion, none, none, none, 0⟩)
  obtain ⟨st2, nodes2, q2, -, hpol2, hk2, -⟩ := hk1.enter (rfl : heavyVersion.hash = 0)
    (fun r hr => by
      obtain ⟨id, hid⟩ := holds_iff.mp hr
      rw [hrec1, update_eq_some] at hid
      rcases hid with ⟨-, hr⟩ | ⟨-, hr⟩
      · cases hr
        decide
      · cases hr)
    (nodes1.get_fresh ⟨heavyVersion, none, none, none, 0⟩)
    (nodes1.get_insert ⟨heavyVersion, none, none, none, 0⟩)
  refine ⟨_, q2, hk2, rfl, rfl, ?_⟩
  obtain ⟨s', removed, ht, hcap, hroom⟩ :=
    (eviction_terminates_and_makes_room.1 _ q2 hk2).2 []
  obtain ⟨s3, q3, out, ht3, -, -, hd3, -⟩ := hk2.trim []
  rw [ht] at ht3
  cases ht3
  refine ⟨s', _, ht, ?_⟩
  rcases hroom with hw | ⟨hpins, -⟩
  · rwa [hcap] at hw
  · rw [hd3.policy] at hpins
    rw [show st2.policy = .Fifo from hpol2.trans hpol1] at hpins
    cases hpins

/-- The new version of an insertion: where it ends up, and what leaves with which reason. -/
structure Settles (s s' : Shard K V P) (record : Record K V P) (out : Removed K V P) : Prop where
  books : Books s s' [record] out
  capacity : s'.capacity = s.capacity
  others : ∀ e ∈ out, e.1 ≠ record → e.2 = .Evicted
  own : ∀ e ∈ out, e.1 = record → e.2 = if s.state.policy.pins then .Rejected else .Evicted
  pins : s.state.policy.pins = true →
    (∀ v, s'.Pins v ↔ s'.Holds record ∧ v = record.version ∨ s.Pins v) ∧
    ∀ e ∈ out, e.1 ≠ record → ¬ s.Pins e.1.version

/-- An admitted version enters, evicts what does not fit, and goes again where LRU has nothing
left to evict. -/
theorem Good.settle (h : Good hash s q) (hh : record.hash = hash record.key)
    (hnew : ∀ r, s.Holds r → r.key ≠ record.key ∧ r.version ≠ record.version)
    (removed : Removed K V P) :
    ∃ s' q' out, s.settle record removed = some (s', removed ++ out) ∧ Good hash s' q' ∧
      Settles s s' record out := by
  obtain ⟨st2, nodes2, q2, h2, hpol2, hk2, hrec2, hp2⟩ := h.toKept.enter hh hnew
    (s.nodes.get_fresh ⟨record, none, none, none, 0⟩)
    (s.nodes.get_insert ⟨record, none, none, none, 0⟩)
  obtain ⟨s3, q3, out, h3, hk3, hb3, hd3, hp3⟩ := hk2.trim removed
  have hnot : ¬ s.Holds record := fun hr => (hnew record hr).2 rfl
  -- what is held and pinned before the trim
  generalize hid : (s.nodes.insert ⟨record, none, none, none, 0⟩).1 = id at *
  generalize hs2 : ({ s with
      index := (record.hash, id) :: s.index
      nodes := nodes2
      state := st2
      weight := s.weight + record.weight
      resident := update s.resident record.version true } : Shard K V P) = s2 at *
  have hnodes : s2.nodes = nodes2 := by rw [← hs2]
  have hpol : s2.state.policy = s.state.policy := by rw [← hs2]; exact hpol2
  have hcap : s2.capacity = s.capacity := by rw [← hs2]
  have hwt : s2.weight = s.weight + record.weight := by rw [← hs2]
  have hne : ∀ {j r}, recordAt s.nodes j = some r → j ≠ id := by
    rintro j r hr rfl
    rw [recordAt, ← hid, s.nodes.get_fresh] at hr
    cases hr
  have hheld2 : ∀ r, s2.Holds r ↔ s.Holds r ∨ r = record := by
    intro r
    rw [holds_iff, holds_iff, hnodes, hrec2]
    simp only [update_eq_some]
    constructor
    · rintro ⟨j, ⟨-, he⟩ | ⟨-, hj⟩⟩
      · exact .inr (some.inj he).symm
      · exact .inl ⟨j, hj⟩
    · rintro (⟨j, hj⟩ | rfl)
      · exact ⟨j, .inr ⟨hne hj, hj⟩⟩
      · exact ⟨id, .inl ⟨rfl, rfl⟩⟩
  have hpins2 : s.state.policy.pins = true → ∀ v, s2.Pins v ↔ v = record.version ∨ s.Pins v := by
    intro hp v
    rw [hk2.pins_mem, h.pins_mem, hnodes]
    simp only [show ∀ j, (nodes2.get j).map Node.record = _ from congrFun hrec2, update_eq_some,
      hp2 hp]
    constructor
    · rintro ⟨j, r, ⟨-, he⟩ | ⟨hj, hr⟩, hv, hx⟩
      · cases he
        exact .inl hv.symm
      · exact .inr ⟨j, r, hr, hv, hx.resolve_left hj⟩
    · rintro (rfl | ⟨j, r, hr, hv, hx⟩)
      · exact ⟨id, record, .inl ⟨rfl, rfl⟩, rfl, .inl rfl⟩
      · exact ⟨j, r, .inr ⟨hne hr, hr⟩, hv, .inr hx⟩
  have hown : ∀ r ∈ out, s.state.policy.pins = true → r ≠ record := by
    rintro r hr hp rfl
    exact (hp3 (by rw [hpol]; exact hp)).2 r hr ((hpins2 hp _).mpr (.inl rfl))
  have hunpinned : ∀ r ∈ out, s.state.policy.pins = true → ¬ s.Pins r.version := fun r hr hp hpin =>
    (hp3 (by rw [hpol]; exact hp)).2 r hr ((hpins2 hp _).mpr (.inr hpin))
  have hnopin : ¬ s.Pins record.version := by
    rintro ⟨j, n, hn, hv, -⟩
    exact (hnew _ (.of_get hn)).2 hv
  have hbooks3 := hd3.books .Evicted
  have hsettle : s.settle record removed =
      if s3.capacity < s3.weight ∧ s3.resident record.version = true then
        (s3.detach id).map fun p =>
          (p.2, (removed ++ out.map fun r => (r, .Evicted)) ++ [(p.1, .Rejected)])
      else some (s3, removed ++ out.map fun r => (r, .Evicted)) := by
    have hins : s.nodes.insert ⟨record, none, none, none, 0⟩ =
        (id, (s.nodes.insert ⟨record, none, none, none, 0⟩).2) := by rw [← hid]
    unfold Shard.settle
    rw [hins]
    simp only [h2, bind_some]
    rw [hs2, h3]
    rfl
  rw [hsettle]
  by_cases hlast : s3.capacity < s3.weight ∧ s3.resident record.version = true
  · -- only pinned entries are left: the new version goes again
    rw [if_pos hlast]
    obtain ⟨hp, h0, h1⟩ := hb3.resolve_left (Nat.not_le.mpr hlast.1)
    have hp : s.state.policy.pins = true := by rw [← hpol, ← hd3.policy]; exact hp
    obtain ⟨n, hn, hr⟩ : ∃ n, s3.nodes.get id = some n ∧ n.record = record := by
      obtain ⟨r, ⟨j, n, hn, rfl⟩, hv⟩ := (hk3.flags _).mp hlast.2
      obtain ⟨m, hm, hr⟩ := hd3.stays j n hn
      have hmr : update (recordAt s.nodes) id (some record) j = some m.record := by
        rw [← hrec2, ← hnodes]
        exact recordAt_some.mpr ⟨m, hm, rfl⟩
      rcases update_eq_some.mp hmr with ⟨rfl, he⟩ | ⟨-, hl⟩
      · exact ⟨n, hn, by rw [← hr, some.inj he]⟩
      · exact absurd (by rw [hr, hv]) (hnew _ (holds_iff.mpr ⟨j, hl⟩)).2
    obtain ⟨s4, h4, hg4, hd4, hp4, hw4⟩ := Good.detach ⟨hk3, hb3⟩ hn
    rw [hr] at h4 hd4 hp4 hw4
    have hbooks := (hd3.trans hd4)
    have hmap : (out.map (fun r => (r, RemovalReason.Evicted)) ++
      [(record, RemovalReason.Rejected)]).map Prod.fst =
        out ++ [record] := by
      rw [List.map_append, List.map_map]
      exact congrArg (· ++ [record]) (map_id _)
    refine ⟨s4, _, out.map (fun r => (r, .Evicted)) ++ [(record, .Rejected)],
      by simp only [h4, map_some, append_assoc], hg4,
      ⟨⟨hbooks.policy.trans hpol, ?_, ?_, ?_, ?_⟩, hbooks.capacity.trans hcap, ?_, ?_,
      fun _ => ⟨?_, ?_⟩⟩⟩
    · intro r
      rw [hmap, ← hbooks.held, hheld2, mem_singleton]
    · rw [hmap]
      exact hbooks.gone
    · rw [hmap]
      exact hbooks.nodup
    · have := hd3.lighter
      omega
    · intro e he hne
      rcases mem_append.mp he with he | he
      · exact evicted_reason e he
      · rw [mem_singleton] at he
        exact absurd (by rw [he]) hne
    · intro e he heq
      rw [if_pos hp]
      rcases mem_append.mp he with he | he
      · obtain ⟨r, hr', rfl⟩ := mem_map.mp he
        exact absurd heq (hown r hr' hp)
      · rw [mem_singleton] at he
        rw [he]
    · intro v
      have hgone : ¬ s4.Holds record := hd4.gone record (mem_singleton_self _)
      rw [hp4, (hp3 (by rw [hpol]; exact hp)).1, hpins2 hp]
      constructor
      · rintro ⟨hv | hv, hne⟩
        · exact absurd hv hne
        · exact .inr hv
      · rintro (⟨hv, -⟩ | hv)
        · exact absurd hv hgone
        · exact ⟨.inr hv, fun he => hnopin (he ▸ hv)⟩
    · intro e he hne
      rcases mem_append.mp he with he | he
      · obtain ⟨r, hr', rfl⟩ := mem_map.mp he
        exact hunpinned r hr' hp
      · rw [mem_singleton] at he
        exact absurd (by rw [he]) hne
  · rw [if_neg hlast]
    have hkeep : s.state.policy.pins = true → s3.Holds record := by
      intro hp
      rcases (hd3.held record).mp ((hheld2 record).mpr (.inr rfl)) with hr | hr
      · exact hr
      · exact absurd rfl (hown record hr hp)
    -- a shard that is still too heavy has pins, so the new version is among them
    have hfits : s3.weight ≤ s3.capacity := by
      rcases hb3 with hb | ⟨hp, -⟩
      · exact hb
      · by_contra hheavy
        refine hlast ⟨Nat.lt_of_not_le hheavy, (hk3.flags _).mpr ⟨record, hkeep ?_, rfl⟩⟩
        rw [← hpol, ← hd3.policy]
        exact hp
    refine ⟨s3, q3, out.map fun r => (r, .Evicted), rfl, ⟨hk3, hb3⟩,
      ⟨⟨hd3.policy.trans hpol, ?_, hbooks3.gone, hbooks3.nodup, ?_⟩, hd3.capacity.trans hcap, ?_,
      ?_,
        fun hp => ⟨?_, ?_⟩⟩⟩
    · intro r
      rw [← hbooks3.held, hheld2, mem_singleton]
      simp
    · rw [hd3.capacity, hcap] at hfits
      omega
    · exact fun e he _ => evicted_reason e he
    · intro e he heq
      obtain ⟨r, hr, rfl⟩ := mem_map.mp he
      have hp : s.state.policy.pins = false := by
        cases hp : s.state.policy.pins with
        | true => exact absurd heq (hown r hr hp)
        | false => rfl
      rw [if_neg (by rw [hp]; simp)]
    · intro v
      rw [(hp3 (by rw [hpol]; exact hp)).1, hpins2 hp]
      simp [hkeep hp]
    · intro e he _
      obtain ⟨r, hr, rfl⟩ := mem_map.mp he
      exact hunpinned r hr hp

/-! ## Commit -/

/-- What a commit does: the old version of the key is gone, and the new one is held or has left. -/
structure Commits (s s' : Shard K V P) (record : Record K V P) (admitted : Bool)
    (removed : Removed K V P) : Prop where
  books : Books s s' [record] removed
  capacity : s'.capacity = s.capacity
  fresh : ∀ r, s'.Holds r → r.key = record.key → r = record
  refused : admitted = false ∨ s.capacity < record.weight → ¬ s'.Holds record
  replaced : ∀ e ∈ removed, e.1 ≠ record → e.1.key = record.key → e.2 = .Replaced
  evicted : ∀ e ∈ removed, e.1.key ≠ record.key → e.2 = .Evicted
  own : ∀ e ∈ removed, e.1 = record → e.2 = .Rejected ∨
    e.2 = .Evicted ∧ admitted = true ∧ record.weight ≤ s.capacity ∧ s.state.policy.pins = false
  pins : s.state.policy.pins = true →
    Repins s s' (fun v => v = record.version) (fun _ => False) removed

/-- The old version has gone, and then the new one is held or has left. -/
theorem Drops.commits {s1 : Shard K V P} {old : List (Record K V P)} {out : Removed K V P}
    {admitted : Bool} (h : Kept hash s q) (hnew : ∀ r, s.Holds r → r.version ≠ record.version)
    (hd : Drops s s1 old) (hkey : ∀ r, s1.Holds r → r.key ≠ record.key)
    (hold : ∀ r ∈ old, r.key = record.key)
    (hp : ∀ v, s1.Pins v ↔ s.Pins v ∧ ∀ r ∈ old, r.version ≠ v) (hb : Books s1 s' [record] out)
    (hc : s'.capacity = s1.capacity) (hothers : ∀ e ∈ out, e.1 ≠ record → e.2 = .Evicted)
    (hrefused : admitted = false ∨ s.capacity < record.weight → ¬ s'.Holds record)
    (hown : ∀ e ∈ out, e.1 = record → e.2 = .Rejected ∨
      e.2 = .Evicted ∧ admitted = true ∧ record.weight ≤ s.capacity ∧ s.state.policy.pins = false)
    (hpins : s.state.policy.pins = true →
      (∀ v, s'.Pins v ↔ s'.Holds record ∧ v = record.version ∨ s1.Pins v) ∧
      ∀ e ∈ out, e.1 ≠ record → ¬ s1.Pins e.1.version) :
    Commits s s' record admitted (old.map (fun r => (r, .Replaced)) ++ out) := by
  have hfst : (old.map fun r => (r, RemovalReason.Replaced)).map Prod.fst = old := by
    rw [List.map_map]
    exact map_id _
  have hheld1 : ∀ r, s1.Holds r → s.Holds r := fun r hr => (hd.held r).mpr (.inl hr)
  have hfresh : record ∉ old := fun hr => hnew record ((hd.held record).mpr (.inr hr)) rfl
  -- a version that is still held was not replaced
  have hstill : ∀ {v r}, s1.Holds r → r.version = v → ∀ r' ∈ old, r'.version ≠ v := by
    intro v r hr hv r' hr' hv'
    have heq := h.holds_inj (hheld1 r hr) ((hd.held r').mpr (.inr hr')) (.inr (hv.trans hv'.symm))
    exact hd.gone r' hr' (heq ▸ hr)
  -- who is evicted was held beside the old version
  have houtheld : ∀ e ∈ out, e.1 ≠ record → s1.Holds e.1 := by
    intro e he hne
    rcases (hb.held e.1).mpr (.inr (mem_map_of_mem he)) with hr | hr
    · exact hr
    · exact absurd (mem_singleton.mp hr) hne
  have holdkey : ∀ e ∈ old.map (fun r => (r, RemovalReason.Replaced)),
      e.1.key = record.key ∧ e.2 = .Replaced ∧ e.1 ≠ record := by
    intro e he
    obtain ⟨r, hr, rfl⟩ := mem_map.mp he
    exact ⟨hold r hr, rfl, fun he => hfresh (he ▸ hr)⟩
  refine ⟨⟨hb.policy.trans hd.policy, ?_, ?_, ?_, ?_⟩, hc.trans hd.capacity, ?_, hrefused, ?_, ?_,
    ?_,
    fun hpin => ⟨?_, ?_⟩⟩
  · intro r
    rw [map_append, mem_append, hfst, hd.held, or_right_comm, hb.held]
    tauto
  · intro r hr hheld
    rw [map_append, mem_append, hfst] at hr
    rcases hr with hr | hr
    · rcases (hb.held r).mpr (.inl hheld) with hr1 | hr1
      · exact hd.gone r hr hr1
      · exact hfresh (mem_singleton.mp hr1 ▸ hr)
    · exact hb.gone r hr hheld
  · rw [map_append, hfst]
    refine nodup_append.mpr ⟨hd.nodup, hb.nodup, fun a ha b hb' he => ?_⟩
    subst he
    rcases (hb.held a).mpr (.inr hb') with hr | hr
    · exact hd.gone a ha hr
    · exact hfresh (mem_singleton.mp hr ▸ ha)
  · have hw := hb.weight
    have hl := hd.lighter
    rw [hd.capacity] at hw
    omega
  · intro r hr hk
    rcases (hb.held r).mpr (.inl hr) with hr1 | hr1
    · exact absurd hk (hkey r hr1)
    · exact mem_singleton.mp hr1
  · intro e he hne hk
    rcases mem_append.mp he with he | he
    · exact (holdkey e he).2.1
    · exact absurd hk (hkey _ (houtheld e he hne))
  · intro e he hk
    rcases mem_append.mp he with he | he
    · exact absurd (holdkey e he).1 hk
    · exact hothers e he fun heq => hk (by rw [heq])
  · intro e he heq
    rcases mem_append.mp he with he | he
    · exact absurd heq (holdkey e he).2.2
    · exact hown e he heq
  · intro v
    rw [(hpins hpin).1, hp]
    constructor
    · rintro (⟨hr, rfl⟩ | hv)
      · exact ⟨.inl rfl, record, hr, rfl⟩
      · exact ⟨.inr ⟨hv.1, id⟩, (((hpins hpin).1 v).mpr (.inr ((hp v).mpr hv))).held⟩
    · rintro ⟨hwhich, r, hr, hv⟩
      rcases (hb.held r).mpr (.inl hr) with hr1 | hr1
      · rcases hwhich with rfl | ⟨hpin, -⟩
        · exact absurd hv (hnew r (hheld1 r hr1))
        · exact .inr ⟨hpin, hstill hr1 hv⟩
      · rw [mem_singleton.mp hr1] at hr hv
        exact .inl ⟨hr, hv.symm⟩
  · intro e he hev hpin'
    rcases mem_append.mp he with he | he
    · rw [(holdkey e he).2.1] at hev
      cases hev
    · by_cases heq : e.1 = record
      · obtain ⟨j, n, hn, hnv, -⟩ := hpin'
        exact hnew _ (.of_get hn) (hnv.trans (by rw [heq]))
      · exact (hpins hpin).2 e he heq ((hp _).mpr ⟨hpin', hstill (houtheld e he heq) rfl⟩)

variable [DecidableEq K]

/-- The old version of the key is taken out first. -/
theorem Good.replace (h : Good hash s q) (hh : record.hash = hash record.key) :
    ∃ s' q' out, s.replace record = some (s', out.map fun r => (r, .Replaced)) ∧ Good hash s' q' ∧
      Drops s s' out ∧ (∀ r, s'.Holds r → r.key ≠ record.key) ∧ (∀ r ∈ out, r.key = record.key) ∧
      ∀ v, s'.Pins v ↔ s.Pins v ∧ ∀ r ∈ out, r.version ≠ v := by
  unfold Shard.replace
  rw [hh]
  cases hf : s.find (hash record.key) record.key with
  | none =>
    exact ⟨s, q, [], rfl, h, .refl, fun r hr => h.find_none hf hr, fun r hr => by simp at hr,
      fun v => by simp⟩
  | some =>
    obtain ⟨n, hn, hk⟩ := find_some hf
    obtain ⟨s1, h1, hg1, hd1, hp1, -⟩ := h.detach hn
    refine ⟨s1, _, [n.record], by simp only [h1, map_some, map_cons, map_nil], hg1, hd1,
      ?_, by simpa using hk, fun v => by rw [hp1]; simp [eq_comm]⟩
    exact fun r hr hkey => h.apart_of_drops hn hd1 hr (.inl (hkey.trans hk.symm))

/-- A commit of a version that was never resident. -/
theorem Good.commit (h : Good hash s q) (hh : record.hash = hash record.key)
    (hnew : ∀ r, s.Holds r → r.version ≠ record.version) (admitted : Bool) :
    ∃ s' q' removed, s.commit record admitted = some (s', removed) ∧ Good hash s' q' ∧
      Commits s s' record admitted removed := by
  obtain ⟨s1, q1, old, h1, hg1, hd1, hkey1, hold1, hp1⟩ := h.replace hh
  have hnew1 : ∀ r, s1.Holds r → r.key ≠ record.key ∧ r.version ≠ record.version := fun r hr =>
    ⟨hkey1 r hr, hnew r ((hd1.held r).mpr (.inl hr))⟩
  unfold Shard.commit
  rw [h1, bind_some]
  simp only
  by_cases hdoor : admitted = true ∧ record.weight ≤ s1.capacity ∧
    s1.weight + record.weight < 2 ^ 64
  · rw [if_pos hdoor]
    obtain ⟨s2, q2, out, h2, hg2, hset⟩ := hg1.settle hh hnew1 (old.map fun r => (r, .Replaced))
    refine ⟨s2, q2, _, h2, hg2, hd1.commits h.toKept hnew hkey1 hold1 hp1 hset.books hset.capacity
      hset.others ?_ (fun e he heq => ?_) fun hp => hset.pins (by rw [hd1.policy]; exact hp)⟩
    · have hw := hdoor.2.1
      rw [hd1.capacity] at hw
      rintro (ha | hw')
      · rw [hdoor.1] at ha
        cases ha
      · omega
    · have hown := hset.own e he heq
      rw [hd1.policy] at hown
      cases hp : s.state.policy.pins with
      | true =>
        rw [hp] at hown
        exact .inl hown
      | false =>
        rw [hp] at hown
        exact .inr ⟨hown, hdoor.1, hd1.capacity ▸ hdoor.2.1, rfl⟩
  · rw [if_neg hdoor]
    have hnot : ¬ s1.Holds record := fun hr => (hnew1 record hr).2 rfl
    refine ⟨s1, q1, _, rfl, hg1, hd1.commits h.toKept hnew hkey1 hold1 hp1
      ⟨rfl, fun r => by simp, by simpa using hnot, by simp, Nat.le_max_right _ _⟩ rfl
      (fun e he hne => ?_) (fun _ => hnot) (fun e he _ => ?_)
      fun _ => ⟨fun v => by simp [hnot], fun e he hne => ?_⟩⟩
    · exact absurd (by rw [mem_singleton.mp he]) hne
    · exact .inl (by rw [mem_singleton.mp he])
    · exact absurd (by rw [mem_singleton.mp he]) hne

end

end Shard

end moat_cache_memory
