-- The steps of the memory cache: no action panics, every shard stays in order, a
-- lookup finds the newest version or nothing, and a version that leaves is due for
-- one notification, with the reason of the step that ended its residency.
import Moat.MemoryTraces

namespace moat_cache_memory

open slab List Function Option

variable {K V P : Type} {s s' : Shard K V P}

namespace Whole

variable [DecidableEq K] {b : Builder K V P} {c c' : Cache K V P} {act : Act K V P} (h : Whole b c)
include h

/-- A step that takes no lock. Whoever leaves was not let in. -/
theorem unlocked {seen : List (Event K)} (hact : ∀ v, ¬ UnpinnedBy c act v)
    (hshards : c'.shards = c.shards) (hrecords : c'.records = c.records)
    (hprepared : ∀ v, (c'.prepared v).isSome = true → (c.prepared v).isSome = true)
    (hout : (leavers seen).map Prod.fst = offered seen) (honce : (offered seen).Nodup)
    (hoffers : ∀ v ∈ offered seen, (c.prepared v).isSome = true ∧ c'.prepared v = none)
    (hpinned : ∀ v, ¬ PinnedBy seen v) (hlatest : ∀ k x, latest (shardOf b) k x seen = x)
    (htally : (waiting c' ++ notices seen).Perm (waiting c ++ leavers seen))
    (hbecause : ∀ v reason, (v, reason) ∈ leavers seen →
      reason = .Rejected ∧ Because b c act v reason) : Steps b c act c' seen := by
  have hres : ∀ v, Resident c' v ↔ Resident c v := fun v => by rw [Resident, Resident, hshards]
  refine ⟨⟨by rw [hshards, hrecords]; exact h.placed, fun v hv => ?_⟩, fun v => ?_, fun v hv => ?_,
    hout ▸ honce, hoffers, fun v hv => .inl (hprepared v hv), by rw [hrecords],
    fun v r hr => hrecords ▸ hr, htally, fun v reason hv => (hbecause v reason hv).2, ?_, ?_,
    weight_same hshards, fun _ => pins_same hshards hact hpinned, fun _ v hv => ?_⟩
  · rw [hrecords, hres]
    exact h.fresh v (hprepared v hv)
  · rw [hres, hout]
  · rw [hres]
    exact (h.fresh v (hoffers v (hout ▸ hv)).1).2
  · intro m hm r hr
    rw [hlatest]
    rw [hshards] at hr
    exact hm r hr
  · rintro pre k v post rfl
    exact absurd ⟨k, .inr (by simp)⟩ (hpinned v)
  · cases (hbecause v _ hv).1

/-- A step that takes no lock and shows nothing. -/
theorem quiet (hact : ∀ v, act ≠ .release v) (hshards : c'.shards = c.shards)
    (hrecords : c'.records = c.records) (hpending : c'.pending = c.pending)
    (hprepared : ∀ v, (c'.prepared v).isSome = true → (c.prepared v).isSome = true) :
    Steps b c act c' [] :=
  h.unlocked (fun v hv => hact v hv.1) hshards hrecords hprepared rfl nodup_nil nofun
    not_pinnedBy_nil (fun _ _ => rfl) (by rw [waiting, waiting, hpending]; exact .refl _)
    nofun

/-- A step that runs a section on a shard. `lead` is what is seen of it beside who leaves. -/
theorem steps (lead : List (Event K)) {i : Nat}
    {q : Fin 3 → List Nat} {new : List (Record K V P)} {removed : Removed K V P}
    (hi : c.shards[i]? = some s) (hg : s'.Good b.hash q) (hb : Shard.Books s s' new removed)
    (hnew : ∀ r ∈ new, r.hash.toNat % b.shards = i ∧ c.records[r.version]? = some r ∧
      (c.prepared r.version).isSome = true ∧ c'.prepared r.version = none)
    (hshards : c'.shards = c.shards.set i s') (hrecords : c'.records = c.records)
    (hprepared : ∀ v, (c'.prepared v).isSome = true → (c.prepared v).isSome = true)
    (hwaiting : waiting c' = waiting c ++ removed.map fun e => (e.1.version, e.2))
    (hoffer : offered lead = new.map Record.version) (hleave : leavers lead = [])
    (hnotice : notices lead = [])
    (hbecause : ∀ e ∈ removed, c.records[e.1.version]? = some e.1 → Because b c act e.1.version e.2)
    (hnewest : ∀ m : K → Option Nat, (∀ r, Held c.shards r → m r.key = some r.version) →
      ∀ r, Held c'.shards r → latest (shardOf b) r.key (m r.key) lead = some r.version)
    (hgot : ∀ pre k v post, lead = pre ++ .got k (some v) :: post →
      pre = [] ∧ ∃ r, Held c.shards r ∧ r.key = k ∧ r.version = v)
    (hpins : b.policy.pins = true → Shard.Repins s s' (PinnedBy lead) (UnpinnedBy c act) removed)
    (hlocal : ∀ v, PinnedBy lead v ∨ UnpinnedBy c act v →
      ∃ r, c.records[v]? = some r ∧ r.hash.toNat % b.shards = i) :
    Steps b c act c' (lead ++ Cache.leaves removed) := by
  obtain ⟨hplaced, hheld, hgone⟩ := h.placed.set hi hg hb fun r hr =>
    ⟨(hnew r hr).1, (hnew r hr).2.1⟩
  rw [← hshards] at hplaced hheld hgone
  have hoffered : offered (lead ++ Cache.leaves removed) = new.map Record.version := by
    rw [offered_append, offered_leaves, append_nil, hoffer]
  have hleavers : leavers (lead ++ Cache.leaves removed) = removed.map fun e =>
    (e.1.version, e.2) := by
    rw [leavers_append, leavers_leaves, hleave, nil_append]
  have hversions : (leavers (lead ++ Cache.leaves removed)).map Prod.fst =
      (removed.map Prod.fst).map Record.version := by
    rw [hleavers, List.map_map, List.map_map]
    rfl
  have hbooks : ∀ v, (Resident c v ∨ v ∈ new.map Record.version) ↔
      (Resident c' v ∨ v ∈ (removed.map Prod.fst).map Record.version) := by
    intro v
    have hiff : ∀ (held : Record K V P → Prop) (l : List (Record K V P)),
        ((∃ r, held r ∧ r.version = v) ∨ v ∈ l.map Record.version) ↔
          ∃ r, (held r ∨ r ∈ l) ∧ r.version = v := by
      intro held l
      simp only [List.mem_map, or_and_right, exists_or]
    rw [Resident, Resident, hiff, hiff]
    simp only [hheld]
  have hrecorded : ∀ {r r' : Record K V P}, c.records[r.version]? = some r →
      c.records[r'.version]? = some r' → r.version = r'.version → r = r' := by
    intro r r' hr hr' hv
    rw [hv, hr'] at hr
    exact (some.inj hr).symm
  have hgonev : ∀ v ∈ (removed.map Prod.fst).map Record.version, ¬ Resident c' v := by
    rintro v hv ⟨r', hr', hv'⟩
    obtain ⟨r, hr, rfl⟩ := mem_map.mp hv
    obtain ⟨hnot, hrec⟩ := hgone r hr
    obtain ⟨j, t, hj, ht⟩ := hr'
    have hrec' := (hplaced.held j t r' hj ht).2
    exact hnot (hrecorded hrec' hrec hv' ▸ ⟨j, t, hj, ht⟩)
  refine ⟨⟨by rw [hrecords]; exact hplaced, fun v hv => ?_⟩, ?_, ?_, ?_, ?_, fun v hv => .inl
    (hprepared v hv),
    by rw [hrecords], fun v r hr => hrecords ▸ hr, ?_, ?_, ?_, ?_, ?_, fun hp v => ?_,
    fun hp v hv hpin => ?_⟩
  · obtain ⟨hlt, hnot⟩ := h.fresh v (hprepared v hv)
    rw [hrecords]
    refine ⟨hlt, fun hres => ?_⟩
    rcases (hbooks v).mpr (.inl hres) with hold | hold
    · exact hnot hold
    · obtain ⟨r, hr, rfl⟩ := mem_map.mp hold
      rw [(hnew r hr).2.2.2] at hv
      cases hv
  · intro v
    rw [hoffered, hversions]
    exact hbooks v
  · rw [hversions]
    exact hgonev
  · rw [hversions]
    exact hb.nodup.map_on fun r hr r' hr' hv => hrecorded (hgone r hr).2 (hgone r' hr').2 hv
  · intro v hv
    rw [hoffered] at hv
    obtain ⟨r, hr, rfl⟩ := mem_map.mp hv
    exact (hnew r hr).2.2
  · rw [notices_append, notices_leaves, hnotice, append_nil, append_nil, hleavers, hwaiting]
  · intro v reason hv
    rw [hleavers] at hv
    obtain ⟨e, he, heq⟩ := mem_map.mp hv
    cases heq
    exact hbecause e he (hgone e.1 (mem_map_of_mem he)).2
  · intro m hm r hr
    rw [latest_append, latest_leaves]
    exact hnewest m hm r hr
  · intro pre k v post he
    rcases append_eq_append_iff.mp he with ⟨c1, hpre, hrest⟩ | ⟨c1, hpre, hrest⟩
    · -- who leaves is not a lookup
      have hmem : Event.got k (some v) ∈ Cache.leaves removed := by rw [hrest]; simp
      obtain ⟨e, -, hee⟩ := mem_map.mp hmem
      cases hee
    · cases c1 with
      | nil =>
        have hmem : Event.got k (some v) ∈ Cache.leaves removed := by
          rw [← nil_append (Cache.leaves removed), ← hrest]
          exact mem_cons_self
        obtain ⟨e, -, hee⟩ := mem_map.mp hmem
        cases hee
      | cons e c1 =>
        obtain ⟨rfl, -⟩ : e = .got k (some v) ∧ _ := by simpa using hrest.symm
        exact hgot pre k v c1 hpre
  · intro j t t' hj hj'
    rw [hshards] at hj'
    by_cases hji : j = i
    · subst hji
      rw [List.getElem?_set_self (List.getElem?_eq_some_iff.mp hi).1] at hj'
      rw [hi] at hj
      cases hj
      cases hj'
      exact hb.weight
    · rw [List.getElem?_set_ne (Ne.symm hji), hj] at hj'
      cases hj'
      exact Nat.le_max_right _ _
  · rw [pinnedBy_leaves]
    exact h.placed.repins hplaced hi hshards (hpins hp) hlocal v
  · rw [hleavers] at hv
    obtain ⟨e, he, heq⟩ := mem_map.mp hv
    obtain ⟨rfl, hev⟩ := Prod.mk.inj heq
    have hpli : e.1.hash.toNat % b.shards = i := by
      rcases (hb.held e.1).mpr (.inr (mem_map_of_mem he)) with ho | ho
      · exact (h.placed.held i s e.1 hi ho).1
      · exact (hnew e.1 ho).1
    exact (hpins hp).evicted e he hev
      (h.placed.pins_here hi (hgone e.1 (mem_map_of_mem he)).2 hpli hpin)

/-- A commit, or an admitted promotion. -/
theorem commit_entry {record : Record K V P} {admitted : Bool}
    (hp : c.prepared record.version = some admitted) (hr : c.records[record.version]? = some record)
    (hact : act = .commit record.version ∨ act = .promote record.version) :
    ∃ c' : Cache K V P, ∃ removed : Removed K V P, c.commit_entry b record admitted =
        some (c', .committed record.key record.version :: Cache.leaves removed) ∧
      Steps b c act c' (.committed record.key record.version :: Cache.leaves removed) := by
  obtain ⟨-, hhash⟩ := h.placed.recorded _ _ hr
  obtain ⟨s, hi⟩ := h.placed.get record.hash
  obtain ⟨⟨q, hg⟩, hpol⟩ := h.placed.good _ _ hi
  have hnot : ¬ Resident c record.version := (h.fresh _ (by rw [hp]; rfl)).2
  obtain ⟨s', q', removed, hcommit, hg', hc⟩ := hg.commit hhash
    (fun r hs hv => hnot ⟨r, ⟨_, s, hi, hs⟩, hv⟩) admitted
  have hlock := locked_eq (fun s => s.commit record admitted) hi hcommit
  refine ⟨_, _, by rw [Cache.commit_entry, Cache.shard, hlock]; rfl, ?_⟩
  generalize hc1 : ({ c with
      shards := c.shards.set (record.hash.toNat % c.shards.length) s'
      pending := c.pending ++ [removed]
      prepared := update c.prepared record.version none } : Cache K V P) = c1
  obtain ⟨hf1, hf2, hf3, hf4⟩ := acquire_fields c1 b record.version
  have hkey : keyOf c record.version = some record.key := by rw [keyOf, hr]; rfl
  have hshards : (c1.acquire b record.version).shards = c.shards.set
    (record.hash.toNat % c.shards.length) s' := by
    rw [hf1, ← hc1]
  have hpin : ∀ v, PinnedBy [Event.committed record.key record.version] v ↔ v = record.version := by
    intro v
    simp [PinnedBy]
  have hun : ∀ v, UnpinnedBy c act v ↔ False := by
    intro v
    refine ⟨?_, False.elim⟩
    rintro ⟨rfl, -⟩
    rcases hact with ha | ha <;> cases ha
  refine h.steps [.committed record.key record.version] hi hg' hc.books ?_ hshards ?_ ?_
    (waiting_concat c removed ?_) rfl rfl rfl ?_ ?_ ?_ (fun hpins => ?_) fun v hv => ?_
  · intro r hr'
    rw [mem_singleton] at hr'
    rw [hr', hf3, ← hc1]
    exact ⟨by rw [h.placed.count], hr, by rw [hp]; rfl, update_self ..⟩
  · rw [hf2, ← hc1]
  · intro v hv
    rw [hf3, ← hc1] at hv
    by_cases he : v = record.version
    · rw [he, hp]
      rfl
    · simp only [update_of_ne he] at hv
      exact hv
  · rw [hf4, ← hc1]
  · intro e he hrec
    have hekey : keyOf c e.1.version = some e.1.key := by rw [keyOf, hrec]; rfl
    by_cases heq : e.1 = record
    · rcases hc.own e he heq with hrej | ⟨hev, -, -, hpins⟩
      · rw [hrej, heq]
        exact hact
      · rw [hev, heq]
        exact .inl
          ⟨record.version, hact, fun _ => by rw [← hpol]; exact hpins, fun hne => absurd rfl hne⟩
    · have hne : record.version ≠ e.1.version := by
        intro hv
        rw [← hv, hr] at hrec
        exact heq (some.inj hrec).symm
      by_cases hk : e.1.key = record.key
      · rw [hc.replaced e he heq hk]
        exact ⟨record.version, hact, hne, by rw [hkey, hekey, hk]⟩
      · rw [hc.evicted e he hk]
        refine .inl ⟨record.version, hact, fun hv => absurd hv hne, fun _ hkk => hk ?_⟩
        rw [hkey, hekey] at hkk
        exact (some.inj hkk).symm
  · intro m hm r hheld
    simp only [latest]
    split
    · rename_i hk
      -- only the committed version of the key is left
      rw [hshards] at hheld
      obtain ⟨j, t, hj, ht⟩ := hheld
      have hlt := (List.getElem?_eq_some_iff.mp hi).1
      by_cases hji : j = record.hash.toNat % c.shards.length
      · rw [hji, List.getElem?_set_self hlt] at hj
        cases hj
        rw [hc.fresh r ht hk.symm]
      · rw [List.getElem?_set_ne (Ne.symm hji)] at hj
        obtain ⟨hpl, hrec⟩ := h.placed.held j t r hj ht
        obtain ⟨-, hrh⟩ := h.placed.recorded _ _ hrec
        rw [hrh, ← hk, ← hhash, ← h.placed.count] at hpl
        exact absurd hpl.symm hji
    · rename_i hk
      refine hm r ?_
      obtain ⟨-, hheld', -⟩ := h.placed.set hi hg' hc.books fun r' hr' => by
        rw [mem_singleton] at hr'
        rw [hr', h.placed.count]
        exact ⟨rfl, hr⟩
      rw [hshards] at hheld
      rcases (hheld' r).mpr (.inl hheld) with ho | ho
      · exact ho
      · rw [mem_singleton] at ho
        exact absurd (by rw [ho]) hk
  · intro pre k v post he
    rcases pre with _ | ⟨e, pre⟩ <;> simp at he
  · have hr := hc.pins (by rw [hpol]; exact hpins)
    exact hr.congr hpin hun
  · rcases hv with hv | hv
    · rw [(hpin v).mp hv, ← h.placed.count]
      exact ⟨record, hr, rfl⟩
    · exact absurd hv (hun v).mp

/-- A promotion that is not admitted touches no shard. -/
theorem decline {v : Nat} {record : Record K V P} (hp : c.prepared v = some false)
    (hr : c.records[v]? = some record) :
    Steps b c (.promote v) (Cache.acquire { c with
      prepared := update c.prepared v none
      pending := c.pending ++ [[(record, .Rejected)]] } b v) [.declined v, .left v .Rejected] := by
  generalize hc1 : ({ c with
    prepared := update c.prepared v none
    pending := c.pending ++ [[(record, .Rejected)]] } : Cache K V P) = c1
  obtain ⟨hf1, hf2, hf3, hf4⟩ := acquire_fields c1 b v
  have hprep : ∀ w, ((c1.acquire b v).prepared w).isSome = true →
      (c.prepared w).isSome = true ∧ w ≠ v := by
    intro w hw
    rw [hf3, ← hc1] at hw
    by_cases he : w = v
    · simp [he] at hw
    · simp only [update_of_ne he] at hw
      exact ⟨hw, he⟩
  refine h.unlocked (fun w hw => by cases hw.1) (by rw [hf1, ← hc1]) (by rw [hf2, ← hc1])
    (fun w hw => (hprep w hw).1) rfl (nodup_singleton v) (fun w hw => ?_) (fun w hw => ?_)
    (fun _ _ => rfl) ?_ (fun w reason hw => ?_)
  · obtain rfl : w = v := by simpa [offered] using hw
    refine ⟨by rw [hp]; rfl, ?_⟩
    rw [hf3, ← hc1]
    exact update_self ..
  · simp [PinnedBy] at hw
  · rw [waiting_concat c [(record, .Rejected)] (by rw [hf4, ← hc1])]
    simp [notices, leavers, (h.placed.recorded v record hr).1]
  · obtain ⟨rfl, rfl⟩ : w = v ∧ reason = .Rejected := by simpa [leavers] using hw
    exact ⟨rfl, .inr rfl⟩

/-- A section that only takes versions out. -/
theorem takes (lead : List (Event K)) {i : Nat}
    {q : Fin 3 → List Nat} {removed : Removed K V P} (hi : c.shards[i]? = some s)
    (hg : s'.Good b.hash q) (hb : Shard.Books s s' [] removed)
    (hshards : c'.shards = c.shards.set i s') (hrecords : c'.records = c.records)
    (hprepared : c'.prepared = c.prepared)
    (hwaiting : waiting c' = waiting c ++ removed.map fun e => (e.1.version, e.2))
    (hlead : offered lead = [] ∧ leavers lead = [] ∧ notices lead = [])
    (hbecause : ∀ e ∈ removed, c.records[e.1.version]? = some e.1 → Because b c act e.1.version e.2)
    (hnewest : ∀ r, Held c'.shards r → ∀ newest, latest (shardOf b) r.key newest lead = newest)
    (hgot : ∀ pre k v post, lead = pre ++ .got k (some v) :: post →
      pre = [] ∧ ∃ r, Held c.shards r ∧ r.key = k ∧ r.version = v)
    (hpins : b.policy.pins = true → Shard.Repins s s' (PinnedBy lead) (UnpinnedBy c act) removed)
    (hlocal : ∀ v, PinnedBy lead v ∨ UnpinnedBy c act v →
      ∃ r, c.records[v]? = some r ∧ r.hash.toNat % b.shards = i) :
    Steps b c act c' (lead ++ Cache.leaves removed) := by
  refine h.steps lead hi hg hb (fun r hr => by simp at hr) hshards hrecords
    (fun v hv => hprepared ▸ hv)
    hwaiting hlead.1 hlead.2.1 hlead.2.2 hbecause (fun m hm r hr => ?_) hgot hpins hlocal
  rw [hnewest r hr]
  obtain ⟨-, hheld, -⟩ := h.placed.set hi hg hb fun r hr => by simp at hr
  rw [hshards] at hr
  rcases (hheld r).mpr (.inl hr) with ho | ho
  · exact hm r ho
  · simp at ho

omit [DecidableEq K] in
/-- What is held after a section on one shard is in that shard, or belongs to another. -/
theorem held_set {i : Nat} {r : Record K V P}
    (hi : c.shards[i]? = some s) (hr : Held (c.shards.set i s') r) :
    s'.Holds r ∨ shardOf b r.key ≠ i := by
  obtain ⟨j, t, hj, ht⟩ := hr
  by_cases hji : j = i
  · rw [hji, List.getElem?_set_self (List.getElem?_eq_some_iff.mp hi).1] at hj
    cases hj
    exact .inl ht
  · rw [List.getElem?_set_ne (Ne.symm hji)] at hj
    obtain ⟨hpl, hrec⟩ := h.placed.held j t r hj ht
    rw [(h.placed.recorded _ _ hrec).2] at hpl
    exact .inr (fun hk => hji (hpl.symm.trans hk))

/-- Every action is a step: it does not panic, and does what it shows. -/
theorem act_steps (a : Act K V P) :
    ∃ c' seen, c.act b a = some (c', seen) ∧ Steps b c a c' seen := by
  have hfree : ∀ {x : Act K V P}, (∀ v, ¬ UnpinnedBy c x v) → ∀ v, UnpinnedBy c x v ↔ False :=
    fun hno v => ⟨hno v, False.elim⟩
  have hnowhere : ∀ {x : Act K V P} {lead : List (Event K)} {i : Nat}, (∀ v, ¬ PinnedBy lead v) →
      (∀ v, ¬ UnpinnedBy c x v) → ∀ v, PinnedBy lead v ∨ UnpinnedBy c x v →
      ∃ r, c.records[v]? = some r ∧ r.hash.toNat % b.shards = i :=
    fun h1 h2 v hv => hv.elim (fun h => absurd h (h1 v)) fun h => absurd h (h2 v)
  have hstay : (∀ v, a ≠ .release v) →
    ∃ c' seen, some (c, ([] : List (Event K))) = some (c', seen) ∧
      Steps b c a c' seen := fun hno => ⟨c, [], rfl, h.quiet hno rfl rfl rfl fun _ hv => hv⟩
  have hidle : (∀ v, ¬ UnpinnedBy c a v) → Steps b c a c [] := fun hno =>
    h.unlocked hno rfl rfl (fun _ hv => hv) rfl nodup_nil (by rintro _ ⟨⟩) not_pinnedBy_nil
      (fun _ _ => rfl) (.refl _) (by rintro _ _ ⟨⟩)
  cases a with
  | prepare =>
    refine ⟨_, [], rfl,
      ⟨⟨h.placed.extend rfl rfl, fun v hv => ?_⟩, fun v => by simp [offered, leavers, Resident],
      fun v hv => by simp [leavers] at hv, nodup_nil, fun v hv => by simp [offered] at hv,
      fun v hv => ?_, by simp, fun v r hr => by
        rw [List.getElem?_append_left (List.getElem?_eq_some_iff.mp hr).1]
        exact hr, .refl _, fun v reason hv => by simp [leavers] at hv, fun m hm r hr => hm r hr,
      fun pre k v post he => by simp at he, weight_same rfl,
      fun _ => pins_same rfl (fun v hv => by cases hv.1) not_pinnedBy_nil,
      fun _ v hv => by simp [leavers] at hv⟩⟩
    · by_cases he : v = c.records.length
      · refine ⟨by simp [he], ?_⟩
        rintro ⟨r, ⟨i, s, hi, hs⟩, hv'⟩
        obtain ⟨-, hrec⟩ := h.placed.held i s r hi hs
        have := (List.getElem?_eq_some_iff.mp hrec).1
        omega
      · simp only [update_of_ne he] at hv
        obtain ⟨hlt, hnot⟩ := h.fresh v hv
        exact ⟨by simp only [length_append, length_singleton]; omega, hnot⟩
    · by_cases he : v = c.records.length
      · exact .inr he
      · simp only [update_of_ne he] at hv
        exact .inl hv
  | reject_residency v =>
    refine ⟨_, [], rfl, h.quiet (by rintro _ ⟨⟩) rfl rfl rfl fun w hw => ?_⟩
    by_cases he : w = v
    · subst he
      simpa using hw
    · simp only [update_of_ne he] at hw
      exact hw
  | commit v =>
    simp only [Cache.act]
    split
    · rename_i admitted record hp hr
      obtain rfl := (h.placed.recorded v record hr).1
      obtain ⟨c', removed, hentry, hs⟩ := h.commit_entry hp hr (.inl rfl)
      exact ⟨c', _, hentry, hs⟩
    · exact hstay (by rintro _ ⟨⟩)
  | promote v =>
    simp only [Cache.act]
    split
    · rename_i record hp hr
      obtain rfl := (h.placed.recorded v record hr).1
      obtain ⟨c', removed, hentry, hs⟩ := h.commit_entry hp hr (.inr rfl)
      exact ⟨c', _, hentry, hs⟩
    · rename_i record hp hr
      exact ⟨_, _, rfl, h.decline hp hr⟩
    · exact hstay (by rintro _ ⟨⟩)
  | abandon v =>
    simp only [Cache.act]
    split
    · obtain ⟨hf1, hf2, hf3, hf4⟩ :=
        acquire_fields { c with prepared := update c.prepared v none } b v
      refine ⟨_, [], rfl, h.quiet (by rintro _ ⟨⟩) hf1 hf2 hf4 fun w hw => ?_⟩
      rw [hf3] at hw
      by_cases he : w = v
      · simp [he] at hw
      · simp only [update_of_ne he] at hw
        exact hw
    · exact hstay (by rintro _ ⟨⟩)
  | get key =>
    obtain ⟨s, hi⟩ := h.placed.get (b.hash key)
    obtain ⟨⟨q, hg⟩, hpol⟩ := h.placed.good _ _ hi
    obtain ⟨r, s', q', hget, hg', hb, -, hfound, hpin⟩ := hg.get key
    have htakes : ∀ (c' : Cache K V P) (x : Option Nat),
        c'.shards = c.shards.set ((b.hash key).toNat % c.shards.length) s' →
        c'.records = c.records → c'.prepared = c.prepared → c'.pending = c.pending →
        (∀ v, x = some v ↔ ∃ rec, r = some rec ∧ rec.version = v) →
        Steps b c (.get key) c' ([.got key x] ++ Cache.leaves ([] : Removed K V P)) := by
      intro c' x hs hr hp hw hx
      have hseen : ∀ v, PinnedBy [Event.got key x] v ↔ ∃ rec, r = some rec ∧ rec.version = v := by
        intro v
        rw [← hx]
        simp [PinnedBy, eq_comm]
      have hfoundv : ∀ v, x = some v → ∃ rec, s.Holds rec ∧ rec.key = key ∧ rec.version = v := by
        intro v hv
        obtain ⟨rec, hr, hv⟩ := (hx v).mp hv
        obtain ⟨h1, h2⟩ := (hfound rec).mp hr
        exact ⟨rec, h1, h2, hv⟩
      have hun : ∀ v, UnpinnedBy c (.get key) v ↔ False :=
        fun v => ⟨fun hv => (by cases hv.1), False.elim⟩
      refine h.takes [.got key x] hi hg' hb hs hr hp ?_ ⟨rfl, rfl, rfl⟩ (fun e he => by simp at he)
        (fun _ _ _ => rfl) ?_ (fun hpins => (hpin (by rw [hpol]; exact hpins)).congr hseen hun)
        fun v hv => ?_
      · rw [waiting, waiting, hw]
        simp
      · intro pre k v post he
        rcases pre with _ | ⟨e, pre⟩
        · obtain ⟨⟨rfl, hxv⟩, -⟩ : (key = k ∧ x = some v) ∧ _ := by simpa using he
          obtain ⟨rec, hh, hk, hv⟩ := hfoundv v hxv
          exact ⟨rfl, rec, ⟨_, s, hi, hh⟩, hk, hv⟩
        · simp at he
      · rcases hv with hv | hv
        · obtain ⟨rec, hh, -, rfl⟩ := hfoundv v ((hx v).mpr ((hseen v).mp hv))
          obtain ⟨hpl, hrec⟩ := h.placed.held _ s rec hi hh
          exact ⟨rec, hrec, hpl⟩
        · exact absurd hv (hun v).mp
    simp only [Cache.act, Cache.shard]
    rw [hi, bind_some, hget, map_some]
    cases r with
    | none => exact ⟨_, _, rfl, htakes _ none rfl rfl rfl rfl fun v => by simp⟩
    | some record =>
      obtain ⟨hf1, hf2, hf3, hf4⟩ := acquire_fields
        { c with shards := c.shards.set ((b.hash key).toNat % c.shards.length) s' } b record.version
      exact ⟨_, _, rfl, htakes _ (some record.version) hf1 hf2 hf3 hf4 fun v => by simp⟩
  | clone | clone_bare =>
    simp only [Cache.act]
    split
    · exact ⟨_, [], rfl, h.quiet (by rintro _ ⟨⟩) rfl rfl rfl fun _ hv => hv⟩
    · exact hstay (by rintro _ ⟨⟩)
  | drop =>
    simp only [Cache.act]
    split
    · refine ⟨_, [], rfl, ?_⟩
      split <;> exact h.quiet (by rintro _ ⟨⟩) rfl rfl rfl fun _ hv => hv
    · exact hstay (by rintro _ ⟨⟩)
  | drop_bare => exact ⟨_, [], rfl, h.quiet (by rintro _ ⟨⟩) rfl rfl rfl fun _ hv => hv⟩
  | is_resident v =>
    simp only [Cache.act]
    split
    · rename_i record hr
      split
      · obtain ⟨s, hi⟩ := h.placed.get record.hash
        rw [Cache.shard, hi, map_some]
        exact ⟨_, [], rfl, h.quiet (by rintro _ ⟨⟩) rfl rfl rfl fun _ hv => hv⟩
      · exact hstay (by rintro _ ⟨⟩)
    · exact hstay (by rintro _ ⟨⟩)
  | release v =>
    simp only [Cache.act]
    split
    · rename_i record hr
      split
      · rename_i hin
        obtain ⟨s, hi⟩ := h.placed.get record.hash
        obtain ⟨⟨q, hg⟩, hpol⟩ := h.placed.good _ _ hi
        obtain ⟨-, hhash⟩ := h.placed.recorded v record hr
        obtain ⟨s', q', removed, hrel, hg', hb, -, hreason, hpin⟩ :=
          hg.release record.key v (c.references v) fun r hs hv => by
            have hrec := (h.placed.held _ s r hi hs).2
            rw [hv, hr] at hrec
            cases hrec
            exact hhash
        rw [← hhash] at hrel
        have hlock := locked_eq (fun s => s.release record.hash v (c.references v)) hi hrel
        rw [Cache.shard, hlock]
        have hun : ∀ w, UnpinnedBy c (.release v) w ↔ w = v ∧ c.references v = 0 := by
          intro w
          constructor
          · rintro ⟨he, -, -, href⟩
            cases he
            exact ⟨rfl, href⟩
          · rintro ⟨rfl, href⟩
            exact ⟨rfl, (List.getElem?_eq_some_iff.mp hr).1, hin, href⟩
        refine ⟨_, _, rfl, h.takes [] hi hg' hb rfl rfl rfl (waiting_concat c removed rfl)
          ⟨rfl, rfl, rfl⟩
          (fun e he _ => ?_) (fun _ _ _ => rfl) (fun pre k v post he => by simp at he)
          (fun hpins => (hpin (by rw [hpol]; exact hpins)).congr
            (fun v => ⟨not_pinnedBy_nil v, False.elim⟩) hun) fun w hw => ?_⟩
        · rw [hreason e he]
          exact .inr (.inr ⟨v, rfl⟩)
        · rcases hw with hw | hw
          · exact absurd hw (not_pinnedBy_nil w)
          · rw [((hun w).mp hw).1, ← h.placed.count]
            exact ⟨record, hr, rfl⟩
      · rename_i hout
        refine ⟨c, [], rfl, hidle ?_⟩
        rintro w ⟨he, -, hin, -⟩
        cases he
        exact hout hin
    · rename_i hnone
      refine ⟨c, [], rfl, hidle ?_⟩
      rintro w ⟨he, hlt, -⟩
      cases he
      rw [List.getElem?_eq_getElem hlt] at hnone
      cases hnone
  | remove key =>
    obtain ⟨s, hi⟩ := h.placed.get (b.hash key)
    obtain ⟨⟨q, hg⟩, -⟩ := h.placed.good _ _ hi
    obtain ⟨s', q', removed, hrem, hg', hb, -, hnone, hreason, hpin⟩ := hg.remove key
    have hlock := locked_eq (fun s => s.remove (b.hash key) key) hi hrem
    simp only [Cache.act]
    rw [Cache.shard, hlock]
    refine ⟨_, _, rfl, ?_⟩
    obtain ⟨hf1, hf2, hf3, hf4⟩ := acquire_all_fields { c with
      shards := c.shards.set ((b.hash key).toNat % c.shards.length) s'
      pending := c.pending ++ [removed] } removed
    refine h.takes [.removed key] hi hg' hb hf1 hf2 hf3 (waiting_concat c removed hf4)
      ⟨rfl, rfl, rfl⟩
      (fun e he hrec => ?_) (fun r hr newest => ?_) (fun pre k v post he => ?_)
      (fun _ => hpin.congr (by simp [PinnedBy]) (hfree fun v hv => by cases hv.1))
      (hnowhere (by simp [PinnedBy]) fun v hv => by cases hv.1)
    · rw [(hreason e he).2]
      exact ⟨key, rfl, by rw [keyOf, hrec, ← (hreason e he).1]; rfl⟩
    · simp only [latest]
      refine if_neg fun hk => ?_
      rw [hf1] at hr
      rcases h.held_set hi hr with ht | hne
      · exact hnone r ht hk.symm
      · exact hne (by rw [shardOf, ← hk, ← h.placed.count])
    · rcases pre with _ | ⟨e, pre⟩ <;> simp at he
  | clear i =>
    simp only [Cache.act]
    split
    · rename_i hlt
      obtain ⟨s, hi⟩ : ∃ s, c.shards[i]? = some s := ⟨_, List.getElem?_eq_getElem hlt⟩
      obtain ⟨⟨q, hg⟩, -⟩ := h.placed.good _ _ hi
      obtain ⟨s', q', removed, hclr, hg', hb, -, hnone, hreason, hpin⟩ := hg.clear
      rw [locked_eq Shard.clear hi hclr]
      refine ⟨_, _, rfl, h.takes [.cleared i] hi hg' hb rfl rfl rfl (waiting_concat c removed rfl)
        ⟨rfl, rfl, rfl⟩ (fun e he hrec => ?_) (fun r hr newest => ?_) (fun pre k v post he => ?_)
        (fun _ => hpin.congr (by simp [PinnedBy]) (hfree fun v hv => by cases hv.1))
        (hnowhere (by simp [PinnedBy]) fun v hv => by cases hv.1)⟩
      · rw [hreason e he]
        refine ⟨e.1, hrec, ?_⟩
        rcases (hb.held e.1).mpr (.inr (mem_map_of_mem he)) with ho | ho
        · have hpl := (h.placed.held i s e.1 hi ho).1
          rw [(h.placed.recorded _ _ hrec).2] at hpl
          rw [shardOf, hpl]
        · simp at ho
      · simp only [latest]
        refine if_neg fun hk => ?_
        exact (h.held_set hi hr).elim (hnone r) (fun hne => hne hk.symm)
      · rcases pre with _ | ⟨e, pre⟩ <;> simp at he
    · exact hstay (by rintro _ ⟨⟩)
  | resize i capacity =>
    simp only [Cache.act]
    split
    · rename_i hlt
      obtain ⟨s, hi⟩ : ∃ s, c.shards[i]? = some s := ⟨_, List.getElem?_eq_getElem hlt⟩
      obtain ⟨⟨q, hg⟩, hpol⟩ := h.placed.good _ _ hi
      obtain ⟨s', q', removed, hres, hg', hb, -, hreason, hpin⟩ :=
        hg.resize (partition capacity c.shards.length i)
      rw [locked_eq (fun s => s.resize (partition capacity c.shards.length i)) hi hres]
      refine ⟨_, _, rfl, h.takes [] hi hg' hb rfl rfl rfl (waiting_concat c removed rfl)
        ⟨rfl, rfl, rfl⟩
        (fun e he _ => ?_) (fun _ _ _ => rfl) (fun pre k v post he => by simp at he)
        (fun hpins => (hpin (by rw [hpol]; exact hpins)).congr (by simp [PinnedBy])
          (hfree fun v hv => by cases hv.1))
        (hnowhere (by simp [PinnedBy]) fun v hv => by cases hv.1)⟩
      rw [hreason e he]
      exact .inr (.inl ⟨i, capacity, rfl⟩)
    · exact hstay (by rintro _ ⟨⟩)
  | notify i =>
    simp only [Cache.act]
    split
    · rename_i record reason rest hp
      have hnote : ∀ c' : Cache K V P, c'.shards = c.shards → c'.records = c.records →
          c'.prepared = c.prepared → c'.pending = c.pending.set i rest →
          Steps b c (.notify i) c' [.notified record.version reason] := by
        intro c' h1 h2 h3 h4
        refine h.unlocked (fun v hv => by cases hv.1) h1 h2 (fun v hv => h3 ▸ hv) rfl nodup_nil
          (by rintro _ ⟨⟩) (fun v hv => by simp [PinnedBy] at hv) (fun _ _ => rfl) ?_
          (by rintro _ _ ⟨⟩)
        have hperm :
          ((c.pending.set i rest).flatten ++ [(record, reason)]).Perm c.pending.flatten := by
          obtain ⟨hlt, hget⟩ := List.getElem?_eq_some_iff.mp hp
          rw [set_eq_take_append_cons_drop, if_pos hlt]
          conv_rhs => rw [← take_append_drop i c.pending, drop_eq_getElem_cons hlt, hget]
          simp only [flatten_append, flatten_cons, append_assoc, cons_append]
          refine List.Perm.append_left _ ?_
          rw [← append_assoc]
          exact perm_append_singleton ..
        have := hperm.map fun e : Record K V P × RemovalReason => (e.1.version, e.2)
        rw [map_append] at this
        simpa [waiting, h4, notices, leavers] using this
      refine ⟨_, _, rfl, ?_⟩
      split
      · exact hnote _ rfl rfl rfl rfl
      · exact hnote _ rfl rfl rfl rfl
    · exact hstay (by rintro _ ⟨⟩)

end Whole

end moat_cache_memory
