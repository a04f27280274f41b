-- The laws of the memory cache over whole runs: its shards stay in order, lookups
-- are fresh, and every version that was offered is resident or notified once.
import Moat.MemoryRuns

namespace moat_cache_memory

open List Option

variable {K V P : Type} [DecidableEq K] {b : Builder K V P} {c c' : Cache K V P}

/-! ## Runs -/

theorem Policy.sketch_power {policy : Policy} (h : policy.validate = .ok ()) :
    ∀ c, policy = .Lfu c → ∃ k, c.sketch_width = 2 ^ k := by
  rintro c rfl
  simp only [validate] at h
  split at h
  · cases h
  · split at h
    · cases h
    · rename_i hw
      rw [not_or, not_not] at hw
      exact ⟨_, hw.1.symm⟩

omit [DecidableEq K] in
/-- What `build` makes is whole and empty. -/
theorem Builder.build_whole (h : b.build = .ok c) :
    Whole b c ∧ (∀ v, ¬ Resident c v) ∧ (∀ v, c.bare v = 0) ∧ waiting c = [] := by
  unfold Builder.build at h
  split at h
  · cases h
  · rename_i hshards
    cases hv : b.policy.validate with
    | error =>
      rw [hv] at h
      cases h
    | ok =>
      rw [hv] at h
      have hpower := Policy.sketch_power (show b.policy.validate = .ok () from hv)
      obtain rfl := Except.ok.inj h
      have hget : ∀ (i : Nat) (s : Shard K V P), ((List.range b.shards).map fun i =>
          Shard.new b.policy (partition b.capacity b.shards i))[i]? = some s →
          s = Shard.new b.policy (partition b.capacity b.shards i) := by
        intro i s hs
        rw [List.getElem?_map, map_eq_some_iff] at hs
        obtain ⟨j, hj, rfl⟩ := hs
        obtain ⟨hlt, rfl⟩ := List.getElem?_eq_some_iff.mp hj
        rw [getElem_range]
      have hempty : ∀ (s : Shard K V P) (i : Nat) (r : Record K V P),
          s = Shard.new b.policy (partition b.capacity b.shards i) → ¬ s.Holds r := by
        rintro s i r rfl ⟨id, n, hn, -⟩
        cases hn
      refine ⟨⟨⟨by simp, Nat.pos_of_ne_zero hshards, ?_, ?_, fun v r hr => by simp at hr⟩,
        fun v hv => by cases hv⟩, ?_, fun _ => rfl, rfl⟩
      · intro i s hs
        rw [hget i s hs]
        exact ⟨⟨_, Shard.new_good b.hash b.policy _ hpower⟩, rfl⟩
      · intro i s r hs hr
        exact absurd hr (hempty s i r (hget i s hs))
      · rintro v ⟨r, ⟨i, s, hs, hr⟩, -⟩
        exact hempty s i r (hget i s hs) hr

theorem run_concat (acts : List (Act K V P)) (a : Act K V P) :
    Cache.run b c (acts ++ [a]) = (Cache.run b c acts).bind fun (c', seen) =>
      (c'.act b a).map fun (c'', more) => (c'', seen ++ more) := by
  induction acts generalizing c with
  | nil =>
    simp only [nil_append, Cache.run, bind_some]
    cases c.act b a with
    | none => rfl
    | some => simp
  | cons x acts ih =>
    simp only [cons_append, Cache.run]
    cases c.act b x with
    | none => rfl
    | some p =>
      simp only [bind_some]
      rw [ih]
      cases Cache.run b p.1 acts with
      | none => rfl
      | some p' =>
        simp only [bind_some, map_some]
        cases p'.1.act b a <;> simp

/-- What holds after a run, of the cache and of what was seen. -/
structure Told (b : Builder K V P) (c : Cache K V P) (seen : List (Event K)) : Prop where
  whole : Whole b c
  used : ∀ v ∈ offered seen, v < c.records.length ∧ c.prepared v = none
  stays : ∀ v, Resident c v → v ∈ offered seen ∧ v ∉ (leavers seen).map Prod.fst
  left : ∀ v, ¬ Resident c v →
    ((leavers seen).map Prod.fst).count v = if v ∈ offered seen then 1 else 0
  tally : (waiting c ++ notices seen).Perm (leavers seen)
  newest : ∀ r, Held c.shards r → latest (shardOf b) r.key none seen = some r.version
  got : ∀ pre k v post, seen = pre ++ .got k (some v) :: post →
    latest (shardOf b) k none pre = some v

theorem told_new (h : b.build = .ok c) : Told b c [] := by
  obtain ⟨hw, hnone, -, hwait⟩ := Builder.build_whole h
  exact ⟨hw, fun v hv => by simp [offered] at hv, fun v hv => absurd hv (hnone v),
    fun v _ => by simp [offered, leavers], by rw [hwait]; exact .refl _,
    fun r hr => absurd ⟨r, hr, rfl⟩ (hnone r.version), fun pre k v post he => by simp at he⟩

/-- A step carries what holds from one state to the next. -/
theorem Told.step (h : Told b c seen) {a : Act K V P} {more : List (Event K)}
    (hs : Steps b c a c' more) : Told b c' (seen ++ more) := by
  -- a version is offered once
  have hnew : ∀ v ∈ offered more, v ∉ offered seen := by
    intro v hv hold
    have hp := (hs.offers v hv).1
    rw [(h.used v hold).2] at hp
    cases hp
  have hfirst : ∀ v ∈ offered more, ¬ Resident c v := fun v hv hr => hnew v hv (h.stays v hr).1
  refine ⟨hs.whole, ?_, ?_, ?_, ?_, ?_, ?_⟩
  · intro v hv
    rw [offered_append, mem_append] at hv
    rcases hv with hv | hv
    · obtain ⟨hlt, hnone⟩ := h.used v hv
      refine ⟨Nat.lt_of_lt_of_le hlt hs.grows, ?_⟩
      cases hp : c'.prepared v with
      | none => rfl
      | some =>
        rcases hs.prepares v (by rw [hp]; rfl) with ho | ho
        · rw [hnone] at ho
          cases ho
        · omega
    · exact ⟨Nat.lt_of_lt_of_le (h.whole.fresh v (hs.offers v hv).1).1 hs.grows, (hs.offers v hv).2⟩
  · intro v hv
    have hnot : v ∉ (leavers more).map Prod.fst := fun hm => hs.gone v hm hv
    rw [offered_append, leavers_append, map_append, mem_append, mem_append, not_or]
    rcases (hs.books v).mpr (.inl hv) with ho | ho
    · obtain ⟨h1, h2⟩ := h.stays v ho
      exact ⟨.inl h1, h2, hnot⟩
    · have hcount := h.left v (hfirst v ho)
      rw [if_neg (hnew v ho), count_eq_zero] at hcount
      exact ⟨.inr ho, hcount, hnot⟩
  · intro v hv
    rw [offered_append, leavers_append, map_append, count_append]
    -- who leaves in this step was resident or is offered now
    have hmore : ((leavers more).map Prod.fst).count v ≤ 1 := nodup_iff_count_le_one.mp hs.once v
    have hmem : 0 < ((leavers more).map Prod.fst).count v ↔ Resident c v ∨ v ∈ offered more := by
      rw [count_pos_iff]
      exact ⟨fun hm => (hs.books v).mpr (.inr hm), fun hm => ((hs.books v).mp hm).resolve_left hv⟩
    by_cases hr : Resident c v
    · obtain ⟨h1, h2⟩ := h.stays v hr
      have := hmem.mpr (.inl hr)
      rw [count_eq_zero.mpr h2, if_pos (mem_append_left _ h1)]
      omega
    · rw [h.left v hr]
      by_cases ho : v ∈ offered more
      · have := hmem.mpr (.inr ho)
        rw [if_neg (hnew v ho), if_pos (mem_append_right _ ho)]
        omega
      · have : ¬ 0 < ((leavers more).map Prod.fst).count v := by rw [hmem]; simp [hr, ho]
        simp only [mem_append, ho, or_false]
        omega
  · rw [notices_append, leavers_append]
    have h1 := hs.tally
    have h2 := h.tally
    calc (waiting c' ++ (notices seen ++ notices more)).Perm ((waiting c' ++ notices more) ++
      notices seen) := by
          rw [append_assoc]
          exact List.Perm.append_left _ perm_append_comm
      _ |>.Perm ((waiting c ++ leavers more) ++ notices seen) := h1.append_right _
      _ |>.Perm ((waiting c ++ notices seen) ++ leavers more) := by
          rw [append_assoc, append_assoc]
          exact List.Perm.append_left _ perm_append_comm
      _ |>.Perm (leavers seen ++ leavers more) := h2.append_right _
  · intro r hr
    rw [latest_append]
    exact hs.newest (fun k => latest (shardOf b) k none seen) h.newest r hr
  · intro pre k v post he
    rcases append_eq_append_iff.mp he with ⟨c1, rfl, hrest⟩ | ⟨c1, hpre, hrest⟩
    · obtain ⟨rfl, r, hr, rfl, rfl⟩ := hs.got c1 k v post hrest
      rw [append_nil]
      exact h.newest r hr
    · cases c1 with
      | nil =>
        obtain ⟨-, r, hr, rfl, rfl⟩ := hs.got [] k v post (by simpa using hrest.symm)
        rw [← (show seen = pre by simpa using hpre)]
        exact h.newest r hr
      | cons e c1 =>
        obtain ⟨rfl, -⟩ : e = .got k (some v) ∧ _ := by simpa using hrest.symm
        exact h.got pre k v c1 hpre

theorem run_snoc {acts : List (Act K V P)} {a : Act K V P} {c1 c2 : Cache K V P}
    {seen more : List (Event K)} (hrun : Cache.run b c acts = some (c1, seen))
    (hact : c1.act b a = some (c2, more)) :
    Cache.run b c (acts ++ [a]) = some (c2, seen ++ more) := by
  simp only [run_concat, hrun, bind_some, hact, map_some]

/-- A run never panics, and keeps what holds. -/
theorem told_run (h : b.build = .ok c) (acts : List (Act K V P)) :
    ∃ c' seen, Cache.run b c acts = some (c', seen) ∧ Told b c' seen := by
  induction acts using List.reverseRecOn with
  | nil => exact ⟨c, [], rfl, told_new h⟩
  | append_singleton _ a ih =>
    obtain ⟨c1, seen, hrun, ht⟩ := ih
    obtain ⟨c2, more, hact, hs⟩ := ht.whole.act_steps a
    exact ⟨c2, seen ++ more, run_snoc hrun hact, ht.step hs⟩

/-! ## The laws -/

/-- After any run every shard is in order: its lists are well formed over exactly the nodes of its
slab and weigh what the shard says, its index has each resident key once, the protected lists keep
to their share, the hand is at a linked node, and the shard is within its capacity or LRU with
nothing but pinned nodes. And no step makes a shard heavier than it was or may be. -/
theorem shards_stay_in_order (h : b.build = .ok c) (acts : List (Act K V P)) :
    ∃ c' seen, Cache.run b c acts = some (c', seen) ∧
      (∀ (i : Nat) (s : Shard K V P), c'.shards[i]? = some s →
        s.state.policy = b.policy ∧ ∃ q, s.Good b.hash q) ∧
      ∀ a c'' more (i : Nat) (s s' : Shard K V P), c'.act b a = some (c'', more) →
        c'.shards[i]? = some s → c''.shards[i]? = some s' →
          s'.weight ≤ max s.capacity s.weight := by
  obtain ⟨c1, seen, hrun, ht⟩ := told_run h acts
  refine ⟨c1, seen, hrun, fun i s hi => (ht.whole.placed.good i s hi).symm, ?_⟩
  intro a c2 more i s s' hact hi hi'
  obtain ⟨c3, more', hact', hs⟩ := ht.whole.act_steps a
  rw [hact] at hact'
  cases hact'
  exact hs.weight i s s' hi hi'

/-- A cache of one shard for two unit entries, which admits the nonzero values. -/
def small (policy : Policy) : Builder Nat Nat Unit where
  hash := Nat.toUInt64
  capacity := 2
  shards := 1
  policy := policy
  weigher := fun _ _ _ => 1
  admission := fun _ value _ => value != 0
  listener := true

/-- What `build` makes of it. -/
def smallCache (policy : Policy) : Cache Nat Nat Unit :=
  ⟨[Shard.new policy 2], [], fun _ => none, fun _ => 0, fun _ => 0, [], [], []⟩

/-- A key is written, read, written again and read again, and all is delivered. -/
def rewrite : List (Act Nat Nat Unit) :=
  [.prepare 5 1 () .Normal, .commit 0, .get 5, .prepare 5 2 () .Normal, .commit 1, .get 5,
  .notify 1]

theorem rewrite_keeps_the_shard_in_order :
    ∃ c' seen, Cache.run (small .Sieve) (smallCache .Sieve) rewrite = some (c', seen) ∧
      ∀ (i : Nat) (s : Shard Nat Nat Unit), c'.shards[i]? = some s → ∃ q,
        s.Good Nat.toUInt64 q := by
  have hbuild : (small .Sieve).build = .ok (smallCache .Sieve) := rfl
  obtain ⟨c', seen, hrun, horder, -⟩ := shards_stay_in_order hbuild rewrite
  exact ⟨c', seen, hrun, fun i s hs => (horder i s hs).2⟩

/-- A lookup returns nothing or the newest version of its key; a commit ends the residency of every
other version of the key, whatever becomes of its own; a promotion that is not admitted leaves the
shards as they are. -/
theorem lookups_find_the_newest_version (h : b.build = .ok c) (acts : List (Act K V P)) :
    ∃ c' seen, Cache.run b c acts = some (c', seen) ∧
      (∀ pre k v post, seen = pre ++ .got k (some v) :: post →
        latest (shardOf b) k none pre = some v) ∧
      (∀ v, (c'.prepared v).isSome = true → ∃ c'' more, c'.act b (.commit v) = some (c'', more) ∧
        ∀ w, w ≠ v → keyOf c' w = keyOf c' v → ¬ Resident c'' w) ∧
      ∀ v, c'.prepared v = some false → ∃ c'' more, c'.act b (.promote v) = some (c'', more) ∧
        c''.shards = c'.shards := by
  obtain ⟨c1, seen, hrun, ht⟩ := told_run h acts
  refine ⟨c1, seen, hrun, ht.got, fun v hv => ?_, fun v hv => ?_⟩
  · obtain ⟨admitted, hp⟩ := isSome_iff_exists.mp hv
    obtain ⟨record, hrec⟩ : ∃ record, c1.records[v]? = some record :=
      ⟨_, List.getElem?_eq_getElem (ht.whole.fresh v hv).1⟩
    obtain rfl := (ht.whole.placed.recorded v record hrec).1
    obtain ⟨c2, removed, hentry, hs⟩ := ht.whole.commit_entry hp hrec (.inl rfl)
    refine ⟨c2, _, by simp only [Cache.act, hp, hrec, hentry]; rfl, ?_⟩
    rintro w hne hkey ⟨r, hr, rfl⟩
    -- the resident version has the key of the commit, which is the newest of it
    obtain ⟨j, t, hj, hh⟩ := hr
    have hrecr := (hs.whole.placed.held j t r hj hh).2
    have hk : record.key = r.key := by
      rw [keyOf, keyOf, hrec, map_some, map_eq_some_iff] at hkey
      obtain ⟨r0, hr0, hk0⟩ := hkey
      rw [hs.records _ _ hr0] at hrecr
      cases hrecr
      exact hk0.symm
    have hnew := hs.newest (fun k => latest (shardOf b) k none seen) ht.newest r ⟨j, t, hj, hh⟩
    rw [← singleton_append, latest_append, latest_leaves] at hnew
    simp only [latest, if_pos hk, some.injEq] at hnew
    exact hne hnew.symm
  · obtain ⟨record, hrec⟩ : ∃ record, c1.records[v]? = some record :=
      ⟨_, List.getElem?_eq_getElem (ht.whole.fresh v (by rw [hv]; rfl)).1⟩
    simp only [Cache.act, hv, hrec]
    exact ⟨_, _, rfl, (acquire_fields _ b v).1⟩

theorem rewrite_is_found :
    (Cache.run (small .Sieve) (smallCache .Sieve) rewrite).map (fun x => x.2.take 4) =
        some [.committed 5 0, .got 5 (some 0), .committed 5 1, .left 0 .Replaced] ∧
      ∃ c' seen, Cache.run (small .Sieve) (smallCache .Sieve) rewrite = some (c', seen) ∧
        ∀ pre k v post, seen = pre ++ .got k (some v) :: post →
          latest (shardOf (small .Sieve)) k none pre = some v := by
  have hbuild : (small .Sieve).build = .ok (smallCache .Sieve) := rfl
  obtain ⟨c', seen, hrun, hgot, -⟩ := lookups_find_the_newest_version hbuild rewrite
  exact ⟨by decide +kernel, c', seen, hrun, hgot⟩

/-- The step of a run that ended the residency of a version, or refused it, for that reason. -/
def EndedBy (b : Builder K V P) (c : Cache K V P) (acts : List (Act K V P)) (v : Nat)
    (reason : RemovalReason) : Prop :=
  ∃ pre a post c1 seen c2 more, acts = pre ++ a :: post ∧ Cache.run b c pre = some (c1, seen) ∧
    c1.act b a = some (c2, more) ∧ (Resident c1 v ∨ v ∈ offered more) ∧ ¬ Resident c2 v ∧
    Because b c1 a v reason

theorem endedBy_of_left (h : b.build = .ok c) (acts : List (Act K V P)) {seen : List (Event K)}
    (hrun : Cache.run b c acts = some (c', seen)) {v : Nat} {reason : RemovalReason}
    (hv : (v, reason) ∈ leavers seen) : EndedBy b c acts v reason := by
  induction acts using List.reverseRecOn generalizing c' seen with
  | nil =>
    cases hrun
    simp [leavers] at hv
  | append_singleton acts a ih =>
    obtain ⟨c1, seen1, hrun1, ht⟩ := told_run h acts
    obtain ⟨c2, more, hact, hs⟩ := ht.whole.act_steps a
    rw [run_snoc hrun1 hact, some.injEq, Prod.mk.injEq] at hrun
    obtain ⟨rfl, rfl⟩ := hrun
    rw [leavers_append, mem_append] at hv
    rcases hv with hv | hv
    · obtain ⟨pre, x, post, c3, seen3, c4, more4, hacts, hrest⟩ := ih hrun1 hv
      exact ⟨pre, x, post ++ [a], c3, seen3, c4, more4, by rw [hacts]; simp, hrest⟩
    · have hm : v ∈ (leavers more).map Prod.fst := mem_map_of_mem hv
      exact ⟨acts, a, [], c1, seen1, c2, more, rfl, hrun1, hact, (hs.books v).mpr (.inr hm),
        hs.gone v hm,
        hs.because v reason hv⟩

/-- Once nothing is left to deliver, a version that was committed or promoted is resident and was
never notified, or is not resident and was notified exactly once, with the reason of the step that
ended its residency or refused it. -/
theorem every_version_leaves_once (h : b.build = .ok c) (acts : List (Act K V P)) :
    ∃ c' seen, Cache.run b c acts = some (c', seen) ∧
      ((∀ change ∈ c'.pending, change = []) → ∀ v ∈ offered seen,
        (Resident c' v ∧ ∀ reason, (v, reason) ∉ notices seen) ∨
        (¬ Resident c' v ∧ ∃ reason, (notices seen).filter (fun e => e.1 = v) = [(v, reason)] ∧
          EndedBy b c acts v reason)) := by
  obtain ⟨c1, seen, hrun, ht⟩ := told_run h acts
  refine ⟨c1, seen, hrun, fun hdone v hv => ?_⟩
  have hperm : (notices seen).Perm (leavers seen) := by
    have hwait : waiting c1 = [] := by
      rw [waiting, flatten_eq_nil_iff.mpr hdone]
      rfl
    have := ht.tally
    rwa [hwait, nil_append] at this
  by_cases hr : Resident c1 v
  · refine .inl ⟨hr, fun reason hn => (ht.stays v hr).2 ?_⟩
    exact mem_map.mpr ⟨(v, reason), hperm.mem_iff.mp hn, rfl⟩
  · refine .inr ⟨hr, ?_⟩
    have hcount := ht.left v hr
    rw [if_pos hv, List.count, countP_map, countP_eq_length_filter] at hcount
    obtain ⟨⟨w, reason⟩, hone⟩ := length_eq_one_iff.mp hcount
    have hmem : (w, reason) ∈ (leavers seen).filter ((fun x => x == v) ∘ Prod.fst) := by
      rw [hone]; simp
    obtain ⟨hin, hw⟩ := mem_filter.mp hmem
    obtain rfl : w = v := by simpa using hw
    refine ⟨reason, ?_, endedBy_of_left h acts hrun hin⟩
    have hsame : (fun e : Nat × RemovalReason => decide (e.1 = w)) = (fun x => x == w) ∘ Prod.fst :=
      rfl
    rw [hsame]
    have := hperm.filter ((fun x => x == w) ∘ Prod.fst)
    rw [hone] at this
    exact perm_singleton.mp this

theorem rewrite_is_notified_once :
    (Cache.run (small .Sieve) (smallCache .Sieve) rewrite).map
        (fun x => (x.1.pending.flatten.length, offered x.2, notices x.2)) = some
        (0, [0, 1], [(0, .Replaced)]) ∧
    ∃ c' seen, Cache.run (small .Sieve) (smallCache .Sieve) rewrite = some (c', seen) ∧
      ((∀ change ∈ c'.pending, change = []) → ∀ v ∈ offered seen,
        (Resident c' v ∧ ∀ reason, (v, reason) ∉ notices seen) ∨
        (¬ Resident c' v ∧ ∃ reason, (notices seen).filter (fun e => e.1 = v) = [(v, reason)] ∧
          EndedBy (small .Sieve) (smallCache .Sieve) rewrite v reason)) := by
  have hbuild : (small .Sieve).build = .ok (smallCache .Sieve) := rfl
  exact ⟨by decide +kernel, every_version_leaves_once hbuild rewrite⟩

end moat_cache_memory
