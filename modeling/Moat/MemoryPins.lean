-- Pins and handles under LRU: a resident version with a handle is in the pinned
-- list, and one with neither a handle nor a release in progress is not, whatever
-- the order of decrements, lookups and release sections.
import Moat.MemoryLaws

namespace moat_cache_memory

open List Function Option

variable {K V P : Type} {b : Builder K V P} {c c' : Cache K V P} {a : Act K V P}
  {seen more : List (Event K)}

/-! ## Handles -/

theorem acquire_pins (hp : b.policy.pins = true) (v : Nat) :
    (c.acquire b v).held = update c.held v (c.held v + 1) ∧ (c.acquire b v).bare = c.bare ∧
      (c.acquire b v).dropping = c.dropping ∧ (c.acquire b v).releasing = c.releasing := by
  unfold Cache.acquire
  rw [if_pos hp]
  exact ⟨rfl, rfl, rfl, rfl⟩

/-- Taking bare handles of some versions leaves the others alone. -/
theorem acquire_all_bare (c : Cache K V P) (removed : Removed K V P) {v : Nat}
    (hv : ∀ e ∈ removed, e.1.version ≠ v) :
    (removed.foldl (fun c e => c.acquire_bare e.1.version) c).bare v = c.bare v := by
  induction removed generalizing c with
  | nil => rfl
  | cons e _ ih =>
    rw [foldl_cons, ih _ fun x hx => hv x (mem_cons_of_mem _ hx)]
    exact update_of_ne (Ne.symm (hv e mem_cons_self)) ..

theorem acquire_all_handles (c : Cache K V P) (removed : Removed K V P) :
    (removed.foldl (fun c e => c.acquire_bare e.1.version) c).held = c.held ∧
      (removed.foldl (fun c e => c.acquire_bare e.1.version) c).dropping = c.dropping ∧
      (removed.foldl (fun c e => c.acquire_bare e.1.version) c).releasing = c.releasing := by
  induction removed generalizing c with
  | nil => exact ⟨rfl, rfl, rfl⟩
  | cons _ _ ih => exact ih _

/-- What a section leaves of the cache beside its shard. -/
theorem locked_some {i : Nat} {f : Shard K V P → Option (Shard K V P × Removed K V P)}
    {removed : Removed K V P} (h : c.locked i f = some (c', removed)) :
    c'.records = c.records ∧ c'.prepared = c.prepared ∧ c'.held = c.held ∧ c'.bare = c.bare ∧
      c'.dropping = c.dropping ∧ c'.releasing = c.releasing := by
  obtain ⟨s, -, hf⟩ := bind_eq_some_iff.mp h
  obtain ⟨⟨s', removed'⟩, -, he⟩ := map_eq_some_iff.mp hf
  cases he
  exact ⟨rfl, rfl, rfl, rfl, rfl, rfl⟩

/-- Nothing but its commit makes a version resident, so a prepared one is not. -/
theorem Whole.not_prepared (h : Whole b c) {v : Nat} (hv : Resident c v) : c.prepared v = none := by
  cases hp : c.prepared v with
  | none => rfl
  | some => exact absurd hv (h.fresh v (by rw [hp]; rfl)).2

/-! ## What handles mean -/

/-- What handles mean under a policy with pins: a version that may be looked up has only handles
that release it, with a handle it is pinned, and while it is pinned it has a handle or a release in
progress. -/
structure Pinning (c : Cache K V P) : Prop where
  bare : ∀ v, Resident c v ∨ (c.prepared v).isSome = true ∨ c.records.length ≤ v → c.bare v = 0
  pinned : ∀ v, Resident c v → 0 < c.held v → Pinned c v
  due : ∀ v, Pinned c v → 0 < c.held v ∨ v ∈ c.dropping ∨ v ∈ c.releasing

/-- The handles of a resident version are the ones that release it. -/
theorem Pinning.references (h : Pinning c) (hw : Whole b c) {v : Nat} (hv : Resident c v) :
    c.references v = c.held v := by
  rw [Cache.references, h.bare v (.inl hv), hw.not_prepared hv]
  rfl

section

variable [DecidableEq K]

variable {v : Nat}

/-- Only what is offered becomes resident. -/
theorem Steps.was_resident (hs : Steps b c a c' more) (hoffer : offered more = [])
    (hv : Resident c' v) : Resident c v := by
  refine ((hs.books v).mpr (.inl hv)).resolve_right fun ho => ?_
  rw [hoffer] at ho
  cases ho

/-- What leaves without being offered is neither resident nor prepared, and was born. -/
theorem Steps.left_gone (hs : Steps b c a c' more) (hw : Whole b c) (hoffer : offered more = [])
    (hv : v ∈ (leavers more).map Prod.fst) :
    ¬ (Resident c' v ∨ (c'.prepared v).isSome = true ∨ c'.records.length ≤ v) := by
  obtain ⟨r, ⟨i, s, hi, hr⟩, rfl⟩ : Resident c v := by
    refine ((hs.books v).mpr (.inr hv)).resolve_right fun ho => ?_
    rw [hoffer] at ho
    cases ho
  have hborn := (List.getElem?_eq_some_iff.mp (hw.placed.held i s r hi hr).2).1
  rintro (hv' | hv' | hv')
  · exact hs.gone _ hv hv'
  · rcases hs.prepares _ hv' with ho | ho
    · exact (hw.fresh _ ho).2 ⟨r, ⟨i, s, hi, hr⟩, rfl⟩
    · omega
  · exact absurd (hs.grows.trans hv') (Nat.not_le.mpr hborn)

/-- A step keeps the meaning of handles if it pins what gets a first handle, and unpins only what
has none. -/
theorem Pinning.step (h : Pinning c) (hs : Steps b c a c' more) (hp : b.policy.pins = true)
    (hbare : ∀ v, Resident c' v ∨ (c'.prepared v).isSome = true ∨ c'.records.length ≤ v →
    c'.bare v = 0)
    (hheld : ∀ v, Resident c' v → 0 < c'.held v →
      PinnedBy more v ∨ Resident c v ∧ 0 < c.held v ∧ ¬ UnpinnedBy c a v)
    (hdue : ∀ v, Resident c' v →
      PinnedBy more v ∨ Pinned c v ∧ (0 < c.held v ∨ v ∈ c.dropping ∨ v ∈ c.releasing) ∧
        ¬ UnpinnedBy c a v →
      0 < c'.held v ∨ v ∈ c'.dropping ∨ v ∈ c'.releasing) : Pinning c' := by
  refine ⟨hbare, fun v hr hv => ?_, fun v hv => ?_⟩
  · refine (hs.pins hp v).mpr ⟨?_, hr⟩
    rcases hheld v hr hv with hb | ⟨hr0, hv0, hu⟩
    · exact .inl hb
    · exact .inr ⟨h.pinned v hr0 hv0, hu⟩
  · obtain ⟨hwhich, hr⟩ := (hs.pins hp v).mp hv
    rcases hwhich with hb | ⟨hpin, hu⟩
    · exact hdue v hr (.inl hb)
    · exact hdue v hr (.inr ⟨hpin, h.due v hpin, hu⟩)

/-- A version that may be looked up after a step could be before, so it has no bare handle if the
step gave it none. -/
theorem Pinning.spare (h : Pinning c) (hs : Steps b c a c' more) (hbare : c'.bare v = c.bare v)
    (hv : Resident c' v ∨ (c'.prepared v).isSome = true ∨ c'.records.length ≤ v) :
    c'.bare v = 0 := by
  rw [hbare]
  rcases hv with hv | hv | hv
  · rcases (hs.books v).mpr (.inl hv) with ho | ho
    · exact h.bare v (.inl ho)
    · exact h.bare v (.inr (.inl (hs.offers v ho).1))
  · rcases hs.prepares v hv with ho | ho
    · exact h.bare v (.inr (.inl ho))
    · exact h.bare v (.inr (.inr (by omega)))
  · exact h.bare v (.inr (.inr (hs.grows.trans hv)))

/-- Steps that leave all handles alone. -/
theorem Pinning.still (h : Pinning c) (hs : Steps b c a c' more) (hp : b.policy.pins = true)
    (hheld : c'.held = c.held) (hbare : c'.bare = c.bare) (hdropping : c'.dropping = c.dropping)
    (hreleasing : c'.releasing = c.releasing) (hoffer : offered more = [])
    (hno : ∀ v, ¬ UnpinnedBy c a v) (hnone : ∀ v, ¬ PinnedBy more v) : Pinning c' := by
  refine h.step hs hp (fun v => h.spare hs (by rw [hbare])) (fun v hr hv => ?_) fun v hr hv => ?_
  · rw [hheld] at hv
    exact .inr ⟨hs.was_resident hoffer hr, hv, hno v⟩
  · rw [hheld, hdropping, hreleasing]
    rcases hv with hv | hv
    · exact absurd hv (hnone v)
    · exact hv.2.1

/-- Steps that hand out one more handle, of a version they pin or that is not resident. -/
theorem Pinning.hand (h : Pinning c) (hs : Steps b c a c' more) (hp : b.policy.pins = true)
    (hheld : c'.held = update c.held v (c.held v + 1)) (hbare : c'.bare = c.bare)
    (hdropping : c'.dropping = c.dropping) (hreleasing : c'.releasing = c.releasing)
    (hno : ∀ v, ¬ UnpinnedBy c a v) (hone : ∀ w, PinnedBy more w → w = v)
    (hoffer : ∀ w ∈ offered more, w = v)
    (hpin : Resident c' v → PinnedBy more v ∨ Resident c v ∧ 0 < c.held v) : Pinning c' := by
  have hres : ∀ w, Resident c' w → Resident c w ∨ w ∈ offered more :=
    fun w hw => (hs.books w).mpr (.inl hw)
  refine h.step hs hp (fun w => h.spare hs (by rw [hbare])) (fun w hr hw => ?_) fun w hr hw => ?_
  · by_cases he : w = v
    · subst he
      exact (hpin hr).imp id fun hb => ⟨hb.1, hb.2, hno w⟩
    · rw [hheld, update_of_ne he] at hw
      rcases hres w hr with ho | ho
      · exact .inr ⟨ho, hw, hno w⟩
      · exact absurd (hoffer w ho) he
  · rw [hheld, hdropping, hreleasing]
    by_cases he : w = v
    · subst he
      rw [update_self]
      exact .inl (Nat.succ_pos _)
    · rw [update_of_ne he]
      rcases hw with hw | hw
      · exact absurd (hone w hw) he
      · exact hw.2.1

/-- A version that waits for its notification is neither resident nor prepared, and was born. -/
theorem Told.waiting_gone (h : Told b c seen) {e : Nat × RemovalReason} (he : e ∈ waiting c) :
    ¬ Resident c e.1 ∧ c.prepared e.1 = none ∧ e.1 < c.records.length := by
  have hleft : e.1 ∈ (leavers seen).map Prod.fst :=
    mem_map_of_mem (h.tally.mem_iff.mp (mem_append_left _ he))
  have hnot : ¬ Resident c e.1 := fun hr => (h.stays _ hr).2 hleft
  have hcount := h.left _ hnot
  have hoff : e.1 ∈ offered seen := by
    by_contra hno
    rw [if_neg hno, count_eq_zero] at hcount
    exact hcount hleft
  exact ⟨hnot, (h.used _ hoff).2, (h.used _ hoff).1⟩

section
variable (h : Pinning c)
include h

/-- An admitted or refused commit pins its version, if it stays, and hands out its handle. -/
theorem Pinning.commit_entry (hp : b.policy.pins = true) {record : Record K V P}
    {admitted : Bool} (hentry : c.commit_entry b record admitted = some (c', more))
    (hs : Steps b c a c' more) (hno : ∀ v, ¬ UnpinnedBy c a v) : Pinning c' := by
  obtain ⟨⟨c1, removed⟩, hlock, he⟩ := map_eq_some_iff.mp hentry
  cases he
  obtain ⟨-, -, h1, h2, h3, h4⟩ := locked_some hlock
  obtain ⟨e1, e2, e3, e4⟩ :=
    acquire_pins (c := { c1 with prepared := update c1.prepared record.version none })
    hp record.version
  have hpin : ∀ w, PinnedBy (.committed record.key record.version :: Cache.leaves removed) w ↔
    w = record.version := by
    intro w
    rw [← singleton_append, pinnedBy_leaves]
    simp [PinnedBy]
  refine h.hand hs hp (e1.trans (by rw [← h1])) (e2.trans h2) (e3.trans h3) (e4.trans h4) hno
    (fun w hw => (hpin w).mp hw) (fun w hw => ?_) fun _ => .inl ((hpin _).mpr rfl)
  rw [← singleton_append, offered_append, offered_leaves] at hw
  simpa [offered] using hw

/-- A drop that takes the last handle of a resident version leaves a release to do. -/
theorem Pinning.drop (hw : Whole b c)
    (hact : c.act b (.drop v) = some (c', more)) : Pinning c' := by
  simp only [Cache.act] at hact
  split at hact
  · rename_i hpos
    cases hact
    have hheld : ∀ w, 0 < update c.held v (c.held v - 1) w → 0 < c.held w := by
      intro w hw
      by_cases he : w = v
      · exact he ▸ hpos
      · rwa [update_of_ne he] at hw
    split
    · refine ⟨h.bare, fun w hr hw => h.pinned w hr (hheld w hw), fun w hpin => ?_⟩
      by_cases he : w = v
      · exact .inr (.inl (by simp [he]))
      · refine (h.due w hpin).imp (fun hd => ?_) (Or.imp_left (mem_append_left _))
        rwa [← update_of_ne he (c.held v - 1) c.held] at hd
    · rename_i hrefs
      refine ⟨h.bare, fun w hr hw => h.pinned w hr (hheld w hw), fun w hpin => ?_⟩
      by_cases he : w = v
      · subst he
        -- a resident version has no other handles that could be left
        have hz := h.bare w (.inl hpin.resident)
        have hn := hw.not_prepared hpin.resident
        simp only [Cache.references, hz, hn] at hrefs
        exact .inl (Nat.pos_of_ne_zero (by simpa using hrefs))
      · refine (h.due w hpin).imp (fun hd => ?_) id
        rwa [← update_of_ne he (c.held v - 1) c.held] at hd
  · cases hact
    exact h

/-- The last drop of a pinned version sees the flag set. -/
theorem Pinning.is_resident (hw : Whole b c)
    (hact : c.act b (.is_resident v) = some (c', more)) : Pinning c' := by
  simp only [Cache.act] at hact
  split at hact
  · rename_i record hrec
    obtain ⟨rfl, -⟩ := hw.placed.recorded v record hrec
    split at hact
    · obtain ⟨s, hi, he⟩ := map_eq_some_iff.mp hact
      cases he
      refine ⟨h.bare, h.pinned, fun w hpin => (h.due w hpin).imp_right fun hd => ?_⟩
      by_cases he : w = record.version
      · subst he
        obtain ⟨⟨q, hg⟩, -⟩ := hw.placed.good _ s hi
        have hflag := (hg.flags _).mpr
          (hw.placed.pins_here hi hrec (by rw [Cache.shard, hw.placed.count]) hpin).held
        exact .inr (by simp [hflag])
      · refine hd.imp (fun hd => (mem_erase_of_ne he).mpr hd) fun hd => ?_
        show w ∈ if s.resident record.version = true then _ else _
        split
        · exact mem_append_left _ hd
        · exact hd
    · cases hact
      exact h
  · cases hact
    exact h

/-- A release unpins its version exactly if it has no handle. -/
theorem Pinning.release (hw : Whole b c) (hp : b.policy.pins = true)
    (hact : c.act b (.release v) = some (c', more)) (hs : Steps b c (.release v) c' more) :
    Pinning c' := by
  simp only [Cache.act] at hact
  split at hact
  · rename_i record hrec
    split at hact
    · rename_i hin
      obtain ⟨⟨c1, removed⟩, hlock, he⟩ := map_eq_some_iff.mp hact
      cases he
      obtain ⟨-, -, h1, h2, h3, h4⟩ := locked_some hlock
      refine h.step hs hp (fun w => h.spare hs (congrFun h2 w))
        (fun w hr hheld => ?_) fun w hr hwhich => ?_
      · have hheld' : 0 < c.held w := h1 ▸ hheld
        have hr0 := hs.was_resident (offered_leaves removed) hr
        refine .inr ⟨hr0, hheld', fun hu => ?_⟩
        have := hu.2.2.2
        rw [h.references hw hr0] at this
        omega
      · show 0 < c1.held w ∨ w ∈ c1.dropping ∨ w ∈ c1.releasing.erase v
        rw [h1, h3, h4]
        rcases hwhich with hb | ⟨hpin, hd, hu⟩
        · rw [← nil_append (Cache.leaves _), pinnedBy_leaves] at hb
          exact absurd hb (not_pinnedBy_nil w)
        · by_cases he : w = v
          · subst he
            have hne : c.references w ≠ 0 := fun hz =>
              hu ⟨rfl, (List.getElem?_eq_some_iff.mp hrec).1, hin, hz⟩
            rw [h.references hw hpin.resident] at hne
            exact .inl (Nat.pos_of_ne_zero hne)
          · exact hd.imp_right (Or.imp_right (mem_erase_of_ne he).mpr)
    · cases hact
      exact h
  · cases hact
    exact h

/-- A removal hands out handles of versions that are gone. -/
theorem Pinning.remove (hw : Whole b c) (hp : b.policy.pins = true) {key : K}
    (hact : c.act b (.remove key) = some (c', more)) (hs : Steps b c (.remove key) c' more) :
    Pinning c' := by
  obtain ⟨⟨c1, removed⟩, hlock, he⟩ := map_eq_some_iff.mp hact
  cases he
  obtain ⟨-, -, h1, h2, h3, h4⟩ := locked_some hlock
  obtain ⟨e1, e3, e4⟩ := acquire_all_handles c1 removed
  have hoff : offered (.removed key :: Cache.leaves removed) = [] := by
    rw [← singleton_append, offered_append, offered_leaves]
    rfl
  have hleft : ∀ e ∈ removed, e.1.version ∈ (leavers (.removed key :: Cache.leaves removed)).map
    Prod.fst := by
    intro e he
    rw [← singleton_append, leavers_append, leavers_leaves, map_append]
    exact mem_append_right _ (mem_map.mpr ⟨_, mem_map_of_mem he, rfl⟩)
  refine h.step hs hp (fun w hv => h.spare hs ?_ hv) (fun w hr hheld => ?_) fun w hr hwhich => ?_
  · refine (acquire_all_bare c1 removed fun e he hew => ?_).trans (congrFun h2 w)
    exact hs.left_gone hw hoff (hleft e he) (hew ▸ hv)
  · rw [e1, h1] at hheld
    exact .inr ⟨hs.was_resident hoff hr, hheld, fun hu => by cases hu.1⟩
  · simp only [e1, e3, e4, h1, h3, h4]
    rcases hwhich with hb | ⟨-, hd, -⟩
    · rw [← singleton_append, pinnedBy_leaves] at hb
      simp [PinnedBy] at hb
    · exact hd

/-- So does a notification. -/
theorem Pinning.notify (ht : Told b c seen) {i : Nat}
    (hact : c.act b (.notify i) = some (c', more)) : Pinning c' := by
  simp only [Cache.act] at hact
  split at hact
  · rename_i record reason rest hi
    have hgone := ht.waiting_gone (e := (record.version, reason))
      (mem_map.mpr ⟨(record, reason), mem_flatten.mpr ⟨_, mem_of_getElem? hi, mem_cons_self⟩, rfl⟩)
    cases hact
    split
    · refine ⟨fun w hw => ?_, h.pinned, h.due⟩
      by_cases he : w = record.version
      · subst he
        rcases hw with hw | hw | hw
        · exact absurd hw hgone.1
        · have hw' : (c.prepared record.version).isSome = true := hw
          rw [hgone.2.1] at hw'
          cases hw'
        · exact absurd hgone.2.2 (Nat.not_lt.mpr hw)
      · exact (update_of_ne he ..).trans (h.bare w hw)
    · exact ⟨h.bare, h.pinned, h.due⟩
  · cases hact
    exact h

/-- Every action keeps the meaning of handles. -/
theorem Pinning.act (ht : Told b c seen) (hp : b.policy.pins = true)
    (hact : c.act b a = some (c', more)) (hs : Steps b c a c' more) : Pinning c' := by
  have hw := ht.whole
  -- an action that is not possible
  have hstay : some (c, []) = some (c', more) → Pinning c' := by
    intro he
    cases he
    exact h
  cases a with
  | prepare | reject_residency v =>
    cases hact
    exact h.still hs hp rfl rfl rfl rfl rfl (fun v hv => by cases hv.1) not_pinnedBy_nil
  | commit v =>
    simp only [Cache.act] at hact
    split at hact
    · exact h.commit_entry hp hact hs fun v hv => by cases hv.1
    · exact hstay hact
  | promote v =>
    simp only [Cache.act] at hact
    split at hact
    · exact h.commit_entry hp hact hs fun v hv => by cases hv.1
    · rename_i record hprep hrec
      cases hact
      obtain ⟨h1, h2, h3, h4⟩ := acquire_pins (c := { c with
        prepared := update c.prepared v none
        pending := c.pending ++ [[(record, .Rejected)]] }) hp v
      refine h.hand hs hp h1 h2 h3 h4 (fun v hv => by cases hv.1)
        (fun w hw => by simp [PinnedBy] at hw)
        (fun w hw => by simpa [offered] using hw) fun hr => absurd hr
        (hs.gone v (by simp [leavers]))
    · exact hstay hact
  | abandon v =>
    simp only [Cache.act] at hact
    split at hact
    · rename_i x hx
      cases hact
      obtain ⟨h1, h2, h3, h4⟩ := acquire_pins (c := { c with prepared := update c.prepared v none })
        hp v
      refine h.hand hs hp h1 h2 h3 h4 (fun v hv => by cases hv.1)
        (fun w hw => absurd hw (not_pinnedBy_nil w))
        (fun w hw => by simp [offered] at hw) fun hr => ?_
      exact absurd (hs.was_resident rfl hr) (hw.fresh v (by rw [hx]; rfl)).2
    · exact hstay hact
  | get key =>
    obtain ⟨s, -, hget⟩ := bind_eq_some_iff.mp hact
    obtain ⟨⟨found, s'⟩, -, he⟩ := map_eq_some_iff.mp hget
    cases found with
    | none =>
      cases he
      exact h.still hs hp rfl rfl rfl rfl rfl (fun v hv => by cases hv.1) fun v hv => by
        simp [PinnedBy] at hv
    | some record =>
      cases he
      obtain ⟨h1, h2, h3, h4⟩ :=
        acquire_pins (c := { c with shards := c.shards.set (c.shard (b.hash key)) s' })
        hp record.version
      exact h.hand hs hp h1 h2 h3 h4 (fun v hv => by cases hv.1)
        (fun w hw => by simpa [PinnedBy] using hw)
        (fun w hw => by simp [offered] at hw) fun _ => .inl ⟨key, .inr (by simp)⟩
  | clone v =>
    simp only [Cache.act] at hact
    split at hact
    · rename_i hc
      cases hact
      refine h.hand hs hp rfl rfl rfl rfl (fun v hv => by cases hv.1)
        (fun w hw => absurd hw (not_pinnedBy_nil w))
        (fun w hw => by simp [offered] at hw) fun hr => .inr ⟨hr, ?_⟩
      rcases hc with hc | ⟨-, hc⟩
      · exact hc
      · exact absurd hr (hw.fresh v hc).2
    · exact hstay hact
  | clone_bare v =>
    simp only [Cache.act] at hact
    split at hact
    · rename_i hc
      cases hact
      -- under a policy with pins only a bare handle clones to one
      have hpos : 0 < c.bare v := by
        rcases hc with hc | ⟨hc, -⟩
        · exact hc
        · rw [hp] at hc
          cases hc
      refine ⟨fun w hw' => ?_, h.pinned, h.due⟩
      have hz : c.bare w = 0 := h.bare w hw'
      exact (update_of_ne (fun he => by subst he; omega) ..).trans hz
    · exact hstay hact
  | drop => exact h.drop hw hact
  | drop_bare v =>
    cases hact
    refine ⟨fun w hw' => ?_, h.pinned, h.due⟩
    have hz : c.bare w = 0 := h.bare w hw'
    by_cases he : w = v
    · subst he
      simp only [update_self]
      omega
    · exact (update_of_ne he ..).trans hz
  | is_resident => exact h.is_resident hw hact
  | release => exact h.release hw hp hact hs
  | remove => exact h.remove hw hp hact hs
  | clear =>
    simp only [Cache.act] at hact
    split at hact
    · obtain ⟨⟨c1, removed⟩, hlock, he⟩ := map_eq_some_iff.mp hact
      cases he
      obtain ⟨-, -, h1, h2, h3, h4⟩ := locked_some hlock
      refine h.still hs hp h1 h2 h3 h4 ?_ (fun v hv => by cases hv.1) fun v hv => ?_
      · rw [← singleton_append, offered_append, offered_leaves]
        rfl
      · rw [← singleton_append, pinnedBy_leaves] at hv
        simp [PinnedBy] at hv
    · exact hstay hact
  | resize =>
    simp only [Cache.act] at hact
    split at hact
    · obtain ⟨⟨c1, removed⟩, hlock, he⟩ := map_eq_some_iff.mp hact
      cases he
      obtain ⟨-, -, h1, h2, h3, h4⟩ := locked_some hlock
      refine h.still hs hp h1 h2 h3 h4 (offered_leaves _) (fun v hv => by cases hv.1) fun v hv => ?_
      rw [← nil_append (Cache.leaves _), pinnedBy_leaves] at hv
      exact not_pinnedBy_nil v hv
    · exact hstay hact
  | notify => exact h.notify ht hact

end

/-! ## Whole runs -/

/-- The version is in one of the two lists that victims are taken from. -/
def Unpinned (c : Cache K V P) (v : Nat) : Prop :=
  ∃ (i : Nat) (s : Shard K V P) (id : Nat) (n : Node K V P), c.shards[i]? = some s ∧
    s.nodes.get id = some n ∧ n.record.version = v ∧ (n.queue = some 0 ∨ n.queue = some 1)

omit [DecidableEq K] in
/-- A resident version is in one of the lists. -/
theorem Whole.pinned_or_unpinned (h : Whole b c) (hv : Resident c v) :
    Pinned c v ∨ Unpinned c v := by
  obtain ⟨r, ⟨i, s, hi, id, n, hn, rfl⟩, rfl⟩ := hv
  obtain ⟨⟨q, hg⟩, -⟩ := h.placed.good i s hi
  obtain ⟨j, hj⟩ := hg.linked id n hn
  obtain ⟨n', hn', hq⟩ := hg.sound.get hj
  rw [hn] at hn'
  cases hn'
  match j with
  | 0 => exact .inr ⟨i, s, id, n, hi, hn, rfl, .inl hq⟩
  | 1 => exact .inr ⟨i, s, id, n, hi, hn, rfl, .inr hq⟩
  | 2 => exact .inl ⟨i, s, hi, id, n, hn, rfl, hq⟩

theorem pinning_run (h : b.build = .ok c) (hp : b.policy.pins = true) (acts : List (Act K V P)) :
    ∃ c' seen, Cache.run b c acts = some (c', seen) ∧ Told b c' seen ∧ Pinning c' := by
  induction acts using List.reverseRecOn with
  | nil =>
    obtain ⟨-, hnone, hbare, -⟩ := Builder.build_whole h
    exact ⟨c, [], rfl, told_new h, fun v _ => hbare v, fun v hv => absurd hv (hnone v),
      fun v hv => absurd hv.resident (hnone v)⟩
  | append_singleton _ a ih =>
    obtain ⟨c1, seen, hrun, ht, hpin⟩ := ih
    obtain ⟨c2, more, hact, hs⟩ := ht.whole.act_steps a
    exact ⟨c2, seen ++ more, run_snoc hrun hact, ht.step hs, hpin.act ht hp hact hs⟩

/-- Under LRU, after any interleaving of atomic steps, a resident version with a handle is pinned,
so that no step evicts it, and one with neither a handle nor a release in progress is in one of the
other two lists. -/
theorem handles_pin_resident_versions {config : LruConfig} (h : b.build = .ok c)
    (hlru : b.policy = .Lru config) (acts : List (Act K V P)) :
    ∃ c' seen, Cache.run b c acts = some (c', seen) ∧
      (∀ v, Resident c' v → 0 < c'.references v → Pinned c' v ∧
        ∀ a c'' more, c'.act b a = some (c'', more) → (v, .Evicted) ∉ leavers more) ∧
      ∀ v, Resident c' v → c'.references v = 0 → v ∉ c'.dropping → v ∉ c'.releasing →
        Unpinned c' v := by
  have hp : b.policy.pins = true := by rw [hlru]; rfl
  obtain ⟨c1, seen, hrun, ht, hpin⟩ := pinning_run h hp acts
  refine ⟨c1, seen, hrun, fun v hr hv => ?_, fun v hr hz hdrop hrel => ?_⟩
  · have hpinned := hpin.pinned v hr (hpin.references ht.whole hr ▸ hv)
    refine ⟨hpinned, fun a c2 more hact hev => ?_⟩
    obtain ⟨c3, more', hact', hs⟩ := ht.whole.act_steps a
    rw [hact] at hact'
    cases hact'
    have := (hs.evicted hp v hev hpinned).2.2.2
    omega
  · refine (ht.whole.pinned_or_unpinned hr).resolve_left fun hpinned => ?_
    rw [hpin.references ht.whole hr] at hz
    rcases hpin.due v hpinned with hd | hd | hd
    · omega
    · exact hdrop hd
    · exact hrel hd

/-- An entry is written and its last handle dropped; before the release takes the lock, the entry is
found again. -/
def foundAgain : List (Act Nat Nat Unit) :=
  [.prepare 5 1 () .Normal, .commit 0, .drop 0, .is_resident 0, .get 5, .release 0]

theorem found_again_stays_pinned :
    (Cache.run (small (.Lru ⟨50⟩)) (smallCache (.Lru ⟨50⟩)) foundAgain).map
    (fun x => x.1.references 0) = some 1 ∧
      ∃ c' seen, Cache.run (small (.Lru ⟨50⟩)) (smallCache (.Lru ⟨50⟩)) foundAgain =
        some (c', seen) ∧
        ∀ v, Resident c' v → 0 < c'.references v → Pinned c' v := by
  have hbuild : (small (.Lru ⟨50⟩)).build = .ok (smallCache (.Lru ⟨50⟩)) := rfl
  obtain ⟨c', seen, hrun, hpin, -⟩ := handles_pin_resident_versions hbuild rfl foundAgain
  exact ⟨by decide +kernel, c', seen, hrun, fun v hr hv => (hpin v hr hv).1⟩

end

end moat_cache_memory
