-- Which mutation wrote what is in a chunk, in a slot of the directory and in
-- memory: a slot never holds a key's version older than a mutation of that key
-- which has done its disk work.
import Moat.CacheJobs
import Moat.CacheLimits

namespace moat_cache

open moat_common scheduler List Function Option

/-! ## The store after a request -/

theorem Store.live_publish_self (s : Store) (id : ChunkId) (v : moat_server.storage.Version)
    (h : s.draws id v.lsn) :
    (s.publish id v h).live id = v.value.map (fun value => (v.lsn, value)) := by
  simp only [Store.live, Store.publish, AList.lookup_insert, bind_some]

variable {id : ChunkId} {s s' : Store} {value k : Bytes} {o : Choice} {expected : Nat} {e : Entry}
  {c : Config} {m : Memory} {victims : List Bytes}

theorem Store.live_publish_other (s : Store) {i : ChunkId} (v : moat_server.storage.Version)
    (h : s.draws id v.lsn) (hi : i ≠ id) : (s.publish id v h).live i = s.live i := by
  simp only [Store.live, Store.publish, AList.lookup_insert_ne hi]

theorem Store.live_lookup {lsn : Nat}
    (h : s.live id = some (lsn, value)) : s.chunks.lookup id = some ⟨lsn, some value⟩ := by
  unfold Store.live at h
  cases hl : s.chunks.lookup id with
  | none => rw [hl] at h; cases h
  | some v =>
    obtain ⟨l, val⟩ := v
    rw [hl] at h
    cases val with
    | none => cases h
    | some => cases h; rfl

/-- What a put can do: store the value under a new LSN, with or without a good answer, or
nothing. -/
theorem Store.put_cases
    {result : Except moat_cache_store.Error Nat} (h : s.put id value o = some (result, s')) :
    (∃ hd : s.draws id o.lsn, s' = s.publish id ⟨o.lsn, some value⟩ hd ∧
      (result = .ok o.lsn ∨ (∃ e, result = .error e) ∧ o.executed = true)) ∨
      (s' = s ∧ ∃ e, result = .error e) := by
  unfold Store.put at h
  split at h
  · rename_i e _
    split at h
    · rename_i hex
      split at h
      · rename_i hd
        cases h
        exact .inl ⟨hd, rfl, .inr ⟨⟨e, rfl⟩, hex⟩⟩
      · cases h
    · cases h
      exact .inr ⟨rfl, e, rfl⟩
  · split at h
    · rename_i hd
      cases h
      exact .inl ⟨hd, rfl, .inl rfl⟩
    · cases h

/-- What a conditional delete can do: put a tombstone over the expected version, or nothing. -/
theorem Store.delete_cases {result : Except moat_cache_store.Error moat_cache_store.DeleteResult}
    (h : s.delete id expected o = some (result, s')) :
    (∃ (hd : s.draws id o.lsn) (value : Bytes), s.live id = some (expected, value) ∧
      s' = s.publish id ⟨o.lsn, none⟩ hd ∧
      (result = .ok (.Deleted o.lsn) ∨ (∃ e, result = .error e) ∧ o.executed = true)) ∨
      (s' = s ∧ ((∃ e, result = .error e) ∨
        (result = .ok .Missing ∧ s.live id = none) ∨
        (result = .ok .Changed ∧ ∃ lsn value, s.live id = some (lsn, value) ∧
        expected ≠ lsn))) := by
  unfold Store.delete at h
  split at h
  · rename_i lsn value hl
    split at h
    · rename_i e _
      split at h
      · rename_i hex
        obtain ⟨hex, rfl⟩ := hex
        split at h
        · rename_i hd
          cases h
          exact .inl ⟨hd, value, hl, rfl, .inr ⟨⟨e, rfl⟩, hex⟩⟩
        · cases h
      · cases h
        exact .inr ⟨rfl, .inl ⟨e, rfl⟩⟩
    · split at h
      · rename_i hne
        cases h
        exact .inr ⟨rfl, .inr (.inr ⟨rfl, lsn, value, hl, hne⟩)⟩
      · rename_i heq
        rw [ne_eq, not_not] at heq
        subst heq
        split at h
        · rename_i hd
          cases h
          exact .inl ⟨hd, value, hl, rfl, .inl rfl⟩
        · cases h
  · rename_i hl
    split at h
    · rename_i e _
      cases h
      exact .inr ⟨rfl, .inl ⟨e, rfl⟩⟩
    · cases h
      exact .inr ⟨rfl, .inr (.inl ⟨rfl, hl⟩)⟩

/-- After a good answer to a conditional delete the chunk is gone, and nothing else. -/
theorem Store.delete_ok {result : moat_cache_store.DeleteResult}
    (h : s.delete id expected o = some (.ok result, s')) (hr : result ≠ .Changed) :
    s'.live id = none ∧ (∀ i, i ≠ id → s'.live i = s.live i) ∧
      s.drawn.length ≤ s'.drawn.length := by
  rcases Store.delete_cases h with ⟨hd, value, hl, rfl, -⟩ | ⟨rfl, ⟨e, he⟩ | ⟨-, hl⟩ | ⟨he, -⟩⟩
  · exact ⟨by rw [Store.live_publish_self]; rfl, fun i hi => Store.live_publish_other s _ hd hi,
      Nat.le_succ _⟩
  · cases he
  · exact ⟨hl, fun _ _ => rfl, Nat.le_refl _⟩
  · cases he
    exact absurd rfl hr

theorem Store.delete_changed (h : s.delete id expected o = some (.ok .Changed, s')) :
    ∃ lsn value, s.live id = some (lsn, value) ∧ expected ≠ lsn := by
  rcases Store.delete_cases h with ⟨-, -, -, -, hr | ⟨⟨e, hr⟩, -⟩⟩ |
    ⟨-, ⟨e, hr⟩ | ⟨hr, -⟩ | ⟨-, hl⟩⟩
  · cases hr
  · cases hr
  · cases hr
  · cases hr
  · exact hl

/-- A delete that has failed without effect leaves the store. -/
theorem Store.delete_error {e : moat_cache_store.Error}
    (h : s.delete id expected o = some (.error e, s')) (ho : o.executed = false) : s' = s := by
  rcases Store.delete_cases h with ⟨-, -, -, -, hr | ⟨-, hex⟩⟩ | ⟨rfl, -⟩
  · cases hr
  · rw [ho] at hex
    cases hex
  · rfl

theorem Store.put_error {e : moat_cache_store.Error} (h : s.put id value o = some (.error e, s'))
    (ho : o.executed = false) : s' = s := by
  rcases Store.put_cases h with ⟨-, -, hr | ⟨-, hex⟩⟩ | ⟨rfl, -⟩
  · cases hr
  · rw [ho] at hex
    cases hex
  · rfl

/-! ## Versions on disk -/

/-- The version that an envelope carries. -/
def Envelope.entry (e : Envelope) : Entry := ⟨e.key, e.value, e.properties, e.priority⟩

/-- Who wrote the version of a chunk with an LSN, and its bytes. Nobody of this cache wrote what it
found on the disk. -/
abbrev Past := ChunkId → Nat → Option (Option Nat × Bytes)

/-- Mutation `m` was admitted after the writer. -/
def newer (writer : Option Nat) (m : Nat) : Prop := ∀ n ∈ writer, n < m

/-- The job has a reservation. -/
def JobStage.reserved : JobStage → Bool
  | .Putting | .Stored _ => true
  | _ => false

/-- What a job knows of its chunk. -/
def Mutation.Knows (c : Config) (past : Past) (disks : Nat → catalog.State) (n : Nat)
    (j : Mutation) : Prop :=
  match j.stage with
  | .Stored lsn => ∃ p b, j.task = .Write p b ∧ past (c.identify j.key) lsn = some (some n, b)
  | .Reading lsn | .Removing lsn _ =>
    ∀ l, (disks (c.place j.key)).lsn (c.identify j.key) = some l → l = lsn
  | .Deleting lsn =>
    (∀ l, (disks (c.place j.key)).lsn (c.identify j.key) = some l → l = lsn) ∧
      ∃ w b env, past (c.identify j.key) lsn = some (w, b) ∧ c.format.decode b = .ok env ∧
        env.key = j.key
  | _ => True

/-- What a lookup has read is a version of its key. -/
def Call.Knows (c : Config) (past : Past) : Call → Prop
  | .Lookup key (.Validate _ lsn p) =>
    ∃ w b env, past (c.identify key) lsn = some (w, b) ∧ c.format.decode b = .ok env ∧
      env.key = key ∧ p.entry = env.entry
  | .Admit p _ encoded =>
    c.format.encode ⟨p.entry.key, p.entry.value, p.entry.properties, 1, p.entry.priority⟩
      (c.chunk_max (c.place p.entry.key)) = .ok encoded
  | _ => True

theorem Call.Knows.mono {past past' : Past} {x : Call}
    (hsub : ∀ id lsn y, past id lsn = some y → past' id lsn = some y) (h : x.Knows c past) :
    x.Knows c past' := by
  unfold Call.Knows at h ⊢
  split
  · obtain ⟨w, b, env, hp, hrest⟩ := h
    exact ⟨w, b, env, hsub _ _ _ hp, hrest⟩
  · exact h
  · trivial

theorem Mutation.Knows.mono {past past' : Past} {disks : Nat → catalog.State} {n : Nat}
    {j : Mutation} (hsub : ∀ id lsn y, past id lsn = some y → past' id lsn = some y)
    (h : j.Knows c past disks n) : j.Knows c past' disks n := by
  unfold Mutation.Knows at h ⊢
  split <;> rename_i hst <;> simp only [hst] at h
  · obtain ⟨p, b, ht, hp⟩ := h
    exact ⟨p, b, ht, hsub _ _ _ hp⟩
  · exact h
  · exact h
  · obtain ⟨h1, w, b, env, hp, hrest⟩ := h
    exact ⟨h1, w, b, env, hsub _ _ _ hp, hrest⟩
  · trivial

structure Traced (c : Config) (init : Nat → Store) (past : Past) (store : Nat → Store)
    (disks : Nat → catalog.State) (calls : List Call) (jobs : List Mutation) : Prop where
  stored : ∀ id lsn b, (store (c.disk_of id)).live id = some (lsn, b) →
    ∃ w, past id lsn = some (w, b)
  bound : ∀ id lsn x, past id lsn = some x →
    ∃ v, (store (c.disk_of id)).chunks.lookup id = some v ∧ lsn ≤ v.lsn
  written : ∀ id lsn n b, past id lsn = some (some n, b) →
    ∃ j p, jobs[n]? = some j ∧ c.identify j.key = id ∧ j.task = .Write p b
  initial : ∀ id lsn b, past id lsn = some (none, b) →
    (init (c.disk_of id)).live id = some (lsn, b)
  slot : ∀ id lsn, (disks (c.disk_of id)).lsn id = some lsn → ∃ w b, past id lsn = some (w, b) ∧
    ∀ (m : Nat) (j : Mutation), jobs[m]? = some j → c.identify j.key = id → newer w m →
      j.stage.settled = true → ∀ env, c.format.decode b = .ok env → env.key ≠ j.key
  active : ∀ id, id ∈ (disks (c.disk_of id)).active →
    ∃ (n : Nat) (j : Mutation), jobs[n]? = some j ∧ c.identify j.key = id ∧
      j.stage.reserved = true
  jobs_know : ∀ (n : Nat) (j : Mutation), jobs[n]? = some j → j.Knows c past disks n
  calls_know : ∀ x ∈ calls, x.Knows c past
  tasks : ∀ (n : Nat) (j : Mutation) p b, jobs[n]? = some j → j.task = .Write p b →
    p.entry.key = j.key ∧ ∃ env, c.format.decode b = .ok env ∧ p.entry = env.entry

namespace Traced

variable {c : Config} {init : Nat → Store} {past past' : Past} {store : Nat → Store}
  {disks : Nat → catalog.State} {calls : List Call} {jobs : List Mutation} {n i d : Nat}
  {j : Mutation}

variable (h : Traced c init past store disks calls jobs) {id : ChunkId}
include h

theorem set_call {y : Call} (hy : y.Knows c past) :
    Traced c init past store disks (calls.set i y) jobs := by
  refine { h with calls_know := fun x hx => ?_ }
  rcases mem_or_eq_of_mem_set hx with hx | rfl
  · exact h.calls_know x hx
  · exact hy

theorem begin_ {y : Call} (hy : y.Knows c past) :
    Traced c init past store disks (calls ++ [y]) jobs := by
  refine { h with calls_know := fun x hx => ?_ }
  rcases mem_append.mp hx with hx | hx
  · exact h.calls_know x hx
  · rw [mem_singleton.mp hx]; exact hy

/-- What has been read from a disk is a version of its past. -/
theorem read
    {chunk : moat_cache_store.Chunk} (hg : (store (c.disk_of id)).get id o = .ok (some chunk)) :
    ∃ w, past id chunk.lsn = some (w, chunk.bytes) := by
  unfold Store.get at hg
  cases hf : o.fails with
  | some => rw [hf] at hg; cases hg
  | none =>
    rw [hf] at hg
    cases hl : (store (c.disk_of id)).live id with
    | none => rw [hl] at hg; cases hg
    | some x => rw [hl] at hg; cases hg; exact h.stored id x.1 x.2 hl

/-- Slots may go, and reservations must be somebody's. -/
theorem set_disk {state : catalog.State}
    (hl : ∀ id, state.lsn id = none ∨ state.lsn id = (disks d).lsn id)
    (ha : ∀ id, id ∈ state.active → id ∈ (disks d).active ∨
      ∃ (n : Nat) (j : Mutation), jobs[n]? = some j ∧ c.identify j.key = id ∧
        j.stage.reserved = true) :
    Traced c init past store (update disks d state) calls jobs := by
  have hlsn : ∀ id lsn, (update disks d state (c.disk_of id)).lsn id = some lsn →
      (disks (c.disk_of id)).lsn id = some lsn := by
    intro id lsn hs
    by_cases hd : c.disk_of id = d
    · rw [hd, update_self] at hs
      rcases hl id with h0 | h0
      · rw [h0] at hs; cases hs
      · rw [hd, ← h0]; exact hs
    · rwa [update_of_ne hd] at hs
  refine { h with slot :=
    fun id lsn hs => h.slot id lsn (hlsn id lsn hs), active := ?_, jobs_know := ?_ }
  · intro id hm
    by_cases hd : c.disk_of id = d
    · rw [hd, update_self] at hm
      rcases ha id hm with hm | hm
      · exact h.active id (hd ▸ hm)
      · exact hm
    · rw [update_of_ne hd] at hm
      exact h.active id hm
  · intro n j hj
    have hk := h.jobs_know n j hj
    unfold Mutation.Knows at hk ⊢
    split <;> rename_i hst <;> simp only [hst] at hk
    · exact hk
    · exact fun l hs => hk l (hlsn _ l hs)
    · exact fun l hs => hk l (hlsn _ l hs)
    · exact ⟨fun l hs => hk.1 l (hlsn _ l hs), hk.2⟩
    · trivial

/-- A running job goes on. When it has done its disk work, no slot holds an older version of its
key. -/
theorem set_job (hj : jobs[n]? = some j)
    {stage : JobStage} (hk : Mutation.Knows c past disks n { j with stage })
    (hs : stage.settled = true → j.stage.settled = true ∨
      ∀ lsn w b, (disks (c.place j.key)).lsn (c.identify j.key) = some lsn →
        past (c.identify j.key) lsn = some (w, b) → newer w n →
          ∀ env, c.format.decode b = .ok env → env.key ≠ j.key)
    (hr : j.stage.reserved = true → stage.reserved = false →
      c.identify j.key ∉ (disks (c.place j.key)).active) :
    Traced c init past store disks calls (jobs.set n { j with stage }) := by
  have hlen := (List.getElem?_eq_some_iff.mp hj).1
  have hget : ∀ (m : Nat) (j' : Mutation), jobs[m]? = some j' →
      ∃ j'', (jobs.set n { j with stage })[m]? = some j'' ∧ j''.key = j'.key ∧
        j''.task = j'.task ∧ (m ≠ n → j'' = j') := by
    intro m j' hm
    by_cases hmn : m = n
    · subst hmn
      rw [hj] at hm
      cases hm
      exact ⟨_, List.getElem?_set_self hlen, rfl, rfl, fun hne => absurd rfl hne⟩
    · exact ⟨j', by rw [List.getElem?_set_ne (Ne.symm hmn)]; exact hm, rfl, rfl, fun _ => rfl⟩
  refine ⟨h.stored, h.bound, fun id lsn m b hp => ?_, h.initial, fun id lsn hl => ?_,
    fun id hm => ?_,
    fun m j' hm => ?_, h.calls_know, fun m j' p b hm => ?_⟩
  · obtain ⟨j', p, hj', hid, ht⟩ := h.written id lsn m b hp
    obtain ⟨j'', h1, h2, h3, -⟩ := hget m j' hj'
    exact ⟨j'', p, h1, by rw [h2]; exact hid, h3.trans ht⟩
  · obtain ⟨w, b, hp, hord⟩ := h.slot id lsn hl
    refine ⟨w, b, hp, fun m j' hm hid hw hset env henv => ?_⟩
    rcases getElem?_set_cases hm with ⟨rfl, rfl⟩ | ⟨-, hm⟩
    · simp only at hid hset ⊢
      subst hid
      rcases hs hset with hset | hnew
      · exact hord m j hj rfl hw hset env henv
      · exact hnew lsn w b hl hp hw env henv
    · exact hord m j' hm hid hw hset env henv
  · obtain ⟨m, j', hj', hid, hres⟩ := h.active id hm
    by_cases hmn : m = n
    · subst hmn
      rw [hj] at hj'
      cases hj'
      refine ⟨m, _, List.getElem?_set_self hlen, hid, ?_⟩
      cases hsr : stage.reserved with
      | true => rfl
      | false =>
        subst hid
        exact absurd hm (hr hres hsr)
    · exact ⟨m, j', by rw [List.getElem?_set_ne (Ne.symm hmn)]; exact hj', hid, hres⟩
  · rcases getElem?_set_cases hm with ⟨rfl, rfl⟩ | ⟨-, hm⟩
    · exact hk
    · exact h.jobs_know m j' hm
  · rcases getElem?_set_cases hm with ⟨rfl, rfl⟩ | ⟨-, hm⟩
    · exact h.tasks m j p b hj
    · exact h.tasks m j' p b hm

/-- A new version of a chunk, or a tombstone, is on the disk. -/
theorem publish {v : moat_server.storage.Version} (hd : (store (c.disk_of id)).draws id v.lsn)
    (hv : ∀ b ∈ v.value, ∃ j p, jobs[n]? = some j ∧ c.identify j.key = id ∧ j.task = .Write p b) :
    ∃ past', Traced c init past'
        (update store (c.disk_of id) ((store (c.disk_of id)).publish id v hd)) disks calls
        jobs ∧
      (∀ id lsn y, past id lsn = some y → past' id lsn = some y) ∧
      ∀ b ∈ v.value, past' id v.lsn = some (some n, b) := by
  -- Nothing was ever stored under the new LSN.
  have hfresh : past id v.lsn = none := by
    cases hp : past id v.lsn with
    | none => rfl
    | some x =>
      obtain ⟨old, hold, hle⟩ := h.bound id v.lsn x hp
      exact absurd (hd.2.2.2 old hold) (by omega)
  let past' : Past := fun id' lsn =>
    if id' = id ∧ lsn = v.lsn then v.value.map (fun b => (some n, b)) else past id' lsn
  have hsub : ∀ id' lsn y, past id' lsn = some y → past' id' lsn = some y := by
    intro id' lsn y hp
    have hne : ¬ (id' = id ∧ lsn = v.lsn) := by
      rintro ⟨rfl, rfl⟩
      rw [hfresh] at hp
      cases hp
    simp only [past', if_neg hne]
    exact hp
  have hnew : ∀ id' lsn y, past' id' lsn = some y → past id' lsn = some y ∨
      (id' = id ∧ lsn = v.lsn ∧ ∃ b ∈ v.value, y = (some n, b)) := by
    intro id' lsn y hp
    simp only [past'] at hp
    split at hp
    · rename_i he
      obtain ⟨b, hb, rfl⟩ := map_eq_some_iff.mp hp
      exact .inr ⟨he.1, he.2, b, hb, rfl⟩
    · exact .inl hp
  have hpast : ∀ b ∈ v.value, past' id v.lsn = some (some n, b) := fun b hb => by
    simp only [past', and_self, if_true]
    rw [show v.value = some b from hb]
    rfl
  refine ⟨past', ⟨fun id' lsn b hl => ?_, fun id' lsn y hp => ?_, fun id' lsn m b hp => ?_,
    fun id' lsn b hp => ?_, fun id' lsn hl => ?_, h.active,
    fun m j' hm => (h.jobs_know m j' hm).mono hsub, fun x hx => (h.calls_know x hx).mono hsub,
    h.tasks⟩, hsub, hpast⟩
  · by_cases hid : id' = id
    · subst hid
      rw [update_self, Store.live_publish_self] at hl
      obtain ⟨b', hb', he⟩ := map_eq_some_iff.mp hl
      cases he
      exact ⟨some n, hpast b hb'⟩
    · have hlive : (store (c.disk_of id')).live id' = some (lsn, b) := by
        by_cases hdk : c.disk_of id' = c.disk_of id
        · rw [hdk, update_self, Store.live_publish_other _ _ _ hid] at hl
          rw [hdk]; exact hl
        · rwa [update_of_ne hdk] at hl
      obtain ⟨w, hw⟩ := h.stored id' lsn b hlive
      exact ⟨w, hsub _ _ _ hw⟩
  · by_cases hid : id' = id
    · subst hid
      rw [update_self]
      refine ⟨v, AList.lookup_insert _, ?_⟩
      rcases hnew id' lsn y hp with hp | ⟨-, rfl, -⟩
      · obtain ⟨old, hold, hle⟩ := h.bound id' lsn y hp
        exact Nat.le_of_lt (Nat.lt_of_le_of_lt hle (hd.2.2.2 old hold))
      · exact Nat.le_refl _
    · rcases hnew id' lsn y hp with hp | ⟨he, -⟩
      · obtain ⟨old, hold, hle⟩ := h.bound id' lsn y hp
        refine ⟨old, ?_, hle⟩
        by_cases hdk : c.disk_of id' = c.disk_of id
        · rw [hdk, update_self]
          rw [hdk] at hold
          exact (AList.lookup_insert_ne hid).trans hold
        · rw [update_of_ne hdk]; exact hold
      · exact absurd he hid
  · rcases hnew id' lsn _ hp with hp | ⟨rfl, -, b', hb', he⟩
    · exact h.written id' lsn m b hp
    · cases he
      exact hv b hb'
  · rcases hnew id' lsn _ hp with hp | ⟨-, -, b', -, he⟩
    · exact h.initial id' lsn b hp
    · cases he
  · obtain ⟨w, b, hp, hord⟩ := h.slot id' lsn hl
    exact ⟨w, b, hsub _ _ _ hp, hord⟩

/-- A tombstone is on some disk. -/
theorem tombstone {lsn : Nat} (hd : (store d).draws id lsn) :
    Traced c init past (update store d ((store d).publish id ⟨lsn, none⟩ hd)) disks calls
      jobs := by
  refine { h with stored := fun id' l b hl => ?_, bound := fun id' l y hp => ?_ }
  · by_cases hdk : c.disk_of id' = d
    · rw [hdk, update_self] at hl
      by_cases hid : id' = id
      · rw [hid, Store.live_publish_self] at hl
        cases hl
      · rw [Store.live_publish_other _ _ _ hid] at hl
        exact h.stored id' l b (hdk ▸ hl)
    · rw [update_of_ne hdk] at hl
      exact h.stored id' l b hl
  · obtain ⟨old, hold, hle⟩ := h.bound id' l y hp
    by_cases hdk : c.disk_of id' = d
    · rw [hdk] at hold
      rw [hdk, update_self]
      by_cases hid : id' = id
      · subst hid
        exact ⟨_, AList.lookup_insert _, hle.trans (Nat.le_of_lt (hd.2.2.2 old hold))⟩
      · exact ⟨old, (AList.lookup_insert_ne hid).trans hold, hle⟩
    · rw [update_of_ne hdk]
      exact ⟨old, hold, hle⟩

/-- The slot of a job's chunk takes the version that the job has stored. -/
theorem commit_slot (hj : jobs[n]? = some j) {lsn len : Nat} (hst : j.stage = .Stored lsn)
    (hothers : ∀ (m : Nat) (j' : Mutation), jobs[m]? = some j' →
      c.identify j'.key = c.identify j.key → m ≠ n →
        (m < n ∧ ∃ o, j'.stage = .Finished o) ∨ (n < m ∧ j'.stage = .Submitted)) :
    Traced c init past store (update disks (c.place j.key)
      (((disks (c.place j.key)).insert (c.identify j.key) lsn len).1.finish (c.identify j.key)))
      calls jobs := by
  have hk := h.jobs_know n j hj
  unfold Mutation.Knows at hk
  simp only [hst] at hk
  obtain ⟨p, b, ht, hpast⟩ := hk
  have hlsn : ∀ id, (((disks (c.place j.key)).insert (c.identify j.key) lsn len).1.finish
      (c.identify j.key)).lsn id = if id = c.identify j.key then
        (if ((disks (c.place j.key)).insert (c.identify j.key) lsn len).2 then some lsn else none)
        else (disks (c.place j.key)).lsn id := fun id => by
    rw [catalog.State.lsn_finish, catalog.State.lsn_insert]
  refine { h with slot := fun id l hl => ?_, active := fun id hm => ?_,
                  jobs_know := fun m j' hm => ?_ }
  · by_cases hd : c.disk_of id = c.place j.key
    · rw [hd, update_self, hlsn] at hl
      split at hl
      · rename_i hid
        subst hid
        split at hl
        · cases hl
          refine ⟨some n, b, hpast, fun m j' hm hid hw hset => ?_⟩
          have hlt : n < m := hw n rfl
          rcases hothers m j' hm hid (by omega) with ⟨h1, -⟩ | ⟨-, h1⟩
          · omega
          · rw [h1] at hset; cases hset
        · cases hl
      · exact h.slot id l (hd ▸ hl)
    · rw [update_of_ne hd] at hl
      exact h.slot id l hl
  · by_cases hd : c.disk_of id = c.place j.key
    · rw [hd, update_self] at hm
      obtain ⟨hm, -⟩ := catalog.State.mem_finish hm
      rw [catalog.State.active_insert] at hm
      exact h.active id (hd ▸ hm)
    · rw [update_of_ne hd] at hm
      exact h.active id hm
  · by_cases hid : c.identify j'.key = c.identify j.key
    · by_cases hmn : m = n
      · subst hmn
        rw [hj] at hm
        cases hm
        unfold Mutation.Knows
        simp only [hst]
        exact ⟨p, b, ht, hpast⟩
      · unfold Mutation.Knows
        rcases hothers m j' hm hid hmn with ⟨-, o, h1⟩ | ⟨-, h1⟩ <;> simp only [h1]
    · have hk' := h.jobs_know m j' hm
      have hsame : ∀ l, (update disks (c.place j.key)
          (((disks (c.place j.key)).insert (c.identify j.key) lsn len).1.finish (c.identify j.key))
          (c.place j'.key)).lsn (c.identify j'.key) = some l →
            (disks (c.place j'.key)).lsn (c.identify j'.key) = some l := by
        intro l hl
        by_cases hd : c.place j'.key = c.place j.key
        · rw [hd, update_self, hlsn, if_neg hid] at hl
          rw [hd]; exact hl
        · rwa [update_of_ne hd] at hl
      unfold Mutation.Knows at hk' ⊢
      split <;> rename_i hst' <;> simp only [hst'] at hk'
      · exact hk'
      · exact fun l hl => hk' l (hsame l hl)
      · exact fun l hl => hk' l (hsame l hl)
      · exact ⟨fun l hl => hk'.1 l (hsame l hl), hk'.2⟩
      · trivial

/-- A mutation is admitted. -/
theorem admission {key : Bytes} {generation : Nat} {task : Task} (ht : ∀ p b, task = .Write p b →
      p.entry.key = key ∧ ∃ env, c.format.decode b = .ok env ∧ p.entry = env.entry) :
    Traced c init past store disks calls (jobs ++ [⟨key, generation, task, .Submitted⟩]) := by
  have hold : ∀ (m : Nat) (j' : Mutation), jobs[m]? = some j' →
      (jobs ++ [⟨key, generation, task, .Submitted⟩])[m]? = some j' := fun m j' hm => by
    rw [List.getElem?_append_left (List.getElem?_eq_some_iff.mp hm).1]
    exact hm
  refine ⟨h.stored, h.bound, fun id lsn m b hp => ?_, h.initial, fun id lsn hl => ?_,
    fun id hm => ?_,
    fun m j' hm => ?_, h.calls_know, fun m j' p b hm => ?_⟩
  · obtain ⟨j', p, hj', hrest⟩ := h.written id lsn m b hp
    exact ⟨j', p, hold m j' hj', hrest⟩
  · obtain ⟨w, b, hp, hord⟩ := h.slot id lsn hl
    refine ⟨w, b, hp, fun m j' hm hid hw hset => ?_⟩
    rcases getElem?_append_cases hm with ⟨-, rfl⟩ | hm
    · cases hset
    · exact hord m j' hm hid hw hset
  · obtain ⟨m, j', hj', hrest⟩ := h.active id hm
    exact ⟨m, j', hold m j' hj', hrest⟩
  · rcases getElem?_append_cases hm with ⟨-, rfl⟩ | hm
    · trivial
    · exact h.jobs_know m j' hm
  · rcases getElem?_append_cases hm with ⟨-, rfl⟩ | hm
    · exact ht p b
    · exact h.tasks m j' p b hm

end Traced

/-! ## Versions in memory -/

/-- The writer of a version: a mutation in the log, or nobody when the version was on the disk. -/
def Origin (c : Config) (init : Nat → Store) (log : List Event) (e : Entry) : Option Nat → Prop
  | some n => ∃ token, .admitted n e.key (some e) token ∈ log
  | none => ∃ lsn b env, (init (c.place e.key)).live (c.identify e.key) = some (lsn, b) ∧
      c.format.decode b = .ok env ∧ env.entry = e

/-- Every mutation of the key admitted after the version's writer has failed. -/
def Fresh (c : Config) (init : Nat → Store) (log : List Event) (e : Entry) : Prop :=
  ∃ w, Origin c init log e w ∧
    ∀ m entry token, .admitted m e.key entry token ∈ log → newer w m → .failed m ∈ log

theorem Fresh.emit {init : Nat → Store} {log : List Event} (h : Fresh c init log e) {x : Event}
    (hx : ∀ n entry token, x ≠ .admitted n e.key entry token) : Fresh c init (log ++ [x]) e := by
  obtain ⟨w, ho, hl⟩ := h
  refine ⟨w, ?_, fun m entry token hm hw => ?_⟩
  · cases w with
    | none => exact ho
    | some =>
      obtain ⟨token, ht⟩ := ho
      exact ⟨token, mem_append_left _ ht⟩
  · rcases mem_append.mp hm with hm | hm
    · exact mem_append_left _ (hl m entry token hm hw)
    · exact absurd (mem_singleton.mp hm).symm (hx m entry token)

structure Resident (c : Config) (init : Nat → Store) (memory : Memory) (calls : List Call)
    (log : List Event) : Prop where
  memory : ∀ k e, memory.lookup k = some e → e.key = k ∧ Fresh c init log e
  promoting : ∀ x ∈ calls, ∀ k e, Call.promoting x = some (k, e) → e.key = k ∧ Fresh c init log e

theorem Memory.lookup_trim
    (h : (Memory.trim m victims).lookup k = some e) : m.lookup k = some e := by
  unfold Memory.trim at h
  induction victims generalizing m with
  | nil => exact h
  | cons v _ ih =>
    have := ih h
    by_cases hk : k = v
    · rw [hk, AList.lookup_erase] at this; cases this
    · rwa [AList.lookup_erase_ne hk] at this

theorem Memory.lookup_commit {p : Prepared} {fits : Bool}
    (h : (m.commit_entry p fits victims).lookup k = some e) :
    (k = p.entry.key ∧ e = p.entry) ∨ (k ≠ p.entry.key ∧ m.lookup k = some e) := by
  unfold Memory.commit_entry at h
  split at h
  · have h := Memory.lookup_trim h
    by_cases hk : k = p.entry.key
    · rw [hk, AList.lookup_insert] at h
      cases h
      exact .inl ⟨hk, rfl⟩
    · rw [AList.lookup_insert_ne hk, AList.lookup_erase_ne hk] at h
      exact .inr ⟨hk, h⟩
  · by_cases hk : k = p.entry.key
    · rw [hk, AList.lookup_erase] at h; cases h
    · rw [AList.lookup_erase_ne hk] at h
      exact .inr ⟨hk, h⟩

theorem Memory.lookup_promote {p : Prepared} {fits : Bool}
    (h : (m.promote p fits victims).lookup k = some e) :
    (k = p.entry.key ∧ e = p.entry) ∨ m.lookup k = some e := by
  unfold Memory.promote at h
  split at h
  · exact (Memory.lookup_commit h).imp_right (·.2)
  · exact .inr h

namespace Resident

variable {c : Config} {init : Nat → Store} {memory memory' : Memory} {calls : List Call}
  {log : List Event} {i : Nat} {y : Call}

variable (h : Resident c init memory calls log)
include h

theorem emit {x : Event} (hx : x.number = none) : Resident c init memory calls (log ++ [x]) := by
  have hne : ∀ (e : Entry) n entry token, x ≠ .admitted n e.key entry token := by
    rintro e n entry token rfl
    cases hx
  exact ⟨fun k e hl => ⟨(h.memory k e hl).1, (h.memory k e hl).2.emit (hne e)⟩,
    fun x' hm k e hp => ⟨(h.promoting x' hm k e hp).1, (h.promoting x' hm k e hp).2.emit (hne e)⟩⟩

theorem set_call (hy : ∀ k e, y.promoting = some (k, e) → e.key = k ∧ Fresh c init log e) :
    Resident c init memory (calls.set i y) log := by
  refine ⟨h.memory, fun x hx => ?_⟩
  rcases mem_or_eq_of_mem_set hx with hx | rfl
  · exact h.promoting x hx
  · exact hy

theorem move (hy : y.promoting = none) : Resident c init memory (calls.set i y) log :=
  h.set_call (fun k e hp => by rw [hy] at hp; cases hp)

theorem begin_ (hy : y.promoting = none) : Resident c init memory (calls ++ [y]) log := by
  refine ⟨h.memory, fun x hx => ?_⟩
  rcases mem_append.mp hx with hx | hx
  · exact h.promoting x hx
  · rw [mem_singleton.mp hx, hy]
    exact fun k e hp => by cases hp

/-- Memory loses entries, or gains a fresh one. -/
theorem set_memory (hm : ∀ k e, memory'.lookup k = some e →
      (e.key = k ∧ Fresh c init log e) ∨ memory.lookup k = some e) :
    Resident c init memory' calls log :=
  ⟨fun k e hl => (hm k e hl).elim id (h.memory k e), h.promoting⟩

/-- A mutation is admitted: no version of its key is resident, and nobody is promoting one. -/
theorem admission {n : Nat} {key : Bytes} {entry : Option Entry} {token : Option Nat}
    (hp : ∀ x ∈ calls, ∀ e, Call.promoting x ≠ some (key, e)) :
    Resident c init (memory.erase key) calls (log ++ [.admitted n key entry token]) := by
  have hne : ∀ (k : Bytes) (e : Entry), e.key = k → k ≠ key → ∀ m entry' token',
      Event.admitted n key entry token ≠ .admitted m e.key entry' token' := by
    rintro k e rfl hk m entry' token' he
    cases he
    exact hk rfl
  refine ⟨fun k e hl => ?_, fun x hx k e hpr => ?_⟩
  · by_cases hk : k = key
    · rw [hk, AList.lookup_erase] at hl; cases hl
    · rw [AList.lookup_erase_ne hk] at hl
      obtain ⟨h1, h2⟩ := h.memory k e hl
      exact ⟨h1, h2.emit (hne k e h1 hk)⟩
  · obtain ⟨h1, h2⟩ := h.promoting x hx k e hpr
    exact ⟨h1, h2.emit (hne k e h1 (by rintro rfl; exact hp x hx e hpr))⟩

end Resident
end moat_cache
