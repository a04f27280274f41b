-- What callers of the cache can rely on in every run: a hit is never stale, a
-- token is good for one mutation, and keys with one fingerprint stay apart.
import Moat.CacheOpen

namespace moat_cache

open moat_common moat_cache_store registry scheduler List Function Option

/-! ## Hits -/

variable {c : Config} {init : Nat → Store} {log before after : List Event} {e : Entry} {m i : Nat}
  {entry : Option Entry} {token : Option Nat} {s : System} {key : Bytes}

/-- A version that is fresh was written by a mutation which has not failed, or by a later one. -/
theorem Fresh.written_since (h : Fresh c init log e) (hm : .admitted m e.key entry token ∈ log)
    (hs : .failed m ∉ log) : ∃ n token, m ≤ n ∧ .admitted n e.key (some e) token ∈ log := by
  obtain ⟨w, ho, hl⟩ := h
  have hnot : ¬ newer w m := fun hn => hs (hl m entry token hm hn)
  cases w with
  | none => exact absurd (fun n hn => by cases hn) hnot
  | some n =>
    obtain ⟨token, ht⟩ := ho
    refine ⟨n, token, ?_, ht⟩
    by_contra hlt
    exact hnot (fun n' hn => by cases hn; omega)

/-- A hit holds what the mutation wrote that succeeded before the call, or a later mutation. -/
theorem Inv.hit_since {past : Past} (h : Inv c init past s)
    (hlog : s.log = before ++ .hit i key e :: after) (hm : .admitted m key entry token ∈ before)
    (hs : .succeeded m ∈ before) : ∃ n token, m ≤ n ∧ .admitted n key (some e) token ∈ before := by
  obtain ⟨hk, hf⟩ := h.told before _ after hlog
  subst hk
  have hsub : ∀ x, x ∈ before → x ∈ s.log := fun x hx => by
    rw [hlog]
    exact mem_append_left _ hx
  exact hf.written_since hm (fun hf => h.logged.not_failed (hsub _ hs) (hsub _ hf))

/-- A number stands for one mutation. -/
theorem Logged.admitted_inj {jobs : List Mutation} (h : Logged log jobs) {n : Nat} {key' : Bytes}
    {entry' : Option Entry} {token' : Option Nat} (h1 : .admitted n key entry token ∈ log)
    (h2 : .admitted n key' entry' token' ∈ log) : key = key' ∧ entry = entry' := by
  obtain ⟨j, hj, rfl, rfl⟩ := h.admitted n key entry token h1
  obtain ⟨j', hj', rfl, rfl⟩ := h.admitted n key' entry' token' h2
  rw [hj] at hj'
  cases hj'
  exact ⟨rfl, rfl⟩

/-- A hit after an invalidation was written by a later mutation. -/
theorem Inv.hit_after_invalidate {past : Past} (h : Inv c init past s)
    (hlog : s.log = before ++ .hit i key e :: after) (hm : .admitted m key none token ∈ before)
    (hs : .succeeded m ∈ before) : ∃ n token, m < n ∧ .admitted n key (some e) token ∈ before := by
  obtain ⟨n, t, hle, hn⟩ := h.hit_since hlog hm hs
  refine ⟨n, t, Nat.lt_of_le_of_ne hle ?_, hn⟩
  rintro rfl
  have hsub : ∀ x, x ∈ before → x ∈ s.log := fun x hx => by
    rw [hlog]
    exact mem_append_left _ hx
  cases (h.logged.admitted_inj (hsub _ hm) (hsub _ hn)).2

section
variable {c : Config} {b : Budgets} {choices : Nat → List Choice} {stores : Nat → Store}
  {s₀ s : System} {as : List Action}

/-- The cache never serves a stale version: a hit holds what the last mutation wrote that succeeded
before the call, or what a later one wrote, and there is none after an invalidation that was the
last mutation. A commit is that of the last mutation admitted; a promotion had its generation
captured after that mutation's admission, and every mutation admitted after the version's own has
failed. So it is with everything that is resident. -/
theorem no_stale_version_is_served (h : System.new c b choices stores = .ok s₀)
    (hr : s₀.run c as = some s) :
    (∀ before mid after i key e m entry token,
      s.log = before ++ .started i key :: mid ++ .hit i key e :: after →
      .admitted m key entry token ∈ before → .succeeded m ∈ before →
        ∃ n token, m ≤ n ∧ .admitted n key (some e) token ∈ before ++ .started i key :: mid) ∧
    (∀ before mid after i key e m token,
      s.log = before ++ .started i key :: mid ++ .hit i key e :: after →
      .admitted m key none token ∈ before → .succeeded m ∈ before →
        ∃ n entry token, m < n ∧ .admitted n key entry token ∈ before ++ .started i key :: mid) ∧
    (∀ before after n, s.log = before ++ .committed n :: after →
      ∃ key entry token, .admitted n key (some entry) token ∈ before ∧
        ∀ m e t, .admitted m key e t ∈ before → m ≤ n) ∧
    (∀ before after i e, s.log = before ++ .promoted i e :: after →
      quiet (.captured i) e.key before = true ∧ Fresh c stores before e) ∧
    ∀ key e, s.memory.lookup key = some e → e.key = key ∧ Fresh c stores s.log e := by
  obtain ⟨past, hi⟩ := Inv.of_run h hr
  refine ⟨fun before mid after i key e m entry token hlog hm hs => ?_,
    fun before mid after i key e m token hlog hm hs => ?_,
    fun before after n hlog => hi.told before _ after hlog,
    fun before after i e hlog => (hi.told before _ after hlog).symm, hi.resident.memory⟩
  · exact hi.hit_since hlog (mem_append_left _ hm) (mem_append_left _ hs)
  · obtain ⟨n, t, hlt, hn⟩ :=
      hi.hit_after_invalidate hlog (mem_append_left _ hm) (mem_append_left _ hs)
    exact ⟨n, some e, t, hlt, hn⟩

end

/-! ## A small cache -/

/-- One disk on which all keys have one fingerprint. -/
def oneChunk : Config where
  format := ⟨⟨byte_list.zeros 16, rfl⟩, 1⟩
  identify := fun _ => ⟨byte_list.zeros 16, rfl⟩
  disks := 1
  disk_of := fun _ => 0
  disk_lt := fun _ => Nat.one_pos
  chunk_max := fun _ => 1000
  write_cost := fun _ len => .ok len
  disk := fun _ => ⟨1000, 10, 0, 1000, .Sieve⟩

def blank : Store where
  chunks := ∅
  drawn := []
  nodup := nodup_nil
  range := by simp
  recorded := by simp
  distinct := by simp

def smallBudgets : Budgets := ⟨4, 1000, 4, 1000⟩

def smallCache : System where
  registry := Registry.new 4 1000
  memory := ∅
  disks := fun _ => .empty
  control := fun _ => none
  store := fun _ => blank
  scheduler := ⟨[], [], [], ∅, none, false, (0, 0), 4, 1000⟩
  closed := false
  failures := none
  calls := []
  jobs := []
  log := []

theorem smallCache_new :
    System.new oneChunk smallBudgets (fun _ => []) (fun _ => blank) = .ok smallCache := by
  have hinv : blank.inventory = [] := by simp [Store.inventory, blank]
  simp [System.new, openDisks, oneChunk, openDisk, hinv, load, trim, catalog.State.empty,
    Scheduler.new, smallBudgets, smallCache]

/-- Caller `i` inserts, as mutation `n`, whose job takes `steps` steps. -/
def inserting (i n : Nat) (p : Prepared) (o : Choice) (steps : Nat) : List Action :=
  [.insert p, .call i {}, .call i {}, .call i {}, .receive] ++ List.replicate steps (.job n o) ++
    [.completed n]

def firstVersion : Prepared := ⟨⟨[1], [2], [], .Normal⟩, true⟩

def secondVersion : Prepared := ⟨⟨[1], [3], [], .Normal⟩, true⟩

/-- The store has no room for the put of the second insertion; then a lookup reads the first version
back. -/
def failedOverwrite : List Action :=
  inserting 0 0 firstVersion { lsn := 1, free_segments := 1 } 9 ++ [.shrink [[1]]] ++
    (inserting 1 1 secondVersion { free_segments := 1 } 3).dropLast ++
    List.replicate 4 (.job 1 { fails := some .Busy }) ++ [.completed 1, .lookup [1]] ++
    List.replicate 9 (.call 2 {})

def failedOverwriteLog : List Event :=
  [.admitted 0 [1] (some firstVersion.entry) none, .committed 0, .succeeded 0,
    .admitted 1 [1] (some secondVersion.entry) none, .failed 1, .started 2 [1], .captured 2,
    .promoted 2 firstVersion.entry, .hit 2 [1] firstVersion.entry]

theorem failedOverwrite_run : ∃ s, smallCache.run oneChunk failedOverwrite = some s ∧
    s.log = failedOverwriteLog ∧ s.memory.lookup [1] = some firstVersion.entry := by
  have h : (smallCache.run oneChunk failedOverwrite).map (fun s => (s.log, s.memory.lookup [1])) =
      some (failedOverwriteLog, some firstVersion.entry) := by decide +kernel
  obtain ⟨s, hs, he⟩ := map_eq_some_iff.mp h
  exact ⟨s, hs, (Prod.mk.inj he).1, (Prod.mk.inj he).2⟩

/-- The first version becomes resident again after the second was admitted. -/
theorem an_older_version_is_promoted_after_a_failure :
    ∃ s before after, System.new oneChunk smallBudgets (fun _ => []) (fun _ => blank) =
      .ok smallCache ∧
      smallCache.run oneChunk failedOverwrite = some s ∧
      s.log = before ++ .promoted 2 firstVersion.entry :: after ∧
      .admitted 1 [1] (some secondVersion.entry) none ∈ before ∧
      (∀ n token, .admitted n [1] (some firstVersion.entry) token ∈ before → n < 1) ∧
      s.memory.lookup [1] = some firstVersion.entry := by
  obtain ⟨s, hs, hlog, hmem⟩ := failedOverwrite_run
  refine ⟨s, failedOverwriteLog.take 7, failedOverwriteLog.drop 8, smallCache_new, hs, hlog, ?_,
    fun n token hm => ?_, hmem⟩
  · decide
  · simp [failedOverwriteLog, firstVersion, secondVersion] at hm
    omega

theorem no_stale_version_after_failedOverwrite :
    ∃ s, smallCache.run oneChunk failedOverwrite = some s ∧ s.log = failedOverwriteLog ∧
      (∃ n token, 0 ≤ n ∧
        .admitted n [1] (some firstVersion.entry) token ∈ failedOverwriteLog.take 8) := by
  obtain ⟨s, hs, hlog, -⟩ := failedOverwrite_run
  exact ⟨s, hs, hlog, (no_stale_version_is_served smallCache_new hs).1 (failedOverwriteLog.take 5)
    [.captured 2, .promoted 2 firstVersion.entry] [] 2 [1] firstVersion.entry 0
    (some firstVersion.entry) none hlog (by decide) (by decide)⟩

/-! ## Keys with one fingerprint -/

/-- Whatever the fingerprint: a hit has the very key that was looked up, an invalidation deletes
only chunks that hold its own key, and hits are never stale. -/
theorem keys_with_one_fingerprint_stay_apart {c : Config} {b : Budgets}
    {choices : Nat → List Choice} {stores : Nat → Store} {s₀ s : System} {as : List Action}
    (h : System.new c b choices stores = .ok s₀) (hr : s₀.run c as = some s) :
    (∀ i key e, .hit i key e ∈ s.log → e.key = key) ∧
    (∀ n chunk, .deleted n chunk ∈ s.log → ∃ key token env, .admitted n key none token ∈ s.log ∧
      c.format.decode chunk = .ok env ∧ env.key = key) ∧
    (∀ before mid after i key e m entry token,
      s.log = before ++ .started i key :: mid ++ .hit i key e :: after →
      .admitted m key entry token ∈ before → .succeeded m ∈ before →
        ∃ n token, m ≤ n ∧ .admitted n key (some e) token ∈ before ++ .started i key :: mid) ∧
    ∀ before mid after i key e m token,
      s.log = before ++ .started i key :: mid ++ .hit i key e :: after →
      .admitted m key none token ∈ before → .succeeded m ∈ before →
        ∃ n entry token, m < n ∧ .admitted n key entry token ∈ before ++ .started i key :: mid := by
  obtain ⟨past, hi⟩ := Inv.of_run h hr
  refine ⟨fun i key e hm => ?_, fun n chunk hm => ?_,
    fun before mid after i key e m entry token hlog hm hs =>
      hi.hit_since hlog (mem_append_left _ hm) (mem_append_left _ hs),
    fun before mid after i key e m token hlog hm hs => ?_⟩
  · obtain ⟨before, after, hlog⟩ := append_of_mem hm
    exact (hi.told before _ after hlog).1
  · obtain ⟨before, after, hlog⟩ := append_of_mem hm
    obtain ⟨key, token, env, hadm, hdec⟩ := hi.told before _ after hlog
    exact ⟨key, token, env, by rw [hlog]; exact mem_append_left _ hadm, hdec⟩
  · obtain ⟨n, t, hlt, hn⟩ :=
      hi.hit_after_invalidate hlog (mem_append_left _ hm) (mem_append_left _ hs)
    exact ⟨n, some e, t, hlt, hn⟩

/-- Caller `i` invalidates, as mutation `n`, whose job takes `steps` steps. -/
def invalidating (i n : Nat) (key : Bytes) (o : Choice) (steps : Nat) : List Action :=
  [.invalidate key, .call i {}, .call i {}, .call i {}, .receive] ++
    List.replicate steps (.job n o) ++ [.completed n]

/-- An invalidation of a key whose fingerprint is another's leaves the other's chunk; one of that
key deletes it. -/
def twoInvalidations : List Action :=
  inserting 0 0 firstVersion { lsn := 1, free_segments := 1 } 9 ++ invalidating 1 1 [9] {} 7 ++
    [.get_memory [1], .call 2 {}] ++ invalidating 3 2 [1] { lsn := 2 } 9 ++ [.lookup [1]] ++
    List.replicate 7 (.call 4 {})

theorem twoInvalidations_stay_apart :
    ∃ s, smallCache.run oneChunk twoInvalidations = some s ∧
      s.log.map (fun e => match e with | .deleted n _ => some n | _ => none) =
        [none, none, none, none, none, none, none, none, some 2, none, none, none, none] ∧
      ∀ i key e, .hit i key e ∈ s.log → e.key = key := by
  have h : (smallCache.run oneChunk twoInvalidations).map
      (fun s => s.log.map (fun e => match e with | .deleted n _ => some n | _ => none)) =
        some [none, none, none, none, none, none, none, none, some 2, none, none, none, none] := by
    decide +kernel
  obtain ⟨s, hs, he⟩ := map_eq_some_iff.mp h
  exact ⟨s, hs, he, (keys_with_one_fingerprint_stay_apart smallCache_new hs).1⟩

/-! ## Tokens -/

/-- A mutation ends the quiet until the mark comes again. -/
theorem mark_mem_of_quiet {mark : Event} {l₁ l₂ : List Event} {n : Nat}
    (hne : .admitted n key entry token ≠ mark)
    (h : quiet mark key (l₁ ++ .admitted n key entry token :: l₂) = true) : mark ∈ l₂ := by
  induction l₂ using List.reverseRecOn with
  | nil =>
    rw [quiet_append, quietStep_of_ne hne] at h
    exact absurd rfl (h.2 n entry token)
  | append_singleton _ e ih =>
    rw [← cons_append, ← append_assoc, quiet_append] at h
    by_cases he : e = mark
    · rw [he]
      exact mem_append_right _ (mem_singleton_self _)
    · rw [quietStep_of_ne he] at h
      exact mem_append_left _ (ih h.1)

theorem mark_mem_log_of_quiet {mark : Event} (h : quiet mark key log = true) : mark ∈ log := by
  obtain ⟨before, after, rfl, -⟩ := quiet_iff.mp h
  exact mem_append_right _ mem_cons_self

/-- A caller gets one token. -/
theorem Told.granted_once (h : Told c init log) (hl : log = before ++ .granted i key :: after)
    (key' : Bytes) : .granted i key' ∉ before ∧ .granted i key' ∉ after := by
  refine ⟨h before _ after hl key', fun hm => ?_⟩
  obtain ⟨a₁, a₂, rfl⟩ := append_of_mem hm
  refine h (before ++ .granted i key :: a₁) (.granted i key') a₂ (by rw [hl]; simp) key ?_
  exact mem_append_right _ mem_cons_self

theorem Told.granted_key (h : Told c init log) {key' : Bytes} (hk : .granted i key ∈ log)
    (hk' : .granted i key' ∈ log) : key = key' := by
  obtain ⟨before, after, hl⟩ := append_of_mem hk
  obtain ⟨h1, h2⟩ := h.granted_once hl key'
  rw [hl] at hk'
  rcases mem_append.mp hk' with hm | hm
  · exact absurd hm h1
  · rcases mem_cons.mp hm with he | hm
    · cases he; rfl
    · exact absurd hm h2

/-- The answer to a populate that is not refused with an error: accepted, or stale. -/
def Event.answer (i : Nat) : Event → Option Bool
  | .admitted _ _ _ (some k) => if k = i then some true else none
  | .stale k => if k = i then some false else none
  | _ => none

/-- A token is a compare-and-swap on its key: the populate is accepted exactly when no mutation of
the key was admitted since the token was given out, unless it is refused for its size, for a budget,
for want of generations, or for the shutdown, after which it may also be answered as stale. Of two
tokens that were accepted, the later one was given out after the earlier one was used. -/
theorem tokens_are_compare_and_swap {c : Config} {b : Budgets} {choices : Nat → List Choice}
    {stores : Nat → Store} {s₀ s : System} {as : List Action}
    (h : System.new c b choices stores = .ok s₀) (hr : s₀.run c as = some s) :
    (∀ before e after i key accepted, s.log = before ++ e :: after → .granted i key ∈ before →
      e.answer i = some accepted →
        (accepted = true → quiet (.granted i key) key before = true) ∧
        (quiet (.granted i key) key before = true → accepted = true ∨ .closed ∈ before)) ∧
    (∀ before after i key error, s.log = before ++ .refused i error :: after →
      .granted i key ∈ before → error.rejects = true) ∧
    ∀ l₁ l₂ l₃ n n' key e e' i i',
      s.log = l₁ ++ .admitted n key e (some i) :: l₂ ++ .admitted n' key e' (some i') :: l₃ →
        .granted i' key ∈ l₂ ∧ .granted i' key ∉ l₁ := by
  obtain ⟨past, hi⟩ := Inv.of_run h hr
  refine ⟨fun before e after i key accepted hlog hg ha => ?_,
    fun before after i key error hlog hg => hi.told before _ after hlog key hg,
    fun l₁ l₂ l₃ n n' key e e' i i' hlog => ?_⟩
  · have ht := hi.told before e after hlog
    have hkey : ∀ key', .granted i key' ∈ before → key' = key := fun key' hk' =>
      hi.told.granted_key (by rw [hlog]; exact mem_append_left _ hk')
        (by rw [hlog]; exact mem_append_left _ hg)
    cases e with
    | admitted n key' entry token =>
      cases token with
      | none => cases ha
      | some k =>
        simp only [Event.answer] at ha
        split at ha <;> cases ha
        rename_i hk
        subst hk
        have hq : quiet (.granted k key') key' before = true := ht
        have := hkey key' (mark_mem_log_of_quiet hq)
        subst this
        exact ⟨fun _ => hq, fun _ => .inl rfl⟩
    | stale k =>
      simp only [Event.answer] at ha
      split at ha <;> cases ha
      rename_i hk
      subst hk
      obtain ⟨key', hg', hq⟩ := ht
      have := hkey key' hg'
      subst this
      refine ⟨nofun, fun hquiet => .inr (hq.resolve_left ?_)⟩
      rw [hquiet]
      exact Bool.noConfusion
    | _ => cases ha
  · have hq : quiet (.granted i' key) key (l₁ ++ .admitted n key e (some i) :: l₂) = true :=
      hi.told _ _ l₃ hlog
    have hm := mark_mem_of_quiet (by simp) hq
    refine ⟨hm, fun hm' => ?_⟩
    obtain ⟨a₁, a₂, rfl⟩ := append_of_mem hm
    have hsplit : s.log = (l₁ ++ .admitted n key e (some i) :: a₁) ++ .granted i' key ::
        (a₂ ++ .admitted n' key e' (some i') :: l₃) := by
      rw [hlog]
      simp
    exact (hi.told.granted_once hsplit key).1 (mem_append_left _ hm')

/-- Two lookups miss; the token of the first is used before that of the second. The token of a third
one, for another key, is used after the cache is closed. -/
def threeTokens : List Action :=
  [.lookup [1]] ++ List.replicate 7 (.call 0 {}) ++ [.lookup [1]] ++ List.replicate 7
  (.call 1 {}) ++
    [.lookup [9]] ++ List.replicate 7 (.call 2 {}) ++
    [.populate 0 [2] [] .Normal true, .call 0 {}, .call 0 {},
    .populate 1 [3] [] .Normal true, .close,
      .populate 2 [4] [] .Normal true]

def threeTokensLog : List Event :=
  [.started 0 [1], .captured 0, .granted 0 [1], .started 1 [1], .captured 1, .granted 1 [1],
    .started 2 [9], .captured 2, .granted 2 [9], .admitted 0 [1] (some firstVersion.entry) (some 0),
    .stale 1, .closed, .stale 2]

theorem threeTokens_are_compare_and_swap :
    ∃ s, smallCache.run oneChunk threeTokens = some s ∧ s.log = threeTokensLog ∧
      quiet (.granted 0 [1]) [1] (threeTokensLog.take 9) = true ∧
      quiet (.granted 1 [1]) [1] (threeTokensLog.take 10) = false ∧
      (quiet (.granted 2 [9]) [9] (threeTokensLog.take 12) = true →
        .closed ∈ threeTokensLog.take 12) := by
  have h : (smallCache.run oneChunk threeTokens).map (·.log) = some threeTokensLog := by
    decide +kernel
  obtain ⟨s, hs, hlog⟩ := map_eq_some_iff.mp h
  have hc := (tokens_are_compare_and_swap smallCache_new hs).1
  refine ⟨s, hs, hlog, ?_, ?_, fun hq => ?_⟩
  · exact (hc (threeTokensLog.take 9) (.admitted 0 [1] (some firstVersion.entry) (some 0)) _ 0 [1]
      true hlog (by decide) rfl).1 rfl
  · have hstale := (hc (threeTokensLog.take 10) (.stale 1) _ 1 [1] false hlog (by decide) rfl).2
    exact Bool.eq_false_iff.mpr fun hq => absurd (hstale hq) (by decide)
  · exact ((hc (threeTokensLog.take 12) (.stale 2) [] 2 [9] false hlog (by decide) rfl).2
      hq).resolve_left (by decide)

/-! ## A key without generations -/

theorem System.run_cons {s₁ : System} {a : Action} (h : s.act c a = some s₁)
    (as : List Action) : s.run c (a :: as) = s₁.run c as := by
  simp only [System.run, h]

theorem System.run_append {s₁ : System} {as : List Action} (h : s.run c as = some s₁)
    (bs : List Action) : s.run c (as ++ bs) = s₁.run c bs := by
  induction as generalizing s with
  | nil => cases h; rfl
  | cons _ _ ih =>
    simp only [System.run, cons_append] at h ⊢
    split at h
    · cases h
    · exact ih h

/-- The small cache with one registered key, and nothing on its disk. -/
def between (registered : Registered) (scheduler : Scheduler) (control : Nat → Option Nat)
    (calls : List Call) (jobs : List Mutation) (log : List Event) : System :=
  { smallCache with
    registry := ⟨AList.singleton [1] registered, registered.leases, 1, 4, 1000, false⟩
    control, scheduler, calls, jobs, log }

def idle : Scheduler := smallCache.scheduler

def busy (n : Nat) : Scheduler :=
  { idle with
    running := [jobOf oneChunk n [1]], active := [oneChunk.identify [1]], used := (1, 0) }

/-- The mutation of an invalidation. -/
def removal (generation : Nat) (stage : JobStage) : Mutation :=
  ⟨[1], generation, .Remove false, stage⟩

@[simp] theorem lookup_singleton (r : Registered) :
    (AList.singleton [1] r : AList (fun _ : Bytes => Registered)).lookup [1] = some r := by
  rw [← AList.insert_empty, AList.lookup_insert]

section
variable {k : Nat} {calls : List Call} {jobs : List Mutation} {log : List Event} {r : Registered}
  {scheduler : Scheduler} {control : Nat → Option Nat}

theorem between_acquire (hr : r.leases < 4) :
    (between r scheduler control (calls ++ [.Invalidate [1]]) jobs log).act oneChunk
      (.call calls.length {}) = some (between { r with leases := r.leases + 1 } scheduler control
        (calls ++ [.ReserveRemoval [1]]) jobs log) := by
  have h : ¬ (4 - r.leases < 1) := by omega
  simp [System.act, between, System.call, System.acquire, Registry.acquire, System.set_call, h]

theorem between_reserve :
    (between r idle control (calls ++ [.ReserveRemoval [1]]) jobs log).act oneChunk
      (.call calls.length {}) = some (between r { idle with used := (1, 0) } control
        (calls ++ [.AdmitRemoval [1]]) jobs log) := by
  simp [System.act, between, System.call, idle, smallCache, Scheduler.reserve, System.set_call]

theorem between_admission (hr : r.generation + 1 < 2 ^ 64) (hh : r.holder = none) :
    (between r scheduler control (calls ++ [.AdmitRemoval [1]]) jobs log).act oneChunk
      (.call calls.length {}) =
      some (between { r with generation := r.generation + 1, pending := r.pending + 1 }
        (scheduler.submit (jobOf oneChunk jobs.length [1])) control (calls ++ [.Done])
        (jobs ++ [removal (r.generation + 1) .Submitted])
        (log ++ [.admitted jobs.length [1] none none])) := by
  have ha : r.advance = .ok { r with generation := r.generation + 1 } := by
    rw [Registered.advance, if_pos hr]
  have he : AList.erase [1] (∅ : Memory) = ∅ := rfl
  simp [System.act, between, smallCache, System.call, System.admit, hh, ha, he, System.set_call,
    Registry.update, System.emit, jobOf, removal]

theorem between_receive (n : Nat) :
    (between r ({ idle with used := (1, 0) }.submit (jobOf oneChunk n [1])) control calls jobs
      log).act oneChunk .receive = some (between r (busy n) control calls jobs log) := by
  simp [System.act, between, smallCache, Scheduler.submit, idle, Scheduler.receive, Scheduler.start,
    busy, jobOf]

theorem between_submitted :
    (between r (busy jobs.length) control calls (jobs ++ [removal k .Submitted]) log).act oneChunk
      (.job jobs.length {}) =
      some (between r (busy jobs.length) control calls (jobs ++ [removal k .Control]) log) := by
  simp [System.act, between, removal, busy, jobOf, System.job, System.remove, System.to_stage]

theorem between_control :
    (between r (busy jobs.length) (fun _ => none) calls (jobs ++ [removal k .Control]) log).act
      oneChunk (.job jobs.length {}) =
      some (between r (busy jobs.length) (update (fun _ => none) 0 (some jobs.length)) calls
        (jobs ++ [removal k .Versioning]) log) := by
  simp [System.act, between, removal, busy, jobOf, System.job, System.remove, System.to_stage,
    System.set_control, Config.place, oneChunk]

theorem between_versioning (holder : Option Nat) :
    (between r (busy jobs.length) (update (fun _ => none) 0 holder) calls
      (jobs ++ [removal k .Versioning]) log).act oneChunk (.job jobs.length {}) =
      some (between r (busy jobs.length) (fun _ => none) calls
        (jobs ++ [removal k (.Finishing (.Invalidated false))]) log) := by
  simp [System.act, between, smallCache, removal, busy, jobOf, System.job, System.remove,
    System.to_stage, System.set_control, Config.place, oneChunk, catalog.State.version_on,
    catalog.State.empty]

theorem between_finishing (hh : r.holder = none) :
    (between r (busy jobs.length) control calls
      (jobs ++ [removal k (.Finishing (.Invalidated false))]) log).act oneChunk
      (.job jobs.length {}) =
      some (between { r with pending := r.pending - 1 } (busy jobs.length) control calls
        (jobs ++ [removal k (.Released (.Invalidated false))]) log) := by
  simp [System.act, between, removal, busy, jobOf, System.job, System.to_stage, hh, Registry.update]

theorem between_released (hl : 1 < r.leases) :
    (between r (busy jobs.length) control calls
      (jobs ++ [removal k (.Released (.Invalidated false))]) log).act oneChunk
      (.job jobs.length {}) =
      some (between { r with leases := r.leases - 1 } (busy jobs.length) control calls
        (jobs ++ [removal k (.Replying (.Invalidated false))]) log) := by
  have h : r.leases - 1 ≠ 0 := by omega
  simp [System.act, between, removal, busy, jobOf, System.job, System.to_stage, Registry.release, h]

theorem between_replying :
    (between r (busy jobs.length) control calls
      (jobs ++ [removal k (.Replying (.Invalidated false))]) log).act oneChunk
      (.job jobs.length {}) =
      some (between r (busy jobs.length) control calls
        (jobs ++ [removal k (.Finished (.Invalidated false))])
        (log ++ [.succeeded jobs.length])) := by
  simp [System.act, between, removal, busy, jobOf, System.job, System.to_stage, System.reply,
    System.emit]

theorem between_completed :
    (between r (busy jobs.length) control calls
      (jobs ++ [removal k (.Finished (.Invalidated false))]) log).act oneChunk
      (.completed jobs.length) =
      some (between r idle control calls
        (jobs ++ [removal k (.Finished (.Invalidated false))]) log) := by
  simp [System.act, between, removal, busy, jobOf, Scheduler.completed, Scheduler.release, idle,
    smallCache, Task.permit]

/-- One more invalidation takes one more generation. -/
theorem between_invalidated (hk : k + 1 < 2 ^ 64) :
    (between ⟨k, 0, 1, none⟩ idle (fun _ => none) calls jobs log).run oneChunk
      (invalidating calls.length jobs.length [1] {} 6) =
      some (between ⟨k + 1, 0, 1, none⟩ idle (fun _ => none) (calls ++ [.Done])
        (jobs ++ [removal (k + 1) (.Finished (.Invalidated false))])
        (log ++ [.admitted jobs.length [1] none none] ++ [.succeeded jobs.length])) := by
  have hbegin : (between ⟨k, 0, 1, none⟩ idle (fun _ => none) calls jobs log).act oneChunk
      (.invalidate [1]) = some (between ⟨k, 0, 1, none⟩ idle (fun _ => none)
        (calls ++ [.Invalidate [1]]) jobs log) := rfl
  simp only [invalidating, List.replicate, cons_append, nil_append]
  rw [System.run_cons hbegin, System.run_cons (between_acquire (by simp)),
    System.run_cons between_reserve, System.run_cons (between_admission hk rfl),
    System.run_cons (between_receive _), System.run_cons between_submitted,
    System.run_cons between_control, System.run_cons (between_versioning _),
    System.run_cons (between_finishing rfl), System.run_cons (between_released (by simp)),
    System.run_cons between_replying, System.run_cons between_completed]
  rfl

/-- A lookup keeps its key registered while generation after generation is used. -/
theorem between_generations (k : Nat) (hk : k < 2 ^ 64) :
    ∃ as calls jobs log, smallCache.run oneChunk as = some
      (between ⟨k, 0, 1, none⟩ idle (fun _ => none) (.Lookup [1] .Capture :: calls) jobs log) := by
  induction k with
  | zero => exact ⟨[.lookup [1], .call 0 {}, .call 0 {}], [], [], [.started 0 [1]], rfl⟩
  | succ k ih =>
    obtain ⟨as, calls, jobs, log, h⟩ := ih (by omega)
    exact ⟨_, calls ++ [.Done], _, _, (System.run_append h _).trans (between_invalidated hk)⟩

/-- The lookup misses and gets its token. -/
theorem between_granted :
    (between ⟨k, 0, 1, none⟩ idle (fun _ => none) (.Lookup [1] .Capture :: calls) jobs log).run
      oneChunk (List.replicate 5 (.call 0 {})) =
      some (between ⟨k, 0, 1, none⟩ idle (fun _ => none) (.Token [1] k :: calls) jobs
        (log ++ [.captured 0] ++ [.granted 0 [1]])) := by
  simp [List.replicate, System.run, System.act, between, smallCache, System.call, System.lookup,
    System.set_call, System.emit, catalog.State.version_on, catalog.State.empty]

theorem between_refused (hk : ¬ k + 1 < 2 ^ 64) :
    (between ⟨k, 0, 1, none⟩ idle (fun _ => none) (.Token [1] k :: calls) jobs log).run oneChunk
      [.populate 0 [2] [] .Normal true, .call 0 {}, .call 0 {}] =
      some (between ⟨k, 0, 1, none⟩ idle (fun _ => none) (.Leaving [1] :: calls) jobs
        (log ++ [.refused 0 (.Invalid "key generation exhausted")])) := by
  have ha : Registered.advance ⟨k, 0, 1, none⟩ = .error (.Invalid "key generation exhausted") := by
    rw [Registered.advance, if_neg hk]
  simp [System.run, System.act, System.populate, between, smallCache, System.call, System.set_call,
    Format.encode, Record.encoded_len, HEADER_LEN, oneChunk, Format.header_length, idle,
    Scheduler.reserve, System.admit, ha, System.withdraw, Scheduler.release, System.emit]

end

/-- A token for the last generation of a key is refused, although no mutation came between. -/
theorem the_last_generation_refuses_a_token :
    ∃ as s before, smallCache.run oneChunk as = some s ∧
      s.log = before ++ [.refused 0 (.Invalid "key generation exhausted")] ∧
      .granted 0 [1] ∈ before ∧ quiet (.granted 0 [1]) [1] before = true := by
  obtain ⟨as, calls, jobs, log, h⟩ := between_generations (2 ^ 64 - 1) (by omega)
  have hrun : smallCache.run oneChunk (as ++ (List.replicate 5 (.call 0 {}) ++
      [.populate 0 [2] [] .Normal true, .call 0 {}, .call 0 {}])) =
      some (between ⟨2 ^ 64 - 1, 0, 1, none⟩ idle (fun _ => none) (.Leaving [1] :: calls) jobs
        (log ++ [.captured 0] ++ [.granted 0 [1]] ++
          [.refused 0 (.Invalid "key generation exhausted")])) := by
    rw [System.run_append h, System.run_append between_granted, between_refused (by omega)]
  refine ⟨_, _, log ++ [.captured 0] ++ [.granted 0 [1]], hrun, rfl, by simp, ?_⟩
  rw [quiet_append]
  simp [quietStep]

end moat_cache
