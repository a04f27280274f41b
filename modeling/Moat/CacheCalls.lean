-- Every step of a caller keeps the invariants of the cache, and every event that
-- is logged says what it should about the events before it.
import Moat.CacheVersions

namespace moat_cache

open moat_common registry scheduler List

/-! ## What the events tell -/

/-- A request is too large or beyond a budget, the cache is closed, or the key has no generation
left. -/
def Error.rejects : Error → Bool
  | .TooLarge _ _ | .Busy | .Closed => true
  | .Invalid msg => msg = "key generation exhausted"
  | _ => false

/-- What an event says about those before it. -/
def Event.Tells (c : Config) (init : Nat → Store) (before : List Event) : Event → Prop
  | .hit _ key e => e.key = key ∧ Fresh c init before e
  | .promoted i e => Fresh c init before e ∧ quiet (.captured i) e.key before = true
  | .committed n => ∃ key entry token, .admitted n key (some entry) token ∈ before ∧
      ∀ m e t, .admitted m key e t ∈ before → m ≤ n
  | .admitted _ key _ (some i) => quiet (.granted i key) key before = true
  | .granted i _ => ∀ key, .granted i key ∉ before
  | .stale i => ∃ key, .granted i key ∈ before ∧
      (quiet (.granted i key) key before = false ∨ .closed ∈ before)
  | .refused i e => ∀ key, .granted i key ∈ before → e.rejects = true
  | .deleted n chunk => ∃ key token env, .admitted n key none token ∈ before ∧
      c.format.decode chunk = .ok env ∧ env.key = key
  | _ => True

def Told (c : Config) (init : Nat → Store) (log : List Event) : Prop :=
  ∀ before e after, log = before ++ e :: after → e.Tells c init before

variable {e : Event}

theorem Told.emit {c : Config} {init : Nat → Store} {log : List Event} (h : Told c init log)
    (he : e.Tells c init log) : Told c init (log ++ [e]) := by
  intro before x after hlog
  rcases eq_nil_or_concat after with rfl | ⟨after, y, rfl⟩
  · obtain ⟨rfl, hx⟩ := append_inj' hlog rfl
    cases hx
    exact he
  · rw [concat_eq_append, ← cons_append, ← append_assoc] at hlog
    obtain ⟨rfl, -⟩ := append_inj' hlog rfl
    exact h before x after rfl

/-! ## Who has a token -/

/-- A caller that may have been given a token. -/
def Call.filling : Call → Bool
  | .Token _ _ | .Reserve _ (some _) | .Admit _ (some _) _ | .Leaving _ | .Done => true
  | _ => false

def Granted (calls : List Call) (log : List Event) : Prop :=
  ∀ i key, .granted i key ∈ log → ∃ x, calls[i]? = some x ∧ Call.filling x = true

namespace Granted

variable {calls : List Call} {log : List Event} {i : Nat} {x y : Call}

variable (h : Granted calls log)
include h

/-- A lookup that is still under way has no token. -/
theorem not_filling (hx : calls[i]? = some x) (hf : x.filling = false)
    (key : Bytes) : .granted i key ∉ log := by
  intro hm
  obtain ⟨x', hx', hf'⟩ := h i key hm
  rw [hx] at hx'
  cases hx'
  rw [hf] at hf'
  cases hf'

theorem set_call (hx : calls[i]? = some x)
    (hf : x.filling = true → y.filling = true) : Granted (calls.set i y) log := by
  intro k key hm
  obtain ⟨x', hx', hf'⟩ := h k key hm
  by_cases hk : k = i
  · subst hk
    rw [hx] at hx'
    cases hx'
    exact ⟨y, List.getElem?_set_self (List.getElem?_eq_some_iff.mp hx).1, hf hf'⟩
  · exact ⟨x', by rw [List.getElem?_set_ne (Ne.symm hk)]; exact hx', hf'⟩

theorem begin_ : Granted (calls ++ [y]) log := by
  intro i key hm
  obtain ⟨x, hx, hf⟩ := h i key hm
  exact ⟨x, by rw [List.getElem?_append_left (List.getElem?_eq_some_iff.mp hx).1]; exact hx, hf⟩

theorem emit (he : ∀ i key, e = .granted i key → ∃ x, calls[i]? = some x ∧ Call.filling x = true) :
    Granted calls (log ++ [e]) := by
  intro i key hm
  rcases mem_append.mp hm with hm | hm
  · exact h i key hm
  · exact he i key (mem_singleton.mp hm).symm

theorem emit_neutral (he : e.neutral = true) : Granted calls (log ++ [e]) :=
  h.emit (by rintro i key rfl; cases he)

end Granted

/-! ## The invariant -/

structure Inv (c : Config) (init : Nat → Store) (past : Past) (s : System) : Prop where
  leased : Leased s.registry s.calls s.jobs s.log
  lined : Lined c s.scheduler s.jobs
  logged : Logged s.log s.jobs
  traced : Traced c init past s.store s.disks s.calls s.jobs
  resident : Resident c init s.memory s.calls s.log
  granted : Granted s.calls s.log
  told : Told c init s.log
  shut : s.registry.closed = true → .closed ∈ s.log

theorem Event.number_of_plain (h : e.plain = true) : e.number = none := by
  cases e <;> first | rfl | cases h

namespace Inv

variable {c : Config} {init : Nat → Store} {past : Past} {s s' : System} {i : Nat} {x y : Call}
  {key : Bytes} {o : Choice}

theorem emit (h : Inv c init past s) (hn : e.neutral = true) (hp : e.plain = true)
    (ht : e.Tells c init s.log) : Inv c init past (s.emit e) :=
  ⟨h.leased.emit_neutral hn, h.lined, h.logged.emit hp, h.traced,
    h.resident.emit (Event.number_of_plain hp), h.granted.emit_neutral hn, h.told.emit ht,
    fun hc => mem_append_left _ (h.shut hc)⟩

/-- A caller goes on with what it has. -/
theorem move (h : Inv c init past s) (hx : s.calls[i]? = some x) (hl : y.lease = x.lease)
    (hp : y.promoting = none) (hc : y.captured i = none ∨ y.captured i = x.captured i)
    (hk : y.Knows c past)
    (hf : x.filling = true → y.filling = true := by intro hf; first | rfl | cases hf) :
    Inv c init past (s.set_call i y) :=
  ⟨h.leased.move hx hl hp hc, h.lined, h.logged, h.traced.set_call hk, h.resident.move hp,
    h.granted.set_call hx hf, h.told, h.shut⟩

variable {e : Error} {z : Registered} {g lsn bytes : Nat} {p : Prepared}

section

variable (h : Inv c init past s)
include h

/-- What is refused to the holder of a token is refused for a reason. -/
theorem refuse (hx : s.calls[i]? = some x) (hl : x.lease = some key)
    (he : x.filling = true → e.rejects = true) : Inv c init past (s.refuse i key e) := by
  refine (h.move (y := .Leaving key) hx hl.symm rfl (.inl rfl) trivial).emit rfl rfl
    (fun key hm => ?_)
  cases hf : x.filling with
  | true => exact he hf
  | false => exact absurd hm (h.granted.not_filling hx hf key)

theorem acquire (hx : s.calls[i]? = some x) (hl : x.lease = none)
    (hf : x.filling = false) (hy : y.lease = some key) (hp : y.promoting = none)
    (hc : y.captured i = none) (hk : y.Knows c past) : Inv c init past (s.acquire i key o y) := by
  have hdone : Inv c init past (s.set_call i .Done) :=
    h.move hx (by rw [hl]; rfl) rfl (.inl rfl) trivial
  have hnone := h.granted.not_filling hx hf
  unfold System.acquire
  split
  · exact hdone.emit rfl rfl (fun key hm => absurd hm (hnone key))
  · split
    · exact hdone.emit rfl rfl (fun key hm => absurd hm (hnone key))
    · rename_i r hr
      exact ⟨h.leased.acquire hr hx hl hy hp hc, h.lined, h.logged, h.traced.set_call hk,
        h.resident.move hp, h.granted.set_call hx (by rw [hf]; exact fun hc => by cases hc), h.told,
        fun hc => h.shut ((Registry.closed_acquire hr).symm.trans hc)⟩

/-- A hit in memory. -/
theorem hit {e : Entry} (hl : s.memory.lookup key = some e) :
    Inv c init past (s.emit (.hit i key e)) :=
  h.emit rfl rfl (h.resident.memory key e hl)

/-- A lookup sees the generation of its key. -/
theorem see {mark : Event} (hx : s.calls[i]? = some x) (hz : s.registry.keys.lookup key = some z)
    (hl : x.lease = some key) (hpend : z.pending = 0) (hy : y.lease = some key)
    (hp : y.promoting = none) (hc : y.captured i = some (key, g, mark)) (hg : z.generation = g)
    (hk : y.Knows c past) (hf : x.filling = false)
    (hfy : ∀ key, mark = .granted i key → y.filling = true) :
    Inv c init past ((s.set_call i y).emit mark) := by
  have hplain : mark.plain = true := by
    rcases Call.captured_mark hc with rfl | rfl <;> rfl
  have hgr : Granted (s.calls.set i y) s.log :=
    h.granted.set_call hx (by rw [hf]; exact fun hc => by cases hc)
  refine ⟨h.leased.see hx hz hl hpend hy hp hc hg, h.lined, h.logged.emit hplain,
    h.traced.set_call hk, (h.resident.move hp).emit (Event.number_of_plain hplain),
    hgr.emit (fun i' key' he => ?_), h.told.emit ?_, fun hc => mem_append_left _ (h.shut hc)⟩
  · have hi : i' = i := by
      rcases Call.captured_mark hc with rfl | rfl
      · cases he
      · cases he; rfl
    subst hi
    exact ⟨y, List.getElem?_set_self (List.getElem?_eq_some_iff.mp hx).1, hfy key' he⟩
  · rcases Call.captured_mark hc with rfl | rfl
    · trivial
    · exact h.granted.not_filling hx hf

/-- The version that a lookup has validated is fresh. -/
theorem validated (hx : s.calls[i]? = some (.Lookup key (.Validate g lsn p)))
    (hz : s.registry.keys.lookup key = some z) (hg : z.generation = g)
    (hv : ((s.disks (c.place key)).validate_hit (c.identify key) lsn).1 = true) :
    p.entry.key = key ∧ Fresh c init s.log p.entry ∧ quiet (.captured i) key s.log = true := by
  obtain ⟨-, -, hq, hidle⟩ := h.leased.captured i _ key g _ hx rfl z hz
  obtain ⟨w, b, env, hp, hdec, hkey, hent⟩ := h.traced.calls_know _ (mem_of_getElem? hx)
  obtain ⟨w', b', hp', hord⟩ := h.traced.slot _ _ (catalog.State.validate_hit_lsn hv)
  rw [hp] at hp'
  cases hp'
  have hpk : p.entry.key = key := by rw [hent]; exact hkey
  refine ⟨hpk, ⟨w, ?_, fun m entry token hm hw => ?_⟩, hq.mp hg⟩
  · cases w with
    | none =>
      refine ⟨lsn, b, env, ?_, hdec, hent.symm⟩
      rw [hpk]
      exact h.traced.initial _ lsn b hp
    | some n =>
      obtain ⟨j, p', hj, hid, ht⟩ := h.traced.written _ lsn n b hp
      obtain ⟨hk', env', hdec', hent'⟩ := h.traced.tasks n j p' b hj ht
      rw [hdec] at hdec'
      cases hdec'
      have hee : p'.entry = p.entry := hent'.trans hent.symm
      obtain ⟨token, hm⟩ := h.logged.known n j hj
      refine ⟨token, ?_⟩
      rw [ht] at hm
      rw [← hee, hk']
      exact hm
  · -- A later mutation of the key is no longer pending; had it done its disk work, the slot would
    -- not hold this version.
    obtain ⟨j, hj, hjk, -⟩ := h.logged.admitted m _ entry token hm
    rw [hpk] at hjk
    have hpend := hidle hg j (mem_of_getElem? hj)
    simp only [Mutation.pends, hjk, decide_true, Bool.and_true] at hpend
    rcases JobStage.settled_or_failed hpend with hs | hf
    · exact absurd (hkey.trans hjk.symm) (hord m j hj (by rw [hjk]) hw hs env hdec)
    · exact (h.logged.failed m).mpr ⟨j, hj, hf⟩

/-- A slot is marked as visited. -/
theorem revisit {id : ChunkId} {d : Nat} {state : catalog.State}
    (hs : state = ((s.disks d).validate_hit id lsn).2) : Inv c init past (s.set_disk d state) := by
  subst hs
  have hsame := ((s.disks d).validate_hit_spec id lsn).1
  exact ⟨h.leased, h.lined, h.logged, h.traced.set_disk (fun id => .inr (hsame.lsn id))
    (fun id hm => .inl (hsame.active ▸ hm)), h.resident, h.granted, h.told, h.shut⟩

/-- A lookup locks the state of its key to promote what it has validated. -/
theorem lock {d : Nat} {state : catalog.State} {id : ChunkId}
    (hx : s.calls[i]? = some (.Lookup key (.Validate g lsn p)))
    (hz : s.registry.keys.lookup key = some z) (hfree : z.holder = none) (hk : p.entry.key = key)
    (hf : Fresh c init s.log p.entry) (hq : quiet (.captured i) key s.log = true)
    (hs : state = ((s.disks d).validate_hit id lsn).2) :
    Inv c init past (({ s with
      registry := s.registry.update key (fun r => { r with holder := some i }) }.set_disk
        d state).set_call i (.Lookup key (.Promote p))) := by
  have hv := h.revisit hs
  have hlock : Leased (s.registry.update key (fun r => { r with holder := some i })) s.calls s.jobs
      s.log := by
    refine h.leased.relock (some i) (fun i' x e hx' hp => ?_)
    have := (h.leased.held i' x key e hx' hp).2 z hz
    rw [hfree] at this
    cases this
  refine ⟨hlock.set_call hx rfl (fun k e hp => ?_) (fun k g mark hc => by cases hc), h.lined,
    h.logged, hv.traced.set_call trivial, h.resident.set_call (fun k e hp => ?_),
    h.granted.set_call hx (fun hf => by cases hf), h.told,
    fun hc => h.shut ((Registry.closed_update ..).symm.trans hc)⟩
  · cases hp
    refine ⟨hq, fun z' hz' => ?_⟩
    rw [Registry.update_lookup, if_pos rfl, hz] at hz'
    cases hz'
    rfl
  · cases hp
    exact ⟨hk, hf⟩

theorem unlock {e : Entry} (hx : s.calls[i]? = some x)
    (hpr : x.promoting = some (key, e)) (hl : y.lease = some key) (hp : y.promoting = none)
    (hc : y.captured i = none) (hk : y.Knows c past) (hf : y.filling = true) :
    Inv c init past ({ s with
      registry := s.registry.update key (fun r => { r with holder := none }) }.set_call i y) := by
  have hlease := Call.lease_of_promoting hpr
  have hm := h.leased.move (y := y) hx (by rw [hl, hlease]) hp (.inl hc)
  refine ⟨hm.relock none (fun i' x' e' hx' hp' => ?_), h.lined, h.logged, h.traced.set_call hk,
    h.resident.move hp, h.granted.set_call hx (fun _ => hf), h.told,
    fun hc => h.shut ((Registry.closed_update ..).symm.trans hc)⟩
  rcases getElem?_set_cases hx' with ⟨-, rfl⟩ | ⟨hne, hx'⟩
  · rw [hp] at hp'; cases hp'
  · obtain ⟨z, hz⟩ := h.leased.registered hx hlease
    have h1 := (h.leased.held i x key e hx hpr).2 z hz
    rw [(h.leased.held i' x' key e' hx' hp').2 z hz] at h1
    cases h1
    exact absurd rfl hne

/-- A fresh version becomes resident. -/
theorem promote (fits : Bool) (victims : List Bytes)
    (hf : Fresh c init s.log p.entry) (hq : quiet (.captured i) p.entry.key s.log = true) :
    Inv c init past ({ s with memory := s.memory.promote p fits victims }.emit
      (.promoted i p.entry)) := by
  have hr : Resident c init (s.memory.promote p fits victims) s.calls s.log :=
    h.resident.set_memory (fun k e hl => by
      rcases Memory.lookup_promote hl with ⟨rfl, rfl⟩ | hl
      · exact .inl ⟨rfl, hf⟩
      · exact .inr hl)
  exact (show Inv c init past { s with memory := s.memory.promote p fits victims } from
    ⟨h.leased, h.lined, h.logged, h.traced, hr, h.granted, h.told, h.shut⟩).emit rfl rfl ⟨hf, hq⟩

theorem lookup {stage : LookupStage} (hx : s.calls[i]? = some (.Lookup key stage))
    (hs : s.lookup c i key o stage = some s') : Inv c init past s' := by
  cases stage with
  | Probe =>
    simp only [System.lookup] at hs
    split at hs <;> cases hs
    · rename_i e he
      exact (h.move (y := .Done) hx rfl rfl (.inl rfl) trivial).hit he
    · exact h.move hx rfl rfl (.inl rfl) trivial
  | Acquire =>
    cases hs
    exact h.acquire hx rfl rfl rfl rfl rfl trivial
  | Capture =>
    simp only [System.lookup] at hs
    split at hs
    · cases hs
    · rename_i z hz
      split at hs
      · cases hs
      split at hs
      · rename_i hpend
        cases hs
        exact h.see hx hz rfl hpend rfl rfl rfl rfl trivial rfl (fun _ hm => by cases hm)
      · cases hs
        exact h.move hx rfl rfl (.inl rfl) trivial
  | Waiting =>
    cases hs
    exact h.move hx rfl rfl (.inl rfl) trivial
  | Open =>
    simp only [System.lookup] at hs
    split at hs <;> cases hs
    · exact h.refuse hx rfl (fun hf => by cases hf)
    · exact h.move hx rfl rfl (.inr rfl) trivial
  | Again g =>
    simp only [System.lookup] at hs
    split at hs <;> cases hs
    · rename_i e he
      exact (h.move (y := .Leaving key) hx rfl rfl (.inl rfl) trivial).hit he
    · exact h.move hx rfl rfl (.inr rfl) trivial
  | Version =>
    simp only [System.lookup] at hs
    split at hs <;> cases hs
    · exact h.move hx rfl rfl (.inr rfl) trivial
    · exact h.move hx rfl rfl (.inr rfl) trivial
  | Get g =>
    simp only [System.lookup] at hs
    split at hs
    · cases hs
      exact h.refuse hx rfl (fun hf => by cases hf)
    · cases hs
      exact h.move hx rfl rfl (.inr rfl) trivial
    · rename_i chunk hget
      split at hs
      · cases hs
        exact h.refuse hx rfl (fun hf => by cases hf)
      · rename_i env hdec
        split at hs
        · cases hs
          exact h.refuse hx rfl (fun hf => by cases hf)
        split at hs
        · rename_i hkey
          cases hs
          refine h.move hx rfl rfl (.inr rfl) ?_
          obtain ⟨w, hw⟩ := h.traced.read hget
          exact ⟨w, _, env, hw, hdec, hkey, rfl⟩
        · cases hs
          exact h.move hx rfl rfl (.inr rfl) trivial
  | Validate g lsn p =>
    simp only [System.lookup] at hs
    split at hs
    · cases hs
    rename_i z hz
    split at hs
    · cases hs
    rename_i hfree
    split at hs
    · rename_i hcond
      split at hs <;> rename_i state hv <;> cases hs
      · have hstate : state = ((s.disks (c.place key)).validate_hit (c.identify key) lsn).2 := by
          rw [hv]
        obtain ⟨hk, hf, hq⟩ := h.validated hx hz hcond.1 (by rw [hv])
        exact h.lock hx hz (by simpa using hfree) hk hf hq hstate
      · have hstate : state = ((s.disks (c.place key)).validate_hit (c.identify key) lsn).2 := by
          rw [hv]
        exact (h.revisit hstate).move hx rfl rfl (.inl rfl) trivial
    · cases hs
      exact h.move hx rfl rfl (.inl rfl) trivial
  | Promote p =>
    simp only [System.lookup, Option.some.injEq] at hs
    obtain ⟨hk, hf⟩ := h.resident.promoting _ (mem_of_getElem? hx) key p.entry rfl
    obtain ⟨hq, -⟩ := h.leased.held i _ key p.entry hx rfl
    have hp := (h.unlock (y := .Leaving key) hx rfl rfl rfl rfl trivial rfl).promote (i := i) o.fits
      o.victims hf (by rw [hk]; exact hq)
    subst hs
    split
    · exact hp
    · exact hp.emit rfl rfl ⟨hk, hf.emit (fun _ _ _ => by simp)⟩
  | Recheck g =>
    simp only [System.lookup] at hs
    split at hs
    · cases hs
    · rename_i z hz
      split at hs
      · cases hs
      split at hs
      · rename_i hg
        cases hs
        exact h.see hx hz rfl hg.2 rfl rfl rfl hg.1 trivial rfl (fun _ _ => rfl)
      · cases hs
        exact h.move hx rfl rfl (.inl rfl) trivial

/-! ## Admission -/

theorem withdraw (hx : s.calls[i]? = some x) (hl : x.lease = some key) {e : Event}
    (hn : e.neutral = true) (hp : e.plain = true) (ht : e.Tells c init s.log) :
    Inv c init past (s.withdraw i key bytes e) := by
  have hm := h.move (y := .Leaving key) hx (by rw [hl]; rfl) rfl (.inl rfl) trivial
  exact (show Inv c init past ({ s with scheduler := s.scheduler.release bytes }.set_call i
    (.Leaving key)) from
    ⟨hm.leased, hm.lined.budget _, hm.logged, hm.traced, hm.resident, hm.granted,
      hm.told, hm.shut⟩).emit hn hp ht

theorem admission {expected : Option Nat} {entry : Option Entry} {task : Nat → Bool → Task}
    (hx : s.calls[i]? = some x) (hl : x.lease = some key)
    (hc : x.captured i = expected.map (fun g => (key, g, .granted i key)))
    (he : ∀ g m, (task g m).entry = entry) (ht : ∀ g m p b, g < 2 ^ 64 → task g m = .Write p b →
      p.entry.key = key ∧ ∃ env, c.format.decode b = .ok env ∧ p.entry = env.entry)
    (hs : s.admit c i key expected bytes entry task = some s') : Inv c init past s' := by
  unfold System.admit at hs
  split at hs
  · cases hs
    exact h.withdraw hx hl rfl rfl (fun _ _ => rfl)
  split at hs
  · cases hs
  rename_i z hz
  split at hs
  · cases hs
  rename_i hfree
  have hfree' : z.holder = none := by simpa using hfree
  -- A token is valid exactly while no mutation of its key was admitted since.
  have htoken : ∀ g, expected = some g → .granted i key ∈ s.log ∧
      (z.generation = g ↔ quiet (.granted i key) key s.log = true) := by
    rintro g rfl
    obtain ⟨h1, -, h2, -⟩ := h.leased.captured i x key g _ hx hc z hz
    exact ⟨h1, h2⟩
  split at hs
  · rename_i hany
    cases hs
    obtain ⟨g, rfl⟩ : ∃ g, expected = some g := by
      cases expected with
      | none => cases hany
      | some g => exact ⟨g, rfl⟩
    refine h.withdraw hx hl rfl rfl ⟨key, (htoken g rfl).1, .inl ?_⟩
    have hne : ¬ z.generation = g := fun hg => by simp [hg] at hany
    simpa using fun hq => hne ((htoken g rfl).2.mpr hq)
  · rename_i hany
    unfold Registered.advance at hs
    split at hs
    · rename_i e hz'
      cases hs
      split at hz' <;> cases hz'
      exact h.withdraw hx hl rfl rfl (fun _ _ => rfl)
    · rename_i z' hz'
      cases hs
      split at hz'
      · rename_i hlt
        cases hz'
        have hnew : Event.admitted s.jobs.length key entry (expected.map (fun _ => i)) =
            Event.admitted s.jobs.length key
              (task (z.generation + 1) (s.memory.lookup key).isSome).entry
              (expected.map (fun _ => i)) := by rw [he]
        refine ⟨h.leased.admission hx hl hz hfree', h.lined.submit, ?_,
          (h.traced.set_call (y := .Done) trivial).admission (fun p b hp => ht _ _ p b hlt hp),
          (h.resident.move rfl).admission (fun x' hx' e hp => ?_),
          (h.granted.set_call hx (fun _ => rfl)).emit (fun i key he => by cases he),
          h.told.emit ?_,
          fun hc => mem_append_left _ (h.shut ((Registry.closed_update ..).symm.trans hc))⟩
        · simp only [System.emit, System.set_call]
          rw [hnew]
          exact h.logged.admission
        · -- Whoever promotes a version of the key has its state locked.
          obtain ⟨i', hx'⟩ := mem_iff_getElem?.mp hx'
          rcases getElem?_set_cases hx' with ⟨-, rfl⟩ | ⟨-, hx'⟩
          · cases hp
          · rw [(h.leased.held i' x' key e hx' hp).2 z hz] at hfree'
            cases hfree'
        · cases expected with
          | none => trivial
          | some g =>
            rw [Option.any_some, decide_eq_true_eq, ne_eq, not_not] at hany
            exact (htoken g rfl).2.mp hany.symm
      · cases hz'

end

/-- The bytes of an insertion, with its generation, are its version. -/
theorem encoded_task {p' : Prepared} {expected : Option Nat} {encoded b : Bytes}
    (hk : Call.Knows c past (.Admit p expected encoded)) (hg : g < 2 ^ 64)
    (ht : Task.Write p (Format.set_generation encoded g) = .Write p' b) :
    p'.entry.key = p.entry.key ∧ ∃ env, c.format.decode b = .ok env ∧ p'.entry = env.entry := by
  cases ht
  exact ⟨rfl, _, Format.decode_encode hk hg, rfl⟩

theorem encode_rejects {f : Format} {record : Record} {max : Nat}
    (h : f.encode record max = .error e) : e.rejects = true := by
  unfold Format.encode at h
  split at h
  · cases h; rfl
  split at h
  · cases h; rfl
  split at h <;> cases h
  rfl

theorem reserve_rejects {r : Scheduler} (h : r.reserve bytes = .error e) : e.rejects = true := by
  unfold Scheduler.reserve at h
  split at h <;> cases h
  rfl

theorem call (h : Inv c init past s) (hx : s.calls[i]? = some x) (hs : s.call c i o x = some s') :
    Inv c init past s' := by
  cases x with
  | GetMemory key =>
    have hm := h.move (y := .Done) hx rfl rfl (.inl rfl) trivial
    simp only [System.call] at hs
    split at hs <;> cases hs
    · rename_i e he
      exact hm.hit he
    · exact hm.emit rfl rfl trivial
  | Lookup => exact h.lookup hx hs
  | Token => cases hs
  | Insert | Invalidate =>
    cases hs
    exact h.acquire hx rfl rfl rfl rfl rfl trivial
  | Reserve p expected =>
    simp only [System.call] at hs
    split at hs
    · rename_i e he
      cases hs
      exact h.refuse hx rfl (fun _ => encode_rejects he)
    rename_i encoded henc
    split at hs
    · rename_i e he
      cases hs
      exact h.refuse hx rfl (fun _ => reserve_rejects he)
    · rename_i scheduler hr
      cases hs
      have hm := h.move (y := .Admit p expected encoded) hx rfl rfl (.inr rfl) henc
        (by cases expected <;> exact fun hf => hf)
      exact ⟨hm.leased, hm.lined.reserve hr, hm.logged, hm.traced, hm.resident, hm.granted, hm.told,
        hm.shut⟩
  | Admit _ expected =>
    simp only [System.call] at hs
    refine h.admission hx rfl ?_ ?_ ?_ hs
    · cases expected <;> rfl
    · exact fun _ _ => rfl
    · exact fun g m p' b hg ht =>
        encoded_task (h.traced.calls_know _ (mem_of_getElem? hx)) hg ht
  | ReserveRemoval key =>
    simp only [System.call] at hs
    split at hs
    · cases hs
      exact h.refuse hx rfl (fun hf => by cases hf)
    · rename_i scheduler hr
      cases hs
      have hm := h.move (y := .AdmitRemoval key) hx rfl rfl (.inl rfl) trivial
      exact ⟨hm.leased, hm.lined.reserve hr, hm.logged, hm.traced, hm.resident, hm.granted, hm.told,
        hm.shut⟩
  | AdmitRemoval =>
    exact h.admission hx rfl rfl (fun _ _ => rfl) (fun g m p b _ ht => by cases ht) hs
  | Leaving =>
    cases hs
    exact ⟨h.leased.release hx rfl rfl rfl rfl, h.lined, h.logged, h.traced.set_call trivial,
      h.resident.move rfl, h.granted.set_call hx (fun _ => rfl), h.told,
      fun hc => h.shut ((Registry.closed_release ..).symm.trans hc)⟩
  | Done => cases hs

end Inv
end moat_cache
