-- The request and byte budgets of the chunk store (`moat-cache-store/src/budget.rs`).
-- Any number of threads reserve, grow, shrink and drop permits; one step is one
-- update of one atomic counter.
import Moat.Slots

namespace moat_cache_store.budget

open List Function

/-! ## Counters -/

/-- The atomic counters of `Shared`. -/
inductive Counter where
  | used_requests
  | used_bytes
  | used_reads (disk : Nat)
  | retained_bytes
  | retained_reads (disk : Nat)
deriving DecidableEq

/-- The arguments of `Budget::new`. -/
structure Budget where
  requests : Nat
  bytes : Nat
  read_bytes : Nat
  disks : Nat
  read_class : Nat

def Budget.limit (b : Budget) : Counter → Nat
  | .used_requests => b.requests
  | .used_bytes => b.bytes
  | .used_reads _ => b.read_bytes
  | .retained_bytes => b.bytes - b.read_class
  | .retained_reads _ => b.read_bytes - b.read_class

/-- `Used::reserve`: the counter after it, if there was room. -/
def reserve (used amount limit : Nat) : Option Nat :=
  if amount = 0 then some used
  else if amount ≤ limit - used then some (used + amount)
  else none

/-- `Used::release`. -/
def release (used amount : Nat) : Nat := if amount ≠ 0 then used - amount else used

/-! ## Operations in progress -/

structure Permit where
  bytes : Nat
  disk : Option Nat
  request : Bool
deriving DecidableEq

/-- One call in progress, or what a call has left with its caller. A call that `drop`s a permit is a
`resize` to nothing followed by `finish_request`. -/
inductive Task where
  /-- `Budget::reserve`, before its first update. -/
  | reserving (bytes : Nat) (disk : Option Nat)
  | reserved_request (bytes : Nat) (disk : Option Nat)
  | reserved_bytes (bytes : Nat) (disk : Option Nat)
  | unreserving_bytes (bytes : Nat)
  | unreserving_request
  /-- `reserve` has come to a disk that does not exist. -/
  | panicked (bytes : Nat)
  | permit (p : Permit)
  /-- `Permit::grow`, before its first update. -/
  | growing (p : Permit) (bytes : Nat)
  | grown_bytes (p : Permit) (bytes : Nat)
  | ungrowing (p : Permit) (bytes : Nat)
  /-- `Permit::resize`, before its first update. -/
  | resizing (p : Permit) (bytes : Nat) (drops : Bool)
  | resized_reads (p : Permit) (bytes : Nat) (drops : Bool)
  /-- `Permit::finish_request`. -/
  | finishing (p : Permit) (drops : Bool)
  /-- `Permit::retain`, before its first update. -/
  | retaining (bytes disk : Nat)
  | retained_bytes (bytes disk : Nat)
  | unretaining (bytes : Nat)
  | retention (bytes disk : Nat)
  /-- `drop` of a retention, before its first update. -/
  | dropping (bytes disk : Nat)
  | dropped_reads (bytes : Nat)
  | returned
deriving DecidableEq

inductive Update where
  | none
  | take (counter : Counter) (amount : Nat)
  | give (counter : Counter) (amount : Nat)

/-- The next update of a task. What is at rest makes none. -/
def Task.update (b : Budget) : Task → Update
  | .reserving _ _ => .take .used_requests 1
  | .reserved_request bytes _ => .take .used_bytes bytes
  | .reserved_bytes bytes (some disk) =>
    if disk < b.disks then .take (.used_reads disk) bytes else .none
  | .unreserving_bytes bytes => .give .used_bytes bytes
  | .unreserving_request => .give .used_requests 1
  | .growing p bytes => if bytes ≤ p.bytes then .none else .take .used_bytes (bytes - p.bytes)
  | .grown_bytes p bytes =>
    match p.disk with
    | some disk => .take (.used_reads disk) (bytes - p.bytes)
    | none => .none
  | .ungrowing p bytes => .give .used_bytes (bytes - p.bytes)
  | .resizing p bytes _ =>
    if bytes ≤ p.bytes then
      match p.disk with
      | some disk => .give (.used_reads disk) (p.bytes - bytes)
      | none => .none
    else .none
  | .resized_reads p bytes _ => .give .used_bytes (p.bytes - bytes)
  | .finishing p _ => if p.request then .give .used_requests 1 else .none
  | .retaining bytes _ => .take .retained_bytes bytes
  | .retained_bytes bytes disk => .take (.retained_reads disk) bytes
  | .unretaining bytes => .give .retained_bytes bytes
  | .dropping bytes disk => .give (.retained_reads disk) bytes
  | .dropped_reads bytes => .give .retained_bytes bytes
  | _ => .none

/-- The task after its update; `ok` says whether the counter had room. A `resize` upwards fails its
assertion and leaves the permit to its owner. -/
def Task.after (b : Budget) (ok : Bool) : Task → Task
  | .reserving bytes disk => if ok then .reserved_request bytes disk else .returned
  | .reserved_request bytes disk => if ok then .reserved_bytes bytes disk else .unreserving_request
  | .reserved_bytes bytes none =>
    if 0 < b.disks then .permit ⟨bytes, none, true⟩ else .panicked bytes
  | .reserved_bytes bytes (some disk) =>
    if disk < b.disks then
      if ok then .permit ⟨bytes, some disk, true⟩ else .unreserving_bytes bytes
    else .panicked bytes
  | .unreserving_bytes _ => .unreserving_request
  | .unreserving_request => .returned
  | .growing p bytes =>
    if bytes ≤ p.bytes then .permit p else if ok then .grown_bytes p bytes else .permit p
  | .grown_bytes p bytes => if ok then .permit { p with bytes } else .ungrowing p bytes
  | .ungrowing p _ => .permit p
  | .resizing p bytes drops =>
    if bytes ≤ p.bytes then .resized_reads p bytes drops else .permit p
  | .resized_reads p bytes drops =>
    if drops then .finishing { p with bytes } true else .permit { p with bytes }
  | .finishing p drops => if drops then .returned else .permit { p with request := false }
  | .retaining bytes disk => if ok then .retained_bytes bytes disk else .returned
  | .retained_bytes bytes disk => if ok then .retention bytes disk else .unretaining bytes
  | .unretaining _ => .returned
  | .dropping bytes _ => .dropped_reads bytes
  | .dropped_reads _ => .returned
  | t => t

/-! ## Runs -/

/-- `faulted` is for the statements only: a `limit - used` has underflowed, or the assertion of
`release` has failed. -/
structure State where
  used : Counter → Nat
  tasks : List Task
  faulted : Bool

def State.new : State := ⟨fun _ => 0, [], false⟩

/-- What the owner of a permit or a retention, or a new caller, starts. -/
inductive Call where
  | grow (bytes : Nat)
  | resize (bytes : Nat)
  | finish_request
  | drop

def Task.call : Call → Task → Task
  | .grow bytes, .permit p => .growing p bytes
  | .resize bytes, .permit p => .resizing p bytes false
  | .finish_request, .permit p => .finishing p false
  | .drop, .permit p => .resizing p 0 true
  | .drop, .retention bytes disk => .dropping bytes disk
  | _, t => t

inductive Action where
  | reserve (bytes : Nat) (disk : Option Nat)
  | retain (task : Nat)
  | call (task : Nat) (call : Call)
  | advance (task : Nat)

/-- One update of the task `i`. -/
def State.advance (b : Budget) (s : State) (i : Nat) : State :=
  match s.tasks[i]? with
  | none => s
  | some t =>
    match t.update b with
    | .none => { s with tasks := s.tasks.set i (t.after b true) }
    | .take c amount =>
      let faulted := s.faulted || decide (amount ≠ 0 ∧ b.limit c < s.used c)
      match reserve (s.used c) amount (b.limit c) with
      | some used =>
        { used := update s.used c used, tasks := s.tasks.set i (t.after b true), faulted }
      | none => { s with tasks := s.tasks.set i (t.after b false), faulted }
    | .give c amount =>
      { used := update s.used c (release (s.used c) amount)
        tasks := s.tasks.set i (t.after b true)
        faulted := s.faulted || decide (amount ≠ 0 ∧ s.used c < amount) }

def State.act (b : Budget) (s : State) : Action → State
  | .reserve bytes disk => { s with tasks := s.tasks ++ [.reserving bytes disk] }
  | .retain i =>
    match s.tasks[i]? with
    | some (.permit ⟨bytes, some disk, _⟩) =>
      { s with tasks := s.tasks ++ [.retaining bytes disk] }
    | _ => s
  | .call i call => { s with tasks := s.tasks.modify i (Task.call call) }
  | .advance i => s.advance b i

def State.run (b : Budget) (s : State) (actions : List Action) : State :=
  actions.foldl (State.act b) s

/-- Whether the next update of a task finds room. -/
def State.room (b : Budget) (s : State) (t : Task) : Bool :=
  match t.update b with
  | .take c amount => (reserve (s.used c) amount (b.limit c)).isSome
  | _ => true

variable {s : State} {i : Nat} {t : Task} {b : Budget}

theorem advance_tasks (b : Budget) (h : s.tasks[i]? = some t) :
    (s.advance b i).tasks = s.tasks.set i (t.after b (s.room b t)) := by
  unfold State.advance State.room
  rw [h]
  simp only
  cases t.update b with
  | none => rfl
  | take c amount =>
    simp only
    cases reserve (s.used c) amount (b.limit c) <;> rfl
  | give => rfl

/-! ## What a task holds -/

/-- What a permit has taken. -/
def Permit.holds (p : Permit) : Counter → Nat
  | .used_requests => if p.request then 1 else 0
  | .used_bytes => p.bytes
  | .used_reads disk => if p.disk = some disk then p.bytes else 0
  | _ => 0

/-- What a task has taken from each counter and not given back. -/
def Task.holds : Task → Counter → Nat
  | .reserved_request _ _, .used_requests => 1
  | .reserved_bytes _ _, .used_requests => 1
  | .reserved_bytes bytes _, .used_bytes => bytes
  | .unreserving_bytes _, .used_requests => 1
  | .unreserving_bytes bytes, .used_bytes => bytes
  | .unreserving_request, .used_requests => 1
  | .panicked _, .used_requests => 1
  | .panicked bytes, .used_bytes => bytes
  | .permit p, c => p.holds c
  | .growing p _, c => p.holds c
  | .grown_bytes _ bytes, .used_bytes => bytes
  | .grown_bytes p _, c => p.holds c
  | .ungrowing _ bytes, .used_bytes => bytes
  | .ungrowing p _, c => p.holds c
  | .resizing p _ _, c => p.holds c
  | .resized_reads p bytes _, .used_reads disk => if p.disk = some disk then bytes else 0
  | .resized_reads p _ _, c => p.holds c
  | .finishing p _, c => p.holds c
  | .retained_bytes bytes _, .retained_bytes => bytes
  | .unretaining bytes, .retained_bytes => bytes
  | .retention bytes _, .retained_bytes => bytes
  | .retention bytes disk, .retained_reads d => if disk = d then bytes else 0
  | .dropping bytes _, .retained_bytes => bytes
  | .dropping bytes disk, .retained_reads d => if disk = d then bytes else 0
  | .dropped_reads bytes, .retained_bytes => bytes
  | _, _ => 0

/-- A growth is upwards and a shrinking downwards, and a drop shrinks to nothing first. -/
def Task.Ok : Task → Prop
  | .grown_bytes p bytes => p.bytes ≤ bytes
  | .ungrowing p bytes => p.bytes ≤ bytes
  | .resizing _ bytes drops => drops = true → bytes = 0
  | .resized_reads p bytes drops => bytes ≤ p.bytes ∧ (drops = true → bytes = 0)
  | .finishing p drops => drops = true → p.bytes = 0
  | _ => True

theorem Task.after_ok (b : Budget) (ok : Bool) (h : t.Ok) : (t.after b ok).Ok := by
  cases t with
  | reserving | reserved_request | retaining | retained_bytes => cases ok <;> trivial
  | reserved_bytes _ disk =>
    cases disk <;> simp only [Task.after] <;> split_ifs <;> trivial
  | growing =>
    simp only [Task.after]
    split_ifs with hle
    · trivial
    · exact Nat.le_of_not_le hle
    · trivial
  | grown_bytes =>
    cases ok
    · exact h
    · trivial
  | resizing =>
    simp only [Task.after]
    split_ifs with hle
    · exact ⟨hle, h⟩
    · trivial
  | resized_reads _ _ drops =>
    cases drops
    · trivial
    · exact fun _ => h.2 rfl
  | finishing p drops => cases drops <;> trivial
  | _ => trivial

/-- What an update takes from a counter, and what it gives back. -/
def Update.taken (ok : Bool) : Update → Counter → Nat
  | .take c amount, d => if d = c ∧ ok = true then amount else 0
  | _, _ => 0

def Update.given : Update → Counter → Nat
  | .give c amount, d => if d = c then amount else 0
  | _, _ => 0

/-- A task comes to hold what its update took, and no longer holds what it gave. -/
theorem Task.holds_after (b : Budget) (ok : Bool) (h : t.Ok)
    (hok : t.update b = .none → ok = true) (c : Counter) :
    (t.after b ok).holds c + (t.update b).given c = t.holds c + (t.update b).taken ok c := by
  cases t with
  | reserving | reserved_request | retaining =>
    cases ok <;> cases c <;> simp [Task.after, Task.holds, Task.update, Update.given, Update.taken]
  | reserved_bytes _ disk =>
    cases disk with
    | none =>
      obtain rfl := hok rfl
      cases c <;> simp only [Task.after] <;> split_ifs <;>
        simp [Task.holds, Task.update, Update.given, Update.taken, Permit.holds]
    | some disk =>
      by_cases hd : disk < b.disks
      · cases ok <;> cases c <;>
          simp [hd, eq_comm, Task.after, Task.holds, Task.update, Update.given, Update.taken,
            Permit.holds]
      · cases c <;>
          simp [hd, Task.after, Task.holds, Task.update, Update.given, Update.taken]
  | unreserving_bytes | unreserving_request | unretaining | dropped_reads =>
    cases c <;> simp [Task.after, Task.holds, Task.update, Update.given, Update.taken]
  | growing p bytes =>
    by_cases hle : bytes ≤ p.bytes
    · cases c <;> simp [hle, Task.after, Task.holds, Task.update, Update.given, Update.taken]
    · cases ok <;> cases c <;>
        simp [hle, Task.after, Task.holds, Task.update, Update.given, Update.taken, Permit.holds]
      omega
  | grown_bytes p bytes =>
    have hle : p.bytes ≤ bytes := h
    cases hd : p.disk with
    | none =>
      obtain rfl := hok (by simp [Task.update, hd])
      cases c <;>
        simp [hd, Task.after, Task.holds, Task.update, Update.given, Update.taken, Permit.holds]
    | some disk =>
      cases ok <;> cases c <;>
        simp [hd, Task.after, Task.holds, Task.update, Update.given, Update.taken, Permit.holds]
      rename_i d
      by_cases hdd : disk = d
      · simp [hdd]
        omega
      · simp [hdd, Ne.symm hdd]
  | ungrowing p bytes =>
    have hle : p.bytes ≤ bytes := h
    cases c <;>
      simp [Task.after, Task.holds, Task.update, Update.given, Update.taken, Permit.holds]
    omega
  | resizing p bytes drops =>
    by_cases hle : bytes ≤ p.bytes
    · cases hd : p.disk with
      | none =>
        cases c <;>
          simp [hle, hd, Task.after, Task.holds, Task.update, Update.given, Update.taken,
            Permit.holds]
      | some disk =>
        cases c <;>
          simp [hle, hd, Task.after, Task.holds, Task.update, Update.given, Update.taken,
            Permit.holds]
        rename_i d
        by_cases hdd : disk = d
        · simp [hdd]
          omega
        · simp [hdd, Ne.symm hdd]
    · cases c <;> simp [hle, Task.after, Task.holds, Task.update, Update.given, Update.taken]
  | resized_reads p bytes drops =>
    have hle : bytes ≤ p.bytes := h.1
    cases drops <;> cases c <;>
      simp [Task.after, Task.holds, Task.update, Update.given, Update.taken, Permit.holds] <;> omega
  | finishing p drops =>
    cases drops with
    | false =>
      cases hr : p.request <;> cases c <;>
        simp [hr, Task.after, Task.holds, Task.update, Update.given, Update.taken, Permit.holds]
    | true =>
      have h0 : p.bytes = 0 := h rfl
      cases hr : p.request <;> cases c <;>
        simp [hr, h0, Task.after, Task.holds, Task.update, Update.given, Update.taken, Permit.holds]
  | retained_bytes =>
    cases ok <;> cases c <;>
      simp [eq_comm, Task.after, Task.holds, Task.update, Update.given, Update.taken]
  | dropping =>
    cases c <;> simp [eq_comm, Task.after, Task.holds, Task.update, Update.given, Update.taken]
  | panicked | permit | retention | returned => rfl

theorem Task.call_holds (call : Call) (t : Task) (c : Counter) :
    (t.call call).holds c = t.holds c := by
  cases call <;> cases t <;> cases c <;> rfl

theorem Task.call_ok (call : Call) (h : t.Ok) : (t.call call).Ok := by
  cases call <;> cases t <;> first | exact h | trivial | (intro hd; first | rfl | cases hd)

/-! ## The invariant -/

structure State.Kept (b : Budget) (s : State) : Prop where
  ok : ∀ t ∈ s.tasks, t.Ok
  sums : ∀ c, s.used c = (s.tasks.map (fun t => t.holds c)).sum
  within : ∀ c, s.used c ≤ b.limit c
  sound : s.faulted = false

theorem new_kept (b : Budget) : State.new.Kept b :=
  ⟨(fun t ht => by cases ht), fun _ => rfl, fun _ => Nat.zero_le _, rfl⟩

/-- A task that is on the list holds no more than the counter shows. -/
theorem holds_le_sum {tasks : List Task} (h : tasks[i]? = some t)
    (c : Counter) : t.holds c ≤ (tasks.map (fun t => t.holds c)).sum := by
  have hsum := slots.Table.sum_set (fun t : Task => t.holds c) h .returned
  have hz : Task.returned.holds c = 0 := rfl
  simp only [hz] at hsum
  omega

theorem mem_modify {call : Call} {tasks : List Task}
    (h : t ∈ tasks.modify i (Task.call call)) : ∃ u ∈ tasks, t = u ∨ t = u.call call := by
  obtain ⟨j, hj⟩ := mem_iff_getElem?.mp h
  rw [List.getElem?_modify] at hj
  obtain ⟨u, hu, rfl⟩ := Option.map_eq_some_iff.mp hj
  refine ⟨u, mem_of_getElem? hu, ?_⟩
  split
  · exact .inr rfl
  · exact .inl rfl

namespace State.Kept

variable {b : Budget} {s : State} (h : s.Kept b)
include h

/-- A new task that holds nothing. -/
theorem spawn (hok : t.Ok) (hz : ∀ c, t.holds c = 0) :
    State.Kept b { s with tasks := s.tasks ++ [t] } := by
  refine ⟨?_, ?_, h.within, h.sound⟩
  · intro u hu
    rcases mem_append.mp hu with hu | hu
    · exact h.ok u hu
    · rw [mem_singleton.mp hu]
      exact hok
  · intro c
    simp [h.sums c, hz c]

/-- One update of a counter, with the task that made it. -/
theorem replace {t' : Task} {used : Counter → Nat} {faulted : Bool}
    (ht : s.tasks[i]? = some t) (hok : t'.Ok)
    (hu : ∀ c, used c + t.holds c = s.used c + t'.holds c) (hw : ∀ c, used c ≤ b.limit c)
    (hf : faulted = false) : State.Kept b ⟨used, s.tasks.set i t', faulted⟩ := by
  refine ⟨?_, ?_, hw, hf⟩
  · intro u hm
    rcases mem_or_eq_of_mem_set hm with hm | rfl
    · exact h.ok u hm
    · exact hok
  · intro c
    have hsum := slots.Table.sum_set (fun t : Task => t.holds c) ht t'
    have hc := h.sums c
    have hu := hu c
    show used c = ((s.tasks.set i t').map (fun t => t.holds c)).sum
    omega

theorem advance (i : Nat) : (s.advance b i).Kept b := by
  unfold State.advance
  split
  · exact h
  rename_i t ht
  have hok := h.ok t (mem_of_getElem? ht)
  split
  · rename_i hu
    have hh := t.holds_after b true hok (fun _ => rfl)
    rw [hu] at hh
    refine h.replace ht (t.after_ok b true hok) ?_ h.within h.sound
    intro c
    have := hh c
    simp only [Update.given, Update.taken] at this
    omega
  · rename_i c amount hu
    have hroom := h.within c
    have hf : (s.faulted || decide (amount ≠ 0 ∧ b.limit c < s.used c)) = false := by
      rw [h.sound, Bool.false_or, decide_eq_false_iff_not]
      omega
    simp only
    split
    · rename_i used hr
      have hused : used = s.used c + amount ∧ used ≤ b.limit c := by
        unfold reserve at hr
        split_ifs at hr with h0 hle
        · cases hr
          omega
        · cases hr
          omega
      have hh := t.holds_after b true hok (fun _ => rfl)
      rw [hu] at hh
      refine h.replace ht (t.after_ok b true hok) ?_ ?_ hf
      · intro d
        have := hh d
        simp only [Update.given, Update.taken] at this
        by_cases hd : d = c
        · subst hd
          simp only [update_self, true_and, if_true] at this ⊢
          omega
        · rw [update_of_ne hd]
          simp only [hd, false_and, if_false] at this
          omega
      · intro d
        by_cases hd : d = c
        · subst hd
          rw [update_self]
          exact hused.2
        · rw [update_of_ne hd]
          exact h.within d
    · have hh := t.holds_after b false hok (fun hn => by rw [hu] at hn; cases hn)
      rw [hu] at hh
      refine h.replace ht (t.after_ok b false hok) ?_ h.within hf
      intro d
      have := hh d
      simp only [Update.given, Update.taken, Bool.false_eq_true, and_false, if_false] at this
      omega
  · rename_i c amount hu
    have hh := t.holds_after b true hok (fun _ => rfl)
    rw [hu] at hh
    -- what a task gives back it holds, so the counter shows at least that
    have hle : amount ≤ s.used c := by
      have h1 := hh c
      have h2 := holds_le_sum ht c
      simp only [Update.given, Update.taken, if_true] at h1
      rw [h.sums c]
      omega
    have hrel : release (s.used c) amount = s.used c - amount := by
      unfold release
      split_ifs <;> omega
    refine h.replace ht (t.after_ok b true hok) ?_ ?_ ?_
    · intro d
      have := hh d
      simp only [Update.given, Update.taken] at this
      by_cases hd : d = c
      · subst hd
        simp only [update_self, if_true, hrel] at this ⊢
        omega
      · rw [update_of_ne hd]
        simp only [hd, if_false] at this
        omega
    · intro d
      have := h.within d
      by_cases hd : d = c
      · subst hd
        rw [update_self, hrel]
        omega
      · rw [update_of_ne hd]
        exact this
    · rw [h.sound, Bool.false_or, decide_eq_false_iff_not]
      omega

theorem act (a : Action) : (s.act b a).Kept b := by
  cases a with
  | reserve => exact h.spawn trivial (fun c => by cases c <;> rfl)
  | retain =>
    simp only [State.act]
    split
    · exact h.spawn trivial (fun c => by cases c <;> rfl)
    · exact h
  | call i call =>
    refine ⟨?_, ?_, h.within, h.sound⟩
    · intro t ht
      obtain ⟨u, hu, rfl | rfl⟩ := mem_modify ht
      · exact h.ok _ hu
      · exact u.call_ok call (h.ok u hu)
    · intro c
      rw [show (s.act b (.call i call)).tasks = s.tasks.modify i (Task.call call) from rfl,
        show (s.act b (.call i call)).used = s.used from rfl, h.sums c]
      congr 1
      apply ext_getElem?
      intro j
      rw [List.getElem?_map, List.getElem?_map, List.getElem?_modify]
      cases s.tasks[j]? with
      | none => rfl
      | some u =>
        simp only [Option.map_some]
        split
        · exact congrArg some (Task.call_holds call u c).symm
        · rfl
  | advance i => exact h.advance i

theorem run (actions : List Action) : (s.run b actions).Kept b := by
  induction actions generalizing s with
  | nil => exact h
  | cons a _ ih => exact ih (h.act a)

end State.Kept

/-! ## Disks -/

/-- Every disk that a task goes on to index exists. -/
def Task.Addressed (b : Budget) : Task → Prop
  | .reserving _ disk | .reserved_request _ disk | .reserved_bytes _ disk =>
    ∀ d ∈ disk, d < b.disks
  | .panicked _ => False
  | .permit p | .growing p _ | .grown_bytes p _ | .ungrowing p _ | .resizing p _ _
  | .resized_reads p _ _ | .finishing p _ => ∀ d ∈ p.disk, d < b.disks
  | .retaining _ disk | .retained_bytes _ disk | .retention _ disk | .dropping _ disk =>
    disk < b.disks
  | _ => True

/-- `reserve` is called with a disk of the store. -/
def Action.Addressed (b : Budget) : Action → Prop
  | .reserve _ disk => ∀ d ∈ disk, d < b.disks
  | _ => True

theorem Task.after_addressed (hb : 0 < b.disks) (ok : Bool)
    (h : t.Addressed b) : (t.after b ok).Addressed b := by
  cases t with
  | reserving | reserved_request | retaining | retained_bytes =>
    cases ok <;> first | exact h | trivial
  | reserved_bytes _ disk =>
    cases disk with
    | none =>
      simp only [Task.after, hb, if_true]
      exact h
    | some disk =>
      have hd : disk < b.disks := h disk rfl
      simp only [Task.after, hd, if_true]
      cases ok
      · trivial
      · exact h
  | growing | resizing =>
    simp only [Task.after]
    split_ifs <;> exact h
  | grown_bytes => cases ok <;> exact h
  | resized_reads _ _ drops => cases drops <;> exact h
  | finishing p drops => cases drops <;> first | exact h | trivial
  | _ => first | exact h | trivial

theorem Task.call_addressed (call : Call) (h : t.Addressed b) : (t.call call).Addressed b := by
  cases call <;> cases t <;> exact h

theorem act_addressed (hb : 0 < b.disks) {a : Action} (ha : a.Addressed b)
    (h : ∀ t ∈ s.tasks, t.Addressed b) : ∀ t ∈ (s.act b a).tasks, t.Addressed b := by
  intro t ht
  cases a with
  | reserve =>
    rcases mem_append.mp ht with ht | ht
    · exact h t ht
    · rw [mem_singleton.mp ht]
      exact ha
  | retain i =>
    simp only [State.act] at ht
    split at ht
    · rename_i bytes disk request hp
      rcases mem_append.mp ht with ht | ht
      · exact h t ht
      · rw [mem_singleton.mp ht]
        exact h _ (mem_of_getElem? hp) disk rfl
    · exact h t ht
  | call i call =>
    obtain ⟨u, hu, rfl | rfl⟩ := mem_modify ht
    · exact h _ hu
    · exact u.call_addressed call (h u hu)
  | advance i =>
    simp only [State.act] at ht
    cases hi : s.tasks[i]? with
    | none =>
      rw [State.advance, hi] at ht
      exact h t ht
    | some u =>
      rw [advance_tasks b hi] at ht
      rcases mem_or_eq_of_mem_set ht with ht | rfl
      · exact h t ht
      · exact Task.after_addressed hb _ (h u (mem_of_getElem? hi))

/-- While only disks of the store are named, no call panics. -/
theorem run_addressed (hb : 0 < b.disks) {actions : List Action} (ha : ∀ a ∈ actions, a.Addressed b)
    (h : ∀ t ∈ s.tasks, t.Addressed b) : ∀ t ∈ (s.run b actions).tasks, t.Addressed b := by
  induction actions generalizing s with
  | nil => exact h
  | cons _ _ ih =>
    rw [forall_mem_cons] at ha
    exact ih ha.2 (act_addressed hb ha.1 h)

/-! ## Budgets -/

/-- A `reserve`, `grow` or `retain` that fails with its next update, and what its caller had before
the call: nothing, or the permit. -/
def Task.failing (ok : Bool) : Task → Option Task
  | .reserving _ _ => if ok then none else some .returned
  | .unreserving_request => some .returned
  | .growing p bytes => if bytes ≤ p.bytes ∨ ok = true then none else some (.permit p)
  | .ungrowing p _ => some (.permit p)
  | .retaining _ _ => if ok then none else some .returned
  | .unretaining _ => some .returned
  | _ => none

theorem Task.failing_after (b : Budget) {ok : Bool} {before : Task}
    (h : t.failing ok = some before) : t.after b ok = before := by
  cases t with
  | reserving | retaining => cases ok <;> cases h; rfl
  | unreserving_request | ungrowing | unretaining => cases h; rfl
  | growing =>
    simp only [Task.failing] at h
    split_ifs at h with hn
    rw [not_or] at hn
    cases h
    simp [Task.after, hn]
  | _ => cases h

/-- For every interleaving of updates, every counter is the sum of what permits, retentions and
calls in progress hold, within its limit; no subtraction underflows and no assertion fails; a call
that fails leaves its caller what it had, and nothing else; a panic comes from naming a disk that
does not exist only; and when all has been dropped the counters are zero. -/
theorem budgets_are_conserved (b : Budget) (actions : List Action) :
    let s := State.new.run b actions
    (∀ c, s.used c = (s.tasks.map (fun t => t.holds c)).sum) ∧
    (∀ c, s.used c ≤ b.limit c) ∧ s.faulted = false ∧
    (∀ (i : Nat) t before, s.tasks[i]? = some t → t.failing (s.room b t) = some before →
      (s.advance b i).tasks = s.tasks.set i before ∧
      ∀ c, (s.advance b i).used c = ((s.tasks.set i before).map (fun t => t.holds c)).sum) ∧
    (0 < b.disks → (∀ a ∈ actions, a.Addressed b) → ∀ bytes, .panicked bytes ∉ s.tasks) ∧
    ((∀ t ∈ s.tasks, t = .returned) → ∀ c, s.used c = 0) := by
  intro s
  have h : s.Kept b := (new_kept b).run actions
  refine ⟨h.sums, h.within, h.sound, ?_, ?_, ?_⟩
  · intro i t before ht hf
    have htasks := advance_tasks b ht
    rw [Task.failing_after b hf] at htasks
    refine ⟨htasks, fun c => ?_⟩
    rw [← htasks]
    exact (h.advance i).sums c
  · intro hb ha bytes hp
    exact run_addressed hb ha (fun t ht => by cases ht) _ hp
  · intro hall c
    rw [h.sums c]
    apply sum_eq_zero
    intro n hn
    obtain ⟨t, ht, rfl⟩ := mem_map.mp hn
    rw [hall t ht]
    rfl

/-! ## Retained bytes -/

/-- Apart from task `i`, what holds read bytes has a live retention of its own for them: the others
are holders, as many retentions, and a rest that holds none. -/
def State.Covered (s : State) (i : Nat) : Prop :=
  ∃ (held : List (Task × Nat × Nat)) (rest : List Task),
    (s.tasks.eraseIdx i).Perm
      (held.map Prod.fst ++ held.map (fun p => .retention p.2.1 p.2.2) ++ rest) ∧
    (∀ p ∈ held, p.1.holds .used_bytes ≤ p.2.1 ∧
      ∀ d, p.1.holds (.used_reads d) ≤ if p.2.2 = d then p.2.1 else 0) ∧
    ∀ t ∈ rest, t.holds .used_bytes = 0 ∧ ∀ d, t.holds (.used_reads d) = 0

theorem State.Kept.used_le_retained (h : s.Kept b) (hi : s.tasks[i]? = some t) (hc : s.Covered i) :
    s.used .used_bytes ≤ t.holds .used_bytes + s.used .retained_bytes ∧
      ∀ d, s.used (.used_reads d) ≤ t.holds (.used_reads d) + s.used (.retained_reads d) := by
  obtain ⟨held, rest, hp, hheld, hrest⟩ := hc
  obtain ⟨hlt, rfl⟩ := List.getElem?_eq_some_iff.mp hi
  have hall := (getElem_cons_eraseIdx_perm hlt).symm.trans (hp.cons _)
  have split : ∀ used retained, (∀ bytes disk, (Task.retention bytes disk).holds used = 0) →
      (∀ p ∈ held, p.1.holds used ≤ (Task.retention p.2.1 p.2.2).holds retained) →
      (∀ t ∈ rest, t.holds used = 0) → s.used used ≤ s.tasks[i].holds used + s.used retained := by
    intro used retained hz hle hr
    have h1 := sum_le_sum hle
    have h2 : (held.map (fun p => (Task.retention p.2.1 p.2.2).holds used)).sum = 0 := by
      simp [hz]
    have h3 : (rest.map (fun t => t.holds used)).sum = 0 := by
      rw [map_congr_left hr]; simp
    rw [h.sums, h.sums, (hall.map _).sum_eq, (hall.map _).sum_eq]
    simp only [map_cons, map_append, map_map, sum_cons, sum_append, comp_def]
    omega
  exact ⟨split _ _ (fun _ _ => rfl) (fun p hm => (hheld p hm).1) (fun t ht => (hrest t ht).1),
    fun d => split _ _ (fun _ _ => rfl) (fun p hm => (hheld p hm).2 d) fun t ht => (hrest t ht).2 d⟩

/-- An update that takes from a counter, with room for it. -/
theorem advance_take {c : Counter} {amount : Nat} (h : s.tasks[i]? = some t)
    (hu : t.update b = .take c amount) (hr : s.used c + amount ≤ b.limit c) :
    (s.advance b i).tasks = s.tasks.set i (t.after b true) := by
  have hres : reserve (s.used c) amount (b.limit c) = some (s.used c + amount) := by
    unfold reserve
    split_ifs with h0
    · rw [h0]; rfl
    · rfl
    · omega
  unfold State.advance
  simp only [h, hu, hres]

/-- Retained chunks alone never keep a read from being dispatched. Whatever the interleaving that
led there, while all that the others hold is retained, an empty read permit grows to any class: each
of the two updates of `grow` finds room when its turn comes. -/
theorem retention_leaves_room_for_a_read (b : Budget) (actions : List Action) (i disk n : Nat)
    (request : Bool) (hb : b.read_class ≤ b.bytes) (hr : b.read_class ≤ b.read_bytes) (hn : 0 < n)
    (hle : n ≤ b.read_class) (hc : (State.new.run b actions).Covered i) :
    let s := State.new.run b actions
    let p : Permit := ⟨0, some disk, request⟩
    (s.tasks[i]? = some (.growing p n) →
      (s.advance b i).tasks = s.tasks.set i (.grown_bytes p n)) ∧
    (s.tasks[i]? = some (.grown_bytes p n) →
      (s.advance b i).tasks = s.tasks.set i (.permit { p with bytes := n })) := by
  intro s p
  have hk : s.Kept b := (new_kept b).run actions
  have w1 := hk.within .retained_bytes
  have w2 := hk.within (.retained_reads disk)
  simp only [Budget.limit] at w1 w2
  refine ⟨fun hi => ?_, fun hi => ?_⟩
  · have h1 : s.used .used_bytes ≤ 0 + _ := (hk.used_le_retained hi hc).1
    have hup : (Task.growing p n).update b = .take .used_bytes n := if_neg (by simp only [p]; omega)
    rw [advance_take hi hup (by simp only [Budget.limit]; omega)]
    exact congrArg _ (if_neg (by simp only [p]; omega))
  · have h2 := (hk.used_le_retained hi hc).2 disk
    rw [show (Task.grown_bytes p n).holds (.used_reads disk) =
      0 by simp [Task.holds, Permit.holds, p]] at h2
    rw [advance_take hi rfl (by simp only [Budget.limit]; omega)]
    rfl

/-- A chunk of the largest class is retained, with no room for a second one to be. A read of that
class takes its bytes, a smaller read permit is reserved meanwhile, and the first one is
dispatched. -/
theorem one_retained_chunk_leaves_room :
    (State.advance ⟨4, 32, 32, 1, 16⟩ (State.new.run ⟨4, 32, 32, 1, 16⟩
    [.reserve 16 (some 0), .advance 0, .advance 0, .advance 0, .retain 0, .advance 1, .advance 1,
      .reserve 0 (some 0), .advance 2, .advance 2, .advance 2, .call 2 (.grow 16), .advance 2,
      .reserve 0 (some 0), .advance 3, .advance 3, .advance 3]) 2).tasks =
    [.permit ⟨16, some 0, true⟩, .retention 16 0, .permit ⟨16, some 0, true⟩,
    .permit ⟨0, some 0, true⟩] :=
  (retention_leaves_room_for_a_read _ _ 2 0 16 true (by decide) (by decide) (by decide) (by decide)
    ⟨[(.permit ⟨16, some 0, true⟩, 16, 0)], [.permit ⟨0, some 0, true⟩], .of_eq (by decide),
      by simp [Task.holds, Permit.holds], by simp [Task.holds, Permit.holds]⟩).2 (by decide)

end moat_cache_store.budget
