-- Batched delivery of completions (`moat-cache-store/src/delivery.rs`): a producer
-- queues batches, a driver on the application's executor runs them. Whoever finds
-- the driver gone drains the queue itself. One step is one section under the lock
-- of the queue, or the begin or the end of one action.
import Mathlib

namespace moat_cache_store.delivery

open List

variable {α : Type}

/-! ## The threads -/

/-- A thread in the loop over a batch: the action that runs now, and those that are left. -/
structure Batch (α : Type) where
  now : Option α
  rest : List α

/-- Where a thread is in `drain_fallback`: at the lock, or in the loop over a batch. -/
inductive Drain (α : Type) where
  | locking
  | running (batch : Batch α)

/-- The owner of the `Delivery`. `dropping` says that the flush is the one of `drop`. -/
inductive Producer (α : Type) where
  | idle
  | draining (dropping : Bool) (drain : Drain α)
  /-- In `drop`, after its flush. -/
  | closing
  | dropped

/-- The task on the executor. -/
inductive Driver (α : Type) where
  /-- Between two polls. -/
  | idle
  | polling (batch : Batch α)
  /-- A poll has returned `Ready`. -/
  | ready
  | draining (drain : Drain α)
  | dropped

/-- The shared queue, the pending batch of the producer and both threads. `ran` is for the
statements only: the actions that have begun, in order. -/
structure State (α : Type) where
  batches : List (List α)
  producer_closed : Bool
  driver_alive : Bool
  draining : Bool
  pending : List α
  producer : Producer α
  driver : Driver α
  ran : List α

/-- `Delivery::new` with an executor. -/
def State.new : State α := ⟨[], false, true, false, [], .idle, .idle, []⟩

/-! ## Steps -/

/-- The next step in the loop over a batch. `none` leaves the loop. -/
def Batch.step (b : Batch α) (ran : List α) : Option (Batch α × List α) :=
  match b.now, b.rest with
  | some _, rest => some (⟨none, rest⟩, ran)
  | none, a :: rest => some (⟨some a, rest⟩, ran ++ [a])
  | none, [] => none

/-- The next step in `drain_fallback`. `none` returns from it. -/
def Drain.step (d : Drain α) (s : State α) : Option (Drain α) × State α :=
  match d with
  | .locking =>
    match s.batches with
    | batch :: batches => (some (.running ⟨none, batch⟩), { s with batches })
    | [] => (none, { s with draining := false })
  | .running batch =>
    match batch.step s.ran with
    | some (batch, ran) => (some (.running batch), { s with ran })
    | none => (some .locking, s)

/-- Where the producer is after a flush. -/
def Producer.flushed (dropping : Bool) : Producer α := if dropping then .closing else .idle

def State.push (s : State α) (action : α) : State α :=
  { s with pending := s.pending ++ [action] }

/-- The section of `flush` under the lock. -/
def State.flush (s : State α) (dropping : Bool) : State α :=
  if s.pending.isEmpty then { s with producer := .flushed dropping }
  else
    let fallback := !s.driver_alive && !s.draining
    { s with
      batches := s.batches ++ [s.pending]
      pending := []
      draining := s.draining || fallback
      producer := if fallback then .draining dropping .locking else .flushed dropping }

/-- The section of `Driver::poll` under the lock. -/
def State.poll (s : State α) : State α :=
  match s.batches with
  | batch :: batches => { s with batches, driver := .polling ⟨none, batch⟩ }
  | [] => if s.producer_closed then { s with driver := .ready } else s

/-- The section of `Driver::drop` under the lock. -/
def State.drop_driver (s : State α) : State α :=
  let drain := !s.draining
  { s with
    driver_alive := false
    draining := true
    driver := if drain then .draining .locking else .dropped }

/-- The producer goes on with the call that it is in. -/
def State.produce (s : State α) : State α :=
  match s.producer with
  | .draining dropping drain =>
    match drain.step s with
    | (some drain, s) => { s with producer := .draining dropping drain }
    | (none, s) => { s with producer := .flushed dropping }
  | .closing => { s with producer_closed := true, producer := .dropped }
  | .idle | .dropped => s

/-- The driver goes on with the poll or the drop that it is in. -/
def State.drive (s : State α) : State α :=
  match s.driver with
  | .polling batch =>
    match batch.step s.ran with
    | some (batch, ran) => { s with driver := .polling batch, ran }
    | none => { s with driver := .idle }
  | .draining drain =>
    match drain.step s with
    | (some drain, s) => { s with driver := .draining drain }
    | (none, s) => { s with driver := .dropped }
  | .idle | .ready | .dropped => s

/-- What happens next: a call of the producer, a poll or the drop of the driver, or one more step of
a call that is under way. -/
inductive Move (α : Type) where
  | push (action : α)
  | flush
  | drop
  | poll
  | drop_driver
  | produce
  | drive

/-- A thread makes one call at a time, and a task is not polled again after it was ready. Other
moves change nothing. -/
def State.step (s : State α) : Move α → State α
  | .push action =>
    match s.producer with
    | .idle => s.push action
    | _ => s
  | .flush =>
    match s.producer with
    | .idle => s.flush false
    | _ => s
  | .drop =>
    match s.producer with
    | .idle => s.flush true
    | _ => s
  | .poll =>
    match s.driver with
    | .idle => s.poll
    | _ => s
  | .drop_driver =>
    match s.driver with
    | .idle | .ready => s.drop_driver
    | _ => s
  | .produce => s.produce
  | .drive => s.drive

def State.run (s : State α) (moves : List (Move α)) : State α := moves.foldl State.step s

/-- The action that a move hands in: a producer that is in another call makes no `push`. -/
def State.pushed (s : State α) : Move α → List α
  | .push action =>
    match s.producer with
    | .idle => [action]
    | _ => []
  | _ => []

def State.pushes (s : State α) : List (Move α) → List α
  | [] => []
  | move :: moves => s.pushed move ++ (s.step move).pushes moves

/-! ## Who has which actions -/

/-- The actions that the thread has taken and not begun. -/
def Drain.taken : Drain α → List α
  | .locking => []
  | .running batch => batch.rest

def Producer.taken : Producer α → List α
  | .draining _ drain => drain.taken
  | _ => []

def Driver.taken : Driver α → List α
  | .polling batch => batch.rest
  | .draining drain => drain.taken
  | _ => []

/-- The action that the thread runs now. -/
def Drain.running? : Drain α → Option α
  | .locking => none
  | .running batch => batch.now

def Producer.running? : Producer α → Option α
  | .draining _ drain => drain.running?
  | _ => none

def Driver.running? : Driver α → Option α
  | .polling batch => batch.now
  | .draining drain => drain.running?
  | _ => none

def Producer.Drains : Producer α → Prop
  | .draining _ _ => True
  | _ => False

def Driver.Drains : Driver α → Prop
  | .draining _ => True
  | _ => False

/-- A drain is in progress. -/
def State.Drains (s : State α) : Prop := s.producer.Drains ∨ s.driver.Drains

/-- The driver's `drop` has begun. -/
def Driver.Leaves : Driver α → Prop
  | .draining _ | .dropped => True
  | _ => False

theorem Producer.taken_of_not_drains {p : Producer α} (h : ¬ p.Drains) : p.taken = [] := by
  cases p with
  | draining => exact absurd trivial h
  | _ => rfl

theorem Producer.running_of_not_drains {p : Producer α} (h : ¬ p.Drains) : p.running? = none := by
  cases p with
  | draining => exact absurd trivial h
  | _ => rfl

@[simp] theorem Producer.flushed_drains (dropping : Bool) :
    ¬ (Producer.flushed dropping : Producer α).Drains := by
  cases dropping <;> simp [Producer.flushed, Producer.Drains]

@[simp] theorem Producer.flushed_taken (dropping : Bool) :
    (Producer.flushed dropping : Producer α).taken = [] := by
  cases dropping <;> rfl

/-- Who may drain, by the flags. An action leaves the queue in the hands of one thread: the driver
as long as it lives, then the one that has set `draining`. `pushed` is what was handed in so far. -/
structure Ordered (pushed : List α) (s : State α) : Prop where
  order : pushed = s.ran ++ s.driver.taken ++ s.producer.taken ++ s.batches.flatten ++ s.pending
  alive : s.driver_alive = true ↔ ¬ s.driver.Leaves
  kept : s.driver_alive = true → s.draining = false
  drains : s.draining = true ↔ s.Drains
  one : ¬ (s.producer.Drains ∧ s.driver.Drains)
  left : s.driver_alive = false → s.draining = false → s.batches = []
  spent : s.producer ≠ .idle → s.pending = []
  closed : s.producer_closed = true ↔ s.producer = .dropped
  ready : s.driver = .ready → s.producer = .dropped ∧ s.batches = []

theorem Ordered.new : Ordered [] (State.new : State α) := by
  refine ⟨rfl, ?_, fun _ => rfl, ?_, ?_, ?_, fun h => absurd rfl h, ?_, ?_⟩
  all_goals simp [State.new, State.Drains, Producer.Drains, Driver.Drains, Driver.Leaves]

variable {s : State α} {pushed : List α}

/-- While the producer drains, the driver is gone. -/
theorem Ordered.driver_dropped (h : Ordered pushed s) (hp : s.producer.Drains) :
    s.driver = .dropped := by
  have hd : s.draining = true := h.drains.mpr (.inl hp)
  have hl : s.driver.Leaves := by
    by_contra hl
    rw [h.kept (h.alive.mpr hl)] at hd
    cases hd
  have hn : ¬ s.driver.Drains := fun hn => h.one ⟨hp, hn⟩
  cases hs : s.driver with
  | draining => rw [hs] at hn; exact absurd trivial hn
  | dropped => rfl
  | _ => rw [hs] at hl; exact hl.elim

/-- While the driver is not gone, the producer does not drain. -/
theorem Ordered.producer_idle (h : Ordered pushed s) (hd : s.driver ≠ .dropped) :
    ¬ s.producer.Drains := fun hp => hd (h.driver_dropped hp)

/-! ## One step -/

/-- A step in the loop over a batch begins its next action or ends one. -/
theorem Batch.step_ran {b b' : Batch α} {ran ran' : List α} (h : b.step ran = some (b', ran')) :
    ran' ++ b'.rest = ran ++ b.rest := by
  obtain ⟨now, rest⟩ := b
  unfold Batch.step at h
  cases now with
  | some =>
    cases h
    rfl
  | none =>
    cases rest with
    | nil => cases h
    | cons =>
      cases h
      simp

theorem Batch.step_none {b : Batch α} {ran : List α} (h : b.step ran = none) : b.rest = [] := by
  obtain ⟨now, rest⟩ := b
  unfold Batch.step at h
  cases now with
  | some => cases h
  | none =>
    cases rest with
    | nil => rfl
    | cons => cases h

/-- A drain takes actions from the front of the queue and runs them, or it finds the queue empty. -/
theorem Drain.step_cases (d : Drain α) (s : State α) :
    (∃ d' batches ran, d.step s = (some d', { s with batches, ran }) ∧
      ran ++ d'.taken ++ batches.flatten = s.ran ++ d.taken ++ s.batches.flatten) ∨
    (d.step s = (none, { s with draining := false }) ∧ s.batches = [] ∧ d.taken = []) := by
  cases d with
  | locking =>
    cases hb : s.batches with
    | nil => exact .inr ⟨by simp [Drain.step, hb], rfl, rfl⟩
    | cons batch batches =>
      exact .inl ⟨.running ⟨none, batch⟩, batches, s.ran, by simp [Drain.step, hb],
        by simp [Drain.taken]⟩
  | running batch =>
    cases hb : batch.step s.ran with
    | none =>
      have hrest := Batch.step_none hb
      exact .inl ⟨.locking, s.batches, s.ran, by simp [Drain.step, hb],
        by simp [Drain.taken, hrest]⟩
    | some x =>
      obtain ⟨batch', ran⟩ := x
      have hran := Batch.step_ran hb
      exact .inl ⟨.running batch', s.batches, ran, by simp [Drain.step, hb],
        by simp [Drain.taken, hran]⟩

section

variable (h : Ordered pushed s)
include h

theorem Ordered.push (hp : s.producer = .idle) (action : α) :
    Ordered (pushed ++ [action]) (s.push action) :=
  { h with
    order := by simp [State.push, h.order]
    spent := fun hn => absurd hp hn }

theorem Ordered.flush (hp : s.producer = .idle) (dropping : Bool) :
    Ordered pushed (s.flush dropping) := by
  have hidle : ¬ s.producer.Drains := by simp [hp, Producer.Drains]
  have hopen : s.producer_closed = false := by
    rw [Bool.eq_false_iff, Ne, h.closed, hp]
    simp
  have hnot : s.driver ≠ .ready := by
    intro hr
    have := (h.ready hr).1
    rw [hp] at this
    cases this
  have hclosing : (Producer.flushed dropping : Producer α) ≠ .dropped := by
    cases dropping <;> simp [Producer.flushed]
  unfold State.flush
  split
  · rename_i he
    have hpend : s.pending = [] := isEmpty_iff.mp he
    refine { h with
      order := ?_, drains := ?_, one := ?_, spent := fun _ => hpend, closed := ?_, ready := ?_ }
    · simpa [Producer.taken_of_not_drains hidle] using h.order
    · have := h.drains
      simp only [State.Drains, hidle, false_or] at this
      simpa [State.Drains] using this
    · simp
    · simp [hopen, hclosing]
    · exact fun hr => absurd hr hnot
  · have htaken : s.producer.taken = [] := Producer.taken_of_not_drains hidle
    have horder : pushed = s.ran ++ s.driver.taken ++ (s.batches ++ [s.pending]).flatten := by
      rw [h.order, htaken]
      simp
    have hdrains : s.draining = true ↔ s.driver.Drains := by
      simpa [State.Drains, hidle] using h.drains
    by_cases hf : (!s.driver_alive && !s.draining) = true
    · -- the driver is gone and nobody drains: the producer does it
      simp only [hf, Bool.or_true, if_true]
      simp only [Bool.and_eq_true, Bool.not_eq_true'] at hf
      have hnd : ¬ s.driver.Drains := by
        rw [← hdrains, hf.2]
        simp
      refine {
        order := ?_, alive := h.alive, kept := ?_, drains := ?_, one := fun hx => hnd hx.2
        left := by simp, spent := fun _ => rfl, closed := ?_, ready := fun hr => absurd hr hnot }
      · simpa [Producer.taken, Drain.taken] using horder
      · intro ha
        rw [hf.1] at ha
        cases ha
      · simp [State.Drains, Producer.Drains]
      · simp [hopen]
    · have hf' : (!s.driver_alive && !s.draining) = false := by simpa using hf
      simp only [hf', Bool.or_false, Bool.false_eq_true, if_false]
      refine {
        order := ?_, alive := h.alive, kept := h.kept, drains := ?_, one := by simp, left := ?_
        spent := fun _ => rfl, closed := ?_, ready := fun hr => absurd hr hnot }
      · simpa using horder
      · simpa [State.Drains] using hdrains
      · intro (ha : s.driver_alive = false) (hd : s.draining = false)
        simp [ha, hd] at hf'
      · simp [hopen, hclosing]

theorem Ordered.poll (hd : s.driver = .idle) : Ordered pushed s.poll := by
  have halive : s.driver_alive = true := h.alive.mpr (by simp [hd, Driver.Leaves])
  have hdrains : ¬ s.Drains := by
    rw [← h.drains, h.kept halive]
    simp
  have horder := h.order
  simp only [hd, Driver.taken, append_nil] at horder
  unfold State.poll
  split
  · rename_i batch batches hb
    have htaken : s.producer.taken = [] := Producer.taken_of_not_drains fun hp => hdrains (.inl hp)
    have hp : ¬ s.producer.Drains := fun hp => hdrains (.inl hp)
    refine { h with
      order := ?_, alive := ?_, drains := ?_, one := fun hx => hp hx.1, left := ?_, ready := ?_ }
    · simpa [Driver.taken, hb, htaken] using horder
    · simpa [Driver.Leaves] using halive
    · simp [State.Drains, hp, Driver.Drains, h.kept halive]
    · intro ha
      rw [halive] at ha
      cases ha
    · simp
  · rename_i hb
    split
    · rename_i hc
      have hp : ¬ s.producer.Drains := fun hp => hdrains (.inl hp)
      refine { h with
        order := ?_, alive := ?_, drains := ?_, one := fun hx => hp hx.1, ready := ?_ }
      · simpa [Driver.taken] using horder
      · simpa [Driver.Leaves] using halive
      · simp [State.Drains, hp, Driver.Drains, h.kept halive]
      · exact fun _ => ⟨h.closed.mp hc, hb⟩
    · exact h

theorem Ordered.drop_driver (hd : s.driver = .idle ∨ s.driver = .ready) :
    Ordered pushed s.drop_driver := by
  have htaken : s.driver.taken = [] := by rcases hd with hd | hd <;> rw [hd] <;> rfl
  have halive : s.driver_alive = true :=
    h.alive.mpr (by rcases hd with hd | hd <;> simp [hd, Driver.Leaves])
  have hoff : s.draining = false := h.kept halive
  have hp : ¬ s.producer.Drains := fun hp => by
    have := h.drains.mpr (.inl hp)
    rw [hoff] at this
    cases this
  have horder := h.order
  simp only [htaken, append_nil] at horder
  unfold State.drop_driver
  simp only [hoff, Bool.not_false, if_true]
  refine { h with order := ?_, alive := ?_, kept := ?_, drains := ?_, one := fun hx => hp hx.1
                  left := by simp, ready := by simp }
  · simpa [Driver.taken, Drain.taken] using horder
  · simp [Driver.Leaves]
  · simp
  · simp [State.Drains, Driver.Drains]

theorem Ordered.produce : Ordered pushed s.produce := by
  unfold State.produce
  cases hp : s.producer with
  | idle | dropped => simpa only [hp] using h
  | closing =>
    have hpend : s.pending = [] := h.spent (by simp [hp])
    refine { h with
      order := ?_, drains := ?_, one := by simp [Producer.Drains], spent := fun _ => hpend
      closed := by simp, ready := fun hr => ⟨rfl, (h.ready hr).2⟩ }
    · simpa [hp, Producer.taken] using h.order
    · simpa [State.Drains, hp, Producer.Drains] using h.drains
  | draining dropping drain =>
    have hdrains : s.producer.Drains := by simp [hp, Producer.Drains]
    have hgone := h.driver_dropped hdrains
    have hpend : s.pending = [] := h.spent (by simp [hp])
    have hon : s.draining = true := h.drains.mpr (.inl hdrains)
    have hdead : s.driver_alive = false := by
      rw [Bool.eq_false_iff, Ne, h.alive, hgone]
      simp [Driver.Leaves]
    have hopen : s.producer_closed = false := by
      rw [Bool.eq_false_iff, Ne, h.closed, hp]
      simp
    have horder := h.order
    simp only [hp, hgone, Driver.taken, Producer.taken, append_nil] at horder
    simp only
    rcases drain.step_cases s with ⟨d', batches, ran, hs, heq⟩ | ⟨hs, hb, ht⟩
    · rw [hs]
      refine { h with order := ?_, drains := ?_, one := by simp [hgone, Driver.Drains], left := ?_
                      spent := fun _ => hpend, closed := by simp [hopen], ready := by simp [hgone] }
      · simp only [hgone, Driver.taken, Producer.taken, append_nil]
        rw [horder, heq]
      · simp [State.Drains, Producer.Drains, hon]
      · intro _ hd
        rw [hon] at hd
        cases hd
    · rw [hs]
      refine { h with order := ?_, kept := ?_, drains := ?_, one := by simp, left := fun _ _ => hb
                      spent := fun _ => hpend, closed := ?_, ready := by simp [hgone] }
      · simpa [hgone, Driver.taken, ht] using horder
      · simp
      · simp [State.Drains, hgone, Driver.Drains]
      · cases dropping <;> simp [hopen, Producer.flushed]

theorem Ordered.drive : Ordered pushed s.drive := by
  unfold State.drive
  cases hd : s.driver with
  | idle | ready | dropped => simpa only [hd] using h
  | polling batch =>
    have hp : ¬ s.producer.Drains := h.producer_idle (by simp [hd])
    have htaken := Producer.taken_of_not_drains hp
    have halive : s.driver_alive = true := h.alive.mpr (by simp [hd, Driver.Leaves])
    have hoff := h.kept halive
    have horder := h.order
    simp only [hd, Driver.taken, htaken, append_nil] at horder
    simp only
    cases hs : batch.step s.ran with
    | none =>
      have hrest := Batch.step_none hs
      refine { h with order := ?_, alive := by simpa [Driver.Leaves] using halive, drains := ?_
                      one := fun hx => hp hx.1, ready := by simp }
      · simpa [Driver.taken, htaken, hrest] using horder
      · simp [State.Drains, hp, Driver.Drains, hoff]
    | some x =>
      obtain ⟨batch', ran⟩ := x
      have hran := Batch.step_ran hs
      refine { h with order := ?_, alive := by simpa [Driver.Leaves] using halive, drains := ?_
                      one := fun hx => hp hx.1, ready := by simp }
      · simp only [Driver.taken, htaken, append_nil]
        rw [horder, hran]
      · simp [State.Drains, hp, Driver.Drains, hoff]
  | draining drain =>
    have hdr : s.driver.Drains := by simp [hd, Driver.Drains]
    have hp : ¬ s.producer.Drains := fun hp => h.one ⟨hp, hdr⟩
    have htaken := Producer.taken_of_not_drains hp
    have hon : s.draining = true := h.drains.mpr (.inr hdr)
    have hdead : s.driver_alive = false := by
      rw [Bool.eq_false_iff, Ne, h.alive, hd]
      simp [Driver.Leaves]
    have horder := h.order
    simp only [hd, Driver.taken, htaken, append_nil] at horder
    simp only
    rcases drain.step_cases s with ⟨d', batches, ran, hs, heq⟩ | ⟨hs, hb, ht⟩
    · rw [hs]
      refine { h with order := ?_, alive := ?_, drains := ?_, one := fun hx => hp hx.1, left := ?_
                      ready := by simp }
      · simp only [Driver.taken, htaken, append_nil]
        rw [horder, heq]
      · simpa [Driver.Leaves] using hdead
      · simp [State.Drains, Driver.Drains, hon]
      · intro _ hoff
        rw [hon] at hoff
        cases hoff
    · rw [hs]
      refine { h with order := ?_, alive := ?_, kept := ?_, drains := ?_, one := fun hx => hp hx.1
                      left := fun _ _ => hb, ready := by simp }
      · simpa [Driver.taken, htaken, ht] using horder
      · simpa [Driver.Leaves] using hdead
      · simp
      · simp [State.Drains, hp, Driver.Drains]

theorem Ordered.step (move : Move α) : Ordered (pushed ++ s.pushed move) (s.step move) := by
  have hnil : ∀ {s'}, Ordered pushed s' → Ordered (pushed ++ []) s' := by simp
  cases move with
  | push action =>
    simp only [State.step, State.pushed]
    split
    · exact h.push ‹_› action
    · exact hnil h
  | flush =>
    simp only [State.step]
    split
    · exact hnil (h.flush ‹_› false)
    · exact hnil h
  | drop =>
    simp only [State.step]
    split
    · exact hnil (h.flush ‹_› true)
    · exact hnil h
  | poll =>
    simp only [State.step]
    split
    · exact hnil (h.poll ‹_›)
    · exact hnil h
  | drop_driver =>
    simp only [State.step]
    split
    · exact hnil (h.drop_driver (.inl ‹_›))
    · exact hnil (h.drop_driver (.inr ‹_›))
    · exact hnil h
  | produce => exact hnil h.produce
  | drive => exact hnil h.drive

theorem Ordered.run (moves : List (Move α)) : Ordered (pushed ++ s.pushes moves) (s.run moves) := by
  induction moves generalizing s pushed with
  | nil => rwa [State.pushes, append_nil]
  | cons move _ ih =>
    rw [State.pushes, ← append_assoc]
    exact ih (h.step move)

/-! ## Whole runs -/

/-- Once both sides are done, nothing is left anywhere. -/
theorem Ordered.all_ran (hp : s.producer = .dropped)
    (hd : s.driver = .ready ∨ s.driver.Leaves) (hn : ¬ s.Drains) : s.ran = pushed := by
  have hpend : s.pending = [] := h.spent (by simp [hp])
  have hoff : s.draining = false := by
    rw [Bool.eq_false_iff, Ne, h.drains]
    exact hn
  have hbatches : s.batches = [] := by
    rcases hd with hd | hd
    · exact (h.ready hd).2
    · refine h.left ?_ hoff
      rw [Bool.eq_false_iff, Ne, h.alive]
      exact fun hx => hx hd
  have htaken : s.driver.taken = [] := by
    rcases hd with hd | hd
    · rw [hd]
      rfl
    · cases hs : s.driver with
      | draining => exact absurd (.inr (by simp [hs, Driver.Drains])) hn
      | dropped => rfl
      | _ => rw [hs] at hd; exact hd.elim
  rw [h.order, hp, hpend, hbatches, htaken]
  simp [Producer.taken]

theorem Ordered.one_runs : s.producer.running? = none ∨ s.driver.running? = none := by
  by_cases hp : s.producer.Drains
  · rw [h.driver_dropped hp]
    exact .inr rfl
  · exact .inl (Producer.running_of_not_drains hp)

end

/-- Every interleaving of the producer's calls with polls and the drop of the driver delivers in
order: what has run is the beginning of what was pushed, two actions never run at once, and all of
them have run once both sides are done and nobody drains. -/
theorem completions_are_delivered_in_order (moves : List (Move α)) :
    let s := (State.new : State α).run moves
    let pushed := (State.new : State α).pushes moves
    s.ran <+: pushed ∧
    (s.producer.running? = none ∨ s.driver.running? = none) ∧
    (s.producer = .dropped → s.driver = .ready ∨ s.driver.Leaves → ¬ s.Drains →
      s.ran = pushed) := by
  have h := Ordered.new.run moves
  rw [nil_append] at h
  refine ⟨?_, h.one_runs, h.all_ran⟩
  have horder := h.order
  simp only [append_assoc] at horder
  exact ⟨_, horder.symm⟩

/-- The driver runs the first batch and is dropped, and the producer drains the second one
itself. -/
def twoBatches : List (Move Nat) :=
  [.push 1, .push 2, .flush, .poll, .drive, .drive, .drive, .drive, .drive, .drop_driver, .drive,
    .push 3, .drop, .push 4, .produce, .produce, .produce, .produce, .produce, .produce]

theorem twoBatches_are_delivered_in_order :
    (State.new.run twoBatches).producer = .dropped ∧ (State.new.run twoBatches).driver = .dropped ∧
      State.new.pushes twoBatches = [1, 2, 3] ∧ (State.new.run twoBatches).ran = [1, 2, 3] := by
  refine ⟨rfl, rfl, rfl, ?_⟩
  exact (completions_are_delivered_in_order twoBatches).2.2 rfl (.inr trivial)
    (fun h => h.elim id id)

end moat_cache_store.delivery
