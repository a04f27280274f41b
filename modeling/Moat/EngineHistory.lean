-- Whole runs of an engine: any calls, any order and outcome of completions, a
-- fatal failure of the queue at any moment. Every ticket is completed once, and
-- the queue never refuses what the driver submits.
import Moat.EngineJobs

namespace moat_engine.engine

open byte_list moat_common List
open moat_engine.frame (FrameBuilder FrameLimits)
open moat_engine.io (Operation Queue Script)
open moat_engine.pipeline
  (Act Books Does Failing Live Pending Pipeline Range ReadBuffers Shifts Steady
  Write quiet)

/-! ## Calls and runs -/

inductive Call where
  | read (key : ChunkId) (range : Range) (verify : Bool) (buffers : ReadBuffers)
  | write (frame : FrameBuilder) (buffer : Bytes)
  | write_prepared (key : ChunkId) (lsn : UInt64) (len : Nat) (buffer : Bytes)
  | flush
  | rollover (number : Option Nat)
  | seal_
  | close
  | poll (script : Script)

/-- What an owner has seen of an engine: the tickets it got, and the completions. -/
structure History where
  now : Engine
  issued : List Nat
  out : List Completion

/-- A call that gave back a ticket, or failed and changed nothing. -/
def History.took (h : History) : Except Error (Engine × Nat) → History
  | .ok (now, ticket) => { h with now, issued := h.issued ++ [ticket] }
  | .error _ => h

/-- A call that may fail and still change the engine. -/
def History.tried (h : History) : Engine × Except Error Nat → History
  | (now, .ok ticket) => { h with now, issued := h.issued ++ [ticket] }
  | (now, .error _) => { h with now }

def History.call (h : History) : Call → History
  | .read key range verify buffers => h.took (h.now.read key range verify buffers)
  | .write frame buffer => h.tried (h.now.write frame buffer)
  | .write_prepared key lsn len buffer => h.tried (h.now.write_prepared key lsn len buffer)
  | .flush => h.took h.now.flush
  | .rollover number => h.tried (h.now.rollover_to number)
  | .seal_ => h.took h.now.seal_
  | .close => h.took h.now.close
  | .poll script =>
    let (now, out) := h.now.poll script
    { h with now, out := h.out ++ out }

def History.run (h : History) (calls : List Call) : History := calls.foldl History.call h

theorem History.run_concat (h : History) (calls : List Call) (call : Call) :
    h.run (calls ++ [call]) = (h.run calls).call call :=
  foldl_concat History.call h call calls

/-- An engine that was just opened; its owner holds the ticket of the open. -/
def History.start (capacity : Nat) (queue : Queue) (options : Options) : Except Error History :=
  match Engine.open_with_options capacity queue options with
  | .ok (engine, ticket) => .ok ⟨engine, [ticket], []⟩
  | .error err => .error err

/-! ## Polls -/

variable {e e' : Engine} {p' p : Pipeline} {ticket : Nat} {h : History}

theorem poll_sound (h : Sound e) (script : Script) : Sound (e.poll script).1 := by
  have h1 := drive_job_sound h
  unfold Engine.poll
  generalize e.drive_job = d at h1
  obtain ⟨e₁, out, b⟩ := d
  simp only
  have h2 : ∀ state, Sound { e₁ with pipeline := (e₁.pipeline.poll script).pipe, state } := by
    intro state
    rcases h1 with ⟨hs, hk⟩ | hf
    · rcases pipeline.poll_steady hs script with ⟨hn, hs'⟩ | hf
      · exact .inl ⟨hs',
          ⟨fun hw => pipeline.poll_uncontrolled hs.live hn (hk.idle hw),
            fun j hj hq => pipeline.poll_quiet hs.live hn (hk.quiet j hj hq), hk.waits⟩⟩
      · exact .inr hf
    · exact .inr (pipeline.poll_failing hf script)
  split
  · exact drive_job_sound (h2 .Failed)
  · exact drive_job_sound (h2 e₁.state)

theorem poll_settles (h : Sound e) (script : Script) :
    Settles e [] ((e.poll script).2.map Completion.ticket) (e.poll script).1 := by
  have h1 := drive_job_sound h
  have hs1 := drive_job_settles e
  unfold Engine.poll
  generalize e.drive_job = d at h1 hs1
  obtain ⟨e₁, out, b⟩ := d
  simp only
  have hlive : Live e₁.pipeline ∨ e₁.pipeline.queue_failed = true := by
    rcases h1 with ⟨hs, -⟩ | hf
    · exact .inl hs.live
    · exact .inr hf.failed
  obtain ⟨data, hout, hshift⟩ := pipeline.poll_delivers hlive script
  have hout : (e₁.pipeline.poll script).out = data := by simpa [Pipeline.turn] using hout
  have hdata : (data.map Completion.Data).map Completion.ticket =
      data.map pipeline.Completion.ticket := by
    rw [map_map]
    rfl
  have h2 : ∀ state, Settles e₁ [] (data.map pipeline.Completion.ticket)
      { e₁ with pipeline := (e₁.pipeline.poll script).pipe, state } :=
    fun state => .of_shifts hshift rfl
  rw [map_append, map_append, hout, hdata]
  split
  · exact (hs1.after (h2 .Failed)).after (drive_job_settles _)
  · exact (hs1.after (h2 e₁.state)).after (drive_job_settles _)

/-! ## Calls -/

theorem writable_ok (h : e.check_writable = .ok ()) : e.job = none := by
  unfold Engine.check_writable at h
  split at h
  · cases h
  split at h
  · cases h
  split at h
  · cases h
  rename_i hj
  simpa using hj

/-- A step that admits something, with nothing owned by a job, or a read beside any job. -/
theorem does_keeps {a : Act} (h : Sound e) (hq : e.pipeline.queue_failed = false)
    (hd : Steady e.pipeline → Parked e.job e.pipeline → Does e.pipeline a p')
    (hk : Parked e.job e.pipeline → Parked e.job p') :
    Sound { e with pipeline := p' } ∧
      Settles e a.begun (a.out.map pipeline.Completion.ticket) { e with pipeline := p' } := by
  rcases h with ⟨hs, hp⟩ | hf
  · have d := hd hs hp
    exact ⟨.inl ⟨d.steady hs, hk hp⟩, .of_shifts d.shifts rfl⟩
  · rw [hf.failed] at hq
    cases hq

/-- A read leaves the writes, the flush and the engine's own requests alone. -/
theorem read_aside {t : Nat} (d : Does p (.read_begun t) p') :
    p.queue_failed = false ∧ p'.writes = p.writes ∧ p'.flush_slot = p.flush_slot ∧
      p'.control = p.control ∧ p'.control_active = p.control_active := by
  cases d with
  | read_empty ha | read_direct ha | read_verified ha =>
    exact ⟨(pipeline.admission_ok ha).2.1, rfl, rfl, rfl, rfl⟩

theorem read_keeps {key : ChunkId} {range : Range} {verify : Bool} {buffers : ReadBuffers}
    (h : Sound e) (hr : e.read key range verify buffers = .ok (e', ticket)) :
    Sound e' ∧ Settles e [ticket] [] e' := by
  unfold Engine.read at hr
  split at hr
  · cases hr
  split at hr
  · cases hr
  rename_i t p hp
  cases hr
  have hd := pipeline.read_does hp
  obtain ⟨hq, h1, h2, h3, h4⟩ := read_aside hd
  refine does_keeps h hq (fun _ _ => hd) ?_
  rintro ⟨hi, hqu, hw⟩
  refine ⟨?_, ?_, hw⟩
  · intro hj
    have := hi hj
    exact ⟨h3.trans this.1, h4.trans this.2⟩
  · intro j hj hjq
    have := hqu j hj hjq
    exact ⟨h1.trans this.1, h2.trans this.2⟩

theorem flush_keeps (h : Sound e)
    (hf : e.flush = .ok (e', ticket)) : Sound e' ∧ Settles e [ticket] [] e' := by
  unfold Engine.flush at hf
  split at hf
  · cases hf
  rename_i hw
  have hj := writable_ok hw
  split at hf
  · cases hf
  rename_i t p hp
  cases hf
  have hq : e.pipeline.queue_failed = false := by
    unfold Pipeline.flush at hp
    split at hp
    · cases hp
    · rename_i ha
      exact (pipeline.admission_ok ha).2.1
  have hd : Parked e.job e.pipeline → Does e.pipeline (.flush_begun ticket) p := by
    intro hk
    have hc := hk.idle (fun j hjj => by rw [hj] at hjj; cases hjj)
    exact pipeline.flush_does hp hc.1 hc.2
  refine does_keeps h hq (fun _ hk => hd hk) ?_
  intro hk
  have hc := (hd hk).uncontrolled (hk.idle (fun j hjj => by rw [hj] at hjj; cases hjj))
  rw [hj]
  exact .none hc

/-- A job starts, or a ticket is drawn for nothing: no slot changes. -/
theorem started_settles {issued : List Nat}
    (hp : ∃ next_ticket maintenance, e'.pipeline = { e.pipeline with next_ticket, maintenance })
    (hn : e.pipeline.next_ticket ≤ e'.pipeline.next_ticket)
    (hj : e'.job.elim [] Job.owed = e.job.elim [] Job.owed ++ issued)
    (hf : ∀ t ∈ issued, e.pipeline.next_ticket ≤ t ∧ t < e'.pipeline.next_ticket)
    (hd : issued.Nodup) : Settles e issued [] e' := by
  obtain ⟨next, maintenance, hp⟩ := hp
  have hg : pipeline.Grows e.pipeline e'.pipeline := hp ▸ .same rfl rfl rfl rfl
  refine ⟨fun hb => ?_, fun _ => ?_, hn, hf, hd, hg.grown⟩
  · have hroom := hg.room hb.toRoom
    rw [hp] at hroom ⊢
    exact ⟨hroom, hb.fair, hb.entries, hb.reserved⟩
  · unfold Engine.tickets
    rw [hj, hp, ← Multiset.coe_add, ← add_assoc, Multiset.coe_nil, add_zero]
    rfl

/-- A job that starts owns nothing yet, so it may start beside any writes. -/
theorem started_sound (h : Sound e) (hj : e.job = none)
    (hp : ∃ next_ticket maintenance, p = { e.pipeline with next_ticket, maintenance })
    (hp' : e'.pipeline = p)
    (hj' : e'.job = none ∨ ∃ ticket kind next, e'.job = some (.transition ticket kind next)) :
    Sound e' := by
  obtain ⟨n, m, rfl⟩ := hp
  unfold Sound
  rw [hp']
  rcases h with ⟨hs, hk⟩ | hf
  · have hc : e.pipeline.Uncontrolled := hk.idle (fun j hjj => by rw [hj] at hjj; cases hjj)
    refine .inl ⟨⟨{ hs.live with }, ⟨hs.backed.slots, hs.backed.queue, hs.backed.index⟩, hs.calm,
      hs.answered⟩, ?_⟩
    rcases hj' with hj' | ⟨ticket, kind, next, hj'⟩
    · rw [hj']
      exact .none hc
    · rw [hj']
      exact .goes_on rfl hc (fun hq => absurd rfl hq)
  · exact .inr ⟨hf.failed, hf.cause, hf.calm⟩

/-- The two ways in which a rollover ends: it starts a job, or changes nothing but the cursor. -/
theorem start_rollover_cases {number ticket : Option Nat} {r : Except Error Unit}
    (h : e.start_rollover number ticket = (e', r)) :
    (∃ err, r = .error err ∧ e'.pipeline = e.pipeline ∧ e'.job = e.job) ∨
    (r = .ok () ∧ e'.pipeline = { e.pipeline with maintenance := true } ∧
      ∃ next, e'.job = some (.transition ticket .Rollover next)) := by
  unfold Engine.start_rollover at h
  split at h
  · cases h
    exact .inl ⟨_, rfl, rfl, rfl⟩
  rename_i layout _
  simp only at h
  generalize (if number.isSome = true then e.next
    else next_unused e.used layout.segments layout.segments e.next) = next at h
  split at h
  · cases h
    exact .inl ⟨_, rfl, rfl, rfl⟩
  split at h
  · cases h
    exact .inl ⟨_, rfl, rfl, rfl⟩
  split at h
  · cases h
    exact .inl ⟨_, rfl, rfl, rfl⟩
  split at h
  · cases h
    exact .inl ⟨_, rfl, rfl, rfl⟩
  · cases h
    exact .inr ⟨rfl, rfl, _, rfl⟩

theorem roll_keeps (h : Sound e) (hj : e.job = none) :
    Sound e.roll.1 ∧ Settles e [] [] e.roll.1 := by
  obtain ⟨e', r, hr⟩ : ∃ e' r, e.start_rollover none none = (e', r) := ⟨_, _, rfl⟩
  have hroll : e.roll.1 = e' := by
    unfold Engine.roll
    rw [hr]
    cases r <;> rfl
  rw [hroll]
  rcases start_rollover_cases hr with ⟨err, -, hp, hj'⟩ | ⟨-, hp, next, hj'⟩
  · refine ⟨started_sound h hj ⟨_, _, rfl⟩ hp (.inl (hj'.trans hj)), .of_shifts ?_ ?_⟩
    · rw [hp]
      exact .refl _
    · rw [hj']
  · refine ⟨started_sound h hj ⟨_, _, rfl⟩ hp (.inr ⟨_, _, _, hj'⟩), .of_shifts ?_ ?_⟩
    · rw [hp]
      exact .aside rfl rfl rfl rfl rfl (.same rfl rfl rfl rfl)
    · rw [hj', hj]
      rfl

theorem submit_keeps (h : Sound e)
    {submit : Pipeline → Except (pipeline.Rejected Bytes) (Nat × Pipeline)}
    (hs : ∀ p t p', submit p = .ok (t, p') →
      ∃ f, f.write.ticket = t ∧ Does p (.launched f) p') :
    Sound (e.submit submit).1 ∧ Settles e (e.submit submit).2.toOption.toList []
      (e.submit submit).1 := by
  unfold Engine.submit
  split
  · exact ⟨h, .refl e⟩
  rename_i hw
  have hj := writable_ok hw
  split
  · split
    · exact ⟨h, .refl e⟩
    · exact roll_keeps h hj
  split
  · rename_i t p hp
    obtain ⟨f, rfl, d⟩ := hs _ _ _ hp
    have hq : e.pipeline.queue_failed = false := by
      cases d with
      | launch hprep => exact (pipeline.admission_ok (pipeline.prepare_admission hprep).1).2.1
    refine does_keeps h hq (fun _ _ => d) ?_
    intro hk
    have hc := d.uncontrolled (hk.idle (fun j hjj => by rw [hj] at hjj; cases hjj))
    rw [hj]
    exact .none hc
  · split
    · exact roll_keeps h hj
    · exact ⟨h, .refl e⟩

theorem draw_ticket_ok {t : Nat} (h : p.draw_ticket = .ok (t, p')) :
    t = p.next_ticket ∧ p' = { p with next_ticket := p.next_ticket + 1 } := by
  unfold Pipeline.draw_ticket at h
  split at h <;> cases h
  exact ⟨rfl, rfl⟩

theorem rollover_to_keeps (h : Sound e) (number : Option Nat) :
    Sound (e.rollover_to number).1 ∧
      Settles e (e.rollover_to number).2.toOption.toList [] (e.rollover_to number).1 := by
  unfold Engine.rollover_to
  split
  · exact ⟨h, .refl e⟩
  rename_i hw
  have hj := writable_ok hw
  split
  · exact ⟨h, .refl e⟩
  rename_i t p hd
  obtain ⟨rfl, rfl⟩ := draw_ticket_ok hd
  obtain ⟨e', r, hr⟩ : ∃ e' r, Engine.start_rollover { e with
    pipeline := { e.pipeline with next_ticket := e.pipeline.next_ticket + 1 } } number
    (some e.pipeline.next_ticket) = (e', r) := ⟨_, _, rfl⟩
  rw [hr]
  rcases start_rollover_cases hr with ⟨err, rfl, hp, hj'⟩ | ⟨rfl, hp, next, hj'⟩
  · refine ⟨started_sound h hj ⟨_, _, rfl⟩ hp (.inl (hj'.trans hj)), ?_⟩
    refine started_settles ⟨_, _, hp⟩ (by rw [hp]; simp) ?_ (fun t ht => by cases ht) nodup_nil
    rw [hj']
    simp [Except.toOption]
  · refine ⟨started_sound h hj ⟨_, _, rfl⟩ hp (.inr ⟨_, _, _, hj'⟩), ?_⟩
    refine started_settles ⟨_, _, hp⟩ (by rw [hp]; simp) ?_ ?_ ?_
    · rw [hj', hj]
      rfl
    · intro t ht
      simp only [Except.toOption, Option.toList_some, mem_singleton] at ht
      rw [hp, ht]
      exact ⟨le_rfl, Nat.lt_succ_self _⟩
    · exact nodup_singleton _

theorem start_transition_keeps {kind : Lifecycle} {state : State}
    (h : Sound e) (hj : e.job = none) (hs : e.start_transition kind state = .ok (e', ticket)) :
    Sound e' ∧ Settles e [ticket] [] e' := by
  unfold Engine.start_transition at hs
  split at hs
  · cases hs
  rename_i t p hd
  obtain ⟨rfl, rfl⟩ := draw_ticket_ok hd
  cases hs
  refine ⟨started_sound h hj ⟨_, _, rfl⟩ rfl (.inr ⟨_, _, _, rfl⟩), ?_⟩
  refine started_settles ⟨_, _, rfl⟩ (Nat.le_succ _) ?_ ?_ (nodup_singleton _)
  · rw [hj]
    rfl
  · intro t ht
    rw [mem_singleton.mp ht]
    exact ⟨le_rfl, Nat.lt_succ_self _⟩

theorem seal_keeps (h : Sound e) (hs : e.seal_ = .ok (e', ticket)) :
    Sound e' ∧ Settles e [ticket] [] e' := by
  unfold Engine.seal_ at hs
  split at hs
  · cases hs
  · rename_i hw
    exact start_transition_keeps h (writable_ok hw) hs

theorem close_keeps (h : Sound e) (hs : e.close = .ok (e', ticket)) :
    Sound e' ∧ Settles e [ticket] [] e' := by
  unfold Engine.close at hs
  split at hs
  · cases hs
  · rename_i hw
    simp only [not_or] at hw
    exact start_transition_keeps h (by simpa using hw.2.2.2) hs

/-! ## Runs -/

/-- What holds of every history: the engine is sound, its books are right, every ticket that was
issued waits or has been completed, and the index has grown from `i`. -/
structure History.Kept (i : pipeline.Index) (h : History) : Prop where
  sound : Sound h.now
  books : Books h.now.pipeline
  tickets : h.now.tickets + (h.out.map Completion.ticket : List Nat) = (h.issued : List Nat)
  nodup : h.issued.Nodup
  below : ∀ t ∈ h.issued, t < h.now.pipeline.next_ticket
  grown : i.Grown h.now.pipeline.index

variable {i : pipeline.Index}

theorem History.Kept.next (hk : h.Kept i) {now : Engine} {issued : List Nat} {o : List Completion}
    (hs : Sound now) (ht : Settles h.now issued (o.map Completion.ticket) now) :
    History.Kept i ⟨now, h.issued ++ issued, h.out ++ o⟩ := by
  refine ⟨hs, ht.books hk.books, ?_, ?_, ?_, hk.grown.trans ht.grown⟩
  · have h1 := ht.tickets hk.books
    have h2 := hk.tickets
    rw [map_append, ← Multiset.coe_add, ← Multiset.coe_add, add_comm, add_assoc,
      add_comm _ now.tickets, h1, ← h2]
    simp only [add_comm, add_left_comm]
  · rw [nodup_append]
    refine ⟨hk.nodup, ht.nodup, ?_⟩
    intro a ha b hb hab
    have h1 := hk.below a ha
    have h2 := (ht.fresh b hb).1
    omega
  · intro t hm
    rcases mem_append.mp hm with hm | hm
    · have h1 := hk.below t hm
      have h2 := ht.next
      exact h1.trans_le h2
    · exact (ht.fresh t hm).2

theorem History.Kept.took (hk : h.Kept i) {r : Except Error (Engine × Nat)}
    (hr : ∀ e' t, r = .ok (e', t) → Sound e' ∧ Settles h.now [t] [] e') : (h.took r).Kept i := by
  unfold History.took
  split
  · rename_i e' t
    obtain ⟨h1, h2⟩ := hr e' t rfl
    have := hk.next (o := []) h1 h2
    simpa using this
  · exact hk

theorem History.Kept.tried (hk : h.Kept i) {r : Engine × Except Error Nat}
    (hr : Sound r.1 ∧ Settles h.now r.2.toOption.toList [] r.1) : (h.tried r).Kept i := by
  obtain ⟨e', r⟩ := r
  cases r <;> simpa [History.tried, Except.toOption] using hk.next (o := []) hr.1 hr.2

theorem History.Kept.call (hk : h.Kept i) (c : Call) : (h.call c).Kept i := by
  cases c with
  | read => exact hk.took (fun e' t => read_keeps hk.sound)
  | write =>
    refine hk.tried (submit_keeps hk.sound ?_)
    intro p t p' hw
    obtain ⟨f, -, h2, h3⟩ := pipeline.write_does hw
    exact ⟨f, h2, h3⟩
  | write_prepared =>
    refine hk.tried (submit_keeps hk.sound ?_)
    intro p t p' hw
    obtain ⟨_, f, -, -, h2, h3⟩ := pipeline.write_prepared_does hw
    exact ⟨f, h2, h3⟩
  | flush => exact hk.took (fun e' t => flush_keeps hk.sound)
  | rollover number => exact hk.tried (rollover_to_keeps hk.sound number)
  | seal_ => exact hk.took (fun e' t => seal_keeps hk.sound)
  | close => exact hk.took (fun e' t => close_keeps hk.sound)
  | poll script =>
    have := hk.next (poll_sound hk.sound script) (poll_settles hk.sound script)
    simpa [History.call] using this

theorem History.Kept.run (hk : h.Kept i) (calls : List Call) : (h.run calls).Kept i := by
  induction calls generalizing h with
  | nil => exact hk
  | cons c _ ih => exact ih (hk.call c)

/-- A pipeline that was just made is steady and its books are empty. -/
theorem empty_steady {queue : Queue} {limits : FrameLimits}
    (h : Pipeline.empty queue limits = .ok p) :
    Steady p ∧ p.Uncontrolled ∧ Books p ∧ p.tickets = 0 ∧ p.index = .empty ∧ p.pending_new = 0 := by
  have hlive := (pipeline.empty_idle h).live
  have hvacant := (pipeline.empty_idle h).vacant
  have hacc : p.queue.accepted = [] := by
    unfold Pipeline.empty at h
    split at h
    · cases h
    rename_i hq
    simp only [not_or, not_not] at hq
    cases h
    have hv := hq.2.2.1
    unfold Queue.vacant at hv
    show queue.accepted = []
    apply length_eq_zero_iff.mp
    have := hq.1
    omega
  unfold Pipeline.empty at h
  split at h
  · cases h
  rename_i hq
  cases h
  refine ⟨⟨hlive, ⟨?_, ?_, ?_⟩, rfl, (fun hd => by cases hd)⟩, ⟨rfl, rfl⟩,
    ⟨⟨Nat.zero_le _, fun s w hs => ?_, ?_⟩, ?_, ?_, ?_⟩, ?_, rfl, rfl⟩
  · intro s q hs
    rw [hvacant s] at hs
    cases hs
  · intro e he
    rw [hacc] at he
    cases he
  · intro key loc hk
    cases hk
  · rw [hvacant s] at hs
    cases hs
  · rw [length_replicate]
    omega
  · exact slots.Table.fair_new _
  · exact (slots.Table.weigh_new _ _ _).symm
  · exact (slots.Table.weigh_new _ _ _).symm
  · exact slots.Table.weigh_new _ _ _

theorem start_kept {capacity : Nat} {queue : Queue} {options : Options}
    (hs : History.start capacity queue options = .ok h) : h.Kept .empty := by
  unfold History.start Engine.open_with_options at hs
  split at hs
  swap
  · cases hs
  rename_i engine ticket ho
  cases hs
  split at ho
  · cases ho
  rename_i p₀ hp
  obtain ⟨hst, hc, hbooks, hnone, hi, hn⟩ := empty_steady hp
  split at ho
  · cases ho
  rename_i p₁ hconf
  simp only at ho
  split at ho
  · cases ho
  rename_i t p₂ hd
  obtain ⟨rfl, rfl⟩ := draw_ticket_ok hd
  cases ho
  obtain rfl : p₁ = { p₀ with resources := options.resources, budget := options.poll } := by
    unfold Pipeline.configure at hconf
    split at hconf
    · cases hconf
    split at hconf <;> cases hconf
    rfl
  refine ⟨.inl ⟨⟨{ hst.live with }, ⟨hst.backed.slots, hst.backed.queue, hst.backed.index⟩,
    hst.calm, hst.answered⟩, .goes_on rfl hc ?_⟩,
    ⟨⟨?_, hbooks.covered, hbooks.few⟩, hbooks.fair, hbooks.entries, hbooks.reserved⟩,
    ?_, nodup_singleton _, ?_, hi ▸ .refl _⟩
  · intro _
    unfold Pipeline.empty at hp
    split at hp <;> cases hp
    exact ⟨rfl, rfl⟩
  · show p₀.index.len + p₀.pending_new ≤ _
    rw [hi, hn]
    exact Nat.zero_le _
  · show (p₀.tickets + (([p₀.next_ticket] : List Nat) : Multiset Nat)) + _ = _
    rw [hnone]
    simp
  · intro t ht
    rw [mem_singleton.mp ht]
    exact Nat.lt_succ_self _

/-! ## The results -/

/-- The writes that are admitted and not yet delivered. -/
def outstanding (p : Pipeline) : List Write :=
  p.slots.filterMap (fun
    | some (.Write w) => some w
    | _ => none)

theorem weigh_outstanding (p : Pipeline) (f : Pending → Nat) (g : Write → Nat)
    (hw : ∀ w, f (.Write w) = g w) (h0 : ∀ q, (∀ w, q ≠ .Write w) → f q = 0) :
    p.table.weigh f = ((outstanding p).map g).sum := by
  unfold slots.Table.weigh outstanding Pipeline.table
  simp only
  generalize p.slots = cells
  induction cells with
  | nil => rfl
  | cons c _ ih =>
    rw [map_cons, sum_cons, ih]
    cases c with
    | none => simp [slots.Table.cell]
    | some q =>
      cases q with
      | Write => simp [slots.Table.cell, hw]
      | _ => simp [slots.Table.cell, h0]

theorem pending_new_eq (h : Books p) :
    p.pending_new = ((outstanding p).map (·.reserved_new)).sum := by
  rw [h.reserved]
  exact weigh_outstanding _ _ _ (fun w => rfl)
    (fun q hq => by cases q <;> first | rfl | exact absurd rfl (hq _))

theorem free_iff (h : Books p) (s : Nat) : s ∈ p.free ↔ s < p.slots.length ∧ p.slot s = none := by
  rw [show s ∈ p.free ↔ _ from h.fair.free_iff s]
  unfold Pipeline.slot Pipeline.table
  simp only
  by_cases hs : s < p.slots.length
  · rw [List.getElem?_eq_getElem hs]
    simp [hs]
  · rw [List.getElem?_eq_none (Nat.le_of_not_lt hs)]
    simp [hs]

/-! ## A device with one slot -/

/-- Defaults of the source for an engine that syncs. -/
def defaultOptions : Options := ⟨.Enabled, .default, .default⟩

/-- The device gives back its oldest request, with `n` bytes transferred. -/
def answer (n : Nat) : Call := .poll ⟨none, [⟨0, .ok n, []⟩]⟩

def page (data : Bytes) : Script := ⟨none, [⟨0, .ok 4096, data⟩]⟩

/-- The calls that open a device whose only slot is empty. -/
def openCalls (superblock : Bytes) : List Call :=
  [.poll (page superblock), .poll (page superblock), .poll (page (zeros 4096)),
    .poll (page (zeros 4096)), .poll quiet]

/-- An open and a flush, then a new segment and a write, which is on its way. -/
def writeCalls (superblock : Bytes) : List Call :=
  openCalls superblock ++ [.flush, .poll quiet, answer 0, .rollover none, .poll quiet, answer 4096,
    answer 0, .write_prepared (.from_bytes []) 1 0 (zeros 4096)]

theorem exists_of_any₂ {ε δ α β : Type} {r : Except ε α} {s : Except δ β} {P : α → β → Prop}
    [∀ a b, Decidable (P a b)]
    (h : (r.toOption.any fun a => s.toOption.any fun b => P a b) = true) :
    ∃ a b, r = .ok a ∧ s = .ok b ∧ P a b := by
  cases r with
  | error => cases h
  | ok a =>
    obtain ⟨b, hs, hp⟩ := exists_of_any h
    exact ⟨a, b, rfl, hs, hp⟩

/-- What these calls come to, over a queue of one request: the flush is put off until the next poll,
which submits its sync; the write reserves its key, and takes it when the device has answered. -/
theorem oneSlot_run :
    ∃ l start, Layout.new 28672 fivePages 1 (by decide) = .ok l ∧
      History.start 28672 (Queue.empty 1) defaultOptions = .ok start ∧
      (let e := (start.run (openCalls l.encode ++ [.flush])).now
       e.has_ready false = false ∧ e.pipeline.queue.accepted = [] ∧ e.pipeline.flush_slot = some 0 ∧
         e.pipeline.queue_failed = false ∧
           (e.pipeline.slot 0 matches some (.Flush 2 false)) = true) ∧
      (let p := (start.run (openCalls l.encode ++ [.flush, .poll quiet])).now.pipeline
       p.queue.accepted = [(4, ⟨0, .Sync, 0, 0, none⟩)] ∧ p.flush_slot = some 0 ∧
         p.queue_failed = false) ∧
      (let p := (start.run (writeCalls l.encode)).now.pipeline
       p.index.len = 0 ∧ p.pending_new = 1) ∧
      (let h := start.run (writeCalls l.encode ++ [answer 4096])
       h.now.pipeline.index.len = 1 ∧ h.now.pipeline.pending_new = 0 ∧
         h.now.pipeline.in_flight = 0 ∧ h.now.job.isNone = true ∧ h.issued = [1, 2, 3, 4] ∧
         h.now.check_readable.isOk = true ∧ h.now.pipeline.index.keys = [.from_bytes []]) := by
  apply exists_of_any₂
  set_option maxRecDepth 100000 in
  decide +kernel

/-- In every run, every ticket that a call returned is completed at most once, and exactly once when
nothing is in flight and no job is left. The free slots are the empty ones, each once, and the two
counters of pending writes are the sums over the writes not yet delivered. -/
theorem every_ticket_is_completed_once {capacity : Nat} {queue : Queue} {options : Options}
    {start : History} (ho : History.start capacity queue options = .ok start) (calls : List Call) :
    let h := start.run calls
    let p := h.now.pipeline
    let done := h.out.map Completion.ticket
    h.issued.Nodup ∧ (∀ t ∈ done, t ∈ h.issued) ∧ (∀ t, done.count t ≤ 1) ∧
    (p.in_flight = 0 → h.now.job = none → ∀ t ∈ h.issued, done.count t = 1) ∧
    p.free.Nodup ∧ (∀ s, s ∈ p.free ↔ s < p.slots.length ∧ p.slot s = none) ∧
    p.pending_entries = ((outstanding p).map (fun w => w.entries.length)).sum ∧
    p.pending_new = ((outstanding p).map (·.reserved_new)).sum ∧
    (outstanding p = [] → p.pending_entries = 0 ∧ p.pending_new = 0) := by
  intro h p done
  have hk := (start_kept ho).run calls
  have hnodup : done.Nodup := by
    have := (Multiset.coe_nodup.mpr hk.nodup)
    rw [← hk.tickets, Multiset.nodup_add] at this
    exact Multiset.coe_nodup.mp this.2.1
  have hentries : p.pending_entries = ((outstanding p).map (fun w => w.entries.length)).sum := by
    rw [hk.books.entries]
    exact weigh_outstanding _ _ _ (fun w => rfl)
      (fun q hq => by cases q <;> first | rfl | exact absurd rfl (hq _))
  have hreserved := pending_new_eq hk.books
  refine ⟨hk.nodup, ?_, ?_, ?_, hk.books.fair.free_nodup, ?_, hentries, hreserved, ?_⟩
  · intro t ht
    rw [← Multiset.mem_coe, ← hk.tickets]
    exact Multiset.mem_add.mpr (.inr (Multiset.mem_coe.mpr ht))
  · exact fun t => nodup_iff_count_le_one.mp hnodup t
  · intro hfl hj t ht
    have hempty : ∀ (s : Nat) (q : Pending), p.table.cells[s]? ≠ some (some q) := by
      apply hk.books.fair.empty
      unfold Pipeline.in_flight at hfl
      show p.slots.length ≤ p.free.length
      omega
    have hzero : h.now.tickets = 0 := by
      unfold Engine.tickets Pipeline.tickets
      rw [hj, slots.Table.weigh_zero (fun s q hs => absurd hs (hempty s q))]
      rfl
    have hmem := Multiset.mem_coe.mpr ht
    rw [← hk.tickets, hzero, zero_add, Multiset.mem_coe] at hmem
    exact count_eq_one_of_mem hnodup hmem
  · exact free_iff hk.books
  · intro hnone
    rw [hentries, hreserved, hnone]
    exact ⟨rfl, rfl⟩

theorem every_issued_ticket_is_completed :
    ∃ l start, Layout.new 28672 fivePages 1 (by decide) = .ok l ∧
      History.start 28672 (Queue.empty 1) defaultOptions = .ok start ∧
      (let h := start.run (writeCalls l.encode ++ [answer 4096])
       h.issued = [1, 2, 3, 4] ∧ ∀ t ∈ h.issued, (h.out.map Completion.ticket).count t = 1) := by
  obtain ⟨l, start, hl, hs, -, -, -, -, -, hidle, hjob, hissued, -⟩ := oneSlot_run
  refine ⟨l, start, hl, hs, hissued, ?_⟩
  exact (every_ticket_is_completed_once hs _).2.2.2.1 hidle (Option.isNone_iff_eq_none.mp hjob)

theorem outstanding_covered (h : Books p) {w : Write} (hw : w ∈ outstanding p) :
    pipeline.Covers p.index w := by
  obtain ⟨c, hc, hcw⟩ := mem_filterMap.mp hw
  obtain ⟨s, hs⟩ := mem_iff_getElem?.mp hc
  refine h.covered s w ?_
  unfold Pipeline.slot
  rw [hs]
  rcases c with _ | q
  · cases hcw
  cases q <;> cases hcw
  rfl

/-- There are at most 32768 writes of fewer than `2 ^ 32` records each. -/
theorem pending_new_lt (h : Books p) : p.pending_new ≤ 2 ^ 47 := by
  have hsum := sum_le_card_nsmul ((outstanding p).map (·.reserved_new)) (2 ^ 32) (by
    intro n hn
    obtain ⟨w, hw, rfl⟩ := mem_map.mp hn
    exact (outstanding_covered h hw).2.le)
  have hlen : (outstanding p).length ≤ p.slots.length := length_filterMap_le _ _
  have hfew := h.few
  rw [← pending_new_eq h, length_map, smul_eq_mul] at hsum
  omega

/-- In every run the index and what is reserved in it stay within the limit, and a pending write
will add no more keys than it has reserved, however the index grows until then. The entries of a
frame are refused for good exactly if they and the index have more keys than the limit. They are put
off only while a reservation is pending, so without pending writes they are admitted if they fit. -/
theorem index_reservations_are_exact {capacity : Nat} {queue : Queue} {options : Options}
    {start : History} (ho : History.start capacity queue options = .ok start) (calls : List Call) :
    let p := (start.run calls).now.pipeline
    let limit := p.resources.index_entries
    p.index.len + p.pending_new ≤ limit ∧
    (∀ w ∈ outstanding p, ∀ index, p.index.Grown index →
      (pipeline.apply index w.entries).len ≤ index.len + w.reserved_new) ∧
    ∀ buf limits position metadata, frame.Metadata.decode buf limits position = .ok metadata →
      ∀ es, pipeline.entries metadata p.current = es →
      ((∃ m, p.reserve_entries es = .error (.ResourceLimit m)) ↔
        limit < (p.index.keySet ∪ pipeline.keysOf es).card) ∧
      (p.reserve_entries es = .error .Backpressure → 0 < p.pending_new) ∧
      (outstanding p = [] → (p.index.keySet ∪ pipeline.keysOf es).card ≤ limit →
        ∃ n, p.reserve_entries es = .ok n) := by
  intro p limit
  have hb : Books p := ((start_kept ho).run calls).books
  refine ⟨hb.within, fun w hw index hg => ?_, ?_⟩
  · obtain ⟨es, rfl⟩ := hg
    refine ((outstanding_covered hb hw).mono ?_).len_apply
    rw [pipeline.keySet_apply]
    exact Finset.subset_union_left
  · rintro buf limits position metadata hd _ rfl
    have hlen := pipeline.entries_length_lt hd p.current
    have hnew := pending_new_lt hb
    rcases pipeline.reserve_entries_cases p (pipeline.entries metadata p.current) with
      ⟨m, hr, hlt | hover⟩ | ⟨hle, ⟨hr, hpos⟩ | ⟨n, hr, -⟩⟩
    · rw [hr]
      exact ⟨⟨fun _ => hlt, fun _ => ⟨m, rfl⟩⟩, nofun, fun _ hle => absurd hlt (Nat.not_lt.mpr hle)⟩
    · omega
    · rw [hr]
      refine ⟨⟨nofun, fun hlt => absurd hlt (Nat.not_lt.mpr hle)⟩, fun _ => hpos, fun hnone => ?_⟩
      rw [pending_new_eq hb, hnone] at hpos
      cases hpos
    · rw [hr]
      exact ⟨⟨nofun, fun hlt => absurd hlt (Nat.not_lt.mpr hle)⟩, nofun, fun _ _ => ⟨n, rfl⟩⟩

/-- A write reserves one key before it is published. -/
theorem a_write_keeps_its_reservation :
    ∃ l start, Layout.new 28672 fivePages 1 (by decide) = .ok l ∧
      History.start 28672 (Queue.empty 1) defaultOptions = .ok start ∧
      (let p := (start.run (writeCalls l.encode)).now.pipeline
       p.index.len = 0 ∧ p.pending_new = 1 ∧
         ∀ w ∈ outstanding p, (pipeline.apply p.index w.entries).len ≤ p.index.len +
           w.reserved_new) ∧
      (let p := (start.run (writeCalls l.encode ++ [answer 4096])).now.pipeline
       p.index.len = 1 ∧ p.pending_new = 0 ∧ p.index.len + p.pending_new ≤
         p.resources.index_entries) := by
  obtain ⟨l, start, hl, hs, -, -, ⟨hlen, hnew⟩, hlen', hnew', -⟩ := oneSlot_run
  refine ⟨l, start, hl, hs, ⟨hlen, hnew, fun w hw => ?_⟩, hlen', hnew', ?_⟩
  · exact (index_reservations_are_exact hs _).2.1 w hw _ ⟨[], rfl⟩
  · exact (index_reservations_are_exact hs _).1

/-- In every run the driver comes to no `expect` and no `unreachable!`, and no submission finds the
queue full: a flush that waits for its writes has room for its sync, and a completion leaves room
for the next phase of its read. While a flush waits, the engine has no request of its own. -/
theorem the_queue_takes_every_submission {capacity : Nat} {queue : Queue} {options : Options}
    {start : History} (ho : History.start capacity queue options = .ok start) (calls : List Call) :
    let p := (start.run calls).now.pipeline
    p.panicked = false ∧
    (p.queue_failed = false →
      (∀ s ticket, p.flush_slot = some s → p.slot s = some (.Flush ticket false) →
        p.queue.vacant ≠ 0) ∧
      (∀ (choice : io.Pop) serial request, p.queue.accepted[choice.index]? = some
      (serial, request) →
        (p.queue.popped choice serial request).vacant ≠ 0) ∧
      (p.flush_slot.isSome = true → p.control = none ∧ p.control_active = false)) := by
  intro p
  have hk := (start_kept ho).run calls
  rcases hk.sound with ⟨hs, -⟩ | hf
  · refine ⟨hs.calm, fun _ => ⟨?_, ?_, hs.live.flush_alone⟩⟩
    · intro s ticket h1 h2
      have hroom : p.queue.accepted.length < p.queue.depth := hs.live.room_for_sync h1 h2
      unfold Queue.vacant
      omega
    · intro choice serial request hq
      have hlen := pipeline.popped_length hq
      have hle : p.queue.accepted.length ≤ p.queue.depth := hs.live.accepted_le
      show p.queue.depth - (p.queue.popped choice serial request).accepted.length ≠ 0
      omega
  · refine ⟨hf.calm, fun hq => ?_⟩
    rw [show p.queue_failed = true from hf.failed] at hq
    cases hq

/-- Over a queue of one request a flush waits for the next poll. It has room for its sync then, and
the completion of the sync leaves room again. -/
theorem depth_one_takes_a_deferred_sync :
    ∃ l start, Layout.new 28672 fivePages 1 (by decide) = .ok l ∧
      History.start 28672 (Queue.empty 1) defaultOptions = .ok start ∧
      (let p := (start.run (openCalls l.encode ++ [.flush])).now.pipeline
       p.slot 0 = some (.Flush 2 false) ∧ p.queue.vacant ≠ 0) ∧
      (let p := (start.run (openCalls l.encode ++ [.flush, .poll quiet])).now.pipeline
       p.queue.accepted = [(4, ⟨0, .Sync, 0, 0, none⟩)] ∧ p.panicked = false ∧
         (p.queue.popped ⟨0, .ok 0, []⟩ 4 ⟨0, .Sync, 0, 0, none⟩).vacant ≠ 0) := by
  obtain ⟨l, start, hl, hs, ⟨-, -, hslot, hok, hflush⟩, ⟨hsync, -, hok'⟩, -⟩ := oneSlot_run
  have hflush : (start.run (openCalls l.encode ++ [.flush])).now.pipeline.slot 0 =
      some (.Flush 2 false) := by
    split at hflush
    · assumption
    · cases hflush
  obtain ⟨hcalm, hroom⟩ := the_queue_takes_every_submission hs
    (openCalls l.encode ++ [.flush, .poll quiet])
  refine ⟨l, start, hl, hs, ⟨hflush, ?_⟩, hsync, hcalm, ?_⟩
  · exact ((the_queue_takes_every_submission hs _).2 hok).1 0 2 hslot hflush
  · exact (hroom hok').2.1 ⟨0, .ok 0, []⟩ 4 _ (by rw [hsync]; rfl)

/-- No completion is taken for another operation. In every run whose queue has not failed, the
tokens of the requests in the queue are different, and each names the slot of the operation that
made the request; every slot is on the one list that its operation belongs on, and free if it has
none. -/
theorem completions_find_their_operation {capacity : Nat} {queue : Queue} {options : Options}
    {start : History} (ho : History.start capacity queue options = .ok start) (calls : List Call) :
    let p := (start.run calls).now.pipeline
    p.queue_failed = false →
      (p.queue.accepted.map (·.2.token)).Nodup ∧
      (∀ e ∈ p.queue.accepted, if e.2.token = pipeline.CONTROL_TOKEN then p.control_active = true
        else ∃ q, p.slot e.2.token = some q ∧ q.Carries e.2) ∧
      (∀ s, s ∈ p.writes ↔ p.kindAt s = some .write) ∧
      (∀ s, s ∈ p.ready_reads ↔ p.kindAt s = some .empty) ∧
      (∀ s, p.flush_slot = some s ↔ p.kindAt s = some .flush) ∧
      (∀ s, s ∈ p.free ↔ s < p.slots.length ∧ p.kindAt s = none) := by
  intro p hq
  have hk := (start_kept ho).run calls
  rcases hk.sound with ⟨hs, -⟩ | hf
  · have hl := hs.live
    refine ⟨hl.tokens_nodup, fun e he => ?_, hl.writes_iff, hl.ready_iff, hl.flush_iff, fun s => ?_⟩
    · split
      · rename_i hc
        exact hl.control_carried e he hc
      · rename_i hc
        exact hl.carried e he hc
    · rw [free_iff hk.books, Pipeline.kindAt, Option.map_eq_none_iff]
  · rw [show p.queue_failed = true from hf.failed] at hq
    cases hq

/-- A sync finds its flush, which is in the only slot. -/
theorem a_sync_finds_its_flush :
    ∃ l start, Layout.new 28672 fivePages 1 (by decide) = .ok l ∧
      History.start 28672 (Queue.empty 1) defaultOptions = .ok start ∧
      (let p := (start.run (openCalls l.encode ++ [.flush, .poll quiet])).now.pipeline
       p.queue.accepted = [(4, ⟨0, .Sync, 0, 0, none⟩)] ∧ p.kindAt 0 = some .flush ∧ 0 ∉ p.free ∧
         ∃ q, p.slot 0 = some q ∧ q.Carries ⟨0, .Sync, 0, 0, none⟩) := by
  obtain ⟨l, start, hl, hs, -, ⟨hsync, hslot, hok⟩, -⟩ := oneSlot_run
  obtain ⟨-, hfind, -, -, hflush, hfree⟩ := completions_find_their_operation hs _ hok
  have hkind := (hflush 0).mp hslot
  refine ⟨l, start, hl, hs, hsync, hkind, fun h => ?_, ?_⟩
  · rw [((hfree 0).mp h).2] at hkind
    cases hkind
  · exact hfind _ (hsync ▸ mem_singleton.mpr rfl)

end moat_engine.engine
