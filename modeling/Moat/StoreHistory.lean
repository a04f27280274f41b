-- Whole histories of a disk worker and its callers: each chunk's commands are
-- served as if they were executed one at a time, in the order accepted.
import Moat.StoreRuns

namespace moat_cache_store

open moat_common moat_server List
open moat_server.storage (Version Session Versions)

/-! ## The system -/

/-- What a caller asks of the store. -/
inductive Request where
  | Get (id : ChunkId) (range : Option (Nat × Nat))
  | Put (id : ChunkId) (value : Bytes)
  | Delete (id : ChunkId) (expected_lsn : Option Nat)
  | Flush
  | Inventory
  | Close

/-- The command of a request, with a reply channel and a permit of its own (`Store::submit` and
`fences`). A close has no permit. -/
def Request.command (reply : Nat) : Request → Command
  | .Get id range => .Read id range reply ⟨reply, 0, true⟩
  | .Put id value => .Put id value reply ⟨reply, value.length, true⟩
  | .Delete id expected_lsn => .Delete id expected_lsn reply ⟨reply, 0, true⟩
  | .Flush => .Fence (.Flush reply) (some ⟨reply, 0, true⟩)
  | .Inventory => .Fence (.Inventory reply) (some ⟨reply, 0, true⟩)
  | .Close => .Fence (.Close (some reply)) none

/-- A worker and its callers. `channels` counts the reply channels made so far. -/
structure System where
  worker : Worker
  channels : Nat
  ended : Bool

/-- A caller submits a request, the callers all go away, or the worker takes a turn. -/
inductive Action where
  | submit (request : Request)
  | disconnect
  | turn (t : Turn)

def System.new (session : Session) (pool : ReadPool) : System :=
  ⟨Worker.new session pool, 0, false⟩

/-- One action; `none` is a panic of the worker. A request to a worker that has ended does not
reach it. -/
def System.act (s : System) : Action → Option System
  | .submit request =>
    if s.ended = true ∨ s.worker.connected = false then some s
    else some { s with
      worker := { s.worker with receiver := s.worker.receiver ++ [request.command s.channels] }
      channels := s.channels + 1 }
  | .disconnect => some { s with worker := { s.worker with connected := false } }
  | .turn t =>
    if s.ended = true then some s
    else
      match s.worker.turn t with
      | none => none
      | some (none, worker) => some { s with worker }
      | some (some result, worker) => some { s with worker := worker.finish result, ended := true }

def System.run (s : System) : List Action → Option System
  | [] => some s
  | a :: as =>
    match s.act a with
    | none => none
    | some s => s.run as

/-! ## The result -/

/-- The commands of `id`, in the order in which the worker accepted them. -/
def System.orders (s : System) (id : ChunkId) : List Order := ordersOf id s.worker.accepted

/-- The reply that a command got. -/
def System.reply (s : System) (c : Order) : Option Reply := c.answer s.worker.sent

/-- Commands with their replies; those that have none are left out. -/
def System.replies (s : System) (cs : List Order) : List (Order × Reply) :=
  answered s.worker.sent cs

/-- How far a chunk's commands are: `front` is answered, as an execution from `entry`; `rest` is
not, but for reads whose callers have gone. -/
structure InOrder (s : System) (id : ChunkId) (entry : Option Version) (front rest : List Order)
    (last : Option Version) : Prop where
  split : s.orders id = front ++ rest
  answered : ∀ c ∈ front, (s.reply c).isSome
  waiting : ∀ c ∈ rest, s.reply c = none ∨ s.reply c = some .Canceled
  executed : Sequence entry (s.replies front) last
  ended : s.ended = true → ∀ c ∈ rest, s.reply c = some .Canceled

/-- The callers that a turn finds gone. -/
def Turn.gone (t : Turn) : List Nat := t.starts.flatMap Start.canceled

/-- What holds after any number of actions. -/
structure System.Good (init : Versions) (gone : Nat → Prop) (s : System) : Prop where
  running : s.ended = false → Inv init gone s.channels s.worker
  finished : s.ended = true →
    (∀ id, ∃ entry done, Lane (init.lookup id) id s.worker.accepted s.worker.sent [] entry done) ∧
      ∀ c ∈ s.worker.accepted, c.answer s.worker.sent = some .Canceled →
        ∃ id range r, c = .Read id range r
  settled : s.ended = true → Books.Settled gone s.channels s.worker

theorem Request.command_channels (reply : Nat) (request : Request) :
    (request.command reply).order.channels = [reply] := by
  cases request <;> rfl

theorem Request.command_held (reply : Nat) (request : Request) :
    (request.command reply).Held := by
  cases request with
  | Flush | Inventory => exact ⟨_, rfl, rfl, rfl⟩
  | Close => rfl
  | _ => exact ⟨rfl, rfl⟩

theorem foldl_max_ge {α : Type} (f : α → Nat) (l : List α) (n : Nat) :
    n ≤ l.foldl (fun m a => max m (f a)) n ∧ ∀ a ∈ l, f a ≤ l.foldl (fun m a => max m (f a)) n := by
  induction l generalizing n with
  | nil => exact ⟨Nat.le_refl n, fun a ha => by cases ha⟩
  | cons b l ih =>
    obtain ⟨h1, h2⟩ := ih (max n (f b))
    refine ⟨by simp only [foldl_cons]; omega, fun a ha => ?_⟩
    rcases mem_cons.mp ha with rfl | ha
    · simp only [foldl_cons]; omega
    · exact h2 a ha

variable {init : Versions} {gone : Nat → Prop}

/-- A session of a recovered index: nothing is in flight, and every new LSN is above the old. -/
theorem open_inv {session : Session} (h : Session.open init = .ok session) (pool : ReadPool) :
    Inv init gone 0 (Worker.new session pool) := by
  unfold Session.open at h
  dsimp only at h
  split at h
  · cases h
    refine ⟨fun id => ?_, ⟨nofun, nodup_nil, fun id => ⟨nofun, nofun⟩⟩, .new _ pool, ?_, nofun⟩
    · exact ⟨[], rfl, nofun, .nil, nofun, nodup_nil⟩
    · refine ⟨nofun, nofun, nofun, nofun, ?_, nofun, fun id v hv => ?_, nofun⟩
      · rintro t t' id (ht | ⟨l, ht⟩) <;> cases ht
      · have := (foldl_max_ge (fun e : Sigma (fun _ : ChunkId => Version) => e.2.lsn)
          init.entries 0).2 ⟨id, v⟩ (AList.mem_lookup_iff.mp hv)
        exact Nat.lt_succ_of_le this
  · cases h

theorem System.Good.act {s : System} (h : s.Good init gone) {a : Action}
    (hg : ∀ t, a = .turn t → ∀ r ∈ t.gone, gone r) :
    ∃ s', s.act a = some s' ∧ s'.Good init gone := by
  unfold System.act
  cases a with
  | submit request =>
    simp only
    split
    · exact ⟨s, rfl, h⟩
    · rename_i hopen
      have he : s.ended = false := by
        cases hs : s.ended with
        | false => rfl
        | true => exact absurd (.inl hs) hopen
      have hinv := h.running he
      refine ⟨_, rfl, fun _ => ?_, fun hn => ?_, fun hn => ?_⟩
      · exact ⟨hinv.lanes, hinv.queued, hinv.books.submit (request.command_channels s.channels)
          (request.command_held s.channels), hinv.flights, hinv.fence_flush⟩
      all_goals
        rw [show s.ended = true from hn] at he
        cases he
  | disconnect =>
    refine ⟨_, rfl, fun he => ?_, h.finished, fun he => ?_⟩
    · have hinv := h.running he
      exact ⟨hinv.lanes, hinv.queued, hinv.books.of_eq rfl, hinv.flights, hinv.fence_flush⟩
    · have hs := h.settled he
      exact ⟨hs.sent, hs.owed, hs.released, hs.requests, hs.fair⟩
  | turn t =>
    simp only
    split
    · exact ⟨s, rfl, h⟩
    · rename_i he
      obtain ⟨r, w, h1, hserved, hinv⟩ := (h.running (by simpa using he)).turn t
        (fun s hs r hr => hg t rfl r (mem_flatMap.mpr ⟨s, hs, hr⟩))
      rw [h1]
      cases r with
      | none => exact ⟨_, rfl, fun _ => hinv rfl, fun hn => absurd hn he, fun hn => absurd hn he⟩
      | some result =>
        exact ⟨_, rfl, fun hn => (by cases hn), fun _ => hserved.finish result,
          fun _ => hserved.books.finish result⟩

theorem System.Good.run {s : System} (h : s.Good init gone) (as : List Action)
    (hg : ∀ t, .turn t ∈ as → ∀ r ∈ t.gone, gone r) :
    ∃ s', s.run as = some s' ∧ s'.Good init gone := by
  induction as generalizing s with
  | nil => exact ⟨s, rfl, h⟩
  | cons a _ ih =>
    obtain ⟨s1, h1, hs1⟩ := h.act (fun t ht => hg t (ht ▸ mem_cons_self))
    obtain ⟨s2, h2, hs2⟩ := ih hs1 (fun t ht => hg t (mem_cons_of_mem _ ht))
    exact ⟨s2, by unfold System.run; rw [h1]; exact h2, hs2⟩

theorem System.new_good {session : Session} (h : Session.open init = .ok session)
    (pool : ReadPool) (gone : Nat → Prop) : (System.new session pool).Good init gone :=
  ⟨fun _ => open_inv h pool, fun he => (by cases he), fun he => (by cases he)⟩

/-- For every history of requests, completions in any order, retries, dropped replies, fences and
failures: the worker does not panic, and each chunk's commands are answered in the order accepted,
with the replies that executing them one at a time on the chunk's entry gives. -/
theorem each_chunk_is_served_in_order {index : Versions} {session : Session}
    (h : Session.open index = .ok session) (pool : ReadPool) (actions : List Action) :
    ∃ s, (System.new session pool).run actions = some s ∧
      ∀ id, ∃ front rest last, InOrder s id (index.lookup id) front rest last := by
  obtain ⟨s, hs, hg⟩ := (System.new_good h pool (fun _ => True)).run actions
    (fun _ _ _ _ => trivial)
  refine ⟨s, hs, fun id => ?_⟩
  cases he : s.ended with
  | false =>
    have hinv := hg.running he
    obtain ⟨done, hl⟩ := hinv.lanes id
    obtain ⟨front, rest, h1, h2, h3, h4, -⟩ := hl.served hinv.books.channels.canceled
    exact ⟨front, rest, _, h1, h2, h3, h4, fun hn => by rw [he] at hn; cases hn⟩
  | true =>
    obtain ⟨hlanes, hcan⟩ := hg.finished he
    obtain ⟨entry, done, hl⟩ := hlanes id
    obtain ⟨front, rest, h1, h2, h3, h4, h5⟩ := hl.served hcan
    exact ⟨front, rest, entry, h1, h2, h3, h4, fun _ => h5 rfl⟩

/-- A turn that takes what there is, starts what it can, and sees `events`. -/
def openTurn (tickets : List Start) (events : List storage.Event) : Turn :=
  ⟨3, tickets, events, none, .NoBuffer, .ok (), false, false⟩

/-- A pool with one class of buffers. -/
def onePool : ReadPool := ⟨4096, fun _ => 4096, fun _ => Nat.le_refl 4096⟩

/-- A put and two equal reads behind it. The first start finds no buffer; then the put is written,
and one read serves both callers. -/
def putAndTwoReads (id : ChunkId) : List Action :=
  [.submit (.Put id [7, 8]), .submit (.Get id none), .submit (.Get id none),
    .turn (openTurn [⟨[], true, .NoBuffer⟩] []),
    .turn (openTurn [⟨[], true, .Accepted 0⟩] [.complete 0 (.ok ())]),
    .turn (openTurn [⟨[], true, .Accepted 0⟩] [.complete 1 (.ok ())])]

theorem two_reads_share_one_operation :
    (((System.new ⟨∅, ∅, 0, 1⟩ onePool).run (putAndTwoReads ⟨byte_list.zeros 16, rfl⟩)).map
      (fun s => (s.worker.sent, s.worker.session.next_ticket)) =
        some ([(0, .Put (.ok 1)), (1, .Read (.ok (some ⟨[7, 8], 1, ⟨1, 4096, false⟩⟩))),
          (2, .Read (.ok (some ⟨[7, 8], 1, ⟨1, 4096, false⟩⟩)))], 2)) ∧
    ∃ s, (System.new ⟨∅, ∅, 0, 1⟩ onePool).run (putAndTwoReads ⟨byte_list.zeros 16, rfl⟩) = some s ∧
      ∀ id, ∃ front rest last, InOrder s id ((∅ : Versions).lookup id) front rest last :=
  ⟨by decide +kernel, each_chunk_is_served_in_order rfl onePool _⟩

end moat_cache_store
