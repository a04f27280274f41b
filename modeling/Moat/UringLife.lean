-- The life of a request in its slot, read off the log of the queue: the pieces
-- that were issued for it, what came back, and its completion.
import Moat.Uring

namespace moat_engine.io.uring

open checked moat_common List

variable {depth : Nat} {reaped : List (Entry × Int)}

/-! ## Pieces -/

/-- The operation of the request that an entry is for. -/
def Entry.operation : Entry → Operation
  | .ReadFixed _ _ _ _ | .Read _ _ _ => .Read
  | .WriteFixed _ _ _ _ | .Write _ _ _ => .Write
  | .Fsync => .Sync

def Entry.ptr : Entry → Nat
  | .ReadFixed ptr _ _ _ | .WriteFixed ptr _ _ _ | .Read ptr _ _ | .Write ptr _ _ => ptr
  | .Fsync => 0

def Entry.offset : Entry → Nat
  | .ReadFixed _ _ _ offset | .WriteFixed _ _ _ offset
  | .Read _ _ offset | .Write _ _ offset => offset
  | .Fsync => 0

/-- The registered buffer that the entry names. -/
def Entry.index : Entry → Option Nat
  | .ReadFixed _ _ index _ | .WriteFixed _ _ index _ => some index
  | _ => none

theorem Entry.new_fields {operation : Operation} (h : operation ≠ .Sync) (fixed : Option Nat)
    (ptr len offset : Nat) : (Entry.new operation fixed ptr len offset).operation = operation ∧
      (Entry.new operation fixed ptr len offset).index = fixed ∧
      (Entry.new operation fixed ptr len offset).ptr = ptr ∧
      (Entry.new operation fixed ptr len offset).len = len ∧
      (Entry.new operation fixed ptr len offset).offset = offset := by
  cases operation with
  | Sync => exact absurd rfl h
  | Read | Write => cases fixed <;> exact ⟨rfl, rfl, rfl, rfl, rfl⟩

/-- The entries cut the first `pos` bytes of the request into consecutive pieces, each at its
place in the file and in the buffer. A sync is one entry. -/
inductive Cut (request : Request) (fixed : Option Nat) (limit : Nat) : List Entry → Nat → Prop
  | nil : Cut request fixed limit [] 0
  | sync : request.operation = .Sync → Cut request fixed limit [.Fsync] 0
  | piece {entries : List Entry} {pos : Nat} {entry : Entry} {buffer : Buffer} :
      Cut request fixed limit entries pos → request.operation ≠ .Sync →
      request.buffer = some buffer → entry.operation = request.operation → entry.index = fixed →
      entry.offset = request.offset + pos → entry.ptr = buffer.memory.ptr + pos →
      0 < entry.len → entry.len ≤ limit → pos + entry.len ≤ request.len →
      Cut request fixed limit (entries ++ [entry]) (pos + entry.len)

section Cut

variable {request : Request} {fixed : Option Nat} {limit pos : Nat} {entries : List Entry}
  (h : Cut request fixed limit entries pos)
include h

/-- The entries are as long as what they cut. -/
theorem Cut.sum_len : (entries.map Entry.len).sum = pos := by
  induction h with
  | nil => rfl
  | sync => rfl
  | piece _ _ _ _ _ _ _ _ _ _ ih => simp [ih]

/-- Every byte of the file before `pos` is in one piece, and no other byte is in any. -/
theorem Cut.covers (x : Nat) :
    entries.countP (fun e => decide (e.offset ≤ x ∧ x < e.offset + e.len)) =
      if request.offset ≤ x ∧ x < request.offset + pos then 1 else 0 := by
  induction h with
  | nil => simp
  | sync => simp [Entry.len, Entry.offset]
  | @piece _ _ _ _ _ _ _ _ _ hoffset _ _ _ _ ih =>
    rw [countP_append, ih, countP_singleton]
    simp only [hoffset, decide_eq_true_eq]
    split <;> split <;> split <;> omega

theorem Cut.sync_length (hs : request.operation = .Sync) : entries = [] ∨ entries = [.Fsync] := by
  cases h with
  | nil => exact .inl rfl
  | sync => exact .inr rfl
  | piece _ hn => exact absurd hs hn

end Cut

/-! ## Results -/

/-- The first error, or else the sum. -/
def outcome (results : List Int) : Except Error Nat :=
  match results.find? (fun actual => decide (actual < 0)) with
  | some actual => .error (.Os (-actual).toNat)
  | none => .ok results.sum.toNat

/-- A result is added as `complete` adds it. -/
theorem outcome_append (results : List Int) (actual : Int) :
    outcome (results ++ [actual]) = match outcome results with
      | .error error => .error error
      | .ok bytes =>
        if actual < 0 then .error (.Os (-actual).toNat) else .ok (bytes + actual.toNat) := by
  unfold outcome
  rw [List.find?_append]
  cases hf : results.find? (fun actual => decide (actual < 0)) with
  | some => rfl
  | none =>
    by_cases ha : actual < 0
    · simp [ha]
    · have hsum : 0 ≤ results.sum := sum_nonneg fun x hx => by
        have := List.find?_eq_none.mp hf x hx
        simpa using this
      simp [ha, Int.toNat_add hsum (not_lt.mp ha)]

section
variable (hle : ∀ p ∈ reaped, p.2 ≤ p.1.len)
include hle

/-- No piece transfers more than its length. -/
theorem sum_le_len : (reaped.map Prod.snd).sum ≤ ((reaped.map (fun p => p.1.len)).sum : Nat) := by
  induction reaped with
  | nil => simp
  | cons q _ ih =>
    have hq := hle q mem_cons_self
    have hrest := ih fun p hp => hle p (mem_cons_of_mem _ hp)
    simp only [map_cons, sum_cons, Nat.cast_add]
    omega

/-- Then the sum is the whole length exactly if every piece was complete. -/
theorem sum_eq_len : (reaped.map Prod.snd).sum = ((reaped.map (fun p => p.1.len)).sum : Nat) ↔
      ∀ p ∈ reaped, p.2 = p.1.len := by
  induction reaped with
  | nil => simp
  | cons q _ ih =>
    have hq := hle q mem_cons_self
    have hle' := fun p hp => hle p (mem_cons_of_mem q hp)
    have hrest := sum_le_len hle'
    rw [forall_mem_cons, ← ih hle']
    simp only [map_cons, sum_cons, Nat.cast_add]
    omega

theorem outcome_complete : outcome (reaped.map Prod.snd) = .ok (reaped.map (fun p => p.1.len)).sum ↔
      ∀ p ∈ reaped, p.2 = p.1.len := by
  rw [← sum_eq_len hle, outcome]
  split
  · rename_i actual hf
    refine ⟨nofun, fun h => ?_⟩
    -- an error is less than any length
    obtain ⟨p, hp, rfl⟩ := mem_map.mp (mem_of_find?_eq_some hf)
    have hneg := List.find?_some hf
    rw [decide_eq_true_eq, (sum_eq_len hle).mp h p hp] at hneg
    omega
  · rename_i hf
    have hsum : 0 ≤ (reaped.map Prod.snd).sum := sum_nonneg fun x hx => by
      have := List.find?_eq_none.mp hf x hx
      simpa using this
    rw [Except.ok.injEq]
    omega

end

/-! ## Lives -/

/-- What the log tells about the last request of a slot. -/
structure Life where
  request : Option Request
  issued : List Entry
  reaped : List (Entry × Int)
  finished : List Completion
  popped : List Completion

def Event.slot : Event depth → Fin depth
  | .accepted slot _ | .issued slot _ | .reaped slot _ _ | .finished slot _ | .popped slot _ => slot

def Life.note (l : Life) : Event depth → Life
  | .accepted _ request => ⟨some request, [], [], [], []⟩
  | .issued _ entry => { l with issued := l.issued ++ [entry] }
  | .reaped _ entry result => { l with reaped := l.reaped ++ [(entry, result)] }
  | .finished _ completion => { l with finished := l.finished ++ [completion] }
  | .popped _ completion => { l with popped := l.popped ++ [completion] }

def life (log : List (Event depth)) (slot : Fin depth) : Life :=
  (log.filter (fun e => decide (e.slot = slot))).foldl Life.note ⟨none, [], [], [], []⟩

/-- Another request may take the slot. -/
def Life.vacant (l : Life) : Prop := l.request = none ∨ l.popped ≠ []

theorem life_snoc (log : List (Event depth)) (e : Event depth) (slot : Fin depth) :
    life (log ++ [e]) slot = if e.slot = slot then (life log slot).note e else life log slot := by
  unfold life
  rw [filter_append]
  by_cases h : e.slot = slot <;> simp [h]

theorem life_snoc_self (log : List (Event depth)) (e : Event depth) :
    life (log ++ [e]) e.slot = (life log e.slot).note e := by
  rw [life_snoc, if_pos rfl]

theorem life_snoc_ne {log : List (Event depth)} {e : Event depth} {slot : Fin depth}
    (h : slot ≠ e.slot) : life (log ++ [e]) slot = life log slot := by
  rw [life_snoc, if_neg (Ne.symm h)]

/-- What is fixed about a request when its slot takes it. -/
def admits (pool : Option Nat) (request : Request) : Except Error (Option Nat) :=
  request.validate.bind (fun _ => UringQueue.buffer_index pool request)

/-- How a request is carried out, up to any moment. -/
structure Life.Faithful (pool : Option Nat) (limit : Nat) (l : Life) (request : Request) :
    Prop where
  /-- A request that is not valid reaches no ring. -/
  refused : ∀ error, admits pool request = .error error →
    l.issued = [] ∧ ∀ c ∈ l.finished, c.result = .error error
  /-- The entries cut the request from its start. -/
  cut : ∀ fixed, admits pool request = .ok fixed → ∃ pos, Cut request fixed limit l.issued pos
  /-- Each entry comes back at most once. -/
  returned : (l.reaped.map Prod.fst : Multiset Entry) ≤ l.issued
  once : l.finished.length ≤ 1
  popped : l.popped = [] ∨ l.popped = l.finished ∧ l.popped.length = 1
  same : ∀ c ∈ l.finished, c.request = request
  /-- A completion comes after all entries came back, which cover the request. -/
  whole : ∀ fixed, admits pool request = .ok fixed → l.finished ≠ [] →
    Cut request fixed limit l.issued request.len ∧
      (∀ x, l.issued.countP (fun e => decide (e.offset ≤ x ∧ x < e.offset + e.len)) =
        if request.offset ≤ x ∧ x < request.offset + request.len then 1 else 0) ∧
      (request.operation = .Sync → l.issued = [.Fsync]) ∧
      (l.reaped.map Prod.fst : Multiset Entry) = l.issued
  result : ∀ fixed, admits pool request = .ok fixed → ∀ c ∈ l.finished,
    c.result = outcome (l.reaped.map Prod.snd) ∧
      (c.result = .ok request.len ↔ ∀ p ∈ l.reaped, p.2 = p.1.len)

end moat_engine.io.uring
