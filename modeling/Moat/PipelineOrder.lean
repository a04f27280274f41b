-- Ordered publication and failure containment: whatever order the device
-- answers in, writes are reported in ticket order, and exactly the successful
-- ones reach the index.
import Moat.PipelineRuns

namespace moat_engine.pipeline

open byte_list moat_common List
open moat_engine.io (Operation Queue Request Script)

/-! ## What a run shows -/

/-- What the owner of a pipeline has seen: its admitted writes with their entries, the delivered
completions, and the tickets of the writes and syncs that the device did not carry out in full. -/
structure Trace where
  admitted : List (Nat × List (ChunkId × Location))
  out : List Completion
  failed : List Nat

def Trace.add (tr : Trace) (a : Act) : Trace where
  admitted := match a with
    | .launched f => tr.admitted ++ [(f.write.ticket, f.write.entries)]
    | _ => tr.admitted
  out := tr.out ++ a.out
  failed := tr.failed ++ a.failed

/-- The delivered writes, with their results, in order of delivery. -/
def deliveredWrites (out : List Completion) : List (Nat × Except Error Unit) :=
  out.filterMap (fun c => match c with
    | .Write ticket result _ => some (ticket, result)
    | _ => none)

/-- The flushes that reported success. -/
def successfulFlushes (out : List Completion) : List Nat :=
  out.filterMap (fun c => match c with
    | .Flush ticket (.ok ()) => some ticket
    | _ => none)

/-- What waits in the queue of writes. -/
def Pipeline.entryAt (p : Pipeline) (s : Nat) : Option (Nat × List (ChunkId × Location)) :=
  match p.slot s with
  | some (.Write w) => some (w.ticket, w.entries)
  | _ => none

def Pipeline.queuedWrites (p : Pipeline) : List (Nat × List (ChunkId × Location)) :=
  p.writes.filterMap p.entryAt

/-- A delivered write, with what it brought to the index if it succeeded. -/
structure Done where
  ticket : Nat
  entries : List (ChunkId × Location)
  result : Except Error Unit

def published (done : List Done) : List (ChunkId × Location) :=
  (done.filter (fun d => d.result.isOk)).flatMap (·.entries)

/-! ## The invariant -/

/-- `done` are the delivered writes; those still queued follow them in the order of admission. -/
structure Ordered (start : Index) (p : Pipeline) (tr : Trace) (done : List Done) : Prop where
  delivered : deliveredWrites tr.out = done.map (fun d => (d.ticket, d.result))
  admitted : tr.admitted = done.map (fun d => (d.ticket, d.entries)) ++ p.queuedWrites
  increasing : (tr.admitted.map (·.1)).Pairwise (· < ·)
  admitted_lt : ∀ a ∈ tr.admitted, a.1 < p.next_ticket
  failed_lt : ∀ f ∈ tr.failed, f < p.next_ticket
  index_eq : p.index = apply start (published done)
  ok_iff : ∀ d ∈ done, d.result.isOk = true ↔ ∀ f ∈ tr.failed, d.ticket < f
  failed_none : p.failed_at = none ↔ tr.failed = []
  failed_min : ∀ m, p.failed_at = some m → m ∈ tr.failed ∧ ∀ f ∈ tr.failed, m ≤ f
  running : ∀ s w, p.slot s = some (.Write w) → w.completed = none → w.ticket ∉ tr.failed
  finished : ∀ s w r b, p.slot s = some (.Write w) → w.completed = some (r, b) →
    (r.isOk = true ↔ w.ticket ∉ tr.failed)
  flush_last : ∀ s t b, p.slot s = some (.Flush t b) →
    t < p.next_ticket ∧ (∀ a ∈ tr.admitted, a.1 < t) ∧ ∀ t' ∈ successfulFlushes tr.out, t' < t
  flush_alone : ∀ s t, p.slot s = some (.Flush t true) → p.writes = [] ∧ tr.failed = []
  flushed : ∀ t ∈ successfulFlushes tr.out, t < p.next_ticket ∧ (∀ f ∈ tr.failed, t < f) ∧
    ∀ a ∈ p.queuedWrites, t < a.1

/-! ## Steps that neither write nor flush -/

variable {p p' : Pipeline} {s : Nat} {tr : Trace} {x : Option Pending} {done : List Done} {a : Act}

theorem queuedWrites_congr (hw : p'.writes = p.writes)
    (h : ∀ s ∈ p.writes, p'.entryAt s = p.entryAt s) : p'.queuedWrites = p.queuedWrites := by
  unfold Pipeline.queuedWrites
  rw [hw]
  exact filterMap_congr h

theorem entryAt_write {w : Write} (h : p.slot s = some (.Write w)) :
    p.entryAt s = some (w.ticket, w.entries) := by
  unfold Pipeline.entryAt
  rw [h]

/-- Operations other than reads. -/
def Pending.Orders (q : Pending) : Prop := q.kind = .write ∨ q.kind = .flush

theorem Trace.add_read (h1 : ∀ f, a ≠ .launched f)
    (h2 : deliveredWrites a.out = []) (h3 : successfulFlushes a.out = []) (h4 : a.failed = []) :
    (tr.add a).admitted = tr.admitted ∧
      deliveredWrites (tr.add a).out = deliveredWrites tr.out ∧
      successfulFlushes (tr.add a).out = successfulFlushes tr.out ∧
      (tr.add a).failed = tr.failed := by
  refine ⟨?_, ?_, ?_, ?_⟩
  · cases a <;> first | rfl | exact absurd rfl (h1 _)
  · unfold Trace.add deliveredWrites
    rw [filterMap_append]
    rw [show List.filterMap _ a.out = [] from h2, append_nil]
  · unfold Trace.add successfulFlushes
    rw [filterMap_append]
    rw [show List.filterMap _ a.out = [] from h3, append_nil]
  · unfold Trace.add
    rw [h4, append_nil]

variable {start : Index}

/-- A step that leaves writes, flushes, the index and the failures alone keeps the order. -/
theorem Ordered.frame {tr' : Trace} (h : Ordered start p tr done)
    (hl : Live p) (hi : p'.index = p.index) (hx : p'.failed_at = p.failed_at)
    (hn : p.next_ticket ≤ p'.next_ticket) (hw : p'.writes = p.writes)
    (hs : ∀ s q, q.Orders → p'.slot s = some q → p.slot s = some q)
    (hsw : ∀ s w, p.slot s = some (.Write w) → p'.slot s = some (.Write w))
    (ht : tr'.admitted = tr.admitted ∧ deliveredWrites tr'.out = deliveredWrites tr.out ∧
      successfulFlushes tr'.out = successfulFlushes tr.out ∧ tr'.failed = tr.failed) :
    Ordered start p' tr' done := by
  obtain ⟨t1, t2, t3, t4⟩ := ht
  have hq : p'.queuedWrites = p.queuedWrites := by
    apply queuedWrites_congr hw
    intro s hs'
    obtain ⟨w, hw'⟩ := hl.write_slot hs'
    rw [entryAt_write hw', entryAt_write (hsw s w hw')]
  refine
    { delivered := t2.trans h.delivered
      admitted := by rw [t1, hq]; exact h.admitted
      increasing := by rw [t1]; exact h.increasing
      admitted_lt := fun a ha => Nat.lt_of_lt_of_le (h.admitted_lt a (t1 ▸ ha)) hn
      failed_lt := fun f hf => Nat.lt_of_lt_of_le (h.failed_lt f (t4 ▸ hf)) hn
      index_eq := hi.trans h.index_eq
      ok_iff := by rw [t4]; exact h.ok_iff
      failed_none := by rw [t4, hx]; exact h.failed_none
      failed_min := by rw [t4, hx]; exact h.failed_min
      running := ?_, finished := ?_, flush_last := ?_, flush_alone := ?_, flushed := ?_ }
  · intro s w hw'
    rw [t4]
    exact h.running s w (hs s _ (Or.inl rfl) hw')
  · intro s w r b hw'
    rw [t4]
    exact h.finished s w r b (hs s _ (Or.inl rfl) hw')
  · intro s t b hf
    obtain ⟨f1, f2, f3⟩ := h.flush_last s t b (hs s _ (Or.inr rfl) hf)
    rw [t1, t3]
    exact ⟨Nat.lt_of_lt_of_le f1 hn, f2, f3⟩
  · intro s t hf
    rw [hw, t4]
    exact h.flush_alone s t (hs s _ (Or.inr rfl) hf)
  · intro t ht
    rw [t3] at ht
    obtain ⟨f1, f2, f3⟩ := h.flushed t ht
    rw [t4, hq]
    exact ⟨Nat.lt_of_lt_of_le f1 hn, f2, f3⟩

/-- A change of one slot that brings in no write and no flush. -/
theorem slot_of_orders (h : p'.slots = p.slots.set s x) (hx : ∀ q, x = some q → ¬ q.Orders) :
    ∀ t q, q.Orders → p'.slot t = some q → p.slot t = some q := by
  intro t q hq ht
  rw [slot_of_set h t] at ht
  split at ht
  · exact absurd hq (hx q ht)
  · exact ht

/-- A slot that is filled. -/
theorem slot_set_cases {x q : Pending} {t : Nat} (h : p'.slots = p.slots.set s (some x))
    (hq : p'.slot t = some q) :
    (t = s ∧ q = x) ∨ (¬ (t = s ∧ s < p.slots.length) ∧ p.slot t = some q) := by
  rw [slot_of_set h t] at hq
  split at hq
  · rename_i hts
    cases hq
    exact Or.inl ⟨hts.1, rfl⟩
  · rename_i hts
    exact Or.inr ⟨hts, hq⟩

/-- The one flush leaves its slot. -/
theorem no_flush_left (hl : Live p) {t : Nat} {b : Bool} (hs : p.slot s = some (.Flush t b))
    (hslots : p'.slots = p.slots.set s none) (u x : Nat) (y : Bool) :
    p'.slot u ≠ some (.Flush x y) := by
  intro hu
  have hold := slot_of_orders hslots (fun q hq => by cases hq) u _ (Or.inr rfl) hu
  have h1 := (hl.flush_iff s).mpr (kindAt_eq hs)
  have h2 := (hl.flush_iff u).mpr (kindAt_eq hold)
  rw [h1] at h2
  cases h2
  rw [slot_of_set hslots s, if_pos ⟨rfl, slot_lt hs⟩] at hu
  cases hu

theorem queuedWrites_nil (h : p.writes = []) : p.queuedWrites = [] := by
  unfold Pipeline.queuedWrites
  rw [h]
  rfl

/-- A change of one slot that holds no write. -/
theorem write_of_set (h : p'.slots = p.slots.set s x) (hs : p.kindAt s ≠ some .write) :
    ∀ t w, p.slot t = some (.Write w) → p'.slot t = some (.Write w) := by
  intro t w ht
  rw [slot_of_set h t]
  split
  · rename_i hts
    rw [← hts.1] at hs
    exact absurd (kindAt_eq ht) hs
  · exact ht

theorem Orders.of_kind {q : Pending} {k : Kind} (h : q.kind = k) (hk : k = .read ∨ k = .empty) :
    ¬ q.Orders := by
  rintro (hq | hq) <;> rcases hk with rfl | rfl <;> rw [h] at hq <;> cases hq

/-- A step that changes one slot, for a read or from one. -/
theorem Ordered.slot (h : Ordered start p tr done) (hl : Live p) (hs : p'.slots = p.slots.set s x)
    (hx : ∀ q, x = some q → q.kind = .read ∨ q.kind = .empty) (hk : p.kindAt s ≠ some .write)
    (hi : p'.index = p.index) (hf : p'.failed_at = p.failed_at)
    (hn : p.next_ticket ≤ p'.next_ticket) (hw : p'.writes = p.writes) (h1 : ∀ f, a ≠ .launched f)
    (h2 : deliveredWrites a.out = []) (h3 : successfulFlushes a.out = []) (h4 : a.failed = []) :
    ∃ done', Ordered start p' (tr.add a) done' :=
  ⟨done, h.frame hl hi hf hn hw (slot_of_orders hs fun q hq => Orders.of_kind rfl (hx q hq))
    (write_of_set hs hk) (Trace.add_read h1 h2 h3 h4)⟩

/-! ## Admission -/

section steps

variable {start : Index} {p : Pipeline} {tr : Trace} {done : List Done}

variable {s t : Nat} {rest : List Nat} {buffer : Bytes} {p' : Pipeline} {w : Write}
  {result : Except Error Unit}

theorem kindAt_free (hl : Live p) (hf : p.free = s :: rest) : p.kindAt s = none := by
  unfold Pipeline.kindAt
  rw [hl.free_none s (by rw [hf]; exact mem_cons_self)]
  rfl

theorem Ordered.launch (h : Ordered start p tr done) (hl : Live p) {encode : Encode} {f : Prepared}
    (hp : p.prepare buffer encode = .ok f) (hf : p.free = s :: rest) :
    Ordered start (p.launched s rest f) (tr.add (.launched f)) done := by
  obtain ⟨ha, hnone⟩ := prepare_admission hp
  obtain ⟨ht, -, -, -, hw⟩ := admission_ok ha
  obtain ⟨-, -, hnf⟩ := hw rfl
  have hlt : s < p.slots.length := hl.free_lt s (by rw [hf]; exact mem_cons_self)
  have hfree := kindAt_free hl hf
  have hslot : ∀ t q, (p.launched s rest f).slot t = some q →
      (t = s ∧ q = .Write f.write) ∨ p.slot t = some q := fun t q hq =>
    (slot_set_cases (p := p) rfl hq).imp_right (·.2)
  have hkeep : ∀ t w, p.slot t = some (.Write w) →
      (p.launched s rest f).slot t = some (.Write w) :=
    write_of_set (s := s) rfl (by rw [hfree]; simp)
  have hqueued : (p.launched s rest f).queuedWrites =
      p.queuedWrites ++ [(f.write.ticket, f.write.entries)] := by
    have hnew : (p.launched s rest f).entryAt s = some (f.write.ticket, f.write.entries) := by
      apply entryAt_write
      rw [slot_of_set (p := p) (s := s) rfl s, if_pos ⟨rfl, hlt⟩]
    have hold : ∀ t ∈ p.writes, (p.launched s rest f).entryAt t = p.entryAt t := by
      intro t ht'
      obtain ⟨w, hw'⟩ := hl.write_slot ht'
      rw [entryAt_write hw', entryAt_write (hkeep t w hw')]
    show (p.writes ++ [s]).filterMap _ = _
    rw [filterMap_append, filterMap_congr hold]
    simp [hnew, Pipeline.queuedWrites]
  have hadm :
    (tr.add (.launched f)).admitted = tr.admitted ++ [(f.write.ticket, f.write.entries)] :=
    rfl
  have hout : (tr.add (.launched f)).out = tr.out := by simp [Trace.add, Act.out]
  have hfail : (tr.add (.launched f)).failed = tr.failed := by simp [Trace.add, Act.failed]
  refine
    { delivered := by rw [hout]; exact h.delivered
      admitted := by rw [hadm, hqueued, h.admitted, append_assoc]
      increasing := ?_, admitted_lt := ?_
      failed_lt := fun x hx => Nat.lt_succ_of_lt (h.failed_lt x (hfail ▸ hx))
      index_eq := h.index_eq
      ok_iff := by rw [hfail]; exact h.ok_iff
      failed_none := by rw [hfail]; exact h.failed_none
      failed_min := by rw [hfail]; exact h.failed_min
      running := ?_, finished := ?_, flush_last := ?_, flush_alone := ?_, flushed := ?_ }
  · rw [hadm, map_append, pairwise_append]
    refine ⟨h.increasing, pairwise_singleton _ _, ?_⟩
    intro a ha b hb
    obtain ⟨e, he, rfl⟩ := mem_map.mp ha
    simp only [map_cons, map_nil, mem_singleton] at hb
    rw [hb, ht]
    exact h.admitted_lt e he
  · intro a ha
    rw [hadm] at ha
    rcases mem_append.mp ha with ha | ha
    · exact Nat.lt_succ_of_lt (h.admitted_lt a ha)
    · rw [mem_singleton] at ha
      rw [ha, ht]
      exact Nat.lt_succ_self _
  · intro t w hq hc
    rw [hfail]
    rcases hslot t _ hq with ⟨-, hq⟩ | hq
    · cases hq
      intro hm
      exact Nat.lt_irrefl _ (ht ▸ h.failed_lt _ hm)
    · exact h.running t w hq hc
  · intro t w r b hq hc
    rw [hfail]
    rcases hslot t _ hq with ⟨-, hq⟩ | hq
    · cases hq
      rw [hnone] at hc
      cases hc
    · exact h.finished t w r b hq hc
  · intro t x b hq
    rcases hslot t _ hq with ⟨-, hq⟩ | hq
    · cases hq
    · rw [(hl.flush_iff t).mpr (kindAt_eq hq)] at hnf
      cases hnf
  · intro t x hq
    rcases hslot t _ hq with ⟨-, hq⟩ | hq
    · cases hq
    · rw [(hl.flush_iff t).mpr (kindAt_eq hq)] at hnf
      cases hnf
  · intro t htm
    rw [hout] at htm
    obtain ⟨f1, f2, f3⟩ := h.flushed t htm
    rw [hfail, hqueued]
    refine ⟨Nat.lt_succ_of_lt f1, f2, ?_⟩
    intro a ha
    rcases mem_append.mp ha with ha | ha
    · exact f3 a ha
    · rw [mem_singleton] at ha
      rw [ha, ht]
      exact f1

theorem Ordered.begin_flush (h : Ordered start p tr done) (hl : Live p) (hf : p.free = s :: rest)
    (hp : p' = { p.placed s rest (.Flush p.next_ticket false) with flush_slot := some s }) :
    Ordered start p' (tr.add (.flush_begun p.next_ticket)) done := by
  have hslots : p'.slots = p.slots.set s (some (.Flush p.next_ticket false)) := by rw [hp]; rfl
  have hn : p'.next_ticket = p.next_ticket + 1 := by rw [hp]; rfl
  have hslot : ∀ t q, p'.slot t = some q →
      (t = s ∧ q = .Flush p.next_ticket false) ∨ p.slot t = some q := fun t q hq =>
    (slot_set_cases hslots hq).imp_right (·.2)
  have hkeep := write_of_set hslots (by rw [kindAt_free hl hf]; simp)
  have hqueued : p'.queuedWrites = p.queuedWrites := by
    apply queuedWrites_congr (by rw [hp]; rfl)
    intro t ht
    obtain ⟨w, hw⟩ := hl.write_slot ht
    rw [entryAt_write hw, entryAt_write (hkeep t w hw)]
  have hout : (tr.add (.flush_begun p.next_ticket)).out = tr.out := by simp [Trace.add, Act.out]
  have hfail : (tr.add (.flush_begun p.next_ticket)).failed = tr.failed := by
    simp [Trace.add, Act.failed]
  refine
    { delivered := by rw [hout]; exact h.delivered
      admitted := by rw [hqueued]; exact h.admitted
      increasing := h.increasing
      admitted_lt := fun a ha => hn ▸ Nat.lt_succ_of_lt (h.admitted_lt a ha)
      failed_lt := fun x hx => hn ▸ Nat.lt_succ_of_lt (h.failed_lt x (hfail ▸ hx))
      index_eq := by rw [hp]; exact h.index_eq
      ok_iff := by rw [hfail]; exact h.ok_iff
      failed_none := by rw [hfail, hp]; exact h.failed_none
      failed_min := by rw [hfail, hp]; exact h.failed_min
      running := ?_, finished := ?_, flush_last := ?_, flush_alone := ?_, flushed := ?_ }
  · intro t w hq hc
    rw [hfail]
    rcases hslot t _ hq with ⟨-, hq⟩ | hq
    · cases hq
    · exact h.running t w hq hc
  · intro t w r b hq hc
    rw [hfail]
    rcases hslot t _ hq with ⟨-, hq⟩ | hq
    · cases hq
    · exact h.finished t w r b hq hc
  · intro t x b hq
    rw [hn, hout]
    rcases hslot t _ hq with ⟨-, hq⟩ | hq
    · cases hq
      exact ⟨Nat.lt_succ_self _, h.admitted_lt, fun t' ht' => (h.flushed t' ht').1⟩
    · obtain ⟨f1, f2, f3⟩ := h.flush_last t x b hq
      exact ⟨Nat.lt_succ_of_lt f1, f2, f3⟩
  · intro t x hq
    rw [hfail, show p'.writes = p.writes by rw [hp]; rfl]
    rcases hslot t _ hq with ⟨-, hq⟩ | hq
    · cases hq
    · exact h.flush_alone t x hq
  · intro t ht
    rw [hout] at ht
    obtain ⟨f1, f2, f3⟩ := h.flushed t ht
    rw [hn, hfail, hqueued]
    exact ⟨Nat.lt_succ_of_lt f1, f2, f3⟩

/-! ## Publication -/

/-- A result stands exactly when its ticket is below every failure. -/
theorem Ordered.retired_ok (h : Ordered start p tr done) (hs : p.slot s = some (.Write w))
    (hc : w.completed = some (result, buffer)) :
    (p.retired w.ticket result).isOk = true ↔ ∀ f ∈ tr.failed, w.ticket < f := by
  have hfin := h.finished s w result buffer hs hc
  unfold Pipeline.retired
  cases hx : p.failed_at with
  | none =>
    rw [h.failed_none] at hx
    simp only [hx]
    simp [hfin, hx]
  | some m =>
    obtain ⟨hm, hmin⟩ := h.failed_min m hx
    simp only
    split
    · rename_i hgt
      refine ⟨fun hc => (by cases hc), fun hall => ?_⟩
      exact absurd (hall m hm) (by omega)
    · rename_i hle
      rw [hfin]
      refine ⟨fun hni f hf => ?_, fun hall hmem => Nat.lt_irrefl _ (hall _ hmem)⟩
      have h1 := hmin f hf
      have h2 : w.ticket ≠ f := fun he => hni (he ▸ hf)
      omega

theorem published_append (done : List Done) (d : Done) :
    published (done ++ [d]) =
      if d.result.isOk = true then published done ++ d.entries else published done := by
  unfold published
  rw [filter_append, flatMap_append]
  by_cases hd : d.result.isOk = true
  · simp [hd]
  · simp [hd]

variable (h : Ordered start p tr done)
include h

theorem Ordered.retire (hl : Live p) (hw : p.writes = s :: rest) (hs : p.slot s = some (.Write w))
    (hc : w.completed = some (result, buffer)) (hslots : p'.slots = p.slots.set s none)
    (hw' : p'.writes = rest) (hx : p'.failed_at = p.failed_at) (hn : p'.next_ticket = p.next_ticket)
    (hi : p'.index =
      if (p.retired w.ticket result).isOk then apply p.index w.entries else p.index) :
    Ordered start p' (tr.add (.retired w (p.retired w.ticket result) buffer))
      (done ++ [⟨w.ticket, w.entries, p.retired w.ticket result⟩]) := by
  have hslot := slot_of_orders hslots (fun q hq => by cases hq)
  have hnd := hl.writes_nodup
  rw [hw, nodup_cons] at hnd
  have hqueued : p.queuedWrites = (w.ticket, w.entries) :: p'.queuedWrites := by
    unfold Pipeline.queuedWrites
    rw [hw, hw', filterMap_cons_some (entryAt_write hs)]
    congr 1
    apply filterMap_congr
    intro t ht
    unfold Pipeline.entryAt
    rw [slot_of_set hslots t, if_neg (fun hts : t = s ∧ _ => hnd.1 (hts.1 ▸ ht))]
  have hfail : (tr.add (.retired w (p.retired w.ticket result) buffer)).failed = tr.failed := by
    simp [Trace.add, Act.failed]
  have hflush : successfulFlushes (tr.add (.retired w (p.retired w.ticket result) buffer)).out =
      successfulFlushes tr.out := by
    simp [Trace.add, Act.out, successfulFlushes]
  refine
    { delivered := ?_
      admitted := ?_
      increasing := h.increasing
      admitted_lt := by rw [hn]; exact h.admitted_lt
      failed_lt := by rw [hn, hfail]; exact h.failed_lt
      index_eq := ?_, ok_iff := ?_
      failed_none := by rw [hfail, hx]; exact h.failed_none
      failed_min := by rw [hfail, hx]; exact h.failed_min
      running := ?_, finished := ?_, flush_last := ?_, flush_alone := ?_, flushed := ?_ }
  · have hd := h.delivered
    unfold deliveredWrites at hd ⊢
    simp [Trace.add, Act.out, hd]
  · have hadm := h.admitted
    rw [hqueued] at hadm
    show tr.admitted = _
    rw [hadm]
    simp
  · rw [hi, published_append, h.index_eq]
    simp only
    split
    · rw [apply_append]
    · rfl
  · intro d hd
    rw [hfail]
    rcases mem_append.mp hd with hd | hd
    · exact h.ok_iff d hd
    · rw [mem_singleton] at hd
      subst hd
      exact h.retired_ok hs hc
  · intro t w' hq hc'
    rw [hfail]
    exact h.running t w' (hslot t _ (Or.inl rfl) hq) hc'
  · intro t w' r b hq hc'
    rw [hfail]
    exact h.finished t w' r b (hslot t _ (Or.inl rfl) hq) hc'
  · intro t x b hq
    rw [hn, hflush]
    exact h.flush_last t x b (hslot t _ (Or.inr rfl) hq)
  · intro t x hq
    have := (h.flush_alone t x (hslot t _ (Or.inr rfl) hq)).1
    rw [hw] at this
    cases this
  · intro t ht
    rw [hflush] at ht
    obtain ⟨f1, f2, f3⟩ := h.flushed t ht
    rw [hn, hfail]
    exact ⟨f1, f2, fun a ha => f3 a (hqueued ▸ mem_cons_of_mem _ ha)⟩

/-! ## Flushes -/

/-- A flush leaves its slot without an error, after every write. -/
theorem Ordered.flush_ok (hl : Live p) {b : Bool} (hs : p.slot s = some (.Flush t b))
    (hw : p.writes = []) (hx : tr.failed = []) (hslots : p'.slots = p.slots.set s none)
    (hw' : p'.writes = p.writes) (hf : p'.failed_at = p.failed_at)
    (hn : p'.next_ticket = p.next_ticket) (hi : p'.index = p.index) (ha : ∀ f, a ≠ .launched f)
    (hout : a.out = [.Flush t (.ok ())]) (hfa : a.failed = []) :
    Ordered start p' (tr.add a) done := by
  have hslot := slot_of_orders hslots (fun q hq => by cases hq)
  have hnone := no_flush_left hl hs hslots
  have hq := queuedWrites_nil (hw'.trans hw)
  have hq0 := queuedWrites_nil hw
  have hfail : (tr.add a).failed = tr.failed := by simp [Trace.add, hfa]
  have hadm : (tr.add a).admitted = tr.admitted := by
    cases a <;> first | rfl | exact absurd rfl (ha _)
  have hflush : successfulFlushes (tr.add a).out = successfulFlushes tr.out ++ [t] := by
    simp [Trace.add, hout, successfulFlushes]
  refine
    { delivered := ?_
      admitted := by rw [hadm, hq, h.admitted, hq0]
      increasing := by rw [hadm]; exact h.increasing
      admitted_lt := by rw [hadm, hn]; exact h.admitted_lt
      failed_lt := by rw [hn, hfail]; exact h.failed_lt
      index_eq := hi.trans h.index_eq
      ok_iff := by rw [hfail]; exact h.ok_iff
      failed_none := by rw [hfail, hf]; exact h.failed_none
      failed_min := by rw [hfail, hf]; exact h.failed_min
      running := ?_, finished := ?_
      flush_last := fun u x y hu => absurd hu (hnone u x y)
      flush_alone := fun u x hu => absurd hu (hnone u x true)
      flushed := ?_ }
  · have hd := h.delivered
    unfold deliveredWrites at hd ⊢
    simp [Trace.add, hout, hd]
  · intro u w hu hc
    rw [hfail]
    exact h.running u w (hslot u _ (Or.inl rfl) hu) hc
  · intro u w r b hu hc
    rw [hfail]
    exact h.finished u w r b (hslot u _ (Or.inl rfl) hu) hc
  · intro u hu
    rw [hflush] at hu
    rw [hn, hfail, hx, hq]
    refine ⟨?_, fun f hf => (by cases hf), fun a ha => (by cases ha)⟩
    rcases mem_append.mp hu with hu | hu
    · exact (h.flushed u hu).1
    · rw [mem_singleton] at hu
      rw [hu]
      exact (h.flush_last s t b hs).1

theorem Ordered.submit_sync
    (hs : p.slot s = some (.Flush t false)) (hw : p.writes = []) (hx : p.failed_at = none)
    (hslots : p'.slots = p.slots.set s (some (.Flush t true))) (hw' : p'.writes = p.writes)
    (hf : p'.failed_at = p.failed_at) (hn : p'.next_ticket = p.next_ticket)
    (hi : p'.index = p.index) : Ordered start p' (tr.add .sync_submitted) done := by
  have hfail0 := h.failed_none.mp hx
  have hslot : ∀ u q, p'.slot u = some q → (u = s ∧ q = .Flush t true) ∨ p.slot u = some q :=
    fun u q hu => (slot_set_cases hslots hu).imp_right (·.2)
  have hq : p'.queuedWrites = p.queuedWrites := by
    apply queuedWrites_congr hw'
    rw [hw]
    intro u hu
    cases hu
  have hout : (tr.add .sync_submitted).out = tr.out := by simp [Trace.add, Act.out]
  have hfail : (tr.add .sync_submitted).failed = tr.failed := by simp [Trace.add, Act.failed]
  refine
    { delivered := by rw [hout]; exact h.delivered
      admitted := by rw [hq]; exact h.admitted
      increasing := h.increasing
      admitted_lt := by rw [hn]; exact h.admitted_lt
      failed_lt := by rw [hn, hfail]; exact h.failed_lt
      index_eq := hi.trans h.index_eq
      ok_iff := by rw [hfail]; exact h.ok_iff
      failed_none := by rw [hfail, hf]; exact h.failed_none
      failed_min := by rw [hfail, hf]; exact h.failed_min
      running := ?_, finished := ?_, flush_last := ?_, flush_alone := ?_
      flushed := by rw [hn, hfail, hq, hout]; exact h.flushed }
  · intro u w hu hc
    rw [hfail]
    rcases hslot u _ hu with ⟨-, hq⟩ | hu
    · cases hq
    · exact h.running u w hu hc
  · intro u w r b hu hc
    rw [hfail]
    rcases hslot u _ hu with ⟨-, hq⟩ | hu
    · cases hq
    · exact h.finished u w r b hu hc
  · intro u x b hu
    rw [hn, hout]
    rcases hslot u _ hu with ⟨-, hq⟩ | hu
    · cases hq
      exact h.flush_last s t false hs
    · exact h.flush_last u x b hu
  · intro u x hu
    rw [hw', hfail]
    exact ⟨hw, hfail0⟩

/-- The sync failed: nothing is in flight behind it, so its ticket is the only failure. -/
theorem Ordered.sync_failed (hl : Live p) (hr : result.isOk = false)
    (hs : p.slot s = some (.Flush t true)) (hslots : p'.slots = p.slots.set s none)
    (hw' : p'.writes = p.writes) (hf : p'.failed_at = some t) (hn : p'.next_ticket = p.next_ticket)
    (hi : p'.index = p.index) : Ordered start p' (tr.add (.sync_done t result)) done := by
  obtain ⟨hw, hx⟩ := h.flush_alone s t hs
  obtain ⟨l1, l2, l3⟩ := h.flush_last s t true hs
  have hslot := slot_of_orders hslots (fun q hq => by cases hq)
  have hnw : ∀ u w, p'.slot u ≠ some (.Write w) := by
    intro u w hu
    have := (hl.writes_iff u).mpr (kindAt_eq (hslot u _ (Or.inl rfl) hu))
    rw [hw] at this
    cases this
  have hnf := no_flush_left hl hs hslots
  have hq := queuedWrites_nil (hw'.trans hw)
  have hq0 := queuedWrites_nil hw
  have hfail : (tr.add (.sync_done t result)).failed = [t] := by
    simp [Trace.add, Act.failed, hx, hr]
  have hflush :
    successfulFlushes (tr.add (.sync_done t result)).out = successfulFlushes tr.out := by
    cases result with
    | ok => cases hr
    | error => simp [Trace.add, Act.out, successfulFlushes]
  refine
    { delivered := ?_
      admitted := by rw [hq, show (tr.add (.sync_done t result)).admitted = tr.admitted from rfl,
        h.admitted, hq0]
      increasing := h.increasing
      admitted_lt := by rw [hn]; exact h.admitted_lt
      failed_lt := ?_
      index_eq := hi.trans h.index_eq
      ok_iff := ?_
      failed_none := by rw [hf, hfail]; simp
      failed_min := ?_
      running := fun u w hu => absurd hu (hnw u w)
      finished := fun u w _ _ hu => absurd hu (hnw u w)
      flush_last := fun u x y hu => absurd hu (hnf u x y)
      flush_alone := fun u x hu => absurd hu (hnf u x true)
      flushed := ?_ }
  · have hd := h.delivered
    unfold deliveredWrites at hd ⊢
    simp [Trace.add, Act.out, hd]
  · intro f hfm
    rw [hfail, mem_singleton] at hfm
    rw [hfm, hn]
    exact l1
  · intro d hd
    have hok := (h.ok_iff d hd).mpr (by rw [hx]; intro f hf; cases hf)
    rw [hfail]
    refine ⟨fun _ f hfm => ?_, fun _ => hok⟩
    rw [mem_singleton] at hfm
    rw [hfm]
    apply l2 (d.ticket, d.entries)
    rw [h.admitted]
    exact mem_append_left _ (mem_map_of_mem hd)
  · intro m hm
    rw [hf] at hm
    cases hm
    rw [hfail]
    exact ⟨mem_singleton.mpr rfl, fun f hfm => by rw [mem_singleton] at hfm; omega⟩
  · intro u hu
    rw [hflush] at hu
    rw [hn, hfail, hq]
    refine ⟨(h.flushed u hu).1, fun f hfm => ?_, fun a ha => by cases ha⟩
    rw [mem_singleton] at hfm
    rw [hfm]
    exact l3 u hu

/-! ## Completions of writes -/

/-- Queued writes have different tickets. -/
theorem Ordered.ticket_ne (hl : Live p) {u : Nat} {v : Write} (hs : p.slot s = some (.Write w))
    (hu : p.slot u = some (.Write v)) (hne : s ≠ u) : w.ticket ≠ v.ticket := by
  have hinc := h.increasing
  rw [h.admitted, map_append, pairwise_append] at hinc
  have hq := hinc.2.1
  unfold Pipeline.queuedWrites at hq
  rw [pairwise_map, pairwise_filterMap] at hq
  have hdiff : p.writes.Pairwise (fun a b => ∀ x ∈ p.entryAt a, ∀ y ∈ p.entryAt b, x.1 ≠ y.1) := by
    refine hq.imp ?_
    intro a b hab x hx y hy
    exact Nat.ne_of_lt (hab x hx y hy)
  have : Std.Symm (fun a b => ∀ x ∈ p.entryAt a, ∀ y ∈ p.entryAt b, x.1 ≠ y.1) :=
    ⟨fun a b hab x hx y hy he => hab y hy x hx he.symm⟩
  exact hdiff.forall ((hl.writes_iff s).mpr (kindAt_eq hs)) ((hl.writes_iff u).mpr (kindAt_eq hu))
    hne _ (entryAt_write hs) _ (entryAt_write hu)

/-- Whatever is delivered is older than whatever is queued. -/
theorem Ordered.done_lt (hl : Live p) {d : Done}
    (hs : p.slot s = some (.Write w)) (hd : d ∈ done) : d.ticket < w.ticket := by
  have hinc := h.increasing
  rw [h.admitted, map_append, pairwise_append] at hinc
  apply hinc.2.2
  · exact mem_map.mpr ⟨(d.ticket, d.entries), mem_map_of_mem hd, rfl⟩
  · refine mem_map.mpr ⟨(w.ticket, w.entries), ?_, rfl⟩
    exact mem_filterMap.mpr ⟨s, (hl.writes_iff s).mpr (kindAt_eq hs), entryAt_write hs⟩

theorem Ordered.write_done (hl : Live p) (hs : p.slot s = some (.Write w)) (hc : w.completed = none)
    (hslots : p'.slots =
      p.slots.set s (some (.Write { w with completed := some (result, buffer) })))
    (hw' : p'.writes = p.writes) (hn : p'.next_ticket = p.next_ticket) (hi : p'.index = p.index)
    (hf : p'.failed_at = if result.isOk then p.failed_at
      else some (p.failed_at.elim w.ticket (fun old => min old w.ticket))) :
    Ordered start p' (tr.add (.write_done w.ticket result.isOk)) done := by
  have hmem : (w.ticket, w.entries) ∈ p.queuedWrites :=
    mem_filterMap.mpr ⟨s, (hl.writes_iff s).mpr (kindAt_eq hs), entryAt_write hs⟩
  have hadm : (w.ticket, w.entries) ∈ tr.admitted := by
    rw [h.admitted]
    exact mem_append_right _ hmem
  have hslot : ∀ u q, p'.slot u = some q →
      (u = s ∧ q = .Write { w with completed := some (result, buffer) }) ∨
      (u ≠ s ∧ p.slot u = some q) := fun u q hu =>
    (slot_set_cases hslots hu).imp_right fun hus => ⟨fun he => hus.1 ⟨he, slot_lt hs⟩, hus.2⟩
  have hq : p'.queuedWrites = p.queuedWrites := by
    apply queuedWrites_congr hw'
    intro u _
    unfold Pipeline.entryAt
    rw [slot_of_set hslots u]
    by_cases hus : u = s ∧ s < p.slots.length
    · rw [if_pos hus, hus.1, hs]
    · rw [if_neg hus]
  have hout : (tr.add (.write_done w.ticket result.isOk)).out = tr.out := by
    simp [Trace.add, Act.out]
  have hfail : (tr.add (.write_done w.ticket result.isOk)).failed =
      tr.failed ++ if result.isOk = true then [] else [w.ticket] := rfl
  -- a new failure lies above everything delivered, so nothing reported changes its meaning
  have hnew : ∀ f, f ∈ (tr.add (.write_done w.ticket result.isOk)).failed ↔
      f ∈ tr.failed ∨ (result.isOk = false ∧ f = w.ticket) := by
    intro f
    rw [hfail, mem_append]
    cases result.isOk <;> simp
  refine
    { delivered := by rw [hout]; exact h.delivered
      admitted := by rw [hq]; exact h.admitted
      increasing := h.increasing
      admitted_lt := by rw [hn]; exact h.admitted_lt
      failed_lt := ?_
      index_eq := hi.trans h.index_eq
      ok_iff := ?_, failed_none := ?_, failed_min := ?_, running := ?_, finished := ?_
      flush_last := ?_, flush_alone := ?_, flushed := ?_ }
  · intro f hfm
    rw [hn]
    rcases (hnew f).mp hfm with hfm | ⟨-, rfl⟩
    · exact h.failed_lt f hfm
    · exact h.admitted_lt _ hadm
  · intro d hd
    rw [h.ok_iff d hd]
    refine ⟨fun hall f hfm => ?_, fun hall f hfm => hall f ((hnew f).mpr (Or.inl hfm))⟩
    rcases (hnew f).mp hfm with hfm | ⟨-, rfl⟩
    · exact hall f hfm
    · exact h.done_lt hl hs hd
  · rw [hf, hfail]
    by_cases hr : result.isOk = true
    · simp only [hr, if_true, append_nil]
      exact h.failed_none
    · simp [hr]
  · intro m hm
    rw [hf] at hm
    by_cases hr : result.isOk = true
    · rw [if_pos hr] at hm
      obtain ⟨m1, m2⟩ := h.failed_min m hm
      refine ⟨(hnew m).mpr (Or.inl m1), fun f hfm => ?_⟩
      rcases (hnew f).mp hfm with hfm | ⟨hr', -⟩
      · exact m2 f hfm
      · rw [hr] at hr'; cases hr'
    · rw [if_neg hr] at hm
      have hr' : result.isOk = false := by simpa using hr
      cases hx : p.failed_at with
      | none =>
        rw [hx] at hm
        cases hm
        refine ⟨(hnew _).mpr (Or.inr ⟨hr', rfl⟩), fun f hfm => ?_⟩
        rcases (hnew f).mp hfm with hfm | ⟨-, rfl⟩
        · rw [h.failed_none.mp hx] at hfm; cases hfm
        · exact Nat.le_refl _
      | some old =>
        rw [hx] at hm
        cases hm
        obtain ⟨m1, m2⟩ := h.failed_min old hx
        simp only [Option.elim_some]
        refine ⟨?_, fun f hfm => ?_⟩
        · rcases Nat.le_total old w.ticket with hle | hle
          · rw [Nat.min_eq_left hle]; exact (hnew _).mpr (Or.inl m1)
          · rw [Nat.min_eq_right hle]; exact (hnew _).mpr (Or.inr ⟨hr', rfl⟩)
        · rcases (hnew f).mp hfm with hfm | ⟨-, rfl⟩
          · exact Nat.le_trans (Nat.min_le_left _ _) (m2 f hfm)
          · exact Nat.min_le_right _ _
  · intro u v hu hcv hfm
    rcases hslot u _ hu with ⟨-, hv⟩ | ⟨hus, hu⟩
    · cases hv
      cases hcv
    · rcases (hnew _).mp hfm with hfm | ⟨-, he⟩
      · exact h.running u v hu hcv hfm
      · exact h.ticket_ne hl hu hs hus he
  · intro u v r b hu hcv
    rcases hslot u _ hu with ⟨-, hv⟩ | ⟨hus, hu⟩
    · cases hv
      cases hcv
      have hrun := h.running s w hs hc
      rw [hnew]
      cases hr : result.isOk <;> simp [hrun]
    · rw [h.finished u v r b hu hcv, hnew]
      have := h.ticket_ne hl hu hs hus
      simp [this]
  · intro u x b hu
    rw [hn, hout]
    rcases hslot u _ hu with ⟨-, hv⟩ | ⟨-, hu⟩
    · cases hv
    · exact h.flush_last u x b hu
  · intro u x hu
    rcases hslot u _ hu with ⟨-, hv⟩ | ⟨-, hu⟩
    · cases hv
    · have hwe := (h.flush_alone u x hu).1
      have := (hl.writes_iff s).mpr (kindAt_eq hs)
      rw [hwe] at this
      cases this
  · intro t ht
    rw [hout] at ht
    obtain ⟨f1, f2, f3⟩ := h.flushed t ht
    rw [hn, hq]
    refine ⟨f1, fun f hfm => ?_, f3⟩
    rcases (hnew f).mp hfm with hfm | ⟨-, rfl⟩
    · exact f2 f hfm
    · exact f3 _ hmem

end steps

/-! ## Every step keeps the order -/

theorem Does.ordered (d : Does p a p') (hl : Live p)
    (h : Ordered start p tr done) : ∃ done', Ordered start p' (tr.add a) done' := by
  cases d with
  | @launch _ _ _ _ _ hp hf => exact ⟨done, h.launch hl hp hf⟩
  | @flush _ _ _ _ _ _ _ hf => exact ⟨done, h.begin_flush hl hf rfl⟩
  | @read_empty _ _ _ _ s _ _ _ _ hf =>
    exact h.slot hl (s := s) rfl (by rintro _ ⟨⟩; exact .inr rfl) (by rw [kindAt_free hl hf]; simp)
      rfl
      rfl (Nat.le_succ _) rfl (by simp) rfl rfl rfl
  | @read_direct _ _ _ _ s _ _ _ _ _ hf | @read_verified _ _ _ _ s _ _ _ _ _ hf =>
    exact h.slot hl (s := s) rfl (by rintro _ ⟨⟩; exact .inl rfl) (by rw [kindAt_free hl hf]; simp)
      rfl
      rfl (Nat.le_succ _) rfl (by simp) rfl rfl rfl
  | @retire _ _ _ _ _ hw hs hc =>
    exact ⟨_, h.retire hl hw hs hc rfl rfl rfl rfl rfl⟩
  | @flush_failed s _ _ _ _ hs | @empty_read s _ _ _ _ hs =>
    exact h.slot hl (s := s) rfl nofun (by rw [kindAt_eq hs]; simp [Pending.kind]) rfl rfl
      (Nat.le_refl _) rfl (by simp) rfl rfl rfl
  | @flush_fence _ _ _ hw hs hx =>
    exact ⟨done, h.flush_ok hl hs hw (h.failed_none.mp hx) rfl rfl rfl rfl rfl (by simp) rfl rfl⟩
  | @submit_sync _ _ _ hw hs hx =>
    exact ⟨done, h.submit_sync hs hw hx rfl rfl rfl rfl rfl⟩
  | @write_done _ _ _ _ _ hq hk hs =>
    obtain ⟨q, hs', hcar⟩ := hl.carried _ (mem_of_getElem? hq) hk
    rw [hs] at hs'
    cases hs'
    exact ⟨done, h.write_done hl hs hcar.1 rfl rfl rfl rfl rfl⟩
  | @direct_done _ _ request _ _ _ _ hs | @verified_done _ _ request _ _ _ _ _ _ hs =>
    exact h.slot hl
      (s := request.token) rfl nofun (by rw [kindAt_eq hs]; simp [Pending.kind]) rfl rfl
      (Nat.le_refl _) rfl (by simp) rfl rfl rfl
  | @verified_more _ _ request _ _ _ _ _ hs =>
    exact h.slot hl (s := request.token) rfl (by rintro _ ⟨⟩; exact .inl rfl)
      (by rw [kindAt_eq hs]; simp [Pending.kind]) rfl rfl (Nat.le_refl _) rfl (by simp) rfl rfl rfl
  | @sync_done choice _ _ request _ _ hq hk hs =>
    obtain ⟨q, hs', hcar⟩ := hl.carried _ (mem_of_getElem? hq) hk
    rw [hs] at hs'
    cases hs'
    obtain ⟨rfl, -, -⟩ := hcar
    cases hr : transfer_result (choice.completion request) with
    | ok =>
      obtain ⟨hw, hx⟩ := h.flush_alone _ _ hs
      exact ⟨done, h.flush_ok hl hs hw hx rfl rfl rfl rfl rfl (by simp) rfl rfl⟩
    | error => exact ⟨done, h.sync_failed hl rfl hs rfl rfl rfl rfl rfl⟩
  | @control_submit | @control_done _ _ _ hq =>
    exact ⟨done, h.frame hl rfl rfl (Nat.le_refl _) rfl (fun s q _ hq => hq) (fun s w hw => hw)
      (Trace.add_read (by simp) rfl rfl rfl)⟩

end moat_engine.pipeline
