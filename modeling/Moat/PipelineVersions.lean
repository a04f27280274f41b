-- The index is the newest version of every key, however the versions came in:
-- by publication or by recovery, and in whatever order.
import Moat.FrameWrite
import Moat.Latest
import Moat.PipelineSegment

namespace moat_engine.pipeline

open byte_list moat_common latest List
open moat_engine.frame (FrameBuilder FrameLimits Metadata RecordKind)
open moat_engine.io (Operation Queue Request Script)
open moat_engine.segment (SegmentBuilder SegmentHeader)

def Location.rank (l : Location) : Nat := l.lsn.toNat

/-! ## Merging -/

/-- The index holds the newest of these records for each key, and lists each key once. -/
structure Index.Folds (index : Index) (es : List (ChunkId × Location)) : Prop where
  newest : ∀ key l, index.get key = some l → IsLatest Location.rank es key l
  missing : ∀ key, index.get key = none → ∀ l, (key, l) ∉ es
  keys_nodup : index.keys.Nodup
  mem_keys : ∀ key, key ∈ index.keys ↔ (index.get key).isSome = true

theorem Index.folds_empty : Index.empty.Folds [] :=
  ⟨fun key l h => (by cases h), fun key _ l => not_mem_nil, nodup_nil,
    fun key => by simp [Index.empty, Index.get]⟩

theorem Index.get_insert (index : Index) (e : ChunkId × Location) (keys : List ChunkId)
    (key : ChunkId) :
    Index.get ⟨index.locations.insert e.1 e.2, keys⟩ key =
      if key = e.1 then some e.2 else index.get key := by
  unfold Index.get
  by_cases hk : key = e.1
  · rw [if_pos hk, hk]
    exact AList.lookup_insert _
  · rw [if_neg hk]
    exact AList.lookup_insert_ne hk

variable {es : List (ChunkId × Location)} {p p' : Pipeline} {buffer : Bytes} {ticket : Nat}

theorem Index.Folds.apply_entry {index : Index}
    (h : index.Folds es) (e : ChunkId × Location) : (apply_entry index e).Folds (es ++ [e]) := by
  obtain ⟨k, l⟩ := e
  unfold pipeline.apply_entry
  cases hg : index.get k with
  | none =>
    have hnew : k ∉ index.keys := by
      rw [h.mem_keys, hg]
      exact Bool.false_ne_true
    have hget := index.get_insert (k, l) (index.keys ++ [k])
    refine ⟨fun key x hx => ?_, fun key hx x hm => ?_, ?_, fun key => ?_⟩
    · rw [hget] at hx
      split at hx
      · rename_i hk
        cases hx
        rw [hk]
        exact .first (h.missing k hg)
      · rename_i hk
        exact (h.newest key x hx).other (Ne.symm hk)
    · rw [hget] at hx
      split at hx
      · cases hx
      · rename_i hk
        exact h.missing key hx x (mem_of_mem_concat (Ne.symm hk) hm)
    · rw [nodup_append]
      refine ⟨h.keys_nodup, nodup_singleton k, fun a ha b hb hab => ?_⟩
      rw [mem_singleton] at hb
      rw [hab, hb] at ha
      exact hnew ha
    · rw [hget, mem_append, h.mem_keys, mem_singleton]
      by_cases hk : key = k
      · simp [hk]
      · simp [hk]
  | some old =>
    have hold := h.newest k old hg
    simp only
    split
    · rename_i hlt
      have hget := index.get_insert (k, l) index.keys
      refine ⟨fun key x hx => ?_, fun key hx x hm => ?_, h.keys_nodup, fun key => ?_⟩
      · rw [hget] at hx
        split at hx
        · rename_i hk
          cases hx
          rw [hk]
          exact hold.newer (Nat.le_of_lt (UInt64.lt_iff_toNat_lt.mp hlt))
        · rename_i hk
          exact (h.newest key x hx).other (Ne.symm hk)
      · rw [hget] at hx
        split at hx
        · cases hx
        · rename_i hk
          exact h.missing key hx x (mem_of_mem_concat (Ne.symm hk) hm)
      · rw [hget, h.mem_keys]
        by_cases hk : key = k
        · simp [hk, hg]
        · simp [hk]
    · rename_i hge
      refine ⟨fun key x hx => ?_, fun key hx x hm => ?_, h.keys_nodup, h.mem_keys⟩
      · by_cases hk : key = k
        · rw [hk] at hx ⊢
          rw [hg] at hx
          cases hx
          exact hold.older (Nat.le_of_not_lt (fun hlt => hge (UInt64.lt_iff_toNat_lt.mpr hlt)))
        · exact (h.newest key x hx).other (Ne.symm hk)
      · have hk : k ≠ key := fun hk => by
          rw [← hk, hg] at hx
          cases hx
        exact h.missing key hx x (mem_of_mem_concat hk hm)

theorem Index.Folds.apply {index : Index} (h : index.Folds es)
    (batch : List (ChunkId × Location)) : (apply index batch).Folds (es ++ batch) := by
  induction batch generalizing index es with
  | nil =>
    rw [append_nil]
    exact h
  | cons e _ ih =>
    have := ih (h.apply_entry e)
    rw [append_assoc] at this
    exact this

/-- The records decide, not their order. -/
theorem Index.Folds.get_eq {a b : Index} {es' : List (ChunkId × Location)} (ha : a.Folds es)
    (hb : b.Folds es') (hm : ∀ e, e ∈ es' ↔ e ∈ es) (hd : Distinct Location.rank es)
    (key : ChunkId) : b.get key = a.get key := by
  cases hga : a.get key with
  | none =>
    cases hgb : b.get key with
    | none => rfl
    | some l => exact absurd ((hm _).mp (hb.newest key l hgb).1) (ha.missing key hga l)
  | some l =>
    cases hgb : b.get key with
    | none => exact absurd ((hm _).mpr (ha.newest key l hga).1) (hb.missing key hgb l)
    | some l' =>
      have hl := (hb.newest key l' hgb).congr (fun e => (hm e).symm)
      rw [(ha.newest key l hga).unique hd hl]

/-! ## Whole lives -/

/-- The pipelines that come about: a new one, after any calls of its owner and of the engine, and
against any device. -/
inductive Life : Pipeline → Prop
  | empty {queue : Queue} {limits : FrameLimits} {p : Pipeline}
      (h : Pipeline.empty queue limits = .ok p) : Life p
  | read_only {queue : Queue} {header : SegmentHeader} {limits : FrameLimits} {base : Nat}
      {p : Pipeline} (h : Pipeline.read_only queue header limits base = .ok p) : Life p
  | new {queue : Queue} {header : SegmentHeader} {limits : FrameLimits} {base : Nat} {p : Pipeline}
      (h : Pipeline.new queue header limits base = .ok p) : Life p
  | configure {p p' : Pipeline} {resources : ResourceLimits} {budget : PollBudget} (hp : Life p)
      (h : p.configure resources budget = .ok p') : Life p'
  | set_limits {p : Pipeline} (hp : Life p) (limits : FrameLimits) : Life { p with limits }
  | set_sync_enabled {p : Pipeline} (hp : Life p) (sync_enabled : Bool) :
    Life { p with sync_enabled }
  | maintenance {p : Pipeline} (hp : Life p) (maintenance : Bool) : Life { p with maintenance }
  | draw_ticket {p p' : Pipeline} {ticket : Nat} (hp : Life p)
      (h : p.draw_ticket = .ok (ticket, p')) : Life p'
  | restore {p p' : Pipeline} {metadata : Metadata} (hp : Life p)
      (h : p.restore metadata = .ok p') : Life p'
  | attach {p p' : Pipeline} {header : SegmentHeader} {base : Nat} {writable : Bool} (hp : Life p)
      (h : p.attach header base writable = .ok p') : Life p'
  | take_segment {p p' : Pipeline} {segment : Option SegmentBuilder} (hp : Life p)
      (h : p.take_segment = .ok (segment, p')) : Life p'
  | write {p p' : Pipeline} {frame : FrameBuilder} {buffer : Bytes} {ticket : Nat} (hp : Life p)
      (h : p.write frame buffer = .ok (ticket, p')) : Life p'
  | write_prepared {p p' : Pipeline} {key : ChunkId} {lsn : UInt64} {value_len : Nat}
      {buffer : Bytes} {ticket : Nat} (hp : Life p)
      (h : p.write_prepared key lsn value_len buffer = .ok (ticket, p')) : Life p'
  | read {p p' : Pipeline} {key : ChunkId} {range : Range} {verify : Bool} {buffers : ReadBuffers}
      {ticket : Nat} (hp : Life p) (h : p.read key range verify buffers = .ok (ticket, p')) :
      Life p'
  | flush {p p' : Pipeline} {ticket : Nat} (hp : Life p) (h : p.flush = .ok (ticket, p')) : Life p'
  | control_io {p p' : Pipeline} {operation : Operation} {offset len : Nat} {buffer : Option Bytes}
      (hp : Life p) (h : p.control_io operation offset len buffer = .ok p') : Life p'
  | take_control {p : Pipeline} (hp : Life p) : Life { p with control_done := none }
  | poll {p : Pipeline} (hp : Life p) (script : Script) : Life (p.poll script).pipe

/-- The index is the merge of the batches that were applied, oldest first. -/
def Pipeline.Merged (p : Pipeline) : Prop := p.index = apply .empty p.applied.flatten

theorem Pipeline.Merged.add (h : p.Merged) (hm : Merges p p') : p'.Merged := by
  obtain ⟨batches, hi, ha⟩ := hm
  unfold Pipeline.Merged
  rw [hi, ha, flatten_append, apply_append, ← h]

theorem Pipeline.Merged.same (h : p.Merged) (hi : p'.index = p.index)
    (ha : p'.applied = p.applied) : p'.Merged :=
  h.add (.same hi ha)

theorem submit_frame_merges {encode : Encode}
    (h : p.submit_frame buffer encode = .ok (ticket, p')) : Merges p p' := by
  unfold Pipeline.submit_frame at h
  split at h
  · cases h
  rename_i f hf
  cases h
  have h0 : Merges p { p with
      segment := some f.segment
      pending_entries := p.pending_entries + f.write.entries.length
      pending_new := p.pending_new + f.write.reserved_new } := .same rfl rfl
  refine h0.trans (Turns.submit ((take_slot_turns _ (.Write f.write)).trans ?_) _ _ _ _ _).merges
  exact .same ⟨rfl, rfl, rfl⟩ rfl rfl

theorem write_merges {frame : FrameBuilder}
    (h : p.write frame buffer = .ok (ticket, p')) : Merges p p' := by
  unfold Pipeline.write at h
  split at h
  · cases h
  · exact submit_frame_merges h

theorem write_prepared_merges {key : ChunkId} {lsn : UInt64} {value_len : Nat}
    (h : p.write_prepared key lsn value_len buffer = .ok (ticket, p')) :
    Merges p p' := by
  unfold Pipeline.write_prepared at h
  split at h
  · cases h
  split at h
  · cases h
  · exact submit_frame_merges h

theorem restore_merges {metadata : Metadata} (h : p.restore metadata = .ok p') : Merges p p' := by
  unfold Pipeline.restore at h
  split at h
  · cases h
  split at h
  · cases h
  · cases h
  split at h
  · cases h
  split at h
  · cases h
  split at h
  · cases h
  cases h
  exact ⟨[_], by rw [flatten_singleton], rfl⟩

theorem empty_merged {queue : Queue} {limits : FrameLimits}
    (h : Pipeline.empty queue limits = .ok p) : p.Merged := by
  unfold Pipeline.empty at h
  split at h <;> cases h
  rfl

theorem read_only_merged {queue : Queue} {header : SegmentHeader} {limits : FrameLimits}
    {base : Nat} (h : Pipeline.read_only queue header limits base = .ok p) : p.Merged := by
  unfold Pipeline.read_only at h
  split at h
  · cases h
  split at h
  · cases h
  · rename_i hp
    cases h
    exact (empty_merged hp).same rfl rfl

theorem Life.merged (h : Life p) : p.Merged := by
  induction h with
  | empty h => exact empty_merged h
  | read_only h => exact read_only_merged h
  | new h =>
    unfold Pipeline.new at h
    split at h
    · cases h
    split at h
    · cases h
    · rename_i hp
      cases h
      exact (read_only_merged hp).same rfl rfl
  | configure _ h ih =>
    unfold Pipeline.configure at h
    split at h
    · cases h
    split at h <;> cases h
    exact ih.same rfl rfl
  | set_limits _ _ ih | set_sync_enabled _ _ ih | maintenance _ _ ih | take_control _ ih =>
    exact ih.same rfl rfl
  | draw_ticket _ h ih =>
    unfold Pipeline.draw_ticket at h
    split at h <;> cases h
    exact ih.same rfl rfl
  | restore _ h ih => exact ih.add (restore_merges h)
  | attach _ h ih =>
    unfold Pipeline.attach at h
    split at h
    · cases h
    simp only at h
    split at h <;> cases h
    exact ih.same rfl rfl
  | take_segment _ h ih =>
    unfold Pipeline.take_segment at h
    split at h
    · cases h
    split at h
    · cases h
    split at h <;> cases h
    exact ih.same rfl rfl
  | write _ h ih => exact ih.add (write_merges h)
  | write_prepared _ h ih => exact ih.add (write_prepared_merges h)
  | read _ h ih => exact ih.add (read_turns h).merges
  | flush _ h ih => exact ih.add (flush_turns h).merges
  | control_io _ h ih =>
    unfold Pipeline.control_io at h
    split at h
    · cases h
    split at h <;> cases h
    exact ih.same rfl rfl
  | poll _ script ih => exact ih.add (poll_turns _ script).merges

/-- Whatever became of a pipeline, and in whatever order batches of records came to it, by recovery
or by publication: its index has for every key the record with the greatest LSN, its list of keys
has every indexed key once, and another pipeline with the same records has the same index. -/
theorem index_is_the_newest_of_every_key {p : Pipeline} (hp : Life p)
    (hd : Distinct Location.rank p.applied.flatten) :
    (∀ key l, p.index.get key = some l ↔ (key, l) ∈ p.applied.flatten ∧
      ∀ l', (key, l') ∈ p.applied.flatten → l'.lsn ≤ l.lsn) ∧
    p.index.keys.Nodup ∧ (∀ key, key ∈ p.index.keys ↔ (p.index.get key).isSome = true) ∧
    ∀ p', Life p' → p'.applied.flatten.Perm p.applied.flatten →
      ∀ key, p'.index.get key = p.index.get key := by
  have hf : ∀ {q : Pipeline}, Life q → q.index.Folds q.applied.flatten := fun {q} hq => by
    have := Index.folds_empty.apply q.applied.flatten
    rw [nil_append] at this
    rw [hq.merged]
    exact this
  have h := hf hp
  refine ⟨fun key l => ⟨fun hl => ?_, fun ⟨hm, hmax⟩ => ?_⟩, h.keys_nodup, h.mem_keys,
    fun p' hp' hperm key => h.get_eq (hf hp') (fun e => hperm.mem_iff) hd key⟩
  · obtain ⟨hm, hmax⟩ := h.newest key l hl
    exact ⟨hm, fun l' hl' => UInt64.le_iff_toNat_le.mpr (hmax l' hl')⟩
  · cases hg : p.index.get key with
    | none => exact absurd hm (h.missing key hg l)
    | some l' =>
      have hlatest : IsLatest Location.rank p.applied.flatten key l :=
        ⟨hm, fun w hw => UInt64.le_iff_toNat_le.mp (hmax w hw)⟩
      rw [(h.newest key l' hg).unique hd hlatest]

/-- A pipeline that recovers frames in some order. -/
def recovered (ms : List Metadata) : Except Error Pipeline :=
  (Pipeline.read_only (Queue.empty 2) segment.fourPages frame.onePage 8192).bind
    (ms.foldlM Pipeline.restore)

theorem recovered_life {ms : List Metadata} (h : recovered ms = .ok p) : Life p := by
  unfold recovered at h
  cases hq : Pipeline.read_only (Queue.empty 2) segment.fourPages frame.onePage 8192 with
  | error e => rw [hq] at h; cases h
  | ok q =>
    rw [hq] at h
    have hlife : Life q := .read_only hq
    clear hq
    induction ms generalizing q with
    | nil => cases h; exact hlife
    | cons m ms ih =>
      cases hm : q.restore m with
      | error e => simp [Except.bind, foldlM_cons, hm, bind] at h
      | ok q' =>
        refine ih q' ?_ (.restore hlife hm)
        simpa [Except.bind, foldlM_cons, hm, bind] using h

/-- The newer tombstone stays in the index when the older one comes after it, and when it comes
first. -/
theorem an_older_tombstone_changes_nothing :
    ∃ p p', Life p ∧ Life p' ∧ p.applied.flatten.map (·.2.lsn) = [2, 1] ∧
      p'.applied.flatten.map (·.2.lsn) = [1, 2] ∧
      ((p.index.get (Id16.from_bytes [7])).map (·.lsn)) = some 2 ∧
      p'.index.get (Id16.from_bytes [7]) = p.index.get (Id16.from_bytes [7]) := by
  obtain ⟨p, hp, hlsn, hkey⟩ : ∃ p, recovered frame.twoFrames = .ok p ∧
      p.applied.flatten.map (·.2.lsn) = [2, 1] ∧
      ∀ e ∈ p.applied.flatten, e.1 = Id16.from_bytes [7] := by
    apply exists_of_any
    decide +kernel
  obtain ⟨p', hp', hrev⟩ : ∃ p', recovered frame.twoFrames.reverse = .ok p' ∧
      (recovered frame.twoFrames).toOption.map (·.applied.flatten) =
        some p'.applied.flatten.reverse := by
    apply exists_of_any
    decide +kernel
  rw [hp] at hrev
  have hrev : p.applied.flatten = p'.applied.flatten.reverse := Option.some.inj hrev
  have hd : Distinct Location.rank p.applied.flatten := by
    intro key v w hv hw hr
    have hinj := inj_on_of_nodup_map
      (show (p.applied.flatten.map (·.2.lsn)).Nodup by rw [hlsn]; decide)
      hv hw (UInt64.toNat_inj.mp hr)
    exact (Prod.mk.inj hinj).2
  obtain ⟨hnewest, -, -, hsame⟩ := index_is_the_newest_of_every_key (recovered_life hp) hd
  obtain ⟨⟨key, l⟩, hl, h2⟩ : ∃ e ∈ p.applied.flatten, e.2.lsn = 2 :=
    mem_map.mp (hlsn ▸ mem_cons_self)
  obtain rfl : key = Id16.from_bytes [7] := hkey _ hl
  have hget := (hnewest _ l).mpr ⟨hl, fun l' hl' => ?_⟩
  · refine ⟨p, p', recovered_life hp, recovered_life hp', hlsn, ?_, by rw [hget, ← h2]; rfl,
      hsame p' (recovered_life hp') (by rw [hrev]; exact (reverse_perm _).symm) _⟩
    rw [← reverse_reverse p'.applied.flatten, ← hrev, map_reverse, hlsn]
    rfl
  · have hle : l'.lsn ∈ [2, 1] := hlsn ▸ mem_map_of_mem hl'
    rw [h2]
    revert hle
    generalize l'.lsn = n
    simp only [mem_cons, not_mem_nil, or_false]
    rintro (rfl | rfl) <;> decide

end moat_engine.pipeline
