-- The versions of an engine, read in batches while writes go on. A cursor visits
-- the keys that were there when it was made, each of them once.
import Moat.EngineHistory
import Moat.PipelineVersions

namespace moat_engine.pipeline

open moat_common List

/-- What a visitor is called with: a key, its LSN, and the length unless the key is removed. -/
abbrev Visit := ChunkId × UInt64 × Option Nat

def Pipeline.key_count (p : Pipeline) : Nat := p.index.keys.length

/-- The calls of the visitor, in order. `none` is a slice or a lookup that panics. -/
def Pipeline.visit_batch (p : Pipeline) (start end_ : Nat) : Option (List Visit) :=
  if start ≤ end_ ∧ end_ ≤ p.index.keys.length then
    ((p.index.keys.drop start).take (end_ - start)).mapM (fun key =>
      (p.index.get key).map (fun location =>
        (key, location.lsn, if location.kind = .Data then some location.value_len else none)))
  else none

/-! ## Growing indexes -/

/-- The keys of `i` come first in `j`, and none of them has an older version there. -/
structure Index.Extends (i j : Index) : Prop where
  keys : i.keys <+: j.keys
  get : ∀ key l, i.get key = some l → ∃ l', j.get key = some l' ∧ l.lsn ≤ l'.lsn

theorem Index.Extends.refl (i : Index) : i.Extends i :=
  ⟨prefix_rfl, fun _ l hl => ⟨l, hl, UInt64.le_refl _⟩⟩

theorem Index.Extends.trans {i j k : Index} (h : i.Extends j) (g : j.Extends k) : i.Extends k := by
  refine ⟨h.keys.trans g.keys, fun key l hl => ?_⟩
  obtain ⟨l', hl', hle⟩ := h.get key l hl
  obtain ⟨l'', hl'', hle'⟩ := g.get key l' hl'
  exact ⟨l'', hl'', UInt64.le_trans hle hle'⟩

theorem apply_entry_extends (i : Index) (e : ChunkId × Location) : i.Extends (apply_entry i e) := by
  unfold apply_entry
  cases hg : i.get e.1 with
  | none =>
    refine ⟨prefix_append _ _, fun key l hl => ⟨l, ?_, UInt64.le_refl _⟩⟩
    rw [Index.get_insert, if_neg, hl]
    rintro rfl
    rw [hg] at hl
    cases hl
  | some old =>
    simp only
    split
    · rename_i hlt
      refine ⟨prefix_rfl, fun key l hl => ?_⟩
      rw [i.get_insert e i.keys]
      split
      · rename_i hk
        rw [hk, hg] at hl
        cases hl
        exact ⟨_, rfl, UInt64.le_of_lt hlt⟩
      · exact ⟨l, hl, UInt64.le_refl _⟩
    · exact .refl i

theorem Index.Grown.extends {i j : Index} (h : i.Grown j) : i.Extends j := by
  obtain ⟨es, rfl⟩ := h
  induction es generalizing i with
  | nil => exact .refl i
  | cons e _ ih => exact (apply_entry_extends i e).trans ih

/-- These visits are those keys in order, each with a version not older than in `i`. -/
def Index.Reports (i : Index) (keys : List ChunkId) (visits : List Visit) : Prop :=
  visits.map (·.1) = keys ∧ ∀ v ∈ visits, ∃ l, i.get v.1 = some l ∧ l.lsn ≤ v.2.1

theorem Index.Reports.append {i : Index} {ks ks' : List ChunkId} {vs vs' : List Visit}
    (h : i.Reports ks vs) (k : i.Reports ks' vs') : i.Reports (ks ++ ks') (vs ++ vs') := by
  refine ⟨by rw [map_append, h.1, k.1], fun v hv => ?_⟩
  exact (mem_append.mp hv).elim (h.2 v) (k.2 v)

theorem visit_batch_reports {i : Index} {p : Pipeline} {start end_ : Nat} (h : i.Extends p.index)
    (hm : ∀ key ∈ i.keys, (i.get key).isSome = true) (hs : start ≤ end_)
    (he : end_ ≤ i.keys.length) :
    ∃ visits, p.visit_batch start end_ = some visits ∧
      i.Reports ((i.keys.drop start).take (end_ - start)) visits := by
  obtain ⟨rest, hk⟩ := h.keys
  have hsame : (p.index.keys.drop start).take (end_ - start) =
      (i.keys.drop start).take (end_ - start) := by
    rw [← hk, drop_append_of_le_length (hs.trans he), take_append_of_le_length]
    rw [length_drop]
    omega
  have hlen : end_ ≤ p.index.keys.length := he.trans h.keys.length_le
  unfold Pipeline.visit_batch
  rw [if_pos ⟨hs, hlen⟩, hsame]
  have hin : ∀ key ∈ (i.keys.drop start).take (end_ - start), key ∈ i.keys :=
    fun key hkey => mem_of_mem_drop (mem_of_mem_take hkey)
  generalize (i.keys.drop start).take (end_ - start) = keys at hin
  induction keys with
  | nil => exact ⟨[], rfl, rfl, fun v hv => absurd hv not_mem_nil⟩
  | cons key _ ih =>
    obtain ⟨l, hl⟩ := Option.isSome_iff_exists.mp (hm key (hin key mem_cons_self))
    obtain ⟨l', hl', hle⟩ := h.get key l hl
    obtain ⟨visits, hv, hr⟩ := ih (fun k hk => hin k (mem_cons_of_mem key hk))
    have hone : i.Reports [key]
        [(key, l'.lsn, if l'.kind = .Data then some l'.value_len else none)] := by
      refine ⟨rfl, fun v hv => ?_⟩
      rw [mem_singleton.mp hv]
      exact ⟨l, hl, hle⟩
    refine ⟨_, ?_, hone.append hr⟩
    rw [mapM_cons, hl', hv]
    rfl

end moat_engine.pipeline

namespace moat_engine.engine

open byte_list moat_common
open moat_engine.io (Queue Script)
open moat_engine.pipeline (Index Pipeline Visit)

/-- A place in the keys of the engine `owner`, and the end of the traversal. -/
structure VersionCursor where
  owner : Nat
  next : Nat
  end_ : Nat

/-- `identity` is the number of this engine; it stays the same as long as the engine lives. -/
def Engine.version_cursor (e : Engine) (identity : Nat) : Except Error VersionCursor :=
  match e.check_readable with
  | .error err => .error err
  | .ok () => .ok ⟨identity, 0, e.pipeline.key_count⟩

/-- The cursor afterwards, the visits, and whether the end is reached; `none` is a panic. The sum is
not saturated here: the end is below the greatest `usize`. -/
def Engine.visit_versions_batch (e : Engine) (identity : Nat) (cursor : VersionCursor)
    (limit : Nat) : Except Error (Option (VersionCursor × List Visit × Bool)) :=
  match e.check_readable with
  | .error err => .error err
  | .ok () =>
    if cursor.owner ≠ identity ∨ limit = 0 then
      .error (.InvalidArgument "invalid version cursor or batch limit")
    else
      let end_ := min (cursor.next + limit) cursor.end_
      .ok ((e.pipeline.visit_batch cursor.next end_).map (fun visits =>
        ({ cursor with next := end_ }, visits, decide (end_ = cursor.end_))))

/-! ## Traversals -/

/-- The batches of a cursor, each after some calls of the owner, with the end flag of each. -/
def History.traverse (identity : Nat) (h : History) (cursor : VersionCursor) :
    List (List Call × Nat) → Except Error (Option (List (List Visit × Bool)))
  | [] => .ok (some [])
  | (calls, limit) :: rounds =>
    let h := h.run calls
    match h.now.visit_versions_batch identity cursor limit with
    | .error err => .error err
    | .ok none => .ok none
    | .ok (some (cursor, visits, last)) =>
      (History.traverse identity h cursor rounds).map (·.map ((visits, last) :: ·))

/-- The key list has every indexed key, once. -/
def Engine.Keyed (e : Engine) : Prop :=
  e.pipeline.index.keys.Nodup ∧
    ∀ key, key ∈ e.pipeline.index.keys ↔ (e.pipeline.index.get key).isSome = true

theorem traverse_reports {i j : Index} (hm : ∀ key ∈ i.keys, (i.get key).isSome = true)
    (identity : Nat) (rounds : List (List Call × Nat)) {h : History} {next : Nat} (hk : h.Kept j)
    (hg : i.Extends h.now.pipeline.index) (hn : next ≤ i.keys.length) (hl : ∀ r ∈ rounds, 0 < r.2)
    (hr : ∀ k < rounds.length,
      (h.run ((rounds.take (k + 1)).flatMap (·.1))).now.check_readable = .ok ()) :
    ∃ out, h.traverse identity ⟨identity, next, i.keys.length⟩ rounds = .ok (some out) ∧
      out.length = rounds.length ∧
      i.Reports ((i.keys.drop next).take (rounds.map (·.2)).sum) (out.flatMap (·.1)) ∧
      ∀ k < rounds.length, (out.map (·.2))[k]? =
        some (decide (i.keys.length ≤ next + ((rounds.take (k + 1)).map (·.2)).sum)) := by
  induction rounds generalizing h next with
  | nil => exact ⟨[], rfl, rfl, ⟨rfl, by simp⟩, by simp⟩
  | cons round rounds ih =>
    obtain ⟨calls, limit⟩ := round
    have hg' := hg.trans (({ hk with grown := .refl _ } : h.Kept _).run calls).grown.extends
    have hread : (h.run calls).now.check_readable = .ok () := by simpa using hr 0 (by simp)
    have hpos : 0 < limit := hl (calls, limit) List.mem_cons_self
    obtain ⟨visits, hv, hrep⟩ := pipeline.visit_batch_reports hg' hm
      (show next ≤ min (next + limit) i.keys.length by omega) (Nat.min_le_right ..)
    obtain ⟨out, ho, hlen, hout, hflag⟩ := ih (hk.run calls) hg' (Nat.min_le_right (next + limit) _)
      (fun r hr => hl r (List.mem_cons_of_mem _ hr)) (fun k hk => by
        have := hr (k + 1) (by simpa using hk)
        rwa [List.take_succ_cons, List.flatMap_cons, History.run, List.foldl_append] at this)
    refine ⟨(visits, decide (min (next + limit) i.keys.length = i.keys.length)) :: out, ?_,
      by simp [hlen], ?_, ?_⟩
    · unfold History.traverse Engine.visit_versions_batch
      simp only [hread, hv]
      rw [if_neg (by simp; omega)]
      simp only [Option.map_some, ho]
      rfl
    · have hkeys : (i.keys.drop next).take ((calls, limit) :: rounds |>.map (·.2)).sum =
          (i.keys.drop next).take (min (next + limit) i.keys.length - next) ++
            (i.keys.drop (min (next + limit) i.keys.length)).take (rounds.map (·.2)).sum := by
        rw [List.map_cons, List.sum_cons]
        rcases Nat.le_total (next + limit) i.keys.length with hle | hle
        · rw [Nat.min_eq_left hle, List.take_add, List.drop_drop, Nat.add_sub_cancel_left]
        · have hall : (i.keys.drop next).length = i.keys.length - next := List.length_drop
          rw [Nat.min_eq_right hle, List.drop_length, List.take_nil, List.append_nil,
            List.take_of_length_le (by simp only; omega), List.take_of_length_le hall.le]
      rw [hkeys, List.flatMap_cons]
      exact hrep.append hout
    · rintro (_ | k) hk
      · simp
      · have := hflag k (by simpa using hk)
        rw [List.map_cons, List.getElem?_cons_succ, this, List.take_succ_cons, List.map_cons,
          List.sum_cons]
        congr 1
        rw [decide_eq_decide]
        omega

/-- In every run the keys of an engine are listed once each. From there on, whatever is published
between the batches of a cursor: no batch is refused or panics while the engine is open; in turn
they visit the keys that were there at the start, as many as the limits allow, none twice and no
other, each with a version at least as new as then. A batch reports the end just when its limit
reaches it, which with limits of at least `m` is the `n / m`-th batch, rounded up, or an earlier
one. -/
theorem a_cursor_visits_each_key_once (capacity : Nat) (queue : Queue) (options : Options)
    (identity : Nat) :
    (∀ start, History.start capacity queue options = .ok start →
      ∀ calls, (start.run calls).now.Keyed) ∧
    ∀ start, History.start capacity queue options = .ok start → ∀ calls h, start.run calls = h →
      ∀ index, h.now.pipeline.index = index →
      ∀ cursor, h.now.version_cursor identity = .ok cursor →
      ∀ rounds : List (List Call × Nat), (∀ r ∈ rounds, 0 < r.2) →
      (∀ k < rounds.length,
        (h.run ((rounds.take (k + 1)).flatMap (·.1))).now.check_readable = .ok ()) →
      ∃ out, h.traverse identity cursor rounds = .ok (some out) ∧ out.length = rounds.length ∧
        index.Reports (index.keys.take (rounds.map (·.2)).sum) (out.flatMap (·.1)) ∧
        ∀ k < rounds.length, ∃ last, (out.map (·.2))[k]? = some last ∧
          (last = true ↔ index.keys.length ≤ ((rounds.take (k + 1)).map (·.2)).sum) ∧
          ∀ m > 0, (∀ r ∈ rounds, m ≤ r.2) → (index.keys.length + m - 1) / m ≤ k + 1 →
            last = true := by
  have keyed : ∀ start, History.start capacity queue options = .ok start →
      ∀ calls, (start.run calls).now.Keyed := by
    intro start hs calls
    obtain ⟨es, he⟩ := ((start_kept hs).run calls).grown
    have hf := pipeline.Index.folds_empty.apply es
    rw [← he] at hf
    exact ⟨hf.keys_nodup, hf.mem_keys⟩
  refine ⟨keyed, ?_⟩
  · rintro start hs calls _ rfl _ rfl cursor hc rounds hl hr
    unfold Engine.version_cursor at hc
    split at hc <;> cases hc
    obtain ⟨out, ho, hlen, hrep, hflag⟩ := traverse_reports
      (fun key => ((keyed start hs calls).2 key).mp) identity rounds ((start_kept hs).run calls)
      (.refl _)
      (Nat.zero_le _) hl hr
    refine ⟨out, ho, hlen, hrep, fun k hk => ⟨_, hflag k hk, by simp, fun m hm hle hceil => ?_⟩⟩
    have hsum := List.card_nsmul_le_sum ((rounds.take (k + 1)).map (·.2)) m (by
      intro x hx
      obtain ⟨r, hr, rfl⟩ := List.mem_map.mp hx
      exact hle r (List.mem_of_mem_take hr))
    rw [List.length_map, List.length_take, Nat.min_eq_left (show k + 1 ≤ _ from hk), nsmul_eq_mul,
      Nat.cast_id, Nat.mul_comm] at hsum
    have hmul := (Nat.div_le_iff_le_mul_add_pred hm).mp hceil
    rw [decide_eq_true_iff, Nat.zero_add]
    omega

/-- One key, which a batch of one visits, and which ends the traversal. -/
theorem one_key_is_visited_once :
    ∃ l start, Layout.new 28672 fivePages 1 (by decide) = .ok l ∧
      History.start 28672 (Queue.empty 1) defaultOptions = .ok start ∧
      let h := start.run (writeCalls l.encode ++ [answer 4096])
      ∃ cursor out, h.now.version_cursor 0 = .ok cursor ∧
        h.traverse 0 cursor [([], 1)] = .ok (some out) ∧
        (out.flatMap (·.1)).map (·.1) = [.from_bytes []] ∧ (out.map (·.2))[0]? = some true := by
  obtain ⟨l, start, hl, hs, -, -, -, -, -, -, -, -, hread, hkeys⟩ := oneSlot_run
  refine ⟨l, start, hl, hs, ?_⟩
  have hvisits := (a_cursor_visits_each_key_once 28672 (Queue.empty 1) defaultOptions 0).2 start hs
    (writeCalls l.encode ++ [answer 4096]) _ rfl _ rfl
  generalize start.run (writeCalls l.encode ++ [answer 4096]) = h at *
  simp only at hread hkeys ⊢
  obtain ⟨u, hu⟩ := exists_of_isOk hread
  obtain ⟨cursor, hc⟩ : ∃ cursor, h.now.version_cursor 0 = .ok cursor := by
    rw [Engine.version_cursor, hu]
    exact ⟨_, rfl⟩
  obtain ⟨out, hout, -, ⟨hrep, -⟩, hflag⟩ := hvisits cursor hc [([], 1)] (by simp) (by
    intro k hk
    obtain rfl : k = 0 := by simpa using hk
    exact hu)
  obtain ⟨last, hlast, hend, -⟩ := hflag 0 (by simp)
  rw [hkeys] at hrep hend
  refine ⟨cursor, out, hc, hout, hrep, ?_⟩
  rw [hlast, hend.mpr (by simp)]

end moat_engine.engine
