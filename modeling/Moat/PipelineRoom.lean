-- Room in the index: what a reservation of keys is worth, and that the keys of
-- all pending writes fit beside those of the index. Keys never leave the index.
import Moat.FrameAccept
import Moat.PipelineLive

namespace moat_engine.pipeline

open moat_common List

/-! ## Keys -/

def Index.keySet (index : Index) : Finset ChunkId := index.locations.keys.toFinset

def keysOf (es : List (ChunkId × Location)) : Finset ChunkId := (es.map Prod.fst).toFinset

variable {index : Index} {es : List (ChunkId × Location)} {p p' : Pipeline} {w : Write}

theorem Index.len_eq (index : Index) : index.len = index.keySet.card := by
  rw [Index.keySet, toFinset_card_of_nodup index.locations.keys_nodup]
  exact (length_map _).symm

theorem Index.mem_keySet {key : ChunkId} : key ∈ index.keySet ↔ (index.get key).isSome = true := by
  rw [Index.keySet, mem_toFinset]
  exact AList.lookup_isSome.symm

theorem keysOf_cons (e : ChunkId × Location) (es : List (ChunkId × Location)) :
    keysOf (e :: es) = insert e.1 (keysOf es) := by
  simp [keysOf]

theorem keySet_apply_entry (index : Index) (e : ChunkId × Location) :
    (apply_entry index e).keySet = insert e.1 index.keySet := by
  have hinsert : ∀ keys, Index.keySet ⟨index.locations.insert e.1 e.2, keys⟩ =
      insert e.1 index.keySet := by
    intro keys
    ext key
    simp only [Index.keySet, mem_toFinset, Finset.mem_insert]
    exact AList.mem_insert index.locations
  unfold apply_entry
  split
  · rename_i old hg
    split
    · exact hinsert _
    · rw [Finset.insert_eq_of_mem (Index.mem_keySet.mpr (by rw [hg]; rfl))]
  · exact hinsert _

/-- The merge adds the keys of the entries. -/
theorem keySet_apply (index : Index) (es : List (ChunkId × Location)) :
    (apply index es).keySet = index.keySet ∪ keysOf es := by
  induction es generalizing index with
  | nil => exact (Finset.union_empty _).symm
  | cons e es ih =>
    show (apply (apply_entry index e) es).keySet = _
    rw [ih, keySet_apply_entry, keysOf_cons, Finset.insert_union, Finset.union_insert]

/-- The keys of the index and of the entries, counted together. -/
theorem card_union (index : Index) (es : List (ChunkId × Location)) :
    (index.keySet ∪ keysOf es).card = index.len + (keysOf es \ index.keySet).card := by
  rw [index.len_eq, Finset.union_comm, ← Finset.card_sdiff_add_card, Nat.add_comm]

theorem card_missing_le (index : Index) (es : List (ChunkId × Location)) :
    (keysOf es \ index.keySet).card ≤ es.length := by
  refine (Finset.card_le_card Finset.sdiff_subset).trans ?_
  exact (toFinset_card_le _).trans (length_map _).le

/-! ## Reservations -/

theorem count_unique_spec (index : Index) (limit : Nat) (es : List (ChunkId × Location))
    {unique : List ChunkId} (hn : unique.Nodup) :
    match count_unique index limit es unique with
    | .ok u => u.length = (unique.toFinset ∪ (keysOf es \ index.keySet)).card
    | .error e => e = .ResourceLimit "index entries" ∧
        limit < (unique.toFinset ∪ (keysOf es \ index.keySet)).card := by
  induction es generalizing unique with
  | nil => simp [count_unique, keysOf, toFinset_card_of_nodup hn]
  | cons e _ ih =>
    obtain ⟨key, l⟩ := e
    rw [keysOf_cons]
    unfold count_unique
    by_cases hg : (index.get key).isSome = true
    · rw [if_pos hg, Finset.insert_sdiff_of_mem _ (Index.mem_keySet.mpr hg)]
      exact ih hn
    rw [if_neg hg, Finset.insert_sdiff_of_notMem _ (fun hk => hg (Index.mem_keySet.mp hk)),
      Finset.union_insert, ← Finset.insert_union]
    by_cases hfull : unique.length = limit ∧ key ∉ unique
    · rw [if_pos hfull]
      have hk : key ∉ unique.toFinset := by simpa using hfull.2
      have hcard := Finset.card_insert_of_notMem hk
      rw [toFinset_card_of_nodup hn, hfull.1] at hcard
      exact ⟨rfl, hcard.ge.trans (Finset.card_le_card Finset.subset_union_left)⟩
    · rw [if_neg hfull,
        show insert key unique.toFinset = (unique.insert key).toFinset by ext; simp]
      exact ih hn.insert

/-- What a reservation answers: the keys can never fit, they may fit when what is pending has
landed, or they fit now, however much lands before them. -/
theorem reserve_entries_cases (p : Pipeline) (es : List (ChunkId × Location)) :
    (∃ m, p.reserve_entries es = .error (.ResourceLimit m) ∧
      (p.resources.index_entries < (p.index.keySet ∪ keysOf es).card ∨
        2 ^ 64 ≤ p.pending_new + es.length)) ∨
    ((p.index.keySet ∪ keysOf es).card ≤ p.resources.index_entries ∧
      (p.reserve_entries es = .error .Backpressure ∧ 0 < p.pending_new ∨
      ∃ n, p.reserve_entries es = .ok n ∧ n ≤ es.length ∧ (keysOf es \ p.index.keySet).card ≤ n ∧
        p.index.len + p.pending_new + n ≤ p.resources.index_entries)) := by
  have hle := card_missing_le p.index es
  rw [card_union]
  unfold Pipeline.reserve_entries
  by_cases hnear : p.index.len + p.pending_new + es.length > p.resources.index_entries
  · have hspec := count_unique_spec p.index p.resources.index_entries es nodup_nil
    simp only [toFinset_nil, Finset.empty_union] at hspec
    simp only [if_pos hnear]
    split at hspec
    · rename_i u hu
      simp only [hu, Except.map]
      split
      · exact .inl ⟨_, rfl, by omega⟩
      split
      · exact .inl ⟨_, rfl, by omega⟩
      split
      · exact .inr ⟨by omega, .inl ⟨rfl, by omega⟩⟩
      · exact .inr ⟨by omega, .inr ⟨_, rfl, by omega, hspec.ge, by omega⟩⟩
    · rename_i e he
      obtain ⟨rfl, hlt⟩ := hspec
      simp only [he, Except.map]
      exact .inl ⟨_, rfl, by omega⟩
  · simp only [if_neg hnear]
    split
    · exact .inl ⟨_, rfl, by omega⟩
    rw [if_neg (by omega), if_neg (by omega)]
    exact .inr ⟨by omega, .inr ⟨_, rfl, Nat.le_refl _, hle, by omega⟩⟩

theorem reserve_entries_ok {n : Nat} (h : p.reserve_entries es = .ok n) :
    n ≤ es.length ∧ (keysOf es \ p.index.keySet).card ≤ n ∧
      p.index.len + p.pending_new + n ≤ p.resources.index_entries := by
  rcases reserve_entries_cases p es with ⟨_, h', -⟩ | ⟨-, ⟨h', -⟩ | ⟨_, h', hn⟩⟩
  all_goals rw [h] at h'; cases h'
  exact hn

/-! ## Pending writes -/

theorem entries_length_lt {buf : Bytes} {limits : frame.FrameLimits}
    {position : frame.FramePosition} {m : frame.Metadata}
    (h : frame.Metadata.decode buf limits position = .ok m) (segment : Nat) :
    (entries m segment).length < 2 ^ 32 := by
  obtain ⟨-, -, ds, hc, -⟩ := frame.Metadata.decode_ok h
  have hf := (frame.FrameHeader.decode_ok hc.header).2.1
  have h1 := hf.metadata_le
  have h2 := hf.frame_le
  have h3 := limits.frame_u32
  have h4 : (entries m segment).length ≤ m.header.record_count := by
    simp only [entries, length_map, length_zipIdx, frame.Metadata.records]
    exact (length_filterMap_le _ _).trans_eq length_range
  simp only [frame.FrameHeader.metadata_len, frame.HEADER_LEN, frame.DESCRIPTOR_LEN] at h1
  omega

/-- The write has reserved room for every key that the index still lacks. -/
def Covers (index : Index) (w : Write) : Prop :=
  (keysOf w.entries \ index.keySet).card ≤ w.reserved_new ∧ w.reserved_new < 2 ^ 32

structure Room (p : Pipeline) : Prop where
  within : p.index.len + p.pending_new ≤ p.resources.index_entries
  covered : ∀ s w, p.slot s = some (.Write w) → Covers p.index w
  few : p.slots.length ≤ 32768

/-- A reservation outlives every merge. -/
theorem Covers.mono {j : Index} (h : Covers index w) (hj : index.keySet ⊆ j.keySet) : Covers j w :=
  ⟨(Finset.card_le_card (Finset.sdiff_subset_sdiff subset_rfl hj)).trans h.1, h.2⟩

theorem Covers.len_apply (h : Covers index w) :
    (apply index w.entries).len ≤ index.len + w.reserved_new := by
  rw [(apply index w.entries).len_eq, keySet_apply, card_union]
  exact Nat.add_le_add_left h.1 _

theorem prepare_covers {buffer : Bytes} {encode : Encode} {f : Prepared}
    (h : p.prepare buffer encode = .ok f) : Covers p.index f.write ∧
      p.index.len + p.pending_new + f.write.reserved_new ≤ p.resources.index_entries := by
  obtain ⟨_, _, _, _, n, -, -, -, hd, hr, -, hw, -⟩ := prepare_parts h
  obtain ⟨h1, h2, h3⟩ := reserve_entries_ok hr
  rw [hw]
  exact ⟨⟨h2, h1.trans_lt (entries_length_lt hd _)⟩, h3⟩

/-- The keys of the index have grown, and a new write has its reservation. -/
theorem Room.change (h : Room p) (hl : p'.slots.length = p.slots.length)
    (hi : p.index.keySet ⊆ p'.index.keySet)
    (hw : p'.index.len + p'.pending_new ≤ p'.resources.index_entries)
    (hs : ∀ s w, p'.slot s = some (.Write w) → p.slot s = some (.Write w) ∨ Covers p.index w) :
    Room p' := by
  refine ⟨hw, fun s w hsw => ?_, hl ▸ h.few⟩
  exact ((hs s w hsw).elim (h.covered s w) id).mono hi

theorem Room.set {s : Nat} {x : Option Pending} (h : Room p) (hs : p'.slots = p.slots.set s x)
    (hi : p.index.keySet ⊆ p'.index.keySet)
    (hw : p'.index.len + p'.pending_new ≤ p'.resources.index_entries)
    (hx : ∀ w, x = some (.Write w) → Covers p.index w) : Room p' := by
  refine h.change (by rw [hs, length_set]) hi hw fun t w ht => ?_
  rw [slot_of_set hs] at ht
  split at ht
  · exact .inr (hx w ht)
  · exact .inl ht

/-- The index grows by merges, and leaves room for what is pending. -/
structure Grows (p q : Pipeline) : Prop where
  grown : p.index.Grown q.index
  room : Room p → Room q

theorem Grows.same (hs : p'.slots = p.slots) (hi : p'.index = p.index)
    (hn : p'.pending_new = p.pending_new) (hl : p'.resources = p.resources) : Grows p p' := by
  refine ⟨hi ▸ .refl _, fun h => h.change (by rw [hs]) (by rw [hi]) ?_ fun s w hw => .inl ?_⟩
  · rw [hi, hn, hl]
    exact h.within
  · unfold Pipeline.slot at hw ⊢
    rwa [hs] at hw

/-- Restored entries had room. -/
theorem Grows.restore {n : Nat} {applied : List (List (ChunkId × Location))}
    (h : p.reserve_entries es = .ok n) : Grows p { p with index := apply p.index es, applied } := by
  obtain ⟨-, h1, h2⟩ := reserve_entries_ok h
  refine ⟨⟨es, rfl⟩, fun hp => hp.change rfl ?_ ?_ fun s w hw => .inl hw⟩
  · rw [keySet_apply]
    exact Finset.subset_union_left
  · rw [Index.len_eq, keySet_apply, card_union]
    show _ + p.pending_new ≤ p.resources.index_entries
    omega

theorem Grows.trans {q : Pipeline} (h : Grows p p') (k : Grows p' q) : Grows p q :=
  ⟨h.grown.trans k.grown, k.room ∘ h.room⟩

end moat_engine.pipeline
