-- A slab: values under small numbers, where a number that was given back is the
-- next to be given out.
import Moat.Slots

namespace slab

open List

/-- The entries, and the vacant numbers below their count, last given back first. -/
structure Slab (α : Type) where
  entries : List (Option α)
  free : List Nat
  nodup : free.Nodup
  vacant : ∀ id ∈ free, entries[id]? = some none

namespace Slab

variable {α : Type}

def new : Slab α := ⟨[], [], nodup_nil, fun _ h => by cases h⟩

def get (s : Slab α) (id : Nat) : Option α := (s.entries[id]?).join

/-- A value goes to the number that was given back last, or to a new one. -/
def insert (s : Slab α) (x : α) : Nat × Slab α :=
  match hf : s.free with
  | [] => (s.entries.length, ⟨s.entries ++ [some x], [], nodup_nil, fun _ h => by cases h⟩)
  | id :: rest =>
    (id, ⟨s.entries.set id (some x), rest, by
      have h := s.nodup
      rw [hf, nodup_cons] at h
      exact h.2, by
      intro j hj
      have h := s.nodup
      rw [hf, nodup_cons] at h
      have hne : id ≠ j := by
        intro he
        exact h.1 (he.symm ▸ hj)
      rw [List.getElem?_set_ne hne]
      exact s.vacant j (by rw [hf]; exact mem_cons_of_mem _ hj)⟩)

/-- Changes the value under a number; a vacant number stays vacant. -/
def modify (s : Slab α) (id : Nat) (f : α → α) : Slab α :=
  ⟨s.entries.modify id (Option.map f), s.free, s.nodup, by
    intro j hj
    rw [List.getElem?_modify, s.vacant j hj]
    split <;> rfl⟩

variable {s s' : Slab α} {id : Nat} {x : α}

theorem lt_of_get (h : s.get id = some x) : id < s.entries.length := by
  by_contra hge
  rw [get, List.getElem?_eq_none (Nat.le_of_not_lt hge)] at h
  cases h

theorem not_free_of_get (h : s.get id = some x) : id ∉ s.free := by
  intro hm
  rw [get, s.vacant id hm] at h
  cases h

/-- Takes the value under a number out, and gives the number back. -/
def remove (s : Slab α) (id : Nat) : Option (α × Slab α) :=
  match h : s.get id with
  | none => none
  | some x =>
    some (x, ⟨s.entries.set id none, id :: s.free,
      nodup_cons.mpr ⟨not_free_of_get h, s.nodup⟩, by
      intro j hj
      by_cases he : j = id
      · rw [he, List.getElem?_set_self (lt_of_get h)]
      · rw [List.getElem?_set_ne (Ne.symm he)]
        exact s.vacant j ((mem_cons.mp hj).resolve_left he)⟩)

/-- The numbers in use, in order. -/
def ids (s : Slab α) :
    List Nat := (List.range s.entries.length).filter (fun id => (s.get id).isSome)

theorem get_modify (s : Slab α) (id : Nat) (f : α → α) (j : Nat) :
    (s.modify id f).get j = if j = id then (s.get j).map f else s.get j := by
  unfold get modify
  rw [List.getElem?_modify]
  cases s.entries[j]? with
  | none => simp
  | some =>
    by_cases h : id = j
    · rw [if_pos h.symm]
      simp only [Option.map_eq_map, Option.map_some, if_pos h, Option.join_some]
    · rw [if_neg (Ne.symm h)]
      simp only [Option.map_eq_map, Option.map_some, if_neg h, Option.join_some]

theorem entry_of_get (h : s.get id = some x) : s.entries[id]? = some (some x) := by
  unfold get at h
  cases he : s.entries[id]? with
  | none =>
    rw [he] at h
    cases h
  | some o =>
    rw [he] at h
    rw [show o = some x from h]

theorem insert_cases (s : Slab α) (x : α) :
    (s.insert x).2.entries = s.entries ++ [some x] ∧ (s.insert x).1 = s.entries.length ∨
      (s.insert x).2.entries = s.entries.set (s.insert x).1 (some x) ∧
        s.entries[(s.insert x).1]? = some none := by
  unfold insert
  split
  · exact .inl ⟨rfl, rfl⟩
  · rename_i id rest hf
    exact .inr ⟨rfl, s.vacant id (by rw [hf]; exact mem_cons_self)⟩

/-- The number given out was vacant. -/
theorem get_fresh (s : Slab α) (x : α) : s.get (s.insert x).1 = none := by
  unfold get
  rcases s.insert_cases x with ⟨-, h⟩ | ⟨-, h⟩
  · rw [h, List.getElem?_eq_none (Nat.le_refl _)]
    rfl
  · rw [h]
    rfl

theorem get_insert (s : Slab α) (x : α) (j : Nat) :
    (s.insert x).2.get j = if j = (s.insert x).1 then some x else s.get j := by
  unfold get
  rcases s.insert_cases x with ⟨he, hid⟩ | ⟨he, hid⟩
  · rw [he, hid]
    by_cases hj : j = s.entries.length
    · rw [hj, List.getElem?_concat_length, if_pos rfl]
      rfl
    · rw [if_neg hj]
      rcases Nat.lt_or_ge j s.entries.length with hlt | hge
      · rw [List.getElem?_append_left hlt]
      · rw [List.getElem?_eq_none (by simp; omega), List.getElem?_eq_none hge]
  · rw [he]
    by_cases hj : j = (s.insert x).1
    · have hlt := (List.getElem?_eq_some_iff.mp hid).1
      rw [if_pos hj, hj, List.getElem?_set_self hlt]
      rfl
    · rw [if_neg hj, List.getElem?_set_ne (Ne.symm hj)]

theorem remove_some (h : s.get id = some x) :
    ∃ s', s.remove id = some (x, s') ∧ s'.entries = s.entries.set id none ∧
      ∀ j, s'.get j = if j = id then none else s.get j := by
  unfold remove
  split
  · rename_i hn
    rw [h] at hn
    cases hn
  · rename_i y hy
    rw [h] at hy
    cases hy
    refine ⟨_, rfl, rfl, fun j => ?_⟩
    unfold get
    by_cases hj : j = id
    · rw [if_pos hj, hj, List.getElem?_set_self (lt_of_get h)]
      rfl
    · rw [if_neg hj, List.getElem?_set_ne (Ne.symm hj)]

theorem mem_ids : id ∈ s.ids ↔ (s.get id).isSome = true := by
  unfold ids
  rw [mem_filter, mem_range]
  refine ⟨fun h => h.2, fun h => ⟨?_, h⟩⟩
  obtain ⟨x, hx⟩ := Option.isSome_iff_exists.mp h
  exact lt_of_get hx

theorem ids_nodup (s : Slab α) : s.ids.Nodup := nodup_range.filter _

/-- No more distinct numbers are in use than the slab has entries. -/
theorem length_le {ids : List Nat} (hn : ids.Nodup)
    (h : ∀ id ∈ ids, (s.get id).isSome = true) : ids.length ≤ s.entries.length := by
  have hsub : ids ⊆ List.range s.entries.length := by
    intro id hid
    obtain ⟨x, hx⟩ := Option.isSome_iff_exists.mp (h id hid)
    exact mem_range.mpr (lt_of_get hx)
  have hle := (subperm_of_subset hn hsub).length_le
  rwa [length_range] at hle

theorem ids_length_le (h : ∀ id, (s'.get id).isSome = true → (s.get id).isSome = true) :
    s'.ids.length ≤ s.ids.length :=
  (subperm_of_subset s'.ids_nodup fun _ hid => mem_ids.mpr (h _ (mem_ids.mp hid))).length_le

theorem ids_length_lt (hs : (s.get id).isSome = true) (hs' : s'.get id = none)
    (h : ∀ j, (s'.get j).isSome = true → (s.get j).isSome = true) :
    s'.ids.length < s.ids.length := by
  have hnot : id ∉ s'.ids := by
    rw [mem_ids, hs']
    exact Bool.false_ne_true
  have hsub : (id :: s'.ids) ⊆ s.ids := by
    intro j hj
    rcases mem_cons.mp hj with rfl | hj
    · exact mem_ids.mpr hs
    · exact mem_ids.mpr (h j (mem_ids.mp hj))
  exact (subperm_of_subset (nodup_cons.mpr ⟨hnot, s'.ids_nodup⟩) hsub).length_le

theorem ids_length_le_entries (s : Slab α) : s.ids.length ≤ s.entries.length :=
  length_le s.ids_nodup fun _ hid => mem_ids.mp hid

/-! ## Totals -/

/-- The sum of a weight over all values. -/
def total (f : α → Nat) (s : Slab α) : Nat := (s.entries.map (fun o => o.elim 0 f)).sum

theorem total_modify {f : α → Nat} (h : s.get id = some x)
    (g : α → α) : (s.modify id g).total f + f x = s.total f + f (g x) := by
  have he := entry_of_get h
  have hset : (s.modify id g).entries = s.entries.set id (some (g x)) := by
    apply ext_getElem?
    intro j
    unfold modify
    rw [List.getElem?_modify]
    by_cases hj : id = j
    · subst hj
      rw [he, List.getElem?_set_self (lt_of_get h)]
      simp
    · rw [List.getElem?_set_ne hj]
      simp [hj]
  unfold total
  rw [hset]
  exact slots.Table.sum_set (fun o : Option α => o.elim 0 f) he (some (g x))

theorem total_congr {f : α → Nat} (hl : s'.entries.length = s.entries.length)
    (h : ∀ id, (s'.get id).elim 0 f = (s.get id).elim 0 f) : s'.total f = s.total f := by
  have helim : ∀ (t : Slab α) (id : Nat),
      (t.entries.map (fun o => o.elim 0 f))[id]? =
        if id < t.entries.length then some ((t.get id).elim 0 f) else none := by
    intro t id
    rw [List.getElem?_map, get]
    by_cases hid : id < t.entries.length
    · rw [if_pos hid, List.getElem?_eq_getElem hid]
      rfl
    · rw [if_neg hid, List.getElem?_eq_none (Nat.le_of_not_lt hid)]
      rfl
  unfold total
  congr 1
  apply ext_getElem?
  intro id
  rw [helim, helim, hl, h]

end Slab

end slab
