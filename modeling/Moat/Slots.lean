-- A table of slots with a stack of the free ones, and the total of a weight over
-- what the slots hold.
import Mathlib

namespace slots

open List

variable {α M : Type}

/-- The slots and the stack of free ones, its top first. -/
structure Table (α : Type) where
  cells : List (Option α)
  free : List Nat

namespace Table

/-- The free slots are the empty ones, each on the stack once. -/
structure Fair (t : Table α) : Prop where
  free_nodup : t.free.Nodup
  free_iff : ∀ s, s ∈ t.free ↔ t.cells[s]? = some none

/-- One change: a value takes the slot on top of the stack, leaves its slot, or gives it to
another. The two options are what comes in and what goes out. -/
inductive Moves (t : Table α) : Option α → Option α → Table α → Prop
  | same : Moves t none none t
  | take {s : Nat} {rest : List Nat} (x : α) (hf : t.free = s :: rest) :
      Moves t (some x) none ⟨t.cells.set s (some x), rest⟩
  | give {s : Nat} {x : α} (hs : t.cells[s]? = some (some x)) :
      Moves t none (some x) ⟨t.cells.set s none, s :: t.free⟩
  | swap {s : Nat} {x : α} (y : α) (hs : t.cells[s]? = some (some x)) :
      Moves t (some y) (some x) ⟨t.cells.set s (some y), t.free⟩

theorem fair_new (n : Nat) : Fair (⟨List.replicate n none, List.range n⟩ : Table α) := by
  refine ⟨nodup_range, ?_⟩
  intro s
  rw [mem_range, List.getElem?_replicate]
  by_cases h : s < n <;> simp [h]

theorem Moves.fair {t t' : Table α} {i o : Option α} (h : t.Moves i o t') (hf : t.Fair) :
    t'.Fair := by
  cases h with
  | same => exact hf
  | @take s _ _ hs =>
    have hn := hf.free_nodup
    rw [hs, nodup_cons] at hn
    have hlt := (hf.free_iff s).mp (by rw [hs]; exact mem_cons_self)
    refine ⟨hn.2, ?_⟩
    intro u
    have hu := hf.free_iff u
    rw [hs, mem_cons] at hu
    by_cases hus : u = s
    · subst hus
      simp [hn.1, List.getElem?_set_self', hlt]
    · rw [List.getElem?_set_ne (Ne.symm hus), ← hu]
      simp [hus]
  | @give s x hs =>
    have hnot : s ∉ t.free := by
      intro hm
      rw [(hf.free_iff s).mp hm] at hs
      cases hs
    refine ⟨nodup_cons.mpr ⟨hnot, hf.free_nodup⟩, ?_⟩
    intro u
    by_cases hus : u = s
    · subst hus
      simp [List.getElem?_set_self', hs]
    · rw [List.getElem?_set_ne (Ne.symm hus), mem_cons, ← hf.free_iff u]
      simp [hus]
  | @swap s x y hs =>
    refine ⟨hf.free_nodup, ?_⟩
    intro u
    have hu := hf.free_iff u
    by_cases hus : u = s
    · subst hus
      rw [hu, hs]
      simp [List.getElem?_set_self', hs]
    · rw [List.getElem?_set_ne (Ne.symm hus), hu]

/-! ## Totals -/

section Totals

variable [AddCommMonoid M]

/-- The weight of a slot. -/
def cell (f : α → M) (c : Option α) : M := c.elim 0 f

/-- The weight of all values in the table. -/
def weigh (f : α → M) (t : Table α) : M := (t.cells.map (cell f)).sum

theorem weigh_new (f : α → M) (n : Nat) (free : List Nat) :
    weigh f ⟨List.replicate n none, free⟩ = 0 := by
  unfold weigh
  rw [map_replicate]
  simp [cell, sum_replicate]

theorem sum_set {β : Type} (f : β → M) {l : List β} {s : Nat} {x : β} (h : l[s]? = some x)
    (y : β) : ((l.set s y).map f).sum + f x = (l.map f).sum + f y := by
  induction l generalizing s with
  | nil => cases h
  | cons z l ih =>
    cases s with
    | zero =>
      rw [List.getElem?_cons_zero] at h
      cases h
      simp only [set_cons_zero, map_cons, sum_cons]
      abel
    | succ =>
      rw [List.getElem?_cons_succ] at h
      simp only [set_cons_succ, map_cons, sum_cons]
      rw [add_assoc, ih h, ← add_assoc]

/-- What goes out is taken from the total, and what comes in is added. -/
theorem Moves.weigh {t t' : Table α} {i o : Option α} (h : t.Moves i o t') (hf : t.Fair)
    (f : α → M) : t'.weigh f + cell f o = t.weigh f + cell f i := by
  cases h with
  | same => rfl
  | @take s _ x hs =>
    have hlt := (hf.free_iff s).mp (by rw [hs]; exact mem_cons_self)
    exact sum_set (cell f) hlt (some x)
  | @give s x hs => exact sum_set (cell f) hs none
  | @swap s x y hs => exact sum_set (cell f) hs (some y)

/-- A table with no value that weighs anything weighs nothing. -/
theorem weigh_zero {f : α → M} {t : Table α}
    (h : ∀ (s : Nat) (x : α), t.cells[s]? = some (some x) → f x = 0) : t.weigh f = 0 := by
  apply sum_eq_zero
  intro m hm
  obtain ⟨c, hc, rfl⟩ := mem_map.mp hm
  cases c with
  | none => rfl
  | some x =>
    obtain ⟨s, hs⟩ := mem_iff_getElem?.mp hc
    exact h s x hs

end Totals

/-- When every slot is on the stack, no slot holds a value. -/
theorem Fair.empty {t : Table α} (h : t.Fair) (hl : t.cells.length ≤ t.free.length) (s : Nat)
    (x : α) : t.cells[s]? ≠ some (some x) := by
  intro hs
  have hnot : s ∉ t.free := by
    intro hm
    rw [(h.free_iff s).mp hm] at hs
    cases hs
  have hsub : s :: t.free ⊆ List.range t.cells.length := by
    intro u hu
    rw [mem_range]
    rcases mem_cons.mp hu with rfl | hu
    · exact (List.getElem?_eq_some_iff.mp hs).1
    · exact (List.getElem?_eq_some_iff.mp ((h.free_iff u).mp hu)).1
  have hle := (subperm_of_subset (nodup_cons.mpr ⟨hnot, h.free_nodup⟩) hsub).length_le
  rw [length_cons, length_range] at hle
  omega

end Table

end slots
