-- Finite lists of half-open ranges of numbers, each a start and a length: when
-- two ranges share a number, and how sorting by start decides that for a list.
import Mathlib

namespace interval

open List

/-- Two ranges share a number. -/
def Meets (a b : Nat × Nat) : Prop :=
  ∃ x, (a.1 ≤ x ∧ x < a.1 + a.2) ∧ b.1 ≤ x ∧ x < b.1 + b.2

variable {a b : Nat × Nat} {l : List (Nat × Nat)}

theorem Meets.symm (h : Meets a b) : Meets b a := by
  obtain ⟨x, ha, hb⟩ := h
  exact ⟨x, hb, ha⟩

/-- Nonempty ranges meet when each one starts before the other ends. -/
theorem meets_iff (ha : 0 < a.2) (hb : 0 < b.2) :
    Meets a b ↔ a.1 < b.1 + b.2 ∧ b.1 < a.1 + a.2 := by
  constructor
  · rintro ⟨x, ⟨h1, h2⟩, h3, h4⟩
    omega
  · rintro ⟨h1, h2⟩
    exact ⟨max a.1 b.1, by omega, by omega⟩

/-- Every range ends before the next one starts. -/
def Chained : List (Nat × Nat) → Prop
  | a :: b :: rest => a.1 + a.2 ≤ b.1 ∧ Chained (b :: rest)
  | _ => True

/-- In a chain, every range ends before every later one starts. -/
theorem Chained.before (h : Chained (a :: l)) (hb : b ∈ l) : a.1 + a.2 ≤ b.1 := by
  induction l generalizing a with
  | nil => cases hb
  | cons c l ih =>
    rcases mem_cons.mp hb with rfl | hb
    · exact h.1
    · have := ih h.2 hb
      have := h.1
      omega

/-- A chain has no two ranges that meet. -/
theorem Chained.apart (h : Chained l) : l.Pairwise (fun a b => ¬ Meets a b) := by
  induction l with
  | nil => exact List.Pairwise.nil
  | cons a l ih =>
    refine pairwise_cons.mpr ⟨fun b hb => ?_, ih ?_⟩
    · rintro ⟨x, h1, h2⟩
      have := h.before hb
      omega
    · cases l with
      | nil => trivial
      | cons => exact h.2

/-- Among nonempty ranges sorted by their starts, it is enough to look at neighbours. -/
theorem chained_iff (hpos : ∀ r ∈ l, 0 < r.2) (hs : l.Pairwise (fun a b => a.1 ≤ b.1)) :
    Chained l ↔ l.Pairwise (fun a b => ¬ Meets a b) := by
  refine ⟨Chained.apart, fun h => ?_⟩
  induction l with
  | nil => trivial
  | cons a l ih =>
    cases l with
    | nil => trivial
    | cons b =>
      have hab := rel_of_pairwise_cons hs mem_cons_self
      have hne := rel_of_pairwise_cons h mem_cons_self
      refine ⟨?_, ih (fun r hr => hpos r (mem_cons_of_mem _ hr)) hs.tail h.tail⟩
      rw [meets_iff (hpos a (by simp)) (hpos b (by simp))] at hne
      have := hpos b (by simp)
      omega

/-- Whether ranges are apart does not depend on their order. -/
theorem apart_perm {m : List (Nat × Nat)} (h : l.Perm m) :
    l.Pairwise (fun a b => ¬ Meets a b) ↔ m.Pairwise (fun a b => ¬ Meets a b) :=
  h.pairwise_iff (fun hab hba => hab hba.symm)

/-- Ranges are not apart exactly when two of them meet. -/
theorem not_apart_iff :
    ¬ l.Pairwise (fun a b => ¬ Meets a b) ↔
      ∃ (i j : Nat) (a b : Nat × Nat), i < j ∧ l[i]? = some a ∧ l[j]? = some b ∧ Meets a b := by
  rw [pairwise_iff_getElem]
  constructor
  · intro h
    push Not at h
    obtain ⟨i, j, hi, hj, hij, hm⟩ := h
    exact ⟨i, j, _, _, hij, List.getElem?_eq_getElem hi, List.getElem?_eq_getElem hj, hm⟩
  · rintro ⟨i, j, a, b, hij, ha, hb, hm⟩ h
    obtain ⟨hi, rfl⟩ := List.getElem?_eq_some_iff.mp ha
    obtain ⟨hj, rfl⟩ := List.getElem?_eq_some_iff.mp hb
    exact h i j hi hj hij hm

end interval
