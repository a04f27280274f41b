-- Totals over the values of a finite map, and how they change when one of the
-- values does.
import Mathlib

namespace tally

open List

variable {α β : Type}

/-- The sum of a weight over all values. -/
def total (f : β → Nat) (m : AList (fun _ : α => β)) : Nat := (m.entries.map (fun e => f e.2)).sum

theorem total_one (m : AList (fun _ : α => β)) : total (fun _ => 1) m = m.entries.length := by
  simp [total]

variable [DecidableEq α]

theorem total_insert (f : β → Nat) (m : AList (fun _ : α => β)) (a : α) (b : β) :
    total f (m.insert a b) = f b + total f (m.erase a) := by
  simp [total, AList.entries_insert, AList.erase]

variable {f : β → Nat} {m : AList (fun _ : α => β)} {a : α} {b : β}

theorem total_erase (h : m.lookup a = some b) : total f (m.erase a) + f b = total f m := by
  obtain ⟨b', l₁, l₂, -, hl, he⟩ := exists_of_kerase
    (show a ∈ m.entries.keys from AList.lookup_isSome.mp (by rw [h]; rfl))
  have hb : b' = b := by
    have hmem : (⟨a, b'⟩ : Sigma (fun _ : α => β)) ∈ m.entries := by rw [hl]; simp
    have := AList.mem_lookup_iff.mpr hmem
    rw [h] at this
    cases this
    rfl
  subst hb
  simp only [total, AList.erase, he]
  rw [hl]
  simp only [map_append, map_cons, sum_append, sum_cons]
  omega

theorem erase_of_lookup_none (h : m.lookup a = none) : m.erase a = m :=
  AList.ext (kerase_of_notMem_keys (AList.lookup_eq_none.mp h))

/-- A value in the map counts in the total. -/
theorem le_total (h : m.lookup a = some b) : f b ≤ total f m := by
  have := total_erase (f := f) h
  omega

/-- A value takes another's place. -/
theorem total_replace
    (h : m.lookup a = some b) (b' : β) : total f (m.insert a b') + f b = total f m + f b' := by
  have := total_erase (f := f) h
  rw [total_insert]
  omega

theorem total_insert_none
    (h : m.lookup a = none) (b : β) : total f (m.insert a b) = total f m + f b := by
  rw [total_insert, erase_of_lookup_none h]
  omega

end tally
