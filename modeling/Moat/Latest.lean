-- Records with a key and a rank, and the record of highest rank for each key
-- of a list. Which one it is depends on the records, not on their order.
import Mathlib

namespace latest

open List

variable {K V R : Type} [LinearOrder R] {rank : V → R} {es : List (K × V)} {key : K} {v w : V}

/-- `v` is a record of `key`, and no record of `key` ranks higher. -/
def IsLatest (rank : V → R) (es : List (K × V)) (key : K) (v : V) : Prop :=
  (key, v) ∈ es ∧ ∀ w, (key, w) ∈ es → rank w ≤ rank v

/-- Records of one key and one rank are the same record. -/
def Distinct (rank : V → R) (es : List (K × V)) : Prop :=
  ∀ key v w, (key, v) ∈ es → (key, w) ∈ es → rank v = rank w → v = w

theorem IsLatest.unique (hd : Distinct rank es) (hv : IsLatest rank es key v)
    (hw : IsLatest rank es key w) : v = w :=
  hd key v w hv.1 hw.1 (le_antisymm (hw.2 v hv.1) (hv.2 w hw.1))

theorem IsLatest.congr {es' : List (K × V)} (h : IsLatest rank es key v)
    (he : ∀ e, e ∈ es' ↔ e ∈ es) : IsLatest rank es' key v :=
  ⟨(he _).mpr h.1, fun w hw => h.2 w ((he _).mp hw)⟩

/-! ## One more record -/

theorem mem_concat_self : (key, w) ∈ es ++ [(key, w)] :=
  mem_append_right es mem_cons_self

theorem mem_of_mem_concat {e : K × V} (hk : e.1 ≠ key) (h : (key, w) ∈ es ++ [e]) :
    (key, w) ∈ es := by
  rcases mem_append.mp h with h | h
  · exact h
  · rw [mem_singleton] at h
    exact absurd (congrArg Prod.fst h).symm hk

theorem IsLatest.other (h : IsLatest rank es key v) {e : K × V} (hk : e.1 ≠ key) :
    IsLatest rank (es ++ [e]) key v :=
  ⟨mem_append_left _ h.1, fun w hw => h.2 w (mem_of_mem_concat hk hw)⟩

theorem IsLatest.older (h : IsLatest rank es key v) (hr : rank w ≤ rank v) :
    IsLatest rank (es ++ [(key, w)]) key v := by
  refine ⟨mem_append_left _ h.1, fun u hu => ?_⟩
  rcases mem_append.mp hu with hu | hu
  · exact h.2 u hu
  · rw [mem_singleton] at hu
    cases hu
    exact hr

theorem IsLatest.newer (h : IsLatest rank es key v) (hr : rank v ≤ rank w) :
    IsLatest rank (es ++ [(key, w)]) key w := by
  refine ⟨mem_concat_self, fun u hu => ?_⟩
  rcases mem_append.mp hu with hu | hu
  · exact le_trans (h.2 u hu) hr
  · rw [mem_singleton] at hu
    cases hu
    exact le_rfl

theorem IsLatest.first (h : ∀ v, (key, v) ∉ es) : IsLatest rank (es ++ [(key, w)]) key w := by
  refine ⟨mem_concat_self, fun u hu => ?_⟩
  rcases mem_append.mp hu with hu | hu
  · exact absurd hu (h u)
  · rw [mem_singleton] at hu
    cases hu
    exact le_rfl

end latest
