-- Computations that can panic: `none` is the panic of an index out of range or
-- of an arithmetic overflow. Each operation gives its plain value in range.
import Moat.Bytes

namespace checked

open List

variable {α : Type}

/-- `&b[lo..hi]`. -/
def slice? (b : List α) (lo hi : Nat) : Option (List α) :=
  if lo ≤ hi ∧ hi ≤ b.length then some (byte_list.slice b lo hi) else none

/-- An unsigned result that has to fit in `width` bits. -/
def fits? (width value : Nat) : Option Nat :=
  if value < 2 ^ width then some value else none

/-- An unsigned difference. -/
def sub? (a b : Nat) : Option Nat :=
  if b ≤ a then some (a - b) else none

/-- `bytes.try_into().expect(..)` to an array of `len` bytes. -/
def array? (b : List α) (len : Nat) : Option (List α) :=
  if b.length = len then some b else none

theorem slice?_eq {b : List α} {lo hi : Nat} (h1 : lo ≤ hi) (h2 : hi ≤ b.length) :
    slice? b lo hi = some (byte_list.slice b lo hi) := if_pos ⟨h1, h2⟩

theorem fits?_eq {width value : Nat} (h : value < 2 ^ width) : fits? width value = some value :=
  if_pos h

theorem sub?_eq {a b : Nat} (h : b ≤ a) : sub? a b = some (a - b) := if_pos h

theorem array?_eq {b : List α} {len : Nat} (h : b.length = len) : array? b len = some b := if_pos h

section Binds

variable {β : Type} {b : List α} {f : List α → Option β} {g : Nat → Option β} {n k : Nat}

theorem slice?_bind (h1 : n ≤ k) (h2 : k ≤ b.length) :
    slice? b n k >>= f = f (byte_list.slice b n k) := by rw [slice?_eq h1 h2]; rfl

theorem fits?_bind (h : k < 2 ^ n) : fits? n k >>= g = g k := by rw [fits?_eq h]; rfl

end Binds

/-- A loop over all indices whose steps give the elements of a list gives that list. -/
theorem mapM_range_eq {β : Type} {f : Nat → Option β} {xs : List β}
    (h : ∀ i < xs.length, f i = xs[i]?) : (List.range xs.length).mapM f = some xs := by
  induction xs generalizing f with
  | nil => rfl
  | cons x xs ih =>
    have hrest : (List.range xs.length).mapM (fun i => f (i + 1)) = some xs :=
      ih (fun i hi => by simpa using h (i + 1) (by simpa using hi))
    rw [length_cons, range_succ_eq_map, mapM_cons, h 0 (by simp), mapM_map]
    simp only [List.getElem?_cons_zero, Option.bind_eq_bind, Option.bind_some]
    rw [show (f ∘ Nat.succ) = (fun i => f (i + 1)) from rfl, hrest]
    rfl

/-- A loop whose steps all succeed from `I` and keep it ends in `I`. -/
theorem foldlM_keeps {σ ι : Type} {f : σ → ι → Option σ} {I : σ → Prop}
    (hstep : ∀ s a, I s → ∃ s', f s a = some s' ∧ I s') {s : σ} (h : I s) (acts : List ι) :
    ∃ s', acts.foldlM f s = some s' ∧ I s' := by
  induction acts generalizing s with
  | nil => exact ⟨s, rfl, h⟩
  | cons a _ ih =>
    obtain ⟨s1, h1, hi⟩ := hstep s a h
    rw [foldlM_cons, h1]
    exact ih hi

end checked
