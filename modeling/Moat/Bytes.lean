-- Byte strings: ranges, overwriting in place, and little-endian numbers.
-- Nothing here names the storage engine. A fixed-offset codec reads a field
-- back with `slice_patch_self`, and skips the other fields with
-- `slice_patch_before` and `slice_patch_after`.
import Mathlib

namespace byte_list

open List

variable {α : Type}

/-! ## Ranges -/

/-- The elements from `lo` up to `hi`, as Rust reads `&b[lo..hi]`. -/
def slice (b : List α) (lo hi : Nat) : List α := (b.drop lo).take (hi - lo)

/-- `b` with `v` written over it from position `at_`, as `copy_from_slice` does. -/
def patch (b : List α) (at_ : Nat) (v : List α) : List α :=
  b.take at_ ++ v ++ b.drop (at_ + v.length)

theorem slice_length (b : List α) (lo hi : Nat) :
    (slice b lo hi).length = min (hi - lo) (b.length - lo) := by
  simp [slice]

variable {b v : List α} {lo hi n at_ : Nat} {β : Type}

theorem slice_length_of_le (h : hi ≤ b.length) : (slice b lo hi).length = hi - lo := by
  rw [slice_length]; omega

theorem getElem?_slice (b : List α) (lo hi i : Nat) :
    (slice b lo hi)[i]? = if i < hi - lo then b[lo + i]? else none := by
  simp only [slice, List.getElem?_take, List.getElem?_drop]

theorem slice_self_length (b : List α) : slice b 0 b.length = b := by
  simp [slice]

theorem slice_zero (b : List α) (hi : Nat) : slice b 0 hi = b.take hi := by
  simp [slice]

theorem slice_eq_drop (h : b.length ≤ hi) : slice b lo hi = b.drop lo := by
  unfold slice
  rw [take_of_length_le]
  simp; omega

theorem slice_empty (b : List α) (lo : Nat) : slice b lo lo = [] := by
  simp [slice]

/-- A range split at a point inside it. -/
theorem slice_append_slice (b : List α) {mid : Nat} (h1 : lo ≤ mid) (h2 : mid ≤ hi) :
    slice b lo mid ++ slice b mid hi = slice b lo hi := by
  unfold slice
  have hd : b.drop mid = (b.drop lo).drop (mid - lo) := by
    rw [drop_drop]; congr 1; omega
  rw [hd, show hi - lo = (mid - lo) + (hi - mid) by omega, take_add]

/-- A range of a range that may reach past its end. -/
theorem slice_slice_min (b : List α) (lo hi i j : Nat) :
    slice (slice b lo hi) i j = slice b (lo + i) (min (lo + j) hi) := by
  apply ext_getElem?
  intro k
  simp only [getElem?_slice]
  by_cases hk : k < min (lo + j) hi - (lo + i)
  · rw [if_pos hk, if_pos (by omega), if_pos (by omega), Nat.add_assoc]
  · rw [if_neg hk]
    by_cases hj : k < j - i
    · rw [if_pos hj, if_neg (by omega)]
    · rw [if_neg hj]

theorem slice_take (b : List α) (h : hi ≤ n) : slice (b.take n) lo hi = slice b lo hi := by
  apply ext_getElem?
  intro k
  simp only [getElem?_slice, List.getElem?_take]
  by_cases hk : k < hi - lo
  · rw [if_pos hk, if_pos hk, if_pos (by omega)]
  · rw [if_neg hk, if_neg hk]

theorem slice_drop (b : List α) (n lo hi : Nat) :
    slice (b.drop n) lo hi = slice b (n + lo) (n + hi) := by
  unfold slice
  rw [drop_drop]
  congr 1
  omega

theorem slice_append_left (a b : List α) (h : hi ≤ a.length) :
    slice (a ++ b) lo hi = slice a lo hi := by
  apply ext_getElem?
  intro k
  simp only [getElem?_slice]
  by_cases hk : k < hi - lo
  · rw [if_pos hk, if_pos hk, List.getElem?_append_left (by omega)]
  · rw [if_neg hk, if_neg hk]

theorem slice_append_right (a b : List α) (h : a.length ≤ lo) :
    slice (a ++ b) lo hi = slice b (lo - a.length) (hi - a.length) := by
  apply ext_getElem?
  intro k
  simp only [getElem?_slice]
  by_cases hk : k < hi - lo
  · rw [if_pos hk, if_pos (by omega), List.getElem?_append_right (by omega)]
    congr 1
    omega
  · rw [if_neg hk, if_neg (by omega)]

/-- The middle part of a concatenation. -/
theorem slice_append_mid (a b c : List α) (h1 : lo = a.length)
    (h2 : hi = a.length + b.length) : slice (a ++ b ++ c) lo hi = b := by
  subst h1 h2
  rw [append_assoc, slice_append_right _ _ (Nat.le_refl _), slice_append_left _ _ (by omega),
    Nat.sub_self, Nat.add_sub_cancel_left, slice_self_length]

/-- Item `i` of a concatenation of items that all have length `w`. -/
theorem slice_flatMap (f : β → List α) {w : Nat} (hw : ∀ x, (f x).length = w) (xs : List β)
    {i : Nat} {x : β} (h : xs[i]? = some x) : slice (xs.flatMap f) (i * w) (i * w + w) = f x := by
  induction xs generalizing i with
  | nil => simp at h
  | cons y _ ih =>
    rw [flatMap_cons]
    cases i with
    | zero =>
      simp only [List.getElem?_cons_zero, Option.some.injEq] at h
      subst h
      rw [slice_append_left _ _ (by rw [hw]; omega), Nat.zero_mul, Nat.zero_add, ← hw y,
        slice_self_length]
    | succ =>
      rw [slice_append_right _ _ (by rw [hw, Nat.succ_mul]; omega), hw]
      rw [List.getElem?_cons_succ] at h
      rw [← ih h, Nat.succ_mul]
      congr 1 <;> omega

theorem length_flatMap_const (f : β → List α) {w : Nat} (hw : ∀ x, (f x).length = w)
    (xs : List β) : (xs.flatMap f).length = xs.length * w := by
  induction xs with
  | nil => simp
  | cons _ _ ih => rw [flatMap_cons, length_append, ih, hw, length_cons]; ring

/-- Looking every index up gives the list back. -/
theorem filterMap_range_eq (f : Nat → Option β) (xs : List β)
    (h : ∀ i < xs.length, f i = xs[i]?) : (List.range xs.length).filterMap f = xs := by
  induction xs generalizing f with
  | nil => rfl
  | cons _ _ ih =>
    rw [length_cons, range_succ_eq_map, filterMap_cons, h 0 (by simp)]
    simp only [List.getElem?_cons_zero, filterMap_map]
    rw [ih]
    intro i hi
    exact h (i + 1) (by simpa using hi)

/-! ## Overwriting -/

section

variable (h : at_ + v.length ≤ b.length)
include h

theorem patch_length : (patch b at_ v).length = b.length := by
  simp only [patch, length_append, length_take, length_drop]
  omega

theorem getElem?_patch (i : Nat) :
    (patch b at_ v)[i]? =
      if i < at_ then b[i]? else if i < at_ + v.length then v[i - at_]? else b[i]? := by
  have hl : (b.take at_).length = at_ := by simp; omega
  unfold patch
  by_cases h1 : i < at_
  · rw [if_pos h1, append_assoc, List.getElem?_append_left (by omega), List.getElem?_take,
      if_pos h1]
  · rw [if_neg h1]
    by_cases h2 : i < at_ + v.length
    · rw [if_pos h2, append_assoc, List.getElem?_append_right (by omega), hl,
        List.getElem?_append_left (by omega)]
    · rw [if_neg h2, List.getElem?_append_right (by simp; omega), List.getElem?_drop]
      congr 1
      simp only [length_append, hl]
      omega

/-- The written range reads back. -/
theorem slice_patch_self
    (h1 : lo = at_) (h2 : hi = at_ + v.length) : slice (patch b at_ v) lo hi = v := by
  subst h1 h2
  apply ext_getElem?
  intro i
  rw [getElem?_slice, getElem?_patch h]
  by_cases hi : i < v.length
  · rw [if_pos (by omega), if_neg (by omega), if_pos (by omega), Nat.add_sub_cancel_left]
  · rw [if_neg (by omega), List.getElem?_eq_none (by omega)]

theorem slice_patch_before (h1 : hi ≤ at_) : slice (patch b at_ v) lo hi = slice b lo hi := by
  apply ext_getElem?
  intro i
  rw [getElem?_slice, getElem?_slice, getElem?_patch h]
  by_cases hi : i < hi - lo
  · rw [if_pos hi, if_pos hi, if_pos (by omega)]
  · rw [if_neg hi, if_neg hi]

theorem slice_patch_after
    (h1 : at_ + v.length ≤ lo) : slice (patch b at_ v) lo hi = slice b lo hi := by
  apply ext_getElem?
  intro i
  rw [getElem?_slice, getElem?_slice, getElem?_patch h]
  by_cases hi : i < hi - lo
  · rw [if_pos hi, if_pos hi, if_neg (by omega), if_neg (by omega)]
  · rw [if_neg hi, if_neg hi]

theorem drop_patch_after (h1 : at_ + v.length ≤ n) : (patch b at_ v).drop n = b.drop n := by
  apply ext_getElem?
  intro i
  rw [List.getElem?_drop, List.getElem?_drop, getElem?_patch h, if_neg (by omega),
    if_neg (by omega)]

end

theorem patch_append_left {a r : List α} (h : at_ + v.length ≤ a.length) :
    patch (a ++ r) at_ v = patch a at_ v ++ r := by
  unfold patch
  rw [take_append_of_le_length (by omega), drop_append_of_le_length h]
  simp

/-- A write that covers the whole list leaves nothing of it. -/
theorem patch_all (h : b.length ≤ v.length) : patch b 0 v = v := by
  unfold patch
  rw [drop_eq_nil_of_le (by omega)]
  simp

@[simp] theorem patch_nil (b : List α) (at_ : Nat) : patch b at_ [] = b := by
  simp [patch]

/-- Two writes one after the other are one longer write. -/
theorem patch_patch_adjacent {w : List α} {i j : Nat} (h : i ≤ b.length)
    (hj : j = i + v.length) : patch (patch b i v) j w = patch b i (v ++ w) := by
  subst hj
  have hl : (b.take i ++ v).length = i + v.length := by simp; omega
  unfold patch
  rw [take_left' hl, length_append, ← drop_drop, drop_left' hl, drop_drop]
  simp [Nat.add_assoc]

/-! ## Little-endian numbers -/

/-- The `w` low bytes of `n`, least significant first. -/
def leBytes : Nat → Nat → List UInt8
  | 0, _ => []
  | w + 1, n => UInt8.ofNat n :: leBytes w (n / 256)

/-- The number that a little-endian byte string spells. -/
def leNat : List UInt8 → Nat
  | [] => 0
  | b :: bs => b.toNat + 256 * leNat bs

@[simp] theorem leBytes_length (w n : Nat) : (leBytes w n).length = w := by
  induction w generalizing n with
  | zero => rfl
  | succ w ih => simp [leBytes, ih]

theorem leNat_lt (bs : List UInt8) : leNat bs < 256 ^ bs.length := by
  induction bs with
  | nil => simp [leNat]
  | cons b =>
    have hb := b.toNat_lt
    simp only [leNat, length_cons, pow_succ]
    omega

theorem leNat_leBytes (w n : Nat) : leNat (leBytes w n) = n % 256 ^ w := by
  induction w generalizing n with
  | zero => simp [leBytes, leNat, Nat.mod_one]
  | succ w ih =>
    have hsplit : n % 256 ^ (w + 1) = n % 256 + 256 * (n / 256 % 256 ^ w) := by
      rw [Nat.pow_succ, Nat.mul_comm, Nat.mod_mul]
    simp only [leBytes, leNat, ih, UInt8.toNat_ofNat', hsplit]

theorem leBytes_leNat (bs : List UInt8) : leBytes bs.length (leNat bs) = bs := by
  induction bs with
  | nil => rfl
  | cons b bs ih =>
    have hb := b.toNat_lt
    have hd : (b.toNat + 256 * leNat bs) / 256 = leNat bs := by omega
    have hm : UInt8.ofNat (b.toNat + 256 * leNat bs) = b := by
      apply UInt8.toNat_inj.mp
      rw [UInt8.toNat_ofNat']
      omega
    simp only [length_cons, leBytes, leNat, hd, hm, ih]

/-- A field inside `b` is spelled by its number. -/
theorem slice_eq_leBytes {b : List UInt8} (h : lo + n ≤ b.length) :
    slice b lo (lo + n) = leBytes n (leNat (slice b lo (lo + n))) := by
  have hs := leBytes_leNat (slice b lo (lo + n))
  rwa [slice_length_of_le h, Nat.add_sub_cancel_left, eq_comm] at hs

/-! ## Zero bytes -/

def zeros (n : Nat) : List UInt8 := List.replicate n 0

@[simp] theorem zeros_zero : zeros 0 = [] := rfl

@[simp] theorem zeros_length (n : Nat) : (zeros n).length = n := by simp [zeros]

theorem leBytes_zero (w : Nat) : leBytes w 0 = zeros w := by
  induction w with
  | zero => rfl
  | succ w ih => simp [leBytes, ih, zeros, replicate_succ]

theorem zeros_append (m n : Nat) : zeros m ++ zeros n = zeros (m + n) := by
  simp [zeros]

/-- Every byte is zero, as the Rust checks on reserved bytes and pages test it. -/
def allZero (b : List UInt8) : Bool := b.all (· == 0)

theorem allZero_iff (b : List UInt8) : allZero b = true ↔ b = zeros b.length := by
  unfold allZero zeros
  rw [all_eq_true, eq_replicate_iff]
  simp

@[simp] theorem allZero_zeros (n : Nat) : allZero (zeros n) = true := by
  rw [allZero_iff]; simp

/-- Writing into the zero bytes that follow `x`, `k` bytes behind it. -/
theorem patch_zeros {x v : List UInt8} {k : Nat} (h : at_ = x.length + k) (hn : k + v.length ≤ n) :
    patch (x ++ zeros n) at_ v = x ++ zeros k ++ v ++ zeros (n - (k + v.length)) := by
  subst h
  have hz : zeros n = zeros k ++ zeros v.length ++ zeros (n - (k + v.length)) := by
    rw [zeros_append, zeros_append]; congr 1; omega
  have hl : (x ++ zeros k).length = x.length + k := by simp
  unfold patch
  rw [hz, ← append_assoc, ← append_assoc, append_assoc _ _ (zeros (n - _)),
    take_left' hl, ← append_assoc, drop_left' (by simp; omega)]

/-- A field that goes right behind what is there. -/
theorem patch_next {x v : List UInt8} (h : at_ = x.length) (hn : v.length ≤ n) :
    patch (x ++ zeros n) at_ v = x ++ v ++ zeros (n - v.length) := by
  simpa using patch_zeros (k := 0) h (by simpa using hn)

/-- Writing over the middle part of a concatenation. -/
theorem patch_mid {a c : List α} (h : at_ = a.length) (hl : v.length = b.length) :
    patch (a ++ b ++ c) at_ v = a ++ v ++ c := by
  subst h
  unfold patch
  rw [append_assoc a b c, take_left' rfl, ← append_assoc a b c,
    drop_left' (by simp [hl])]

end byte_list
