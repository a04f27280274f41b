-- Checking a part of a value: ranges are widened to whole checksum blocks, and
-- the parts of a value pass the check exactly when the whole value does.
import Moat.FrameDecode

namespace moat_engine.frame

open byte_list moat_common

/-- A range of a value that consists of whole checksum blocks. Only the last block may be short. -/
structure WholeBlocks (len lo hi : Nat) : Prop where
  nonempty : lo < hi
  inside : hi ≤ len
  start : lo % 65536 = 0
  stop : hi % 65536 = 0 ∨ hi = len

/-- Block `k` of a value has the checksum that the record gives for it. -/
def Record.Matches (r : Record) (value : Bytes) (k : Nat) : Prop :=
  r.checksum k = some (crc32c (slice value (k * 65536) (k * 65536 + 65536)))

variable {r : Record} {value : Bytes} {len start end_ lo hi : Nat}

/-! ## Widening -/

theorem WholeBlocks.fixed (h : WholeBlocks len lo hi) :
    verification_range len lo hi = .ok (lo, hi) := by
  obtain ⟨h1, h2, h3, h4⟩ := h
  rw [verification_range_eq h1.le h2, if_neg (by omega), Except.ok.injEq, Prod.mk.injEq]
  omega

/-- The smallest range of whole blocks around a nonempty range. -/
theorem verification_range_least (h1 : start < end_) (h2 : end_ ≤ len) :
    ∃ lo hi, verification_range len start end_ = .ok (lo, hi) ∧ WholeBlocks len lo hi ∧
      lo ≤ start ∧ end_ ≤ hi ∧
      ∀ lo' hi', WholeBlocks len lo' hi' → lo' ≤ start → end_ ≤ hi' → lo' ≤ lo ∧ hi ≤ hi' := by
  refine ⟨_, _, (verification_range_eq h1.le h2).trans (if_neg (by omega)),
    ⟨by omega, by omega, by omega, by omega⟩, by omega, by omega, ?_⟩
  rintro lo' hi' ⟨-, g2, g3, g4⟩ g5 g6
  omega

/-- A range that is its own widening is empty or whole blocks. -/
theorem wholeBlocks_of_fixed (h : verification_range len lo hi = .ok (lo, hi)) :
    lo ≤ hi ∧ hi ≤ len ∧ (lo < hi → WholeBlocks len lo hi) := by
  have hb : lo ≤ hi ∧ hi ≤ len := by
    unfold verification_range validate_range at h
    by_contra hc
    rw [if_pos (by omega)] at h
    cases h
  refine ⟨hb.1, hb.2, fun hlt => ?_⟩
  rw [verification_range_eq hb.1 hb.2, if_neg (by omega), Except.ok.injEq, Prod.mk.injEq] at h
  exact ⟨hlt, hb.2, by omega, by omega⟩

/-! ## Blocks of a part -/

/-- The loop stops at the first block that does not match. -/
theorem verify_blocks_loop_error {expected : Nat → Option Nat} {bs : List Bytes} {index block : Nat}
    (h : verify_blocks_loop expected bs index = .error block) :
    ∃ i b, block = index + i ∧ bs[i]? = some b ∧ expected (index + i) ≠ some (crc32c b) ∧
      ∀ k < i, ∀ b', bs[k]? = some b' → expected (index + k) = some (crc32c b') := by
  induction bs generalizing index with
  | nil => cases h
  | cons b bs ih =>
    unfold verify_blocks_loop at h
    split at h
    · rename_i hb
      obtain ⟨i, b', rfl, hi, hne, hlow⟩ := ih h
      refine ⟨i + 1,
        b', by omega, hi, by rwa [← Nat.add_assoc, Nat.add_right_comm], fun k hk c hc => ?_⟩
      cases k with
      | zero =>
        cases hc
        exact hb
      | succ k =>
        rw [← Nat.add_assoc, Nat.add_right_comm]
        exact hlow k (by omega) c hc
    · rename_i hb
      cases h
      exact ⟨0, b, rfl, rfl, hb, fun k hk => absurd hk (Nat.not_lt_zero k)⟩

/-- Block `i` of a part is a block of the value. -/
theorem WholeBlocks.getElem?_blocks (h : WholeBlocks value.length lo hi) (i : Nat) :
    (blocks (slice value lo hi))[i]? = if (lo / 65536 + i) * 65536 < hi then
      some (slice value ((lo / 65536 + i) * 65536) ((lo / 65536 + i) * 65536 + 65536))
        else none := by
  obtain ⟨h1, h2, h3, h4⟩ := h
  have hlo : (lo / 65536 + i) * 65536 = lo + i * 65536 := by omega
  rw [moat_common.getElem?_blocks, slice_length_of_le h2, hlo, slice_slice_min]
  by_cases hi' : lo + i * 65536 < hi
  · rw [if_pos (by omega), if_pos hi']
    rcases h4 with h4 | rfl
    · rw [Nat.min_eq_left (by omega), Nat.add_assoc]
    · rcases Nat.le_total (lo + (i * 65536 + 65536)) value.length with hle | hle
      · rw [Nat.min_eq_left hle, Nat.add_assoc]
      · rw [Nat.min_eq_right hle, slice_eq_drop (Nat.le_refl _),
          slice_eq_drop (hle.trans_eq (Nat.add_assoc ..).symm)]
  · rw [if_neg (by omega), if_neg hi']

/-- What the check of a part says about the blocks of the value. -/
theorem Record.verify_part (hv : value.length = r.descriptor.value_len)
    (h : WholeBlocks value.length lo hi) :
    (r.verify lo hi (slice value lo hi) = .ok () ∧
      ∀ k, lo ≤ k * 65536 → k * 65536 < hi → r.Matches value k) ∨
    ∃ k, r.verify lo hi (slice value lo hi) = .error (.PayloadChecksum r.ordinal k) ∧
      lo ≤ k * 65536 ∧ k * 65536 < hi ∧ ¬ r.Matches value k ∧
      ∀ k', lo ≤ k' * 65536 → k' < k → r.Matches value k' := by
  have hdiv := h.start
  have hlen : (slice value lo hi).length = hi - lo := slice_length_of_le h.inside
  unfold Record.verify
  rw [← hv, h.fixed]
  simp only [hlen, ne_eq, not_true_eq_false, or_self, if_false]
  split
  · rename_i block hb
    obtain ⟨i, b, rfl, hi', hne, hlow⟩ := verify_blocks_loop_error hb
    rw [h.getElem?_blocks] at hi'
    split at hi'
    · rename_i hlt
      cases hi'
      refine .inr ⟨lo / 65536 + i, rfl, by omega, hlt, hne, fun k hk hlt' => ?_⟩
      obtain ⟨j, rfl⟩ : ∃ j, k = lo / 65536 + j := ⟨k - lo / 65536, by omega⟩
      have hj : (lo / 65536 + j) * 65536 < hi := (Nat.mul_le_mul_right 65536 hlt'.le).trans_lt hlt
      exact hlow j (by omega) _ ((h.getElem?_blocks j).trans (if_pos hj))
    · cases hi'
  · rename_i hok
    refine .inl ⟨rfl, fun k hk hlt => ?_⟩
    obtain ⟨j, rfl⟩ : ∃ j, k = lo / 65536 + j := ⟨k - lo / 65536, by omega⟩
    exact (verify_blocks_loop_ok ..).mp hok j _
      ((h.getElem?_blocks j).trans (if_pos hlt))

theorem Record.verify_part_ok (hv : value.length = r.descriptor.value_len)
    (h : WholeBlocks value.length lo hi) : r.verify lo hi (slice value lo hi) = .ok () ↔
      ∀ k, lo ≤ k * 65536 → k * 65536 < hi → r.Matches value k := by
  rcases r.verify_part hv h with ⟨hok, hall⟩ | ⟨k, herr, h1, h2, h3, -⟩
  · exact iff_of_true hok hall
  · exact iff_of_false (by rw [herr]; nofun) fun hall => h3 (hall k h1 h2)

/-! ## Composition -/

/-- Ranges are widened to the smallest range of whole blocks, only such ranges are checked, and the
parts that cover a value pass exactly when the value passes as a whole. -/
theorem partial_verification_composes (r : Record) :
    (∀ start end_, start < end_ → end_ ≤ r.descriptor.value_len →
      ∃ lo hi, verification_range r.descriptor.value_len start end_ = .ok (lo, hi) ∧
        WholeBlocks r.descriptor.value_len lo hi ∧ lo ≤ start ∧ end_ ≤ hi ∧
        (∀ lo' hi', WholeBlocks r.descriptor.value_len lo' hi' → lo' ≤ start → end_ ≤ hi' →
          lo' ≤ lo ∧ hi ≤ hi') ∧
        verification_range r.descriptor.value_len lo hi = .ok (lo, hi)) ∧
    (∀ start end_ bytes, r.verify start end_ bytes = .ok () →
      start ≤ end_ ∧ end_ ≤ r.descriptor.value_len ∧ bytes.length = end_ - start ∧
        (start < end_ → WholeBlocks r.descriptor.value_len start end_)) ∧
    (∀ value : Bytes, value.length = r.descriptor.value_len →
      (∀ ranges : Set (Nat × Nat),
        (∀ x ∈ ranges, WholeBlocks r.descriptor.value_len x.1 x.2) →
        (∀ i < r.descriptor.value_len, ∃ x ∈ ranges, x.1 ≤ i ∧ i < x.2) →
        ((∀ x ∈ ranges, r.verify x.1 x.2 (slice value x.1 x.2) = .ok ()) ↔
          r.verify 0 r.descriptor.value_len value = .ok ())) ∧
      ∀ lo hi e, WholeBlocks r.descriptor.value_len lo hi →
        r.verify lo hi (slice value lo hi) = .error e →
        ∃ k, e = .PayloadChecksum r.ordinal k ∧ lo ≤ k * 65536 ∧ k * 65536 < hi ∧
          ¬ r.Matches value k ∧ ∀ k', lo ≤ k' * 65536 → k' < k → r.Matches value k') := by
  refine ⟨fun start end_ h1 h2 => ?_, fun start end_ bytes h => ?_, fun value hv => ?_⟩
  · obtain ⟨lo, hi, g1, g2, g3, g4, g5⟩ := verification_range_least h1 h2
    exact ⟨lo, hi, g1, g2, g3, g4, g5, g2.fixed⟩
  · unfold Record.verify at h
    split at h
    · cases h
    split at h
    · cases h
    rename_i hr hc
    push Not at hc
    obtain ⟨rfl, hlen⟩ := hc
    obtain ⟨g1, g2, g3⟩ := wholeBlocks_of_fixed hr
    exact ⟨g1, g2, hlen, g3⟩
  rw [← hv]
  refine ⟨fun ranges hr hcover => ?_, fun lo hi e hw he => ?_⟩
  · have hwhole : r.verify 0 value.length value = .ok () ↔
        ∀ k, k * 65536 < value.length → r.Matches value k := by
      rcases Nat.eq_zero_or_pos value.length with h0 | h0
      · obtain rfl := List.length_eq_zero_iff.mp h0
        exact iff_of_true (Record.verify_ok (by rw [← hv]; rfl) rfl rfl) (by simp)
      · have := r.verify_part_ok hv ⟨h0, Nat.le_refl _, rfl, .inr rfl⟩
        rw [slice_self_length] at this
        rw [this]
        exact ⟨fun h k => h k (Nat.zero_le _), fun h k _ => h k⟩
    rw [hwhole]
    constructor
    · intro hall k hk
      obtain ⟨x, hx, h1, h2⟩ := hcover _ hk
      exact (r.verify_part_ok hv (hr x hx)).mp (hall x hx) k h1 h2
    · intro hall x hx
      exact (r.verify_part_ok hv (hr x hx)).mpr fun k _ hk => hall k (hk.trans_le (hr x hx).inside)
  · rcases r.verify_part hv hw with ⟨hok, -⟩ | ⟨k, herr, hrest⟩
    · rw [hok] at he
      cases he
    · rw [herr] at he
      cases he
      exact ⟨k, rfl, hrest⟩

end moat_engine.frame
