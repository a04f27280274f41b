-- The fixed-offset field accessors of `moat-engine/src/codec.rs`, and how a
-- field reads back after it, or another field, was put.
import Moat.Common

namespace moat_engine.codec

open byte_list moat_common List

def u32_at (bytes : Bytes) (at_ : Nat) : Nat := leNat (slice bytes at_ (at_ + 4))

def u64_at (bytes : Bytes) (at_ : Nat) : Nat := leNat (slice bytes at_ (at_ + 8))

/-- `value.to_le_bytes()` of a `u32`. A larger value is cut, as `as u32` cuts it. -/
def put_u32 (bytes : Bytes) (at_ value : Nat) : Bytes := patch bytes at_ (leBytes 4 value)

def put_u64 (bytes : Bytes) (at_ value : Nat) : Bytes := patch bytes at_ (leBytes 8 value)

/-- The checksum of a structure whose own checksum field at 12 counts as zero. -/
def crc_with_zeroed_checksum (bytes : Bytes) : Nat :=
  (((Crc32c.new.update (slice bytes 0 12)).update (zeros 4)).update (bytes.drop 16)).finalize

theorem crc_with_zeroed_checksum_lt (bytes : Bytes) : crc_with_zeroed_checksum bytes < 2 ^ 32 :=
  Crc32c.finalize_lt _

theorem u32_at_lt (bytes : Bytes) (at_ : Nat) : u32_at bytes at_ < 2 ^ 32 := by
  have h := leNat_lt (slice bytes at_ (at_ + 4))
  have hl : (slice bytes at_ (at_ + 4)).length ≤ 4 := by rw [slice_length]; omega
  have hp : 256 ^ (slice bytes at_ (at_ + 4)).length ≤ 256 ^ 4 :=
    Nat.pow_le_pow_right (by omega) hl
  unfold u32_at
  omega

theorem u64_at_lt (bytes : Bytes) (at_ : Nat) : u64_at bytes at_ < 2 ^ 64 := by
  have h := leNat_lt (slice bytes at_ (at_ + 8))
  have hl : (slice bytes at_ (at_ + 8)).length ≤ 8 := by rw [slice_length]; omega
  have hp : 256 ^ (slice bytes at_ (at_ + 8)).length ≤ 256 ^ 8 :=
    Nat.pow_le_pow_right (by omega) hl
  unfold u64_at
  omega

/-! ## Reading a field back -/

/-- A `u32` field that holds the little-endian bytes of `v`. -/
theorem u32_at_of_slice {b : Bytes} {at_ v : Nat} (h : slice b at_ (at_ + 4) = leBytes 4 v) :
    u32_at b at_ = v % 2 ^ 32 := by
  unfold u32_at
  rw [h, leNat_leBytes]
  norm_num

theorem u64_at_of_slice {b : Bytes} {at_ v : Nat} (h : slice b at_ (at_ + 8) = leBytes 8 v) :
    u64_at b at_ = v % 2 ^ 64 := by
  unfold u64_at
  rw [h, leNat_leBytes]
  norm_num

/-- The checksum that skips its own field does not see what the field holds. -/
theorem crc_with_zeroed_checksum_congr {a b : Bytes} (h1 : slice a 0 12 = slice b 0 12)
    (h2 : a.drop 16 = b.drop 16) : crc_with_zeroed_checksum a = crc_with_zeroed_checksum b := by
  unfold crc_with_zeroed_checksum
  rw [h1, h2]

theorem crc_with_zeroed_checksum_put (b : Bytes) (v : Nat) (h : 16 ≤ b.length) :
    crc_with_zeroed_checksum (put_u32 b 12 v) = crc_with_zeroed_checksum b := by
  apply crc_with_zeroed_checksum_congr
  · exact slice_patch_before (by simp; omega) (Nat.le_refl _)
  · exact drop_patch_after (by simp; omega) (by simp)

/-! ## Stamped structures

Every header, trailer and superblock starts the same way: eight magic bytes, a version, and a
checksum over the whole structure with its own field as zero. -/

def stampWith (magic : Bytes) (version crc : Nat) (body : Bytes) : Bytes :=
  magic ++ leBytes 4 version ++ leBytes 4 crc ++ body

/-- A structure with the right checksum in its prefix. -/
def stamp (magic : Bytes) (version : Nat) (body : Bytes) : Bytes :=
  stampWith magic version (crc_with_zeroed_checksum (stampWith magic version 0 body)) body

section stamp

variable {magic : Bytes} (hm : magic.length = 8) (version : Nat) (body : Bytes)

include hm

theorem stampWith_length (crc : Nat) :
    (stampWith magic version crc body).length = 16 + body.length := by
  simp [stampWith, hm]; omega

theorem stamp_length : (stamp magic version body).length = 16 + body.length :=
  stampWith_length hm version body _

theorem put_stampWith (a b : Nat) :
    put_u32 (stampWith magic version a body) 12 b = stampWith magic version b body :=
  patch_mid (by simp [hm]) (by simp)

/-- Putting the checksum makes the structure a stamped one. -/
theorem put_stamp :
    put_u32 (stampWith magic version 0 body) 12
      (crc_with_zeroed_checksum (stampWith magic version 0 body)) = stamp magic version body :=
  put_stampWith hm version body 0 _

theorem stamp_magic : slice (stamp magic version body) 0 8 = magic := by
  unfold stamp stampWith
  rw [append_assoc, append_assoc, slice_append_left _ _ (by omega), ← hm,
    slice_self_length]

theorem stamp_version : u32_at (stamp magic version body) 8 = version % 2 ^ 32 := by
  apply u32_at_of_slice
  unfold stamp stampWith
  rw [append_assoc (magic ++ _)]
  exact slice_append_mid _ _ _ hm.symm (by simp [hm])

theorem stamp_checksum :
    u32_at (stamp magic version body) 12 = crc_with_zeroed_checksum (stamp magic version body) := by
  have hput := crc_with_zeroed_checksum_put (stampWith magic version 0 body)
    (crc_with_zeroed_checksum (stampWith magic version 0 body))
    (by rw [stampWith_length hm]; omega)
  rw [put_stamp hm] at hput
  rw [hput]
  have hs : slice (stamp magic version body) 12 (12 + 4) =
      leBytes 4 (crc_with_zeroed_checksum (stampWith magic version 0 body)) := by
    unfold stamp stampWith
    exact slice_append_mid _ _ _ (by simp [hm]) (by simp [hm])
  rw [u32_at_of_slice hs]
  exact Nat.mod_eq_of_lt (crc_with_zeroed_checksum_lt _)

theorem stamp_slice {i j : Nat} (h : 16 ≤ i) :
    slice (stamp magic version body) i j = slice body (i - 16) (j - 16) := by
  unfold stamp stampWith
  rw [slice_append_right _ _ (by simp [hm]; omega)]
  simp [hm]

theorem stamp_drop {i : Nat} (h : 16 ≤ i) :
    (stamp magic version body).drop i = body.drop (i - 16) := by
  unfold stamp stampWith
  rw [drop_append, drop_eq_nil_of_le (by simp [hm]; omega)]
  simp [hm]

/-- A `u32` field of the body. -/
theorem stamp_u32 {i v : Nat} (h : 16 ≤ i) (hv : slice body (i - 16) (i - 16 + 4) = leBytes 4 v) :
    u32_at (stamp magic version body) i = v % 2 ^ 32 := by
  apply u32_at_of_slice
  rw [stamp_slice hm _ _ h, show i + 4 - 16 = i - 16 + 4 by omega, hv]

theorem stamp_u64 {i v : Nat} (h : 16 ≤ i) (hv : slice body (i - 16) (i - 16 + 8) = leBytes 8 v) :
    u64_at (stamp magic version body) i = v % 2 ^ 64 := by
  apply u64_at_of_slice
  rw [stamp_slice hm _ _ h, show i + 8 - 16 = i - 16 + 8 by omega, hv]

end stamp

end moat_engine.codec
