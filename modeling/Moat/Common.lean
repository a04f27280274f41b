-- The shared helpers of the `moat-common` crate: page alignment, 16-byte
-- identities, and the CRC32C checksums of a value's 64 KiB blocks.
import Moat.Bytes

namespace moat_common

open byte_list

abbrev Bytes := List UInt8

/-- A result that evaluates to a success has a value. -/
theorem exists_of_isOk {ε α : Type} {r : Except ε α} (h : r.isOk = true) : ∃ a, r = .ok a := by
  cases r with
  | error => cases h
  | ok a => exact ⟨a, rfl⟩

/-- A result that evaluates to a success with a decidable property. -/
theorem exists_of_any {ε α : Type} {r : Except ε α} {P : α → Prop} [DecidablePred P]
    (h : r.toOption.any (fun a => P a) = true) : ∃ a, r = .ok a ∧ P a := by
  cases r with
  | error => cases h
  | ok a => exact ⟨a, rfl, of_decide_eq_true h⟩

/-- A check that fails with an error was passed. -/
theorem ite_error_eq_ok {ε α : Type} {c : Prop} [Decidable c] {e : ε} {r : Except ε α} {a : α} :
    (if c then .error e else r) = .ok a ↔ ¬ c ∧ r = .ok a := by
  split <;> simp_all

/-! ## Alignment -/

/-- The I/O and layout alignment unit. -/
def PAGE_SIZE : Nat := 4096

/-- `value & !(align - 1)`: clearing the low bits subtracts them. -/
def align_down (value align : Nat) : Nat := value - (value &&& (align - 1))

/-- `(value + align - 1) & !(align - 1)`. -/
def align_up (value align : Nat) : Nat := align_down (value + align - 1) align

/-- `value & (align - 1) == 0`. -/
def is_aligned (value align : Nat) : Bool := value &&& (align - 1) == 0

theorem align_down_two_pow (v k : Nat) : align_down v (2 ^ k) = v / 2 ^ k * 2 ^ k := by
  unfold align_down
  rw [Nat.and_two_pow_sub_one_eq_mod]
  have := Nat.div_add_mod v (2 ^ k)
  rw [Nat.mul_comm] at this
  omega

theorem is_aligned_two_pow (v k : Nat) : is_aligned v (2 ^ k) = true ↔ v % 2 ^ k = 0 := by
  unfold is_aligned
  rw [Nat.and_two_pow_sub_one_eq_mod]
  simp

theorem page_ge : 4096 ≤ PAGE_SIZE := Nat.le_refl _

theorem page_mod : PAGE_SIZE % 4096 = 0 := rfl

theorem align_up_page (v : Nat) : align_up v PAGE_SIZE = (v + 4095) / 4096 * 4096 :=
  align_down_two_pow (v + 4095) 12

theorem is_aligned_page (v : Nat) : is_aligned v PAGE_SIZE = true ↔ v % 4096 = 0 :=
  is_aligned_two_pow v 12

theorem align_up_eight (v : Nat) : align_up v 8 = (v + 7) / 8 * 8 :=
  align_down_two_pow (v + 7) 3

theorem is_aligned_eight (v : Nat) : is_aligned v 8 = true ↔ v % 8 = 0 :=
  is_aligned_two_pow v 3

/-! ## Identities -/

/-- A Rust `[u8; 16]`: a chunk id or a device identity. -/
structure Id16 where
  bytes : Bytes
  len : bytes.length = 16
deriving DecidableEq

abbrev ChunkId := Id16

/-- `try_into` of a 16-byte slice. The pad never shows: every caller checked the length. -/
def Id16.from_bytes (b : Bytes) : Id16 :=
  ⟨(b ++ zeros 16).take 16, by simp⟩

theorem Id16.from_bytes_eq {b : Bytes} (h : b.length = 16) : Id16.from_bytes b = ⟨b, h⟩ := by
  simp [Id16.from_bytes, h]

/-! ## CRC32C -/

/-- One bit of the reflected Castagnoli division. -/
def crcBit (reg : Nat) : Nat := if reg % 2 = 1 then (reg / 2) ^^^ 0x82F63B78 else reg / 2

def crcByte (reg : Nat) (b : UInt8) : Nat :=
  crcBit (crcBit (crcBit (crcBit (crcBit (crcBit (crcBit (crcBit (reg ^^^ b.toNat))))))))

/-- The incremental checksum: the register between two `update` calls. -/
structure Crc32c where
  reg : Nat
deriving DecidableEq

def Crc32c.new : Crc32c := ⟨0xFFFFFFFF⟩

def Crc32c.update (c : Crc32c) (data : Bytes) : Crc32c := ⟨data.foldl crcByte c.reg⟩

def Crc32c.finalize (c : Crc32c) : Nat := (c.reg ^^^ 0xFFFFFFFF) % 2 ^ 32

/-- The CRC32C (Castagnoli, RFC 3720) of `data`. -/
def crc32c (data : Bytes) : Nat := (Crc32c.new.update data).finalize

theorem Crc32c.update_append (c : Crc32c) (a b : Bytes) :
    c.update (a ++ b) = (c.update a).update b := by
  simp [Crc32c.update]

theorem Crc32c.finalize_lt (c : Crc32c) : c.finalize < 2 ^ 32 :=
  Nat.mod_lt _ (by decide)

theorem crc32c_lt (data : Bytes) : crc32c data < 2 ^ 32 := Crc32c.finalize_lt _

/-- The RFC 3720 test vector of the Rust unit tests. -/
example : crc32c [0x31, 0x32, 0x33, 0x34, 0x35, 0x36, 0x37, 0x38, 0x39] = 0xe3069283 := by
  decide +kernel

/-! ## Block checksums -/

/-- The value checksum granularity: 64 KiB. -/
def CHECKSUM_BLOCK_SIZE : Nat := 65536

/-- How many checksum blocks a value of `len` bytes has. -/
def block_count (len : Nat) : Nat := (len + 65535) / 65536 % 2 ^ 32

theorem block_count_eq {len : Nat} (h : len < 2 ^ 47) :
    block_count len = (len + 65535) / 65536 := by
  unfold block_count
  apply Nat.mod_eq_of_lt
  omega

/-- `data.chunks(CHECKSUM_BLOCK_SIZE)`: whole blocks, and a shorter last one. -/
def blocks (data : Bytes) : List Bytes :=
  (List.range ((data.length + 65535) / 65536)).map
    (fun i => slice data (i * 65536) (i * 65536 + 65536))

@[simp] theorem blocks_length (data : Bytes) :
    (blocks data).length = (data.length + 65535) / 65536 := by
  simp [blocks]

theorem getElem?_blocks (data : Bytes) (i : Nat) :
    (blocks data)[i]? = if i * 65536 < data.length then
      some (slice data (i * 65536) (i * 65536 + 65536)) else none := by
  unfold blocks
  by_cases h : i * 65536 < data.length
  · rw [if_pos h, List.getElem?_map, List.getElem?_range (by omega)]
    rfl
  · rw [if_neg h, List.getElem?_eq_none (by simp; omega)]

def block_checksums_iter (data : Bytes) : List Nat := (blocks data).map crc32c

@[simp] theorem block_checksums_iter_length (data : Bytes) :
    (block_checksums_iter data).length = (data.length + 65535) / 65536 := by
  simp [block_checksums_iter]

/-- The loop of `verify_blocks_with` over the blocks that are left. -/
def verify_blocks_loop (expected : Nat → Option Nat) : List Bytes → Nat → Except Nat Unit
  | [], _ => .ok ()
  | block :: rest, index =>
    if expected index = some (crc32c block) then verify_blocks_loop expected rest (index + 1)
    else .error index

/-- Checks each block of `data` against `expected`, from block number `first_block` on, and
gives the number of the first block that does not match. -/
def verify_blocks_with (data : Bytes) (first_block : Nat) (expected : Nat → Option Nat) :
    Except Nat Unit :=
  verify_blocks_loop expected (blocks data) first_block

theorem verify_blocks_loop_ok (expected : Nat → Option Nat) (bs : List Bytes) (index : Nat) :
    verify_blocks_loop expected bs index = .ok () ↔
      ∀ i b, bs[i]? = some b → expected (index + i) = some (crc32c b) := by
  induction bs generalizing index with
  | nil => simp [verify_blocks_loop]
  | cons block rest ih =>
    unfold verify_blocks_loop
    split
    · rename_i hb
      rw [ih]
      constructor
      · intro h i b hib
        cases i with
        | zero => simp at hib; subst hib; simpa using hb
        | succ i =>
          have := h i b (by simpa using hib)
          rwa [show index + (i + 1) = index + 1 + i by omega]
      · intro h i b hib
        have := h (i + 1) b (by simpa using hib)
        rwa [show index + (i + 1) = index + 1 + i by omega] at this
    · rename_i hb
      simp only [reduceCtorEq, false_iff]
      intro h
      exact hb (by simpa using h 0 block (by simp))

/-- A value passes the check exactly when each of its blocks has the expected checksum. -/
theorem verify_blocks_with_ok (data : Bytes) (first : Nat) (expected : Nat → Option Nat) :
    verify_blocks_with data first expected = .ok () ↔
      ∀ i, i * 65536 < data.length →
        expected (first + i) = some (crc32c (slice data (i * 65536) (i * 65536 + 65536))) := by
  unfold verify_blocks_with
  rw [verify_blocks_loop_ok]
  constructor
  · intro h i hi
    exact h i _ (by rw [getElem?_blocks, if_pos hi])
  · intro h i b hb
    rw [getElem?_blocks] at hb
    split at hb
    · cases hb; exact h i ‹_›
    · cases hb

end moat_common
