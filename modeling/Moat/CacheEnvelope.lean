-- The envelope of a cache entry on disk (`moat-cache/src/envelope.rs`): a fixed
-- header, the full key, the properties and the value. The key in the envelope,
-- not its fingerprint, decides whose entry a chunk is.
import Moat.StoreWorker

namespace moat_cache

open byte_list moat_common List

inductive Error where
  | Store (source : moat_cache_store.Error)
  | Invalid (msg : String)
  | Corrupt (msg : String)
  | TooLarge (len max : Nat)
  | Busy
  | Closed
  | NoSpace
deriving DecidableEq, Repr

inductive Priority where
  | Normal
  | High
deriving DecidableEq, Repr

def HEADER_LEN : Nat := 56

/-- `b"MOATCAC2"`. -/
def MAGIC : Bytes := [0x4D, 0x4F, 0x41, 0x54, 0x43, 0x41, 0x43, 0x32]

def FORMAT : Nat := 2

structure Envelope where
  key : Bytes
  properties : Bytes
  value : Bytes
  generation : Nat
  priority : Priority
deriving DecidableEq, Repr

structure Format where
  namespace_ : Id16
  identity_version : UInt32

structure Record where
  key : Bytes
  value : Bytes
  properties : Bytes
  generation : Nat
  priority : Priority

def Format.set_generation (bytes : Bytes) (generation : Nat) : Bytes :=
  patch bytes 32 (leBytes 8 generation)

/-- `u16::from(priority == Priority::High)`. -/
def Priority.flags : Priority → Nat
  | .Normal => 0
  | .High => 1

/-- The header fields, in the order of their offsets. -/
def Format.header (f : Format) (record : Record) : Bytes :=
  MAGIC ++ leBytes 2 FORMAT ++ leBytes 2 record.priority.flags ++
    leBytes 4 f.identity_version.toNat ++ f.namespace_.bytes ++ leBytes 8 record.generation ++
    leBytes 4 record.key.length ++ leBytes 4 record.properties.length ++
    leBytes 8 record.value.length

def Record.encoded_len (record : Record) : Nat :=
  HEADER_LEN + record.key.length + record.properties.length + record.value.length

def Format.encode (f : Format) (record : Record) (max : Nat) : Except Error Bytes :=
  if 2 ^ 64 ≤ record.encoded_len then .error (.TooLarge (2 ^ 64 - 1) max)
  else if max < record.encoded_len then .error (.TooLarge record.encoded_len max)
  else if 2 ^ 32 ≤ record.key.length ∨ 2 ^ 32 ≤ record.properties.length then
    .error (.TooLarge record.encoded_len max)
  else .ok (f.header record ++ record.key ++ record.properties ++ record.value)

def Format.decode (f : Format) (bytes : Bytes) : Except Error Envelope :=
  if bytes.length < HEADER_LEN ∨ slice bytes 0 8 ≠ MAGIC then
    .error (.Corrupt "invalid envelope header")
  else if leNat (slice bytes 8 10) ≠ FORMAT then
    .error (.Corrupt "unsupported envelope version")
  else if leNat (slice bytes 12 16) ≠ f.identity_version.toNat ∨
      slice bytes 16 32 ≠ f.namespace_.bytes then
    .error (.Corrupt "cache namespace or identity version mismatch")
  else
    let priority : Option Priority :=
      match leNat (slice bytes 10 12) with
      | 0 => some .Normal
      | 1 => some .High
      | _ => none
    match priority with
    | none => .error (.Corrupt "unknown envelope flags")
    | some priority =>
      let key_end := HEADER_LEN + leNat (slice bytes 40 44)
      let properties_end := key_end + leNat (slice bytes 44 48)
      let value_end := properties_end + leNat (slice bytes 48 56)
      if 2 ^ 64 ≤ key_end then .error (.Corrupt "key length overflow")
      else if 2 ^ 64 ≤ properties_end then .error (.Corrupt "properties length overflow")
      else if 2 ^ 64 ≤ value_end then .error (.Corrupt "entry length overflow")
      else if value_end ≠ bytes.length then .error (.Corrupt "envelope length mismatch")
      else .ok ⟨slice bytes HEADER_LEN key_end, slice bytes key_end properties_end,
        slice bytes properties_end value_end, leNat (slice bytes 32 40), priority⟩

/-! ## What was encoded is read back -/

theorem Format.header_length (f : Format) (record : Record) :
    (f.header record).length = HEADER_LEN := by
  simp [header, MAGIC, HEADER_LEN, f.namespace_.len]

variable {bytes : Bytes} {f : Format}

theorem Format.encode_ok {record : Record} {max : Nat} (h : f.encode record max = .ok bytes) :
    record.encoded_len < 2 ^ 64 ∧ record.encoded_len ≤ max ∧ record.key.length < 2 ^ 32 ∧
      record.properties.length < 2 ^ 32 ∧
      bytes = f.header record ++ record.key ++ record.properties ++ record.value := by
  unfold encode at h
  split at h
  · cases h
  split at h
  · cases h
  split at h
  · cases h
  rename_i h1 h2 h3
  rw [not_or] at h3
  cases h
  exact ⟨by omega, by omega, by omega, by omega, rfl⟩

/-- The generation is the only field that `set_generation` writes. -/
theorem Format.set_generation_header (f : Format) (record : Record) (rest : Bytes)
    (generation : Nat) :
    Format.set_generation (f.header record ++ rest) generation =
      f.header { record with generation } ++ rest := by
  unfold set_generation header
  simp only [append_assoc]
  have h := patch_mid
    (a := MAGIC ++ leBytes 2 FORMAT ++ leBytes 2 record.priority.flags ++
      leBytes 4 f.identity_version.toNat ++ f.namespace_.bytes)
    (b := leBytes 8 record.generation)
    (c := leBytes 4 record.key.length ++ (leBytes 4 record.properties.length ++
      (leBytes 8 record.value.length ++ rest)))
    (v := leBytes 8 generation) (show 32 = _ by simp [MAGIC, f.namespace_.len]) (by simp)
  simpa only [append_assoc] using h

/-- Every header field stands at its offset. -/
theorem Format.header_fields (f : Format) (record : Record) (rest : Bytes) :
    let bytes := f.header record ++ rest
    slice bytes 0 8 = MAGIC ∧ slice bytes 8 10 = leBytes 2 FORMAT ∧
      slice bytes 10 12 = leBytes 2 record.priority.flags ∧
      slice bytes 12 16 = leBytes 4 f.identity_version.toNat ∧
      slice bytes 16 32 = f.namespace_.bytes ∧ slice bytes 32 40 = leBytes 8 record.generation ∧
      slice bytes 40 44 = leBytes 4 record.key.length ∧
      slice bytes 44 48 = leBytes 4 record.properties.length ∧
      slice bytes 48 56 = leBytes 8 record.value.length := by
  have hn := f.namespace_.len
  have hm : MAGIC.length = 8 := rfl
  simp only [header, append_assoc]
  refine ⟨?_, ?_, ?_, ?_, ?_, ?_, ?_, ?_, ?_⟩ <;>
    simp (disch := simp [hn, hm]) only [slice_append_right, leBytes_length, hn, hm, Nat.reduceSub,
      slice_zero, take_left']

/-- Decoding an encoded record, with the generation set after encoding, gives the record back. -/
theorem Format.decode_encode {record : Record} {max generation : Nat}
    (h : f.encode record max = .ok bytes) (hg : generation < 2 ^ 64) :
    f.decode (Format.set_generation bytes generation) =
      .ok ⟨record.key, record.properties, record.value, generation, record.priority⟩ := by
  obtain ⟨h1, -, h3, h4, rfl⟩ := encode_ok h
  rw [append_assoc, append_assoc, set_generation_header]
  have hlen := f.header_length { record with generation }
  obtain ⟨f1, f2, f3, f4, f5, f6, f7, f8, f9⟩ :=
    f.header_fields { record with generation } (record.key ++ (record.properties ++ record.value))
  have hi : f.identity_version.toNat < 2 ^ 32 := f.identity_version.toNat_lt
  unfold Record.encoded_len HEADER_LEN at h1
  generalize f.header { record with generation } = header at *
  have hb : (header ++ (record.key ++ (record.properties ++ record.value))).length =
      56 + record.key.length + record.properties.length + record.value.length := by
    simp only [length_append, hlen, HEADER_LEN]
    omega
  have hp : leNat (leBytes 2 record.priority.flags) = record.priority.flags := by
    rw [leNat_leBytes, Nat.mod_eq_of_lt]
    cases record.priority <;> decide
  unfold decode
  rw [f1, f2, f3, f4, f5, f6, f7, f8, f9, hp, leNat_leBytes 4 record.key.length,
    leNat_leBytes 4 record.properties.length, leNat_leBytes 8 record.value.length,
    leNat_leBytes 8 generation, leNat_leBytes 4 f.identity_version.toNat,
    Nat.mod_eq_of_lt (a := record.key.length) (by omega),
    Nat.mod_eq_of_lt (a := record.properties.length) (by omega),
    Nat.mod_eq_of_lt (a := record.value.length) (by omega),
    Nat.mod_eq_of_lt (a := generation) (by omega),
    Nat.mod_eq_of_lt (a := f.identity_version.toNat) (by omega)]
  rw [if_neg (by simp only [hb, HEADER_LEN, ne_eq, not_true_eq_false, or_false]; omega),
    if_neg (by decide), if_neg (by simp)]
  have hk : slice (header ++ (record.key ++ (record.properties ++ record.value))) HEADER_LEN
      (HEADER_LEN + record.key.length) = record.key := by
    rw [← append_assoc]
    exact slice_append_mid _ _ _ hlen.symm (by rw [hlen])
  have hq : slice (header ++ (record.key ++ (record.properties ++ record.value)))
      (HEADER_LEN + record.key.length)
      (HEADER_LEN + record.key.length + record.properties.length) = record.properties := by
    rw [← append_assoc, ← append_assoc]
    exact slice_append_mid _ _ _ (by rw [length_append, hlen]) (by rw [length_append, hlen])
  have hw : slice (header ++ (record.key ++ (record.properties ++ record.value)))
      (HEADER_LEN + record.key.length + record.properties.length)
      (HEADER_LEN + record.key.length + record.properties.length + record.value.length) =
        record.value := by
    rw [← append_assoc, ← append_assoc, ← append_nil (header ++ _ ++ _ ++ _)]
    refine slice_append_mid _ _ _ ?_ ?_ <;> simp only [length_append, hlen]
  have hf : (match record.priority.flags with
      | 0 => some Priority.Normal
      | 1 => some Priority.High
      | _ => none) = some record.priority := by
    cases record.priority <;> rfl
  simp only [hf]
  rw [hk, hq, hw, if_neg (by unfold HEADER_LEN; omega), if_neg (by unfold HEADER_LEN; omega),
    if_neg (by unfold HEADER_LEN; omega), if_neg (by rw [hb]; simp [HEADER_LEN])]

/-! ## What is read is an encoding -/

/-- The record that an envelope is the encoding of. -/
def Envelope.record (e : Envelope) : Record :=
  ⟨e.key, e.value, e.properties, e.generation, e.priority⟩

theorem Format.decode_ok {e : Envelope} (h : f.decode bytes = .ok e) :
    56 ≤ bytes.length ∧ slice bytes 0 8 = MAGIC ∧ leNat (slice bytes 8 10) = FORMAT ∧
      leNat (slice bytes 12 16) = f.identity_version.toNat ∧
      slice bytes 16 32 = f.namespace_.bytes ∧
      f.encode e.record bytes.length = .ok bytes := by
  unfold decode at h
  split at h
  · cases h
  rename_i h1
  split at h
  · cases h
  rename_i h2
  split at h
  · cases h
  rename_i h3
  simp only [not_or, not_not, Nat.not_lt, HEADER_LEN] at h1 h2 h3
  simp only at h
  split at h
  · cases h
  rename_i p hp
  split_ifs at h with h4 h5 h6 h7
  rw [not_not] at h7
  have hflags : leNat (slice bytes 10 12) = p.flags := by
    split at hp
    · rename_i h0; cases hp; exact h0
    · rename_i h0; cases hp; exact h0
    · cases hp
  have hk := leNat_lt (slice bytes 40 44)
  have hq := leNat_lt (slice bytes 44 48)
  rw [slice_length_of_le (by omega)] at hk hq
  obtain rfl := Except.ok.inj h
  refine ⟨h1.1, h1.2, h2, h3.1, h3.2, ?_⟩
  have field : ∀ lo n {v}, lo + n ≤ 56 → leNat (slice bytes lo (lo + n)) = v →
      leBytes n v = slice bytes lo (lo + n) := by
    rintro lo n _ hle rfl
    exact (slice_eq_leBytes (by omega)).symm
  have len : ∀ {lo n}, lo + n ≤ bytes.length → (slice bytes lo (lo + n)).length = n :=
    fun hle => (slice_length_of_le hle).trans (Nat.add_sub_cancel_left ..)
  simp only [HEADER_LEN] at h4 h5 h6 h7
  unfold encode Record.encoded_len header Envelope.record HEADER_LEN
  simp only [len (Nat.le_of_eq h7), len (Nat.le_trans (Nat.le_add_right _ _) (Nat.le_of_eq h7)),
    len (show 56 + leNat (slice bytes 40 44) ≤ bytes.length by omega)]
  rw [if_neg (by omega), if_neg (by omega), if_neg (by omega), ← h1.2, field 8 2 (by omega) h2,
    field 10 2 (by omega) hflags, field 12 4 (by omega) h3.1, ← h3.2, field 32 8 (by omega) rfl,
    field 40 4 (by omega) rfl, field 44 4 (by omega) rfl, field 48 8 (by omega) rfl]
  simp (disch := omega) only [slice_append_slice]
  rw [h7, slice_self_length]

/-- Envelopes on disk are exact. An encoded record is read back, and a generation that is set
afterwards is as good as one encoded; every byte string that is accepted is the encoding of what
was read from it, and is turned down under any other namespace or identity version. -/
theorem envelopes_are_exact (f : Format) :
    (∀ record max bytes, f.encode record max = .ok bytes →
      (record.generation < 2 ^ 64 → f.decode bytes = .ok
        ⟨record.key, record.properties, record.value, record.generation, record.priority⟩) ∧
      ∀ generation, f.encode { record with generation } max =
        .ok (Format.set_generation bytes generation)) ∧
    ∀ bytes e, f.decode bytes = .ok e → f.encode e.record bytes.length = .ok bytes ∧
      ∀ g : Format, g.namespace_ ≠ f.namespace_ ∨ g.identity_version ≠ f.identity_version →
        g.decode bytes = .error (.Corrupt "cache namespace or identity version mismatch") := by
  refine ⟨fun record max bytes h => ?_, fun bytes e h => ?_⟩
  · have hset : ∀ generation, f.encode { record with generation } max =
        .ok (Format.set_generation bytes generation) := by
      intro generation
      obtain ⟨h1, h2, h3, h4, rfl⟩ := Format.encode_ok h
      rw [append_assoc, append_assoc, Format.set_generation_header]
      unfold Record.encoded_len at h1 h2
      unfold Format.encode Record.encoded_len
      rw [if_neg (by simp only; omega), if_neg (by simp only; omega), if_neg (by simp only; omega)]
      simp only [append_assoc]
    refine ⟨fun hg => ?_, hset⟩
    have hsame : bytes = Format.set_generation bytes record.generation :=
      Except.ok.inj (h.symm.trans (hset record.generation))
    rw [hsame]
    exact Format.decode_encode h hg
  · obtain ⟨h1, h2, h3, h4, h5, h6⟩ := Format.decode_ok h
    refine ⟨h6, fun g hg => ?_⟩
    unfold Format.decode
    rw [if_neg (by simp only [h2, HEADER_LEN, ne_eq, not_true_eq_false, or_false]; omega),
      if_neg (not_not.mpr h3), if_pos]
    rcases hg with hg | hg
    · refine .inr fun hn => hg ?_
      have hid := congrArg Id16.from_bytes (hn.symm.trans h5)
      rwa [Id16.from_bytes_eq g.namespace_.len, Id16.from_bytes_eq f.namespace_.len] at hid
    · exact .inl fun hn => hg (UInt32.toNat_inj.mp (hn.symm.trans h4))

/-- A record without properties. -/
def oneRecord : Record := ⟨[1, 2], [3, 4, 5], [], 6, .High⟩

/-- It is read back under its own version of the identity, and turned down under the next. -/
theorem oneRecord_is_exact :
    let f : Format := ⟨.from_bytes [7], 1⟩
    ∃ bytes, f.encode oneRecord 64 = .ok bytes ∧
      f.decode bytes = .ok ⟨[1, 2], [], [3, 4, 5], 6, .High⟩ ∧
      Format.decode { f with identity_version := 2 } bytes =
        .error (.Corrupt "cache namespace or identity version mismatch") := by
  intro f
  have hex := envelopes_are_exact f
  obtain ⟨bytes, hb⟩ : ∃ bytes, f.encode oneRecord 64 = .ok bytes := ⟨_, rfl⟩
  have hd := (hex.1 oneRecord 64 bytes hb).1 (by decide)
  exact ⟨bytes, hb, hd, (hex.2 bytes _ hd).2 _ (.inr (show (2 : UInt32) ≠ 1 by decide))⟩

end moat_cache
