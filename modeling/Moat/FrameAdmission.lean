-- Admission on a builder that is changed in place: the fields as the source
-- keeps them, written one by one, and calls that go on after an error. Every
-- builder that a caller can reach is one that carries its invariant.
import Moat.FrameBuilder

namespace moat_engine.frame

open byte_list moat_common moat_engine.codec

/-! ## Fields that change in place -/

/-- The fields of the source's `FrameBuilder`, with nothing known about them. -/
structure BuilderFields where
  limits : FrameLimits
  records : List Input
  checksum_len : Nat
  payload_end : Nat

def BuilderFields.new (limits : FrameLimits) : BuilderFields := ⟨limits, [], 0, 0⟩

def BuilderFields.metadata_len (b : BuilderFields) : Nat :=
  HEADER_LEN + b.records.length * DESCRIPTOR_LEN + b.checksum_len

def BuilderFields.encoded_len (b : BuilderFields) : Nat :=
  if b.records.isEmpty then 0
  else
    align_up (b.records.foldl (fun end_ record => (place end_ record.value.length).2)
      b.metadata_len)
      PAGE_SIZE

/-- An error keeps the fields as they are when it is thrown. -/
def BuilderFields.admit (input : Input) : EStateM Error BuilderFields Unit := do
  let self ← get
  if input.value.length > self.limits.max_value_len then
    throw (.ValueTooLarge input.value.length self.limits.max_value_len)
  let checksum_len := self.checksum_len + 4 * block_count input.value.length
  let metadata_len := HEADER_LEN + (self.records.length + 1) * DESCRIPTOR_LEN + checksum_len
  let payload_end := (place self.payload_end input.value.length).2
  let upper := align_up metadata_len PAGE_SIZE + align_up payload_end PAGE_SIZE
  if upper > self.limits.max_frame_len then
    let end_ := (self.records ++ [input]).foldl
      (fun end_ record => (place end_ record.value.length).2) metadata_len
    let required := align_up end_ PAGE_SIZE
    if required > self.limits.max_frame_len then
      throw (.FrameFull required self.limits.max_frame_len)
  modify fun self => { self with records := self.records ++ [input] }
  modify fun self => { self with checksum_len }
  modify fun self => { self with payload_end }

def BuilderFields.push (key : ChunkId) (lsn : UInt64) (value : Bytes) :
    EStateM Error BuilderFields Unit :=
  BuilderFields.admit ⟨key, lsn, .Data, value, Input.data_any value⟩

def BuilderFields.push_tombstone (key : ChunkId) (lsn : UInt64) :
    EStateM Error BuilderFields Unit :=
  BuilderFields.admit ⟨key, lsn, .Tombstone, [], Input.none_empty⟩

/-! ## The fields of a builder with its invariant -/

def FrameBuilder.fields (b : FrameBuilder) : BuilderFields :=
  ⟨b.limits, b.records, b.checksum_len, b.payload_end⟩

@[simp] theorem FrameBuilder.new_fields (limits : FrameLimits) :
    (FrameBuilder.new limits).fields = BuilderFields.new limits := rfl

/-! ## Calls, accepted or not -/

inductive BuildCall where
  | push (key : ChunkId) (lsn : UInt64) (value : Bytes)
  | push_tombstone (key : ChunkId) (lsn : UInt64)

def BuildCall.input : BuildCall → Input
  | .push key lsn value => ⟨key, lsn, .Data, value, Input.data_any value⟩
  | .push_tombstone key lsn => ⟨key, lsn, .Tombstone, [], Input.none_empty⟩

def BuildCall.action : BuildCall → EStateM Error BuilderFields Unit
  | .push key lsn value => BuilderFields.push key lsn value
  | .push_tombstone key lsn => BuilderFields.push_tombstone key lsn

/-- The answer of a call, and the fields after it. -/
def BuilderFields.call (b : BuilderFields) (c : BuildCall) : Except Error Unit × BuilderFields :=
  match c.action.run b with
  | .ok () b => (.ok (), b)
  | .error e b => (.error e, b)

def BuilderFields.after (b : BuilderFields) (calls : List BuildCall) : BuilderFields :=
  calls.foldl (fun b c => (b.call c).2) b

/-- The records of the calls that were accepted, in order. -/
def BuilderFields.accepted (b : BuilderFields) : List BuildCall → List Input
  | [] => []
  | c :: calls =>
    match b.call c with
    | (.ok (), b) => c.input :: b.accepted calls
    | (.error _, b) => b.accepted calls

/-- The length of the frame of `records`, in whole pages. -/
def encodedLen (records : List Input) : Nat :=
  align_up (payloadEnd (metadataLen records) records) PAGE_SIZE

theorem BuildCall.action_eq (c : BuildCall) : c.action = BuilderFields.admit c.input := by
  cases c <;> rfl

/-- In place or not, `admit` does the same, and an error comes before the first change. -/
theorem FrameBuilder.admit_fields (b : FrameBuilder) (c : BuildCall) :
    c.action.run b.fields =
      match b.admit c.input with
      | .ok b2 => .ok () b2.fields
      | .error e => .error e b.fields := by
  rw [c.action_eq]
  generalize c.input = input
  unfold BuilderFields.admit FrameBuilder.admit
  by_cases hv : input.value.length > b.limits.max_value_len
  · rw [dif_pos hv]
    simp [hv, FrameBuilder.fields]
  rw [dif_neg hv]
  have hwalk : ∀ (m : Nat) (rs : List Input),
      rs.foldl (fun end_ record => (place end_ record.value.length).2) m = payloadEnd m rs :=
    fun _ _ => rfl
  simp only [EStateM.run_bind, EStateM.run_get, FrameBuilder.fields, hv, if_false, hwalk]
  split
  · -- the exact walk decides
    split
    · rfl
    · rfl
  · rfl

theorem FrameBuilder.call_fields (b : FrameBuilder) (c : BuildCall) :
    b.fields.call c =
      match b.admit c.input with
      | .ok b2 => (.ok (), b2.fields)
      | .error e => (.error e, b.fields) := by
  unfold BuilderFields.call
  rw [b.admit_fields]
  cases b.admit c.input <;> rfl

theorem FrameBuilder.encoded_len_fields (b : FrameBuilder) (h : b.records ≠ []) :
    b.fields.encoded_len = encodedLen b.records := by
  have hm : b.fields.metadata_len = metadataLen b.records := b.metadata_len_eq
  unfold BuilderFields.encoded_len
  rw [hm, if_neg (by simpa [FrameBuilder.fields] using h)]
  rfl

/-- Whatever a caller tries, the fields are those of a builder with its invariant. -/
theorem FrameBuilder.after_fields (b : FrameBuilder) (calls : List BuildCall) :
    ∃ b2 : FrameBuilder, b2.fields = b.fields.after calls ∧ b2.limits = b.limits ∧
      b2.records = b.records ++ b.fields.accepted calls := by
  induction calls generalizing b with
  | nil => exact ⟨b, rfl, rfl, by simp [BuilderFields.accepted]⟩
  | cons c _ ih =>
    have hc := b.call_fields c
    cases ha : b.admit c.input with
    | error =>
      simp only [ha] at hc
      obtain ⟨b2, h1, h2, h3⟩ := ih b
      refine ⟨b2, ?_, h2, ?_⟩
      · rw [h1]
        simp [BuilderFields.after, hc]
      · rw [h3]
        simp [BuilderFields.accepted, hc]
    | ok b1 =>
      simp only [ha] at hc
      obtain ⟨hl, hr⟩ := admit_ok ha
      obtain ⟨b2, h1, h2, h3⟩ := ih b1
      refine ⟨b2, ?_, h2.trans hl, ?_⟩
      · rw [h1]
        simp [BuilderFields.after, hc]
      · rw [h3, hr]
        simp [BuilderFields.accepted, hc]

/-- Over any calls on one builder, whatever became of the earlier ones: the next is accepted exactly
when its value is within its limit and the frame with it, to the page, within the other. Otherwise
nothing changes. -/
theorem frame_admission_is_exact (limits : FrameLimits) (calls : List BuildCall) (c : BuildCall) :
    let b := (BuilderFields.new limits).after calls
    let (answer, b2) := b.call c
    b.records = (BuilderFields.new limits).accepted calls ∧
    (answer = .ok () ↔
      c.input.value.length ≤ limits.max_value_len ∧
        encodedLen (b.records ++ [c.input]) ≤ limits.max_frame_len) ∧
    (answer = .ok () →
      b2.records = b.records ++ [c.input] ∧ b2.encoded_len = encodedLen (b.records ++ [c.input])) ∧
    (answer ≠ .ok () →
      b2.records = b.records ∧ b2.metadata_len = b.metadata_len ∧
        b2.encoded_len = b.encoded_len) := by
  obtain ⟨b, hb, hl, hr⟩ := (FrameBuilder.new limits).after_fields calls
  rw [FrameBuilder.new_fields] at hb hr
  have hexact := b.admit_ok_iff c.input
  have hrecords : b.fields.records = b.records := rfl
  simp only [← hb, b.call_fields c, hrecords]
  rw [show (FrameBuilder.new limits).limits = limits from rfl] at hl
  rw [hl] at hexact
  cases ha : b.admit c.input with
  | ok b2 =>
    obtain ⟨-, hr2⟩ := FrameBuilder.admit_ok ha
    have hlen := b2.encoded_len_fields (by simp [hr2])
    refine ⟨hr, ?_, fun _ => ⟨hr2, ?_⟩, fun h => absurd rfl h⟩
    · simpa [encodedLen] using hexact.mp ⟨b2, ha⟩
    · rw [hlen, hr2]
  | error e =>
    refine ⟨hr, ?_, nofun, fun _ => ⟨rfl, rfl, rfl⟩⟩
    rw [ha] at hexact
    simpa [encodedLen] using hexact

end moat_engine.frame
