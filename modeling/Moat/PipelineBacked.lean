-- The driver never comes to an `expect` or an `unreachable!` that panics: every
-- request has its buffer, and every verified read has what its phase needs.
import Moat.FrameAccept
import Moat.PipelineBooks
import Moat.PipelineVersions

namespace moat_engine.pipeline

open byte_list moat_common List Option
open moat_engine.io (Operation Queue Request Script)

/-! ## What a slot, a request and the index must have -/

/-- The buffer that the queue does not own is there. In the value phase the record is known. -/
def VerifiedRead.Phased (r : VerifiedRead) : Prop :=
  (r.metadata = none ∧ r.value.isSome = true) ∨
  (r.metadata.isSome = true ∧ r.value = none ∧ r.record.isSome = true)

/-- Front metadata is never empty. -/
def Fronted (e : ChunkId × Location) : Prop := 0 < e.2.metadata_len

def Pending.Backed : Pending → Prop
  | .Write w => ∀ e ∈ w.entries, Fronted e
  | .VerifiedRead r => r.Phased
  | _ => True

/-- A transfer has a buffer. A request of the engine itself may be anything. -/
def Request.Backed (r : Request) : Prop :=
  r.token ≠ CONTROL_TOKEN → r.operation ≠ .Sync → r.buffer.isSome = true

def Index.AllFronted (index : Index) : Prop :=
  ∀ key loc, index.get key = some loc → 0 < loc.metadata_len

structure Backed (p : Pipeline) : Prop where
  slots : ∀ s q, p.slot s = some q → q.Backed
  queue : ∀ e ∈ p.queue.accepted, Request.Backed e.2
  index : p.index.AllFronted

theorem entries_fronted (metadata : frame.Metadata) (segment : Nat) :
    ∀ e ∈ entries metadata segment, Fronted e := by
  intro e he
  obtain ⟨x, -, rfl⟩ := mem_map.mp he
  have h64 := metadata.header.metadata_len_ge
  show 0 < metadata.header.metadata_len
  omega

theorem Index.AllFronted.apply_entry {index : Index} (h : index.AllFronted) {e : ChunkId × Location}
    (he : Fronted e) : (apply_entry index e).AllFronted := by
  have hins : ∀ keys, (⟨index.locations.insert e.1 e.2, keys⟩ : Index).AllFronted := by
    intro keys key loc hk
    rw [Index.get_insert] at hk
    split at hk
    · cases hk
      exact he
    · exact h key loc hk
  unfold pipeline.apply_entry
  split
  · split
    · exact hins _
    · exact h
  · exact hins _

theorem Index.AllFronted.apply {index : Index} (h : index.AllFronted)
    {es : List (ChunkId × Location)} (he : ∀ e ∈ es, Fronted e) : (apply index es).AllFronted := by
  induction es generalizing index with
  | nil => exact h
  | cons e _ ih =>
    exact ih (h.apply_entry (he e mem_cons_self)) (fun x hx => he x (mem_cons_of_mem e hx))

variable {p p' : Pipeline} {read : VerifiedRead} {choice : io.Pop} {serial : Nat}
  {request : Request}

/-! ## Verified reads -/

/-- Once the metadata has passed, the record is found again in the same buffer. -/
theorem validated_record {r r' : VerifiedRead} {limits : frame.FrameLimits}
    {position : frame.FramePosition} (h : r.validate_metadata limits position = .ok r')
    (hm : r.metadata.isSome = true) : r'.record.isSome = true := by
  obtain ⟨bytes, hb⟩ := isSome_iff_exists.mp hm
  obtain ⟨metadata, record, hd, hr, rfl⟩ := validate_metadata_ok h
  rw [hb, getD_some] at hd
  obtain ⟨-, htake, -⟩ := frame.Metadata.decode_ok hd
  have hsame : frame.Metadata.mk (bytes.take metadata.header.metadata_len) metadata.header =
      metadata := by
    rw [htake]
  unfold VerifiedRead.record
  simp only [hb]
  rw [hsame, hr]
  rfl

theorem plan_metadata {ticket : Nat} {key : ChunkId} {range : Range}
    (h : p.plan_verified ticket key range = .ok read) :
    read.metadata = none ∧ p.index.get key = some read.location := by
  unfold Pipeline.plan_verified at h
  split at h
  · cases h
  rename_i loc hl
  unfold VerifiedRead.plan at h
  split at h
  · cases h
  cases h
  refine ⟨rfl, ?_⟩
  unfold Pipeline.location at hl
  split at hl
  · rename_i loc' hg
    split at hl <;> cases hl
    exact hg
  · cases hl

/-- The buffer of the metadata phase is there, since it must hold at least a page. -/
theorem metadata_given {buffers : ReadBuffers} (h0 : 0 < read.location.metadata_len)
    (h : read.metadata_len ≤ (buffers.metadata.map List.length).getD 0) :
    buffers.metadata.isSome = true := by
  cases hb : buffers.metadata with
  | some => rfl
  | none =>
    rw [hb] at h
    unfold VerifiedRead.metadata_len at h
    rw [align_up_page] at h
    simp only [map_none, getD_none] at h
    omega

/-! ## Steps -/

/-- A change of one slot and of the queue. -/
theorem Backed.change {s : Nat} {x : Option Pending} (h : Backed p)
    (hs : p'.slots = p.slots.set s x) (hx : ∀ q, x = some q → q.Backed)
    (hq : ∀ e ∈ p'.queue.accepted, e ∈ p.queue.accepted ∨ Request.Backed e.2)
    (hi : p'.index.AllFronted) : Backed p' := by
  refine ⟨?_, ?_, hi⟩
  · intro u q hu
    rw [slot_of_set hs] at hu
    split at hu
    · exact hx q hu
    · exact h.slots u q hu
  · intro e he
    rcases hq e he with h1 | h1
    · exact h.queue e h1
    · exact h1

theorem returned_isSome (request : Request) (data : Bytes) :
    (io.returnedBuffer request data).isSome = request.buffer.isSome := by
  unfold io.returnedBuffer
  split
  · exact isSome_map
  · rfl

theorem pushed_backed {queue : Queue} {r : Request} (hr : Request.Backed r) :
    ∀ e ∈ (queue.push r).accepted, e ∈ queue.accepted ∨ Request.Backed e.2 := by
  intro e he
  rcases mem_push he with he | he
  · exact .inl he
  · exact .inr (he ▸ hr)

/-- What a completion brings back for a slot has its buffer. -/
theorem completion_buffer (hb : Backed p)
    (hq : p.queue.accepted[choice.index]? = some (serial, request))
    (hk : request.token ≠ CONTROL_TOKEN) (ho : request.operation ≠ .Sync) :
    (choice.completion request).request.buffer.isSome = true := by
  rw [show (choice.completion request).request.buffer = io.returnedBuffer request choice.data from
    rfl, returned_isSome]
  exact hb.queue _ (mem_of_getElem? hq) hk ho

/-- The operation behind a completion, and that it is no sync when it is a transfer. -/
theorem Live.transfer (hl : Live p) {q : Pending}
    (hq : p.queue.accepted[choice.index]? = some (serial, request))
    (hk : request.token ≠ CONTROL_TOKEN) (hs : p.slot request.token = some q)
    (hf : q.kind ≠ .flush) : request.operation ≠ .Sync := by
  obtain ⟨q', hs', hc⟩ := hl.carried _ (mem_of_getElem? hq) hk
  rw [hs] at hs'
  cases hs'
  cases q with
  | Write => rw [hc.2]; decide
  | Read | VerifiedRead => rw [show request.operation = .Read from hc]; decide
  | EmptyRead => cases hc
  | Flush => exact absurd rfl hf

/-- A verified read that asks for its value has a buffer to give, and then holds its record. -/
theorem second_phase {read' : VerifiedRead} {buffer : Option Bytes}
    {result : Except Error Unit} (hp : read.Phased) (hb : buffer.isSome = true)
    (ha : p.advance_read (read.returned buffer) read.metadata.isNone result = (read', .ok none)) :
    read'.value.isSome = true ∧ VerifiedRead.Phased { read' with value := none } := by
  rcases advance_read_cases ha with ⟨-, hne⟩ | ⟨hphase, position, hv⟩
  · exact absurd rfl hne
  rcases hp with ⟨-, hval⟩ | ⟨hm, -, -⟩
  · have hret : read.returned buffer = { read with metadata := buffer } := by
      unfold VerifiedRead.returned
      rw [if_pos hphase]
    rw [hret] at hv
    have hrec := validated_record hv hb
    obtain ⟨metadata, record, -, -, rfl⟩ := validate_metadata_ok hv
    exact ⟨hval, .inr ⟨hb, rfl, hrec⟩⟩
  · rw [isNone_iff_eq_none] at hphase
    rw [hphase] at hm
    cases hm

theorem Does.backed {a : Act} (d : Does p a p') (hl : Live p) (hb : Backed p) : Backed p' := by
  cases d with
  | @launch _ _ f _ _ hp =>
    obtain ⟨_, _, _, metadata, _, -, -, -, -, -, -, hm, -⟩ := prepare_parts hp
    refine hb.change rfl ?_ (pushed_backed (fun _ _ => rfl)) hb.index
    rintro q ⟨⟩
    show ∀ e ∈ f.write.entries, Fronted e
    rw [hm]
    exact entries_fronted metadata p.current
  | @flush | @read_empty _ _ _ _ _ _ _ he =>
    exact hb.change rfl (by rintro q ⟨⟩; trivial) (fun e he => .inl he) hb.index
  | @read_direct =>
    exact hb.change rfl (by rintro q ⟨⟩; trivial) (pushed_backed (fun _ _ => rfl)) hb.index
  | @read_verified _ _ _ _ _ _ _ hr hm =>
    obtain ⟨hnone, hloc⟩ := plan_metadata hr
    have hgiven := metadata_given (hb.index _ _ hloc) hm
    refine hb.change rfl ?_ (pushed_backed (fun _ _ => hgiven)) hb.index
    rintro q ⟨⟩
    exact .inl ⟨hnone, rfl⟩
  | @retire s _ _ _ _ _ hs =>
    refine hb.change rfl (by rintro q ⟨⟩) (fun e he => .inl he) ?_
    show Index.AllFronted (if _ then _ else _)
    split
    · exact hb.index.apply (hb.slots s _ hs)
    · exact hb.index
  | @flush_failed | @flush_fence | @empty_read =>
    exact hb.change rfl (by rintro q ⟨⟩) (fun e he => .inl he) hb.index
  | @submit_sync =>
    exact hb.change rfl (by rintro q ⟨⟩; trivial) (pushed_backed (fun _ ho => absurd rfl ho))
      hb.index
  | @write_done _ _ _ w _ _ _ hs =>
    refine hb.change rfl ?_ (fun e he => .inl (mem_popped he)) hb.index
    rintro q ⟨⟩
    have hw : ∀ e ∈ w.entries, Fronted e := hb.slots _ _ hs
    exact hw
  | @direct_done | @verified_done | @sync_done =>
    exact hb.change rfl (by rintro q ⟨⟩) (fun e he => .inl (mem_popped he)) hb.index
  | @verified_more _ _ _ _ _ _ hq hk hs ha =>
    have hbuf := completion_buffer hb hq hk (hl.transfer hq hk hs (by simp [Pending.kind]))
    obtain ⟨hval, hph⟩ := second_phase (hb.slots _ _ hs) hbuf ha
    refine hb.change rfl ?_ ?_ hb.index
    · rintro q ⟨⟩
      exact hph
    · intro e he
      rcases mem_push he with he | he
      · exact .inl (mem_popped he)
      · exact .inr (he ▸ fun _ _ => hval)
  | @control_submit _ hc =>
    refine ⟨hb.slots, ?_, hb.index⟩
    intro e he
    rcases mem_push he with he | he
    · exact hb.queue e he
    · subst he
      exact fun hk => absurd (hl.control_token _ hc).1 hk
  | @control_done =>
    exact ⟨hb.slots, fun e he => hb.queue e (mem_popped he), hb.index⟩

/-! ## No panic -/

/-- A completion finds its operation with every buffer and record that handling it takes. -/
theorem complete_calm (hl : Live p) (hb : Backed p)
    (hq : p.queue.accepted[choice.index]? = some (serial, request))
    (hk : request.token ≠ CONTROL_TOKEN) :
    p.complete_panics (choice.completion request) = false := by
  obtain ⟨q, hs, hc⟩ := hl.carried _ (mem_of_getElem? hq) hk
  have hbuf : q.kind ≠ .flush → (choice.completion request).request.buffer.isSome = true :=
    fun hf => completion_buffer hb hq hk (hl.transfer hq hk hs hf)
  unfold Pipeline.complete_panics
  simp only
  rw [show p.slot (choice.completion request).request.token = some q from hs]
  cases q with
  | Write | Read => simp [hbuf (by simp [Pending.kind])]
  | EmptyRead => cases hc
  | Flush => rfl
  | VerifiedRead read =>
    have hbuf := hbuf (by simp [Pending.kind])
    simp only
    rcases hb.slots _ _ hs with ⟨hm, hval⟩ | ⟨hm, hval, hrec⟩
    · -- the metadata came back, and the value buffer is still here
      have hret : read.returned (choice.completion request).request.buffer =
          { read with metadata := (choice.completion request).request.buffer } := by
        unfold VerifiedRead.returned
        rw [hm]
        rfl
      have hpan : p.metadata_panics { read with
          metadata := (choice.completion request).request.buffer } = false := by
        unfold Pipeline.metadata_panics
        split
        · rfl
        split
        · rfl
        rename_i r hv
        have := validated_record hv hbuf
        simpa using this
      rw [hret]
      simp [hbuf, hval, hm, hpan]
    · have hnone : read.metadata.isNone = false := by
        rw [← not_isSome, hm]
        rfl
      have hret : read.returned (choice.completion request).request.buffer =
          { read with value := (choice.completion request).request.buffer } := by
        unfold VerifiedRead.returned
        rw [if_neg (by rw [hnone]; decide)]
      have hrec' : VerifiedRead.record { read with
          value := (choice.completion request).request.buffer } = read.record := rfl
      rw [hret, hrec']
      have hfound : read.record.isNone = false := by
        rw [← not_isSome, hrec]
        rfl
      have hback : (choice.completion request).request.buffer.isNone = false := by
        rw [← not_isSome, hbuf]
        rfl
      simp only [hnone, hback, hfound, Bool.or_false, Bool.and_false, Bool.false_eq_true, if_false]

theorem Does.calm {a : Act} (d : Does p a p') (hl : Live p) (hb : Backed p)
    (hc : p.panicked = false) : p'.panicked = false := by
  cases d with
  | @write_done _ _ _ _ _ hq hk _ hz | @direct_done _ _ _ _ _ hq hk _ hz
  | @verified_done _ _ _ _ _ _ _ hq hk _ _ hz | @verified_more _ _ _ _ _ _ hq hk _ _ hz
  | @sync_done _ _ _ _ _ _ hq hk _ hz =>
    exact hz.trans (by rw [hc, complete_calm hl hb hq hk]; rfl)
  | _ => exact hc

end moat_engine.pipeline
