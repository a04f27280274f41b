-- The footer in pieces: the chunks that the encoder hands out, one after the
-- other, are what sealing in one go writes, and the last page comes alone.
import Moat.SegmentSeal

namespace moat_engine.segment

open byte_list moat_common moat_engine.codec List

theorem slice_zeros (n lo hi : Nat) : slice (zeros n) lo hi = zeros (min (hi - lo) (n - lo)) := by
  simp [slice, zeros]

/-- The part of `m` that falls into a window, with zeros behind it, is the window of `m` padded. -/
theorem slice_padded (m : Bytes) {offset len k : Nat} (h : offset + len ≤ m.length + k) :
    patch (zeros len) 0 (slice m (min offset m.length)
        (min offset m.length + min (m.length - offset) len)) =
      slice (m ++ zeros k) offset (offset + len) := by
  rcases Nat.le_total offset m.length with ho | ho
  · rw [Nat.min_eq_left ho, show zeros len = [] ++ zeros len from rfl]
    have hl : (slice m offset (offset + min (m.length - offset) len)).length = min
      (m.length - offset) len := by
      rw [slice_length_of_le (by omega)]
      omega
    rw [patch_zeros (k := 0) (by simp) (by omega), hl]
    simp only [nil_append, zeros_zero, Nat.zero_add]
    rcases Nat.le_total (offset + len) m.length with hc | hc
    · rw [slice_append_left _ _ hc, Nat.min_eq_right (by omega), Nat.sub_self, zeros_zero,
        append_nil]
    · rw [Nat.min_eq_left (by omega), ← slice_append_slice (m ++ zeros k) ho hc,
        slice_append_left _ _ (Nat.le_refl _), slice_append_right _ _ (Nat.le_refl _), slice_zeros,
        show offset + (m.length - offset) = m.length by omega]
      congr 2
      omega
  · rw [Nat.min_eq_right ho,
      show m.length - offset = 0 by omega, Nat.zero_min, Nat.add_zero, slice_empty,
      patch_nil, slice_append_right _ _ ho, slice_zeros]
    congr 1
    omega

theorem footer_len_page (m : Nat) : footer_len m % 4096 = 0 ∧ 4096 ≤ footer_len m := by
  rw [footer_len_eq]
  omega

/-- An encoder under way: `offset` bytes of the footer of `b` are out, the last page is not. -/
structure FooterEncoder.Encodes (e : FooterEncoder) (b : SegmentBuilder) : Prop where
  metadata : e.metadata = b.metadata
  header : e.header = b.sealed_header
  summary : e.summary = b.seal_
  len : e.len = b.footer_len
  aligned : e.offset % 4096 = 0
  before : e.offset + 4096 ≤ b.footer_len
  checksum : e.checksum = Crc32c.new.update (b.padded.take e.offset)

theorem SegmentBuilder.into_footer_encodes (b : SegmentBuilder) : b.into_footer.Encodes b :=
  ⟨rfl, rfl, rfl, rfl, rfl, by
    have := (footer_len_page b.metadata.length).2
    show 0 + 4096 ≤ segment.footer_len b.metadata.length
    omega, rfl⟩

theorem SegmentBuilder.footer_slice (b : SegmentBuilder) {lo hi : Nat}
    (h : hi + 64 ≤ b.footer_len) :
    slice b.footer lo hi = slice b.padded lo hi := by
  unfold SegmentBuilder.footer
  exact slice_append_left _ _ (by rw [b.padded_length]; omega)

namespace FooterEncoder.Encodes

variable {e : FooterEncoder} {b : SegmentBuilder}

/-- Before the last page comes a piece of whole pages. -/
theorem next_piece (h : e.Encodes b) (hlt : e.offset + 4096 < b.footer_len) :
    ∃ e', e.next = some ((b.header.segment_len - b.footer_len + e.offset,
        slice b.footer e.offset e'.offset, false), e') ∧
      e.offset < e'.offset ∧ e'.offset ≤ e.offset + 65536 ∧ e'.Encodes b := by
  have hpage := footer_len_page b.metadata.length
  have hal := h.aligned
  have hpl := b.padded_length
  -- whole pages, short of the last one
  obtain ⟨len, hlen⟩ : ∃ len, len = min (b.footer_len - 4096 - e.offset) (64 * 1024) := ⟨_, rfl⟩
  have hfl : b.footer_len = segment.footer_len b.metadata.length := rfl
  have hbytes : patch (zeros len) 0 (slice b.metadata (min e.offset b.metadata.length)
      (min e.offset b.metadata.length + min (b.metadata.length - e.offset) len)) =
      slice b.footer e.offset (e.offset + len) := by
    have hge := footer_len_ge b.metadata.length
    rw [b.footer_slice (by omega)]
    exact slice_padded b.metadata (by omega)
  have hupd : e.checksum.update (slice b.footer e.offset (e.offset + len)) =
      Crc32c.new.update (b.padded.take (e.offset + len)) := by
    rw [h.checksum, ← Crc32c.update_append, b.footer_slice (by omega), ← slice_zero, ← slice_zero,
      slice_append_slice _ (Nat.zero_le _) (by omega)]
  refine ⟨{ e with
    offset := e.offset + len
    checksum := Crc32c.new.update (b.padded.take (e.offset + len)) }, ?_, by simp only; omega,
    by simp only; omega, ?_⟩
  · unfold FooterEncoder.next
    rw [if_neg (by rw [h.len]; omega)]
    simp only [h.len, h.metadata, h.header, PAGE_SIZE]
    rw [decide_eq_false (show ¬ e.offset = b.footer_len - 4096 by omega)]
    simp only [Bool.false_eq_true, if_false, ← hlen, hbytes, hupd]
    rfl
  · exact ⟨h.metadata, h.header, h.summary, h.len, by simp only; omega, by simp only; omega, rfl⟩

/-- The last page ends in the trailer, with the checksum of all pages in it. -/
theorem next_last (h : e.Encodes b) (hlast : e.offset + 4096 = b.footer_len) :
    ∃ e', e.next = some ((b.header.segment_len - b.footer_len + e.offset, b.footer.drop e.offset,
        true), e') ∧ e'.next = none := by
  have hpl := b.padded_length
  have hge := footer_len_ge b.metadata.length
  have hfl : b.footer_len = segment.footer_len b.metadata.length := rfl
  obtain ⟨pre, hpre⟩ : ∃ pre, pre = b.padded.drop e.offset := ⟨_, rfl⟩
  have hprelen : pre.length = 4032 := by
    rw [hpre, length_drop, hpl]
    omega
  have hbytes : patch (zeros 4096) 0 (slice b.metadata (min e.offset b.metadata.length)
      (min e.offset b.metadata.length + min (b.metadata.length - e.offset) 4096)) = pre ++
      zeros 64 := by
    rw [slice_padded b.metadata (k := b.footer_len - b.metadata.length) (by omega),
      show zeros (b.footer_len - b.metadata.length) =
        zeros (b.footer_len - 64 - b.metadata.length) ++ zeros 64 by
          rw [zeros_append]; congr 1; omega,
      ← append_assoc, show b.metadata ++ zeros (b.footer_len - 64 - b.metadata.length) =
        b.padded from rfl,
      slice_eq_drop (by simp [hpl]; omega), drop_append_of_le_length (by omega), hpre]
  have hcrc : (e.checksum.update
    (pre ++ b.sealed_header.blankTrailer b.seal_ b.footer_len)).finalize = b.footerCrc := by
    rw [h.checksum, ← Crc32c.update_append, ← append_assoc, hpre, take_append_drop]
    rfl
  have hfooter : b.footer.drop e.offset =
      pre ++ b.sealed_header.trailer b.seal_ b.footer_len b.footerCrc := by
    unfold SegmentBuilder.footer
    rw [drop_append_of_le_length (by omega), ← hpre]
  have hat : 4096 - FOOTER_TRAILER_LEN = pre.length := hprelen.symm
  refine ⟨{ e with
    offset := e.offset + 4096
    checksum := e.checksum.update (pre ++ b.sealed_header.blankTrailer b.seal_ b.footer_len) }, ?_,
    if_pos (by rw [h.len]; exact hlast)⟩
  unfold FooterEncoder.next
  rw [if_neg (by rw [h.len]; omega)]
  simp only [h.len, h.metadata, h.header, h.summary, PAGE_SIZE]
  rw [decide_eq_true (show e.offset = b.footer_len - 4096 by omega)]
  simp only [if_true, hbytes]
  rw [patch_trailer pre _ _ _ hat, hcrc, put_footer_checksum pre _ _ _ _ hat,
    put_trailer_checksum pre _ _ _ _ hat,
    hfooter]
  rfl

end FooterEncoder.Encodes

/-! ## All the chunks -/

/-- The chunks that `next` gives before it gives `None`. -/
inductive FooterEncoder.Emits : FooterEncoder → List (Nat × Bytes × Bool) → Prop
  | done {e : FooterEncoder} (h : e.next = none) : Emits e []
  | chunk {e e' : FooterEncoder} {c : Nat × Bytes × Bool} {cs : List (Nat × Bytes × Bool)}
      (h : e.next = some (c, e')) (rest : Emits e' cs) : Emits e (c :: cs)

/-- Each chunk stands where the one before it ends, the first at the second argument. -/
def Consecutive (stop : Nat) : Nat → List (Nat × Bytes × Bool) → Prop
  | at_, [] => at_ = stop
  | at_, (offset, bytes, _) :: rest => offset = at_ ∧ Consecutive stop (at_ + bytes.length) rest

/-- What is left of the footer comes in whole pages, the last one alone. -/
theorem FooterEncoder.Encodes.emits {e : FooterEncoder} {b : SegmentBuilder} (h : e.Encodes b) :
    ∃ front offset bytes, e.Emits (front ++ [(offset, bytes, true)]) ∧ bytes.length = 4096 ∧
      (∀ c ∈ front, c.2.2 = false ∧ 0 < c.2.1.length ∧ c.2.1.length % 4096 = 0 ∧
        c.2.1.length ≤ 65536) ∧
      Consecutive b.header.segment_len (b.header.segment_len - b.footer_len + e.offset)
        (front ++ [(offset, bytes, true)]) ∧
      (front ++ [(offset, bytes, true)]).flatMap (·.2.1) = b.footer.drop e.offset := by
  have hroom : b.data_end + b.footer_len ≤ b.header.segment_len := b.room
  have hlen : b.footer.length = b.footer_len := b.footer_length
  have hpage : b.footer_len % 4096 = 0 := (footer_len_page b.metadata.length).1
  -- the part that is not out yet gets shorter
  induction hn : b.footer_len - e.offset using Nat.strong_induction_on generalizing e with
  | _ n ih =>
    have hal := h.aligned
    have hle := h.before
    rcases Nat.lt_or_ge (e.offset + 4096) b.footer_len with hlt | hge
    · obtain ⟨e', hnext, hlt', hmax, h'⟩ := h.next_piece hlt
      have hal' := h'.aligned
      have hle' := h'.before
      obtain ⟨front, offset, bytes, g1, g2, g3, g4, g5⟩ := ih _ (by omega) h' rfl
      have hpiece : (slice b.footer e.offset e'.offset).length = e'.offset - e.offset :=
        slice_length_of_le (by omega)
      refine ⟨_ :: front, offset, bytes, .chunk hnext g1, g2, ?_, ⟨rfl, ?_⟩, ?_⟩
      · rintro c (_ | ⟨_, hc⟩)
        · exact ⟨rfl, by rw [hpiece]; omega, by rw [hpiece]; omega, by rw [hpiece]; omega⟩
        · exact g3 c hc
      · rw [hpiece, Nat.add_assoc, Nat.add_sub_cancel' hlt'.le]
        exact g4
      · rw [cons_append, flatMap_cons, g5, ← slice_eq_drop (Nat.le_refl _),
          ← slice_eq_drop (Nat.le_refl _), slice_append_slice _ hlt'.le (by omega)]
    · obtain ⟨e', hnext, hdone⟩ := h.next_last (by omega)
      have hlast : (b.footer.drop e.offset).length = 4096 := by
        rw [length_drop]
        omega
      refine ⟨[], _, _, .chunk hnext (.done hdone), hlast, nofun, ⟨rfl, ?_⟩, by simp⟩
      rw [hlast, Consecutive]
      omega

/-- The encoder gives finitely many chunks of whole pages, at most 64 KiB each, one behind the other
up to the end of the segment. Only the last one is flagged, and it is one page. Together they are
what `seal_into` writes. -/
theorem footer_pieces_are_the_seal (b : SegmentBuilder) :
    ∃ front offset bytes, b.into_footer.Emits (front ++ [(offset, bytes, true)]) ∧
      bytes.length = 4096 ∧
      (∀ c ∈ front, c.2.2 = false ∧ 0 < c.2.1.length ∧ c.2.1.length % 4096 = 0 ∧
        c.2.1.length ≤ 65536) ∧
      Consecutive b.header.segment_len (b.header.segment_len - b.footer_len)
        (front ++ [(offset, bytes, true)]) ∧
      ∀ buffer : Bytes, b.header.seal_ = none → b.footer_len ≤ buffer.length →
        ∃ closed sealed_header, b.seal_into buffer = .ok (closed, sealed_header,
          (front ++ [(offset, bytes, true)]).flatMap (·.2.1) ++ buffer.drop b.footer_len) := by
  obtain ⟨front, offset, bytes, h1, h2, h3, h4, h5⟩ := b.into_footer_encodes.emits
  refine ⟨front, offset, bytes, h1, h2, h3, h4, fun buffer hs hl => ?_⟩
  rw [h5]
  exact ⟨_, _, b.seal_into_eq buffer hs hl⟩

end moat_engine.segment
