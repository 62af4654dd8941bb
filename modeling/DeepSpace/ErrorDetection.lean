import DeepSpace.FrameLayout

/-!
# What the checksum of the short frames detects

Proved here:

* `bitStream2frame_residue`: a 16-byte buffer whose type field is not
  `TRANSPORT_DATA` is only accepted when the register of the checksum ends at
  zero over all of its bits;
* `run_ne_zero_of_detectable`: the feedback word `0xA001` leaves a mark of every
  odd error pattern, of every burst of at most 16 bits and of every two errors
  within 128 bits;
* `frame_error_detected`: such an error on an encoded control or request frame
  makes the decoder return `NULL`.
-/

namespace DeepSpace.TransmissionProtocol

open DeepSpace.Memory DeepSpace.Crc DeepSpace.ShiftRegister

/-! ## Acceptance -/

/-- **Accepted short frames are codewords.** -/
theorem bitStream2frame_residue (b : List UInt8) (heap : Heap) (hb : b.length = 16)
    (hty : typeField b ≠ TP_FRAME_TYPE_TRANSPORT_DATA) :
    bitStream2frame b heap = .ok none ∨ residue b = 0#16 := by
  have hs := split_short b
  have hl : (b.take 4).length = 4 := by simp [hb]
  have ha : ((b.drop 4).take 2).length = 2 := by simp [hb]
  have ht : ((b.drop 6).take 2).length = 2 := by simp [hb]
  have hn : ((b.drop 8).take 4).length = 4 := by simp [hb]
  have hfr : ((b.drop 12).take 2).length = 2 := by simp [hb]
  have hc : (b.drop 14).length = 2 := by simp [hb]
  unfold typeField at hty
  generalize b.take 4 = hd, (b.drop 4).take 2 = a, (b.drop 6).take 2 = t, (b.drop 8).take 4 = n,
    (b.drop 12).take 2 = fr, b.drop 14 = c at *
  by_cases hh : hd = tpHeader
  · subst hh
    by_cases hk : UInt16.ofNat (leValue t) = TP_FRAME_TYPE_CONTROL ∨
        UInt16.ofNat (leValue t) = TP_FRAME_TYPE_REQUEST_DATA
    · have hd := bitStream2frame_short a t n fr c [] heap ha ht hn hfr hc hk
      rw [List.append_nil, ← hs] at hd
      by_cases hcb : c = checkBytes (tpHeader ++ a ++ t ++ n ++ fr)
      · right
        have hw : b =
            (tpHeader ++ a ++ t ++ n ++ fr) ++ checkBytes (tpHeader ++ a ++ t ++ n ++ fr) := by
          rw [← hcb, hs]
          simp only [List.append_assoc]
        rw [hw]
        exact (crc16_eq_iff _ _ _).mp rfl
      · left
        rw [hd, if_neg (fun h => hcb h.2)]
    · left
      rw [hs]
      exact bitStream2frame_unknown a t _ heap ha ht (fun e => hk (.inl e))
        (fun e => hk (.inr e)) hty
  · left
    rw [hs]
    exact bitStream2frame_header hd _ heap hl hh

/-! ## Errors -/

/-- The error patterns in question: not empty, and odd, double or a 16-bit burst. -/
def Detectable (bits : List Bool) : Prop :=
  true ∈ bits ∧
    (bits.count true % 2 = 1 ∨ bits.count true = 2 ∨
      ∃ k, ∀ i, bits[i]? = some true → k ≤ i ∧ i < k + 16)

theorem feedback_parity : parity feedback = true := by decide

/-- The register does not return to 1 within 127 shifts. -/
theorem feedback_period : ∀ d : Fin 127, (shift feedback)^[d.val + 1] 1#16 ≠ 1#16 := by
  decide +kernel

theorem run_ne_zero_of_detectable (bits : List Bool) (hl : bits.length = 128)
    (h : Detectable bits) : run feedback 0#16 bits ≠ 0#16 := by
  obtain ⟨ht, hodd | htwo | ⟨k, hk⟩⟩ := h
  · exact run_odd_ne_zero feedback (by decide) feedback_parity bits hodd
  · refine run_ne_zero_of_two feedback feedback_top bits htwo (fun d hd => ?_)
    exact feedback_period ⟨d, by omega⟩
  · exact run_ne_zero_of_burst feedback feedback_top bits ht k hk

/-- The bytes that arrive when the error pattern `e` hits `bytes`. -/
def corrupt (bytes e : List UInt8) : List UInt8 := List.zipWith (· ^^^ ·) bytes e

theorem residue_wire_short (f : Frame) (buffer : List UInt8)
    (hne : f.frameType ≠ TP_FRAME_TYPE_TRANSPORT_DATA) : residue (f.wire buffer) = 0#16 := by
  rw [Frame.wire, body_of_ne hne]
  exact (crc16_eq_iff _ _ _).mp rfl

/-- **Detected errors.**  An odd, double or burst error on the 16 bytes of a
control or request frame is rejected, unless it makes the type `TRANSPORT_DATA`. -/
theorem frame_error_detected (f : Frame) (buffer : List UInt8) (heap : Heap) (e : List UInt8)
    (hty : f.frameType = TP_FRAME_TYPE_CONTROL ∨ f.frameType = TP_FRAME_TYPE_REQUEST_DATA)
    (hb : 16 ≤ buffer.length) (he : e.length = 16) (hdet : Detectable (lineBits e)) :
    ∃ bs, frame2bitStream f buffer = .ok (bs, 16) ∧
      (typeField (corrupt (bs.take 16) e) ≠ TP_FRAME_TYPE_TRANSPORT_DATA →
        bitStream2frame (corrupt (bs.take 16) e) heap = .ok none) := by
  have hne : f.frameType ≠ TP_FRAME_TYPE_TRANSPORT_DATA := by
    rcases hty with h | h <;> rw [h] <;> decide
  have hs : f.bodySize = 14 := bodySize_of_ne hne
  have hl : (f.wire buffer).length = 16 := by
    rw [wire_length f buffer (fun h => absurd h hne) (by omega), hs]
  have henc := frame2bitStream_wire f buffer (fun h => absurd h hne) (by omega)
  rw [hs] at henc
  refine ⟨_, henc, ?_⟩
  rw [List.take_left' hl]
  intro ht
  have hcl : (corrupt (f.wire buffer) e).length = 16 := by simp [corrupt, hl, he]
  rcases bitStream2frame_residue _ heap hcl ht with h | h
  · exact h
  · rw [corrupt, residue_xor _ _ (by rw [hl, he]), residue_wire_short f buffer hne,
      BitVec.zero_xor] at h
    exact absurd h (run_ne_zero_of_detectable _ (by rw [lineBits_length, he]) hdet)

/-- Two flipped bits, one in the file number and one in the frame number. -/
def twoFlips : List UInt8 := List.replicate 9 0 ++ [0x20, 0, 0, 0, 1, 0, 0]

theorem frame_error_detected_twoFlips :
    ∃ bs, frame2bitStream sampleRequest (List.replicate 16 0) = .ok (bs, 16) ∧
      (typeField (corrupt (bs.take 16) twoFlips) ≠ TP_FRAME_TYPE_TRANSPORT_DATA →
        bitStream2frame (corrupt (bs.take 16) twoFlips)
          ⟨sampleRequest, some fun _ => 0⟩ = .ok none) :=
  frame_error_detected sampleRequest (List.replicate 16 0) _ twoFlips (.inr rfl) (by decide) rfl
    ⟨by decide, .inr (.inl (by decide))⟩

end DeepSpace.TransmissionProtocol
