import DeepSpace.StaleMemory

/-!
# What the decoder accepts

* `accepted_iff`: of 16 bytes, exactly the encodings of control and request frames;
* `guarded_iff`: of 530 bytes with data, also those whose length field exceeds the array; these
  are copied all the same.
-/

namespace DeepSpace.TransmissionProtocol

open DeepSpace.Memory DeepSpace.Crc

/-! ## Frames without data -/

/-- What 16 bytes need in order to be a control or a request frame. -/
structure Acceptable (bytes : List UInt8) : Prop where
  header : bytes.take 4 = tpHeader
  type : typeField bytes = TP_FRAME_TYPE_CONTROL ∨ typeField bytes = TP_FRAME_TYPE_REQUEST_DATA
  checkSum : crc16 bytes 14 = .ok (UInt16.ofNat (leValue (bytes.drop 14)))

section

variable {bytes : List UInt8} {heap : Heap}

theorem bitStream2frame_of_header (hl : bytes.length = 16) (hh : bytes.take 4 ≠ tpHeader) :
    bitStream2frame bytes heap = .ok none := by
  have hd := bitStream2frame_header (bytes.take 4) (bytes.drop 4) heap (by simp; omega) hh
  rwa [List.take_append_drop] at hd

theorem bitStream2frame_of_unknown (hl : bytes.length = 16) (hh : bytes.take 4 = tpHeader)
    (hk : ¬ Known (typeField bytes)) : bitStream2frame bytes heap = .ok none := by
  unfold Known at hk
  push Not at hk
  have hd := bitStream2frame_unknown ((bytes.drop 4).take 2) ((bytes.drop 6).take 2)
    (bytes.drop 8) heap (by simp; omega) (by simp; omega) hk.1 hk.2.1 hk.2.2
  rwa [← split_header hh] at hd

/-- The check bytes are those of the 14 bytes before them. -/
theorem checkSum_iff (hl : bytes.length = 16) :
    crc16 bytes 14 = .ok (UInt16.ofNat (leValue (bytes.drop 14))) ↔
      bytes.drop 14 = checkBytes (bytes.take 14) := by
  have h14 : (14 : UInt16).toNat = 14 := rfl
  rw [← checkSum_eq_iff _ _ (by rw [List.length_drop, hl]), crc16_ok _ _ (by omega), h14]
  exact ⟨fun h => (Except.ok.inj h).symm, fun h => congrArg Except.ok h.symm⟩

/-- The fields of 16 bytes. -/
theorem split_bytes (hh : bytes.take 4 = tpHeader) :
    bytes = tpHeader ++ ((bytes.drop 4).take 2 ++ ((bytes.drop 6).take 2 ++
      ((bytes.drop 8).take 4 ++ ((bytes.drop 12).take 2 ++ (bytes.drop 14 ++ []))))) := by
  rw [List.append_nil, ← hh]
  exact split_short bytes

theorem take_fields (hl : bytes.length = 16) (hh : bytes.take 4 = tpHeader) :
    tpHeader ++ (bytes.drop 4).take 2 ++ (bytes.drop 6).take 2 ++ (bytes.drop 8).take 4 ++
      (bytes.drop 12).take 2 = bytes.take 14 := by
  have hs := congrArg (List.take 14) (split_bytes hh)
  rw [hs]
  simp only [← List.append_assoc, List.append_nil]
  rw [List.take_left' (by simp [tpHeader, hl])]

/-- The frame that the decoder reads from 16 bytes. -/
def readShort (bytes : List UInt8) (heap : Heap) : Frame :=
  shortFrame ((bytes.drop 4).take 2) ((bytes.drop 6).take 2) ((bytes.drop 8).take 4)
    ((bytes.drop 12).take 2) (bytes.drop 14) heap

/-- **The decoder on 16 bytes** of a type without data. -/
theorem bitStream2frame_of_length (hl : bytes.length = 16)
    (hne : typeField bytes ≠ TP_FRAME_TYPE_TRANSPORT_DATA) (ht : heap.temp.isSome) (g : Frame) :
    bitStream2frame bytes heap = .ok (some g) ↔ Acceptable bytes ∧ g = readShort bytes heap := by
  by_cases hh : bytes.take 4 = tpHeader
  · by_cases hty : typeField bytes = TP_FRAME_TYPE_CONTROL ∨
      typeField bytes = TP_FRAME_TYPE_REQUEST_DATA
    · have hd := bitStream2frame_short ((bytes.drop 4).take 2) ((bytes.drop 6).take 2)
        ((bytes.drop 8).take 4) ((bytes.drop 12).take 2) (bytes.drop 14) [] heap
        (by simp; omega) (by simp; omega) (by simp; omega) (by simp; omega) (by simp; omega) hty
      rw [← split_bytes hh, take_fields hl hh] at hd
      rw [hd]
      by_cases hc : bytes.drop 14 = checkBytes (bytes.take 14)
      · rw [if_pos ⟨ht, hc⟩]
        constructor
        · intro h
          exact ⟨⟨hh, hty, (checkSum_iff hl).mpr hc⟩, (Option.some.inj (Except.ok.inj h)).symm⟩
        · rintro ⟨-, rfl⟩
          rfl
      · rw [if_neg (fun h => hc h.2)]
        exact ⟨fun h => (by cases h), fun h => absurd ((checkSum_iff hl).mp h.1.checkSum) hc⟩
    · have hk : ¬ Known (typeField bytes) := fun h => hty (by
        rcases h with h | h | h
        · exact .inl h
        · exact .inr h
        · exact absurd h hne)
      rw [bitStream2frame_of_unknown hl hh hk]
      exact ⟨fun h => (by cases h), fun h => absurd h.1.type hty⟩
  · rw [bitStream2frame_of_header hl hh]
    exact ⟨fun h => (by cases h), fun h => absurd h.1.header hh⟩

/-- The bytes can be had back from the frame. -/
theorem wire_readShort (hl : bytes.length = 16) (h : Acceptable bytes) (buffer : List UInt8) :
    (readShort bytes heap).wire buffer = bytes := by
  have hne : (readShort bytes heap).frameType ≠ TP_FRAME_TYPE_TRANSPORT_DATA := by
    change typeField bytes ≠ _
    rcases h.type with e | e <;> rw [e] <;> decide
  have hf := fields_shortFrame ((bytes.drop 4).take 2) ((bytes.drop 6).take 2)
    ((bytes.drop 8).take 4) ((bytes.drop 12).take 2) (bytes.drop 14) heap (by simp; omega)
    (by simp; omega) (by simp; omega) (by simp; omega)
  rw [take_fields hl h.header] at hf
  rw [Frame.wire, body_of_ne hne, readShort, hf, ← (checkSum_iff hl).mp h.checkSum,
    List.take_append_drop]

end

/-- **Short frames.**  The decoder is the inverse of the encoder on 16 bytes. -/
theorem accepted_iff (bytes : List UInt8) (heap : Heap) (hl : bytes.length = 16)
    (hne : typeField bytes ≠ TP_FRAME_TYPE_TRANSPORT_DATA) (ht : heap.temp.isSome) :
    ((∃ g, bitStream2frame bytes heap = .ok (some g)) ↔ Acceptable bytes) ∧
    (∀ g, bitStream2frame bytes heap = .ok (some g) → ∀ buffer : List UInt8,
      16 ≤ buffer.length → frame2bitStream g buffer = .ok (bytes ++ buffer.drop 16, 16)) ∧
    ∀ f : Frame, f.header = tpHeader → f.frameType = TP_FRAME_TYPE_CONTROL ∨
      f.frameType = TP_FRAME_TYPE_REQUEST_DATA → ∃ source : List UInt8, source.length = 16 ∧
        typeField source = f.frameType ∧
        ∃ g, bitStream2frame source heap = .ok (some g) ∧ SameFrame f g := by
  refine ⟨⟨?_, fun h => ⟨_, (bitStream2frame_of_length hl hne ht _).mpr ⟨h, rfl⟩⟩⟩, ?_, ?_⟩
  · rintro ⟨g, hg⟩
    exact ((bitStream2frame_of_length hl hne ht g).mp hg).1
  · intro g hg buffer hb
    obtain ⟨h, rfl⟩ := (bitStream2frame_of_length hl hne ht g).mp hg
    have hsize : (readShort bytes heap).bodySize = 14 := bodySize_of_ne hne
    rw [frame2bitStream_wire _ buffer (fun he => absurd he hne) (by omega), wire_readShort hl h,
      hsize]
  · intro f hh hty
    have hnf : f.frameType ≠ TP_FRAME_TYPE_TRANSPORT_DATA := by
      rcases hty with e | e <;> rw [e] <;> decide
    have hsize : f.bodySize = 14 := bodySize_of_ne hnf
    obtain ⟨g, hg, hs⟩ := decode_wire_short f (List.replicate 16 0) [] heap hh hty ht
    have hw := wire_length f (List.replicate 16 0) (fun he => absurd he hnf)
      (by rw [hsize]; decide)
    have htf := typeField_wire f (List.replicate 16 0) []
    rw [List.append_nil] at hg htf
    exact ⟨_, by rw [hw, hsize], htf, g, hg, hs⟩

/-- The request of the unit test, with its checksum. -/
def requestBytes : List UInt8 := [0xEB, 0x90, 0xEB, 0x90, 1, 0, 3, 0, 1, 0, 0, 0, 42, 0, 20, 253]

theorem accepted_iff_requestBytes :
    requestBytes.length = 16 ∧
    ((∃ g, bitStream2frame requestBytes ⟨sampleRequest, some fun _ => 0⟩ = .ok (some g)) ↔
      Acceptable requestBytes) ∧
    (∀ g, bitStream2frame requestBytes ⟨sampleRequest, some fun _ => 0⟩ = .ok (some g) →
      ∀ buffer : List UInt8, 16 ≤ buffer.length →
        frame2bitStream g buffer = .ok (requestBytes ++ buffer.drop 16, 16)) ∧
    ∀ f : Frame, f.header = tpHeader → f.frameType = TP_FRAME_TYPE_CONTROL ∨
      f.frameType = TP_FRAME_TYPE_REQUEST_DATA → ∃ source : List UInt8, source.length = 16 ∧
        typeField source = f.frameType ∧
        ∃ g, bitStream2frame source ⟨sampleRequest, some fun _ => 0⟩ = .ok (some g) ∧
          SameFrame f g :=
  ⟨rfl, accepted_iff requestBytes ⟨sampleRequest, some fun _ => 0⟩ rfl (by decide) rfl⟩

/-! ## Frames with data -/

/-- No copy leaves the received bytes or the array, which holds 512, since a length that does
not fit is rejected; so the frames that are accepted fit. -/
structure Guarded (bytes : List UInt8) (heap : Heap) : Prop where
  inBounds : ∃ result, bitStream2frame bytes heap = .ok result
  rejected : TP_FRAME_DATA_LEN_MAX < dataLenField bytes → bitStream2frame bytes heap = .ok none
  accepted : ∀ g, bitStream2frame bytes heap = .ok (some g) →
    g.dataLen.toNat ≤ TP_FRAME_DATA_LEN_MAX

/-- **The length field** is used as it comes: the decoder is safe only where it fits. -/
theorem guarded_iff (bytes : List UInt8) (heap : Heap) (hl : bytes.length = 530)
    (hh : bytes.take 4 = tpHeader) (hty : typeField bytes = TP_FRAME_TYPE_TRANSPORT_DATA) :
    Guarded bytes heap ↔ dataLenField bytes ≤ TP_FRAME_DATA_LEN_MAX := by
  constructor
  · intro h
    by_contra hbig
    obtain ⟨result, hr⟩ := h.inBounds
    rw [bitStream2frame_of_overrun heap hh (by omega) hty (not_le.mp hbig)] at hr
    cases hr
  · intro hfit
    obtain ⟨g, hg, hd⟩ := bitStream2frame_of_long heap hh hl.ge hty hfit
    have hcases : bitStream2frame bytes heap = .ok none ∨
        bitStream2frame bytes heap = .ok (some g) := by
      rw [hd]
      cases heap.temp with
      | none => exact .inl rfl
      | some stale =>
        simp only
        split
        · exact .inr rfl
        · exact .inl rfl
    refine ⟨?_, fun hbig => absurd hfit (not_le.mpr hbig), fun g' hg' => ?_⟩
    · rcases hcases with h | h <;> exact ⟨_, h⟩
    · rcases hcases with h | h
      · cases h.symm.trans hg'
      · obtain rfl := Option.some.inj (Except.ok.inj (h.symm.trans hg'))
        rw [hg]
        exact hfit

/-- A data frame whose length field says `lo + 256 * hi`. -/
def lengthBytes (lo hi : UInt8) : List UInt8 :=
  tpHeader ++ [1, 0, 5, 0, lo, hi] ++ List.replicate 520 0

theorem lengthBytes_spec (lo hi : UInt8) :
    (lengthBytes lo hi).length = 530 ∧ (lengthBytes lo hi).take 4 = tpHeader ∧
      typeField (lengthBytes lo hi) = TP_FRAME_TYPE_TRANSPORT_DATA ∧
      dataLenField (lengthBytes lo hi) = lo.toNat + 256 * hi.toNat := by
  refine ⟨?_, ?_⟩
  · rw [lengthBytes, List.length_append, List.length_replicate]
    rfl
  unfold lengthBytes
  generalize List.replicate 520 (0 : UInt8) = rest
  exact ⟨rfl, rfl, by simp [dataLenField, tpHeader, leValue]⟩

theorem guarded_iff_lengthBytes :
    (lengthBytes 3 0).length = 530 ∧ (Guarded (lengthBytes 3 0) ⟨sampleRequest, none⟩ ↔
      dataLenField (lengthBytes 3 0) ≤ TP_FRAME_DATA_LEN_MAX) := by
  obtain ⟨hl, hh, hty, -⟩ := lengthBytes_spec 3 0
  exact ⟨hl, guarded_iff (lengthBytes 3 0) ⟨sampleRequest, none⟩ hl hh hty⟩

/-- 513 bytes go into the array of 512. -/
theorem lengthBytes_overrun :
    (lengthBytes 1 2).length = 530 ∧ (lengthBytes 1 2).take 4 = tpHeader ∧
      typeField (lengthBytes 1 2) = TP_FRAME_TYPE_TRANSPORT_DATA ∧
      ∀ heap, bitStream2frame (lengthBytes 1 2) heap = .error .outOfBounds ∧
        ¬ Guarded (lengthBytes 1 2) heap := by
  obtain ⟨hl, hh, hty, hlen⟩ := lengthBytes_spec 1 2
  have hover : ∀ heap, bitStream2frame (lengthBytes 1 2) heap = .error .outOfBounds := fun heap =>
    bitStream2frame_of_overrun heap hh (by omega) hty (by rw [hlen]; decide)
  refine ⟨hl, hh, hty, fun heap => ⟨hover heap, fun h => ?_⟩⟩
  obtain ⟨result, hr⟩ := h.inBounds
  rw [hover heap] at hr
  cases hr

end DeepSpace.TransmissionProtocol
