import DeepSpace.FrameLayout

/-!
# Encoding and decoding a frame

`frame2bit_stream` lays a data frame out as file number, frame number, length,
data; `bit_stream2frame` reads length, data, file number, frame number.  Proved
here:

* `roundTrips_short`: control and request frames survive the round trip;
* `alternating_of_roundTrips`, `roundTrips_of_alternating`: a data frame does for
  every previous content of the memory involved only when all 520 bytes behind
  its type are `00 02 00 02 …`;
* `roundTrips_iff`: the two together.
-/

namespace DeepSpace.TransmissionProtocol

open DeepSpace.Memory DeepSpace.Crc

/-- The comparison of the unit test, `is_same_frame`; `n_file` is also `cmd_id`. -/
def SameFrame (f g : Frame) : Prop :=
  g.header = f.header ∧ g.address = f.address ∧ g.frameType = f.frameType ∧
    g.nFile = f.nFile ∧ g.nFrame = f.nFrame ∧
    (f.frameType = TP_FRAME_TYPE_TRANSPORT_DATA →
      g.dataLen = f.dataLen ∧ g.data.take f.dataLen.toNat = f.data.take f.dataLen.toNat)

/-- Decoding what the encoder wrote gives the frame back, whatever the output
buffer and the blocks of the decoder held before. -/
def RoundTrips (f : Frame) : Prop :=
  ∀ (buffer : List UInt8) (heap : Heap), f.bodySize + 2 ≤ buffer.length → heap.temp.isSome →
    ∃ bs n g, frame2bitStream f buffer = .ok (bs, n) ∧
      bitStream2frame (bs.take n) heap = .ok (some g) ∧ SameFrame f g

/-- What the encoder wrote is `Frame.wire`. -/
theorem roundTrips_iff_wire (f : Frame) (hf : f.Fits) :
    RoundTrips f ↔ ∀ (buffer : List UInt8) (heap : Heap), f.bodySize + 2 ≤ buffer.length →
      heap.temp.isSome → ∃ g, bitStream2frame (f.wire buffer) heap = .ok (some g) ∧
        SameFrame f g := by
  have hw : ∀ buffer : List UInt8, f.bodySize + 2 ≤ buffer.length →
      (f.wire buffer ++ buffer.drop (f.bodySize + 2)).take (f.bodySize + 2) = f.wire buffer :=
    fun buffer hb => List.take_left' (wire_length f buffer hf (by omega))
  constructor
  · intro h buffer heap hb ht
    obtain ⟨bs, n, g, he, hd, hs⟩ := h buffer heap hb ht
    rw [frame2bitStream_wire f buffer hf hb] at he
    cases he
    rw [hw buffer hb] at hd
    exact ⟨g, hd, hs⟩
  · intro h buffer heap hb ht
    obtain ⟨g, hd, hs⟩ := h buffer heap hb ht
    exact ⟨_, _, g, frame2bitStream_wire f buffer hf hb, by rw [hw buffer hb]; exact hd, hs⟩

/-! ## Frames without data -/

theorem wire_short (f : Frame) (buffer : List UInt8) (hh : f.header = tpHeader)
    (hne : f.frameType ≠ TP_FRAME_TYPE_TRANSPORT_DATA) :
    f.wire buffer = tpHeader ++ (leBytes 2 f.address.toNat ++ (leBytes 2 f.frameType.toNat ++
      (leBytes 4 f.nFile.toNat ++ (leBytes 2 f.nFrame.toNat ++ (checkBytes f.fields ++ []))))) := by
  rw [Frame.wire, body_of_ne hne, Frame.fields, hh]
  simp only [List.append_assoc, List.append_nil]

/-- Whatever stands behind it in the buffer. -/
theorem decode_wire_short (f : Frame) (buffer post : List UInt8) (heap : Heap)
    (hh : f.header = tpHeader)
    (hty : f.frameType = TP_FRAME_TYPE_CONTROL ∨ f.frameType = TP_FRAME_TYPE_REQUEST_DATA)
    (ht : heap.temp.isSome) :
    ∃ g, bitStream2frame (f.wire buffer ++ post) heap = .ok (some g) ∧ SameFrame f g := by
  have hne : f.frameType ≠ TP_FRAME_TYPE_TRANSPORT_DATA := by
    rcases hty with e | e <;> rw [e] <;> decide
  have hfields : tpHeader ++ leBytes 2 f.address.toNat ++ leBytes 2 f.frameType.toNat ++
      leBytes 4 f.nFile.toNat ++ leBytes 2 f.nFrame.toNat = f.fields := by rw [Frame.fields, hh]
  rw [wire_short f buffer hh hne]
  simp only [List.append_assoc]
  rw [bitStream2frame_short _ _ _ _ _ _ heap (leBytes_length ..) (leBytes_length ..)
    (leBytes_length ..) (leBytes_length ..) rfl (by rw [uint16_leValue]; exact hty), hfields,
    if_pos ⟨ht, rfl⟩]
  refine ⟨_, rfl, hh.symm, uint16_leValue _, uint16_leValue _, uint32_leValue _,
    uint16_leValue _, fun h => absurd h hne⟩

/-- **Control and request frames.** -/
theorem roundTrips_short (f : Frame) (hh : f.header = tpHeader)
    (hty : f.frameType = TP_FRAME_TYPE_CONTROL ∨ f.frameType = TP_FRAME_TYPE_REQUEST_DATA) :
    RoundTrips f := by
  have hne : f.frameType ≠ TP_FRAME_TYPE_TRANSPORT_DATA := by
    rcases hty with e | e <;> rw [e] <;> decide
  rw [roundTrips_iff_wire f (fun h => absurd h hne)]
  intro buffer heap _ ht
  obtain ⟨g, hd, hs⟩ := decode_wire_short f buffer [] heap hh hty ht
  rw [List.append_nil] at hd
  exact ⟨g, hd, hs⟩

/-! ## Frames with data -/

/-- The 520 bytes between the type and the checksum. -/
def Frame.tail (f : Frame) (pad : List UInt8) : List UInt8 :=
  leBytes 4 f.nFile.toNat ++ (leBytes 2 f.nFrame.toNat ++ (leBytes 2 f.dataLen.toNat ++
    (f.data.take f.dataLen.toNat ++ pad)))

/-- `00 02 00 02 …` -/
def alternating (n : Nat) : List UInt8 := (List.range n).map fun i => if i % 2 = 0 then 0 else 2

theorem body_long {f : Frame} (h : f.frameType = TP_FRAME_TYPE_TRANSPORT_DATA)
    (pad : List UInt8) : f.body pad =
      f.header ++ (leBytes 2 f.address.toNat ++ (leBytes 2 f.frameType.toNat ++ f.tail pad)) := by
  rw [body_of_eq h, Frame.fields, Frame.tail]
  simp only [List.append_assoc]

theorem tail_length (f : Frame) (buffer : List UInt8) (hb : 528 ≤ buffer.length)
    (hf : f.dataLen.toNat ≤ TP_FRAME_DATA_LEN_MAX) : (f.tail (f.pad buffer)).length = 520 := by
  have hk := take_data_length f hf
  have hp := pad_length f buffer hb hf
  unfold TP_FRAME_DATA_LEN_MAX at hf hp
  simp only [Frame.tail, List.length_append, leBytes_length, hk, hp]
  omega

/-- Where the decoder looks for the fields in the 520 bytes. -/
theorem split_tail (b : List UInt8) :
    b = b.take 2 ++ ((b.drop 2).take 512 ++ ((b.drop 514).take 4 ++ b.drop 518)) := by
  rw [← drop_eq_take_append b 514 4, ← drop_eq_take_append b 2 512, List.take_append_drop]

/-- The decoder on a data frame that the encoder wrote, `b` being its tail. -/
theorem decode_wire_long (f : Frame) (buffer : List UInt8) (heap : Heap) (stale : Nat → UInt8)
    (hh : f.header = tpHeader) (hty : f.frameType = TP_FRAME_TYPE_TRANSPORT_DATA)
    (hf : f.dataLen.toNat ≤ TP_FRAME_DATA_LEN_MAX) (hb : 528 ≤ buffer.length)
    (ht : heap.temp = some stale) (b : List UInt8) (hbt : b = f.tail (f.pad buffer))
    (hd : ((b.drop 2).take 512).length = TP_FRAME_DATA_LEN_MAX) :
    bitStream2frame (f.wire buffer) heap =
      if leValue (b.take 2) ≤ TP_FRAME_DATA_LEN_MAX then
        let g := longFrame (leBytes 2 f.address.toNat) (leBytes 2 f.frameType.toNat) (b.take 2)
          ((b.drop 2).take 512) ((b.drop 514).take 4) (b.drop 518)
          (checkBytes (f.body (f.pad buffer))) heap hd
        if checkBytes (f.body (f.pad buffer)) = checkBytes (g.body (g.pad (malloc 528 stale))) then
          .ok (some g) else .ok none
      else .error .outOfBounds := by
  have hlen : b.length = 520 := by rw [hbt]; exact tail_length f buffer hb hf
  have hw : f.wire buffer = tpHeader ++ (leBytes 2 f.address.toNat ++
      (leBytes 2 f.frameType.toNat ++ (b.take 2 ++ ((b.drop 2).take 512 ++
        ((b.drop 514).take 4 ++ (b.drop 518 ++
          (checkBytes (f.body (f.pad buffer)) ++ []))))))) := by
    rw [Frame.wire]
    generalize checkBytes (f.body (f.pad buffer)) = c
    rw [body_long hty, hh, ← hbt]
    conv_lhs => rw [split_tail b]
    simp only [List.append_assoc, List.append_nil]
  have hty' : UInt16.ofNat (leValue (leBytes 2 f.frameType.toNat)) =
      TP_FRAME_TYPE_TRANSPORT_DATA := by rw [uint16_leValue]; exact hty
  rw [hw]
  by_cases hfit : leValue (b.take 2) ≤ TP_FRAME_DATA_LEN_MAX
  · rw [if_pos hfit, bitStream2frame_long _ _ _ _ _ _ _ _ heap (leBytes_length ..)
      (leBytes_length ..) (by simp [hlen]) hd (by simp [hlen]) (by simp [hlen]) rfl hty' hfit, ht]
  · rw [if_neg hfit, bitStream2frame_overrun _ _ _ _ heap (leBytes_length ..) (leBytes_length ..)
      (by simp [hlen]) hty' (by omega)]

/-- What agreement of a decoded data frame says about its 520 bytes: each field is found where
the decoder looks for it. -/
structure Frame.Agrees (f : Frame) (b : List UInt8) : Prop where
  nFile : (b.drop 514).take 4 = b.take 4
  nFrame : b.drop 518 = (b.drop 4).take 2
  dataLen : b.take 2 = leBytes 2 f.dataLen.toNat
  dataLen_eq : (b.drop 6).take 2 = leBytes 2 f.dataLen.toNat
  data : (b.drop 2).take f.dataLen.toNat = (b.drop 8).take f.dataLen.toNat
  nFrame_eq : b.drop 518 = leBytes 2 f.nFrame.toNat

theorem tail_of_sameFrame (f : Frame) (buffer : List UInt8) (heap : Heap) (b : List UInt8)
    (hf : f.dataLen.toNat ≤ TP_FRAME_DATA_LEN_MAX) (hbt : b = f.tail (f.pad buffer))
    (hlen : b.length = 520)
    (hty : f.frameType = TP_FRAME_TYPE_TRANSPORT_DATA)
    (hd : ((b.drop 2).take 512).length = TP_FRAME_DATA_LEN_MAX) {a t c : List UInt8}
    (hs : SameFrame f (longFrame a t (b.take 2) ((b.drop 2).take 512) ((b.drop 514).take 4)
      (b.drop 518) c heap hd)) : f.Agrees b := by
  obtain ⟨-, -, -, hn, hfr, hdata⟩ := hs
  obtain ⟨hl, hdat⟩ := hdata hty
  have hk := take_data_length f hf
  have b0 : b.take 4 = leBytes 4 f.nFile.toNat := by
    rw [hbt, Frame.tail, List.take_append_of_le_length (by simp), List.take_of_length_le (by simp)]
  have b4 : b.drop 4 = leBytes 2 f.nFrame.toNat ++ (leBytes 2 f.dataLen.toNat ++
      (f.data.take f.dataLen.toNat ++ f.pad buffer)) := by
    rw [hbt, Frame.tail, List.drop_left' (leBytes_length ..)]
  have b6 : b.drop 6 = leBytes 2 f.dataLen.toNat ++
      (f.data.take f.dataLen.toNat ++ f.pad buffer) := by
    rw [show 6 = 4 + 2 by rfl, ← List.drop_drop, b4, List.drop_left' (leBytes_length ..)]
  have b8 : b.drop 8 = f.data.take f.dataLen.toNat ++ f.pad buffer := by
    rw [show 8 = 6 + 2 by rfl, ← List.drop_drop, b6, List.drop_left' (leBytes_length ..)]
  have e1 : (b.drop 514).take 4 = leBytes 4 f.nFile.toNat := by
    rw [← leBytes_uint32 ((b.drop 514).take 4) (by simp [hlen]), ← hn]; rfl
  have e2 : b.drop 518 = leBytes 2 f.nFrame.toNat := by
    rw [← leBytes_uint16 (b.drop 518) (by simp [hlen]), ← hfr]; rfl
  have e3 : b.take 2 = leBytes 2 f.dataLen.toNat := by
    rw [← leBytes_uint16 (b.take 2) (by simp [hlen]), ← hl]; rfl
  have hv : leValue (b.take 2) = f.dataLen.toNat := by
    rw [e3, leValue_leBytes 2 _ f.dataLen.toNat_lt]
  refine ⟨e1.trans b0.symm, ?_, e3, ?_, ?_, e2⟩
  · rw [e2, b4, List.take_left' (leBytes_length ..)]
  · rw [b6, List.take_left' (leBytes_length ..)]
  · rw [b8, List.take_left' hk, ← hdat]
    change _ = (((b.drop 2).take 512).take (leValue (b.take 2)) ++ _).take f.dataLen.toNat
    unfold TP_FRAME_DATA_LEN_MAX at hf
    rw [hv, List.take_left' (by simp [hlen]; omega), List.take_take]
    congr 1
    omega

theorem pad_full (f : Frame) (buffer : List UInt8)
    (h : f.dataLen.toNat = TP_FRAME_DATA_LEN_MAX) : f.pad buffer = [] := by
  simp [Frame.pad, h]

/-- The last byte of the data area is stale when the data does not fill it. -/
theorem tail_last (f : Frame) (x : UInt8) (hlt : f.dataLen.toNat < TP_FRAME_DATA_LEN_MAX) :
    ((f.tail (f.pad (List.replicate 530 x))).drop 518)[1]? = some x := by
  have hk := take_data_length f hlt.le
  unfold TP_FRAME_DATA_LEN_MAX at hlt
  have hp : f.pad (List.replicate 530 x) = List.replicate (512 - f.dataLen.toNat) x := by
    rw [Frame.pad, List.drop_replicate, List.take_replicate, TP_FRAME_DATA_LEN_MAX]
    congr 1
    omega
  rw [List.getElem?_drop, hp, Frame.tail]
  simp only [List.getElem?_append, leBytes_length, hk, Nat.reduceAdd, Nat.reduceLT, ↓reduceIte,
    Nat.reduceSub, List.getElem?_replicate]
  rw [if_neg (by omega), if_pos (by omega)]

/-- Bytes with period 6 whose end continues their start alternate. -/
theorem eq_alternating (b : List UInt8) (hlen : b.length = 520) (h0 : b.take 2 = [0, 2])
    (hper : b.take 514 = b.drop 6) (hwrap : b.drop 514 = b.take 6) : b = alternating 520 := by
  have hp : ∀ i, i < 514 → b[i]? = b[i + 6]? := by
    intro i hi
    rw [← List.getElem?_take_of_lt hi, hper, List.getElem?_drop, Nat.add_comm]
  have hw : ∀ j, j < 6 → b[514 + j]? = b[j]? := by
    intro j hj
    rw [← List.getElem?_drop, hwrap, List.getElem?_take_of_lt hj]
  have hmod : ∀ k j, 6 * k + j < 520 → b[6 * k + j]? = b[j]? := by
    intro k j hk
    induction k with
    | zero => simp
    | succ k ih => rw [← ih (by omega), hp (6 * k + j) (by omega)]; congr 1; omega
  -- position 514 is 4 modulo 6, so the end ties the six residues by parity
  have hres : ∀ j, j < 6 → b[j]? = b[j % 2]? := by
    intro j hj
    have e0 := hmod 85 4 (by omega)
    have e1 := hmod 85 5 (by omega)
    have e2 := hmod 86 0 (by omega)
    have e3 := hmod 86 1 (by omega)
    have w0 := hw 0 (by omega)
    have w1 := hw 1 (by omega)
    have w2 := hw 2 (by omega)
    have w3 := hw 3 (by omega)
    simp only [Nat.reduceMul, Nat.reduceAdd] at e0 e1 e2 e3 w0 w1 w2 w3
    have hcases : j = 0 ∨ j = 1 ∨ j = 2 ∨ j = 3 ∨ j = 4 ∨ j = 5 := by omega
    rcases hcases with rfl | rfl | rfl | rfl | rfl | rfl
    · rfl
    · rfl
    · exact w2.symm.trans e2
    · exact w3.symm.trans e3
    · exact e0.symm.trans w0
    · exact e1.symm.trans w1
  have h2 : b[0]? = some 0 ∧ b[1]? = some 2 := by
    constructor
    · rw [← List.getElem?_take_of_lt (by decide : 0 < 2), h0]; rfl
    · rw [← List.getElem?_take_of_lt (by decide : 1 < 2), h0]; rfl
  apply List.ext_getElem?
  intro i
  by_cases hi : i < 520
  · have e := hmod (i / 6) (i % 6) (by omega)
    rw [Nat.div_add_mod, hres _ (Nat.mod_lt _ (by decide)),
      Nat.mod_mod_of_dvd i (by decide : 2 ∣ 6)] at e
    rw [e, alternating, List.getElem?_map, List.getElem?_range hi]
    rcases Nat.mod_two_eq_zero_or_one i with hm | hm
    · simp [hm, h2.1]
    · simp [hm, h2.2]
  · rw [List.getElem?_eq_none (by omega), List.getElem?_eq_none (by simp [alternating]; omega)]

/-- What one decoded data frame says about its 520 bytes. -/
theorem tail_of_decoded {f g : Frame} {buffer : List UInt8} {heap : Heap}
    (hh : f.header = tpHeader) (hty : f.frameType = TP_FRAME_TYPE_TRANSPORT_DATA)
    (hf : f.dataLen.toNat ≤ TP_FRAME_DATA_LEN_MAX) (hb : 528 ≤ buffer.length)
    (hheap : heap.temp.isSome) (hg : bitStream2frame (f.wire buffer) heap = .ok (some g))
    (hs : SameFrame f g) : f.Agrees (f.tail (f.pad buffer)) := by
  obtain ⟨stale, hst⟩ := Option.isSome_iff_exists.mp hheap
  have hlen : (f.tail (f.pad buffer)).length = 520 := tail_length f buffer hb hf
  have hd : (((f.tail (f.pad buffer)).drop 2).take 512).length = TP_FRAME_DATA_LEN_MAX := by
    simp [hlen, TP_FRAME_DATA_LEN_MAX]
  rw [decode_wire_long f buffer heap stale hh hty hf hb hst _ rfl hd] at hg
  simp only at hg
  split at hg
  · split at hg
    · cases hg
      exact tail_of_sameFrame f buffer heap _ hf rfl hlen hty hd hs
    · cases hg
  · cases hg

/-- A data frame that survives fills its data area, and its 520 bytes alternate. -/
theorem tail_of_roundTrips (f : Frame) (hh : f.header = tpHeader)
    (hty : f.frameType = TP_FRAME_TYPE_TRANSPORT_DATA)
    (hf : f.dataLen.toNat ≤ TP_FRAME_DATA_LEN_MAX) (heap : Heap) (hheap : heap.temp.isSome)
    (h : RoundTrips f) (buffer : List UInt8) (hb : buffer.length = 530) :
    f.Agrees (f.tail (f.pad buffer)) := by
  obtain ⟨g, hg, hs⟩ := (roundTrips_iff_wire f (fun _ => hf)).mp h buffer heap
    (by rw [bodySize_of_eq hty]; omega) hheap
  exact tail_of_decoded hh hty hf (by omega) hheap hg hs

/-- Two stale bytes are enough to see that a shorter data frame does not survive. -/
theorem dataLen_of_roundTrips (f : Frame) (hh : f.header = tpHeader)
    (hty : f.frameType = TP_FRAME_TYPE_TRANSPORT_DATA)
    (hf : f.dataLen.toNat ≤ TP_FRAME_DATA_LEN_MAX) (heap : Heap) (hheap : heap.temp.isSome)
    (h : RoundTrips f) : f.dataLen.toNat = TP_FRAME_DATA_LEN_MAX := by
  by_contra hne
  have hlt : f.dataLen.toNat < TP_FRAME_DATA_LEN_MAX := by omega
  have hx : ∀ x : UInt8, (leBytes 2 f.nFrame.toNat)[1]? = some x := by
    intro x
    have ht := tail_of_roundTrips f hh hty hf heap hheap h (List.replicate 530 x)
      List.length_replicate
    rw [← ht.nFrame_eq]
    exact tail_last f x hlt
  have := (hx 0).symm.trans (hx 255)
  simp at this

theorem alternating_of_roundTrips (f : Frame) (hh : f.header = tpHeader)
    (hty : f.frameType = TP_FRAME_TYPE_TRANSPORT_DATA)
    (hf : f.dataLen.toNat ≤ TP_FRAME_DATA_LEN_MAX) (heap : Heap) (hheap : heap.temp.isSome)
    (h : RoundTrips f) : f.tail [] = alternating 520 := by
  have h512 : f.dataLen.toNat = 512 := dataLen_of_roundTrips f hh hty hf heap hheap h
  have hr : (List.replicate 530 (0 : UInt8)).length = 530 := List.length_replicate
  have ht := tail_of_roundTrips f hh hty hf heap hheap h _ hr
  have hlen := tail_length f _ (by rw [hr]; decide) hf
  rw [pad_full f _ h512] at ht hlen
  generalize f.tail [] = b at ht hlen
  obtain ⟨e1, e2, e3, e4, e5, -⟩ := ht
  rw [h512] at e3 e4 e5
  have hle : leBytes 2 512 = [0, 2] := by decide
  refine eq_alternating b hlen (e3.trans hle) ?_ ?_
  · have h1 : b.take 514 = b.take 2 ++ (b.drop 2).take 512 := by
      rw [show 514 = 2 + 512 by rfl, List.take_add]
    have h2 : b.drop 6 = (b.drop 6).take 2 ++ (b.drop 8).take 512 := by
      rw [List.take_of_length_le (l := b.drop 8) (by simp [hlen])]
      exact drop_eq_take_append b 6 2
    rw [h1, h2, e3, e4, e5]
  · have h1 : b.drop 514 = (b.drop 514).take 4 ++ b.drop 518 := drop_eq_take_append b 514 4
    have h2 : b.take 6 = b.take 4 ++ (b.drop 4).take 2 := by
      rw [show 6 = 4 + 2 by rfl, List.take_add]
    rw [h1, h2, e1, e2]

/-- Equal frames have equal bodies. -/
theorem body_congr {f g : Frame} (hty : f.frameType = TP_FRAME_TYPE_TRANSPORT_DATA)
    (h : SameFrame f g) (pad : List UInt8) : g.body pad = f.body pad := by
  obtain ⟨h1, h2, h3, h4, h5, h6⟩ := h
  obtain ⟨h7, h8⟩ := h6 hty
  rw [body_of_eq hty, body_of_eq (h3.trans hty), Frame.fields, Frame.fields, h1, h2, h3, h4, h5, h7,
    h8]

theorem alternating_drop (k n : Nat) : (alternating (2 * k + n)).drop (2 * k) = alternating n := by
  apply List.ext_getElem
  · simp [alternating]
  · intro i h1 h2
    simp [alternating, show (2 * k + i) % 2 = i % 2 by omega]

theorem alternating_take (m n : Nat) (h : m ≤ n) : (alternating n).take m = alternating m := by
  rw [alternating, ← List.map_take, List.take_range, Nat.min_eq_left h, alternating]

/-- The fields of a frame whose tail alternates. -/
theorem fields_of_alternating (f : Frame) (h : f.tail [] = alternating 520) :
    leBytes 4 f.nFile.toNat = alternating 4 ∧ leBytes 2 f.nFrame.toNat = alternating 2 ∧
      leBytes 2 f.dataLen.toNat = alternating 2 ∧
      f.data.take f.dataLen.toNat = alternating 512 := by
  rw [Frame.tail, List.append_nil] at h
  have h4 := alternating_drop 2 516
  have h6 := alternating_drop 1 514
  have h8 := alternating_drop 1 512
  rw [← List.take_append_drop 4 (alternating 520), alternating_take 4 520 (by decide)] at h
  obtain ⟨e1, r1⟩ := List.append_inj h (by simp [alternating])
  rw [h4, ← List.take_append_drop 2 (alternating 516), alternating_take 2 516 (by decide)] at r1
  obtain ⟨e2, r2⟩ := List.append_inj r1 (by simp [alternating])
  rw [h6, ← List.take_append_drop 2 (alternating 514), alternating_take 2 514 (by decide)] at r2
  obtain ⟨e3, r3⟩ := List.append_inj r2 (by simp [alternating])
  exact ⟨e1, e2, e3, r3.trans h8⟩

theorem roundTrips_of_alternating (f : Frame) (hh : f.header = tpHeader)
    (hty : f.frameType = TP_FRAME_TYPE_TRANSPORT_DATA) (h : f.tail [] = alternating 520) :
    RoundTrips f := by
  obtain ⟨e1, e2, e3, e4⟩ := fields_of_alternating f h
  have h512 : f.dataLen.toNat = TP_FRAME_DATA_LEN_MAX := by
    rw [← leValue_leBytes 2 _ f.dataLen.toNat_lt, e3]
    rfl
  rw [roundTrips_iff_wire f (fun _ => h512.le)]
  intro buffer heap hb hheap
  obtain ⟨stale, hst⟩ := Option.isSome_iff_exists.mp hheap
  have hb528 : 528 ≤ buffer.length := by rw [bodySize_of_eq hty] at hb; omega
  have t2 : (alternating 520).take 2 = alternating 2 := alternating_take 2 520 (by decide)
  have t512 : ((alternating 520).drop 2).take 512 = alternating 512 := by
    rw [alternating_drop 1 518, alternating_take 512 518 (by decide)]
  have t4 : ((alternating 520).drop 514).take 4 = alternating 4 := by
    rw [alternating_drop 257 6, alternating_take 4 6 (by decide)]
  have t6 : (alternating 520).drop 518 = alternating 2 := alternating_drop 259 2
  have hd : (((alternating 520).drop 2).take 512).length = TP_FRAME_DATA_LEN_MAX := by
    rw [t512, alternating, List.length_map, List.length_range]; rfl
  have hv : leValue (alternating 2) = 512 := by decide
  rw [decode_wire_long f buffer heap stale hh hty h512.le hb528 hst (alternating 520)
    (by rw [pad_full f buffer h512, h]) hd, t2, if_pos (by rw [hv]; decide)]
  have hs : SameFrame f (longFrame (leBytes 2 f.address.toNat) (leBytes 2 f.frameType.toNat)
      (alternating 2) (((alternating 520).drop 2).take 512) (((alternating 520).drop 514).take 4)
      ((alternating 520).drop 518) (checkBytes (f.body (f.pad buffer))) heap hd) := by
    refine ⟨hh.symm, uint16_leValue _, uint16_leValue _, ?_, ?_, fun _ => ⟨?_, ?_⟩⟩
    · change UInt32.ofNat (leValue (((alternating 520).drop 514).take 4)) = _
      rw [t4, ← e1, uint32_leValue]
    · change UInt16.ofNat (leValue ((alternating 520).drop 518)) = _
      rw [t6, ← e2, uint16_leValue]
    · change UInt16.ofNat (leValue (alternating 2)) = _
      rw [← e3, uint16_leValue]
    · change ((((alternating 520).drop 2).take 512).take (leValue (alternating 2)) ++ _).take _ = _
      rw [e4, hv, List.take_take, Nat.min_self, List.take_left' (hd.trans h512.symm), t512]
  refine ⟨_, ?_, hs⟩
  simp only
  generalize longFrame _ _ _ _ _ _ _ heap hd = g at hs ⊢
  have hg : g.dataLen.toNat = TP_FRAME_DATA_LEN_MAX := by rw [(hs.2.2.2.2.2 hty).1, h512]
  rw [body_congr hty hs, pad_full f buffer h512, pad_full g _ hg, if_pos rfl]

/-- **The round trip.**  Exactly the frames without data, and the one shape of
data frame whose 520 bytes alternate, survive it. -/
theorem roundTrips_iff (f : Frame) (hh : f.header = tpHeader)
    (hty : f.frameType = TP_FRAME_TYPE_CONTROL ∨ f.frameType = TP_FRAME_TYPE_REQUEST_DATA ∨
      f.frameType = TP_FRAME_TYPE_TRANSPORT_DATA)
    (hf : f.Fits) :
    RoundTrips f ↔
      f.frameType ≠ TP_FRAME_TYPE_TRANSPORT_DATA ∨ f.tail [] = alternating 520 := by
  by_cases ht : f.frameType = TP_FRAME_TYPE_TRANSPORT_DATA
  · have hheap : ((⟨f, some fun _ => 0⟩ : Heap).temp).isSome := rfl
    constructor
    · intro h
      exact .inr (alternating_of_roundTrips f hh ht (hf ht) _ hheap h)
    · rintro (h | h)
      · exact absurd ht h
      · exact roundTrips_of_alternating f hh ht h
  · refine ⟨fun _ => .inl ht, fun _ => roundTrips_short f hh ?_⟩
    rcases hty with h | h | h
    · exact .inl h
    · exact .inr h
    · exact absurd h ht

theorem roundTrips_iff_sampleRequest :
    RoundTrips sampleRequest ↔ sampleRequest.frameType ≠ TP_FRAME_TYPE_TRANSPORT_DATA ∨
      sampleRequest.tail [] = alternating 520 :=
  roundTrips_iff sampleRequest rfl (.inr (.inl rfl)) (fun h => absurd h (by decide))

/-- The first data frame of file 1, with three bytes of data. -/
def sampleData : Frame where
  header := tpHeader
  address := TP_ADDRESS_MASTER
  frameType := TP_FRAME_TYPE_TRANSPORT_DATA
  nFile := 1
  nFrame := 1
  dataLen := 3
  data := [10, 20, 30] ++ List.replicate 509 0
  checkSum := 0
  header_length := tpHeader_length
  data_length := by rw [List.length_append, List.length_replicate]; rfl

theorem sampleData_lost : sampleData.header = tpHeader ∧ sampleData.Fits ∧
    sampleData.frameType = TP_FRAME_TYPE_TRANSPORT_DATA ∧ ¬ RoundTrips sampleData := by
  refine ⟨rfl, fun _ => by decide, rfl, fun h => ?_⟩
  have := dataLen_of_roundTrips sampleData rfl rfl (by decide) ⟨sampleData, some fun _ => 0⟩ rfl h
  revert this
  decide

end DeepSpace.TransmissionProtocol
