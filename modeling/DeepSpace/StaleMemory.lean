import DeepSpace.WireFormat
import Mathlib.Data.Finite.Prod

/-!
# What the memory held before

The encoder leaves the unused part of a data area as it was, and the decoder encodes the
frame once more, into a fresh block, for its checksum.

* `exists_checkBytes`: two free bytes at the end of a message give it any checksum;
* `verdict_long`: the verdict on a data frame;
* `stale_iff`: the frames and the received bytes for which old contents do not matter.
-/

namespace DeepSpace.TransmissionProtocol

open DeepSpace.Memory DeepSpace.Crc DeepSpace.ShiftRegister

/-! ## Checksums of a message with free bytes -/

theorem crcStep_inj {s : CrcBytes} {x y : UInt8} (h : crcStep s x = crcStep s y) : x = y := by
  have hr := congrArg CrcBytes.register h
  rw [crcStep_eq_run, crcStep_eq_run, run_byteBits, run_byteBits] at hr
  have hxy := iterate_shift_injective feedback feedback_top 8 hr
  rw [BitVec.xor_right_inj, setWidth_eq_append, setWidth_eq_append] at hxy
  exact UInt8.toBitVec_inj.mp (registers_inj hxy).2

theorem crcLoop_pair_inj {s : CrcBytes} {x y x' y' : UInt8}
    (h : crcLoop s [x, y] = crcLoop s [x', y']) : x = x' ∧ y = y' := by
  have hbits : ∀ lo hi, lineBits [lo, hi] = byteBits lo ++ byteBits hi := fun lo hi => by
    simp [lineBits]
  have hr := congrArg CrcBytes.register h
  rw [crcLoop_eq_run, crcLoop_eq_run, hbits, hbits, run_two_bytes, run_two_bytes] at hr
  have hxy := iterate_shift_injective feedback feedback_top 16 hr
  rw [BitVec.xor_right_inj] at hxy
  obtain ⟨hhi, hlo⟩ := registers_inj hxy
  exact ⟨UInt8.toBitVec_inj.mp hlo, UInt8.toBitVec_inj.mp hhi⟩

/-- Two bytes take the register anywhere: they are as many as its states. -/
theorem exists_crcLoop_pair (s t : CrcBytes) : ∃ x y, crcLoop s [x, y] = t := by
  have hfin : Finite UInt8 := .of_injective UInt8.toFin fun _ _ => UInt8.toFin_inj.mp
  have hinj : Function.Injective fun p : UInt8 × UInt8 =>
      ((crcLoop s [p.1, p.2]).crcHi, (crcLoop s [p.1, p.2]).crcLo) := by
    rintro ⟨x, y⟩ ⟨x', y'⟩ h
    obtain ⟨hhi, hlo⟩ := Prod.mk.inj h
    have hloop : crcLoop s [x, y] = crcLoop s [x', y'] := congrArg₂ CrcBytes.mk hhi hlo
    exact Prod.ext_iff.mpr (crcLoop_pair_inj hloop)
  obtain ⟨⟨x, y⟩, h⟩ := Finite.surjective_of_injective hinj (t.crcHi, t.crcLo)
  obtain ⟨hhi, hlo⟩ := Prod.mk.inj h
  exact ⟨x, y, congrArg₂ CrcBytes.mk hhi hlo⟩

theorem crcLoop_append (s : CrcBytes) (xs ys : List UInt8) :
    crcLoop s (xs ++ ys) = crcLoop (crcLoop s xs) ys := List.foldl_append

theorem exists_checkBytes (msg c : List UInt8) (hc : c.length = 2) :
    ∃ x y, checkBytes (msg ++ [x, y]) = c := by
  obtain ⟨lo, hi, rfl⟩ := List.length_eq_two.mp hc
  obtain ⟨x, y, h⟩ := exists_crcLoop_pair (crcLoop crcInit msg) ⟨hi, lo⟩
  refine ⟨x, y, ?_⟩
  have hrun : crcLoop crcInit (msg ++ [x, y]) = ⟨hi, lo⟩ := (crcLoop_append _ _ _).trans h
  rw [checkBytes, hrun]

theorem crcLoop_of_checkBytes {xs ys : List UInt8} (h : checkBytes xs = checkBytes ys) :
    crcLoop crcInit xs = crcLoop crcInit ys := by
  rw [checkBytes, checkBytes, List.cons.injEq, List.cons.injEq] at h
  generalize crcLoop crcInit xs = u at h
  generalize crcLoop crcInit ys = v at h
  cases u
  cases v
  exact congrArg₂ CrcBytes.mk h.2.1 h.1

theorem checkBytes_last_inj {msg : List UInt8} {x y : UInt8}
    (h : checkBytes (msg ++ [x]) = checkBytes (msg ++ [y])) : x = y := by
  have hloop := crcLoop_of_checkBytes h
  rw [crcLoop_append, crcLoop_append] at hloop
  exact crcStep_inj hloop

/-! ## The encoder -/

/-- The bytes that the encoder leaves in `buffer`, as far as it says that it wrote. -/
def encoded (f : Frame) (buffer : List UInt8) : C (List UInt8) :=
  (fun r => r.1.take r.2) <$> frame2bitStream f buffer

/-- Old contents of the output buffer do not show. -/
def IgnoresBuffer (f : Frame) : Prop :=
  ∀ buffer buffer' : List UInt8, f.bodySize + 2 ≤ buffer.length →
    f.bodySize + 2 ≤ buffer'.length → encoded f buffer = encoded f buffer'

theorem encoded_eq (f : Frame) (buffer : List UInt8) (hf : f.Fits)
    (hb : f.bodySize + 2 ≤ buffer.length) : encoded f buffer = .ok (f.wire buffer) := by
  rw [encoded, frame2bitStream_wire f buffer hf hb]
  exact congrArg Except.ok (List.take_left' (wire_length f buffer hf (by omega)))

theorem ignoresBuffer_iff (f : Frame) (hf : f.Fits) :
    IgnoresBuffer f ↔ f.frameType ≠ TP_FRAME_TYPE_TRANSPORT_DATA ∨
      f.dataLen.toNat = TP_FRAME_DATA_LEN_MAX := by
  constructor
  · intro h
    by_contra hne
    push Not at hne
    obtain ⟨hd, hne⟩ := hne
    have hlt : f.dataLen.toNat < TP_FRAME_DATA_LEN_MAX := lt_of_le_of_ne (hf hd) hne
    have hroom : ∀ x : UInt8, f.bodySize + 2 ≤ (List.replicate 530 x).length := fun x => by
      rw [bodySize_of_eq hd, List.length_replicate]
    have he := h _ _ (hroom 0) (hroom 1)
    rw [encoded_eq f _ hf (hroom 0), encoded_eq f _ hf (hroom 1)] at he
    have hw := List.append_inj_left (Except.ok.inj he) (by
      rw [body_length f _ hf (by have := hroom 0; omega),
        body_length f _ hf (by have := hroom 1; omega)])
    rw [body_long hd, body_long hd] at hw
    have ht := List.append_cancel_left (List.append_cancel_left (List.append_cancel_left hw))
    have h0 := tail_last f 0 hlt
    rw [ht, tail_last f 1 hlt] at h0
    exact absurd h0 (by decide)
  · intro h buffer buffer' hb hb'
    rw [encoded_eq f buffer hf hb, encoded_eq f buffer' hf hb', Frame.wire, Frame.wire]
    rcases h with hd | hd
    · rw [body_of_ne hd, body_of_ne hd]
    · rw [pad_full f buffer hd, pad_full f buffer' hd]

/-! ## The decoder: too few bytes -/

/-- Accepted or rejected. -/
def verdict (bytes : List UInt8) (heap : Heap) : C Bool :=
  Option.isSome <$> bitStream2frame bytes heap

/-- Old contents of the blocks that `malloc` returns do not show. -/
def IgnoresHeap (bytes : List UInt8) : Prop :=
  ∀ heap heap' : Heap, heap.temp.isSome → heap'.temp.isSome →
    verdict bytes heap = verdict bytes heap'

theorem loadLE_cases (bytes : List UInt8) (off n : Nat) :
    (∃ v, loadLE bytes off n = .ok v) ∨ loadLE bytes off n = .error .outOfBounds := by
  rw [loadLE]
  by_cases h : off + n ≤ bytes.length
  · rw [load_of_le _ _ _ h]
    exact .inl ⟨_, rfl⟩
  · rw [load_of_lt _ _ _ (by omega)]
    exact .inr rfl

theorem loadLE_of_lt {bytes : List UInt8} {off n : Nat} (h : bytes.length < off + n) :
    loadLE bytes off n = .error .outOfBounds := by
  rw [loadLE, load_of_lt _ _ _ h]
  rfl

theorem decodeTail_fault {bytes : List UInt8} {p : Nat} (heap : Heap) (frame : Frame)
    (h : bytes.length < p + 4) : decodeTail bytes heap frame p = .error .outOfBounds := by
  rw [decodeTail, loadLE_of_lt (show bytes.length < p + 2 + 2 by omega)]
  rcases loadLE_cases bytes p 2 with ⟨v, hv⟩ | hv <;> rw [hv] <;> rfl

theorem split_header {bytes : List UInt8} (hh : bytes.take 4 = tpHeader) :
    bytes = tpHeader ++ ((bytes.drop 4).take 2 ++ ((bytes.drop 6).take 2 ++ bytes.drop 8)) := by
  rw [← drop_eq_take_append bytes 6 2, ← drop_eq_take_append bytes 4 2, ← hh,
    List.take_append_drop]

/-- The decoder behind the type field. -/
theorem bitStream2frame_body {bytes : List UInt8} (heap : Heap) (hh : bytes.take 4 = tpHeader)
    (h8 : 8 ≤ bytes.length) :
    ∃ start, start.frameType = typeField bytes ∧
      bitStream2frame bytes heap = (do
        match ← decodeBody bytes start with
        | none => return none
        | some (frame, p) => decodeTail bytes heap frame p) := by
  have hs := split_header hh
  have ht : ((bytes.drop 6).take 2).length = 2 := by simp; omega
  have hstart := bitStream2frame_start ((bytes.drop 4).take 2) ((bytes.drop 6).take 2)
    (bytes.drop 8) heap (by simp; omega) ht
  rw [← hs] at hstart
  exact ⟨_, rfl, hstart⟩

/-- Bytes that a frame of the type in `bytes` needs. -/
def sizeField (bytes : List UInt8) : Nat :=
  if typeField bytes = TP_FRAME_TYPE_TRANSPORT_DATA then 530 else 16

theorem copyData_cases (f : Frame) (src : List UInt8) :
    (∃ g, f.copyData src = .ok g) ∨ f.copyData src = .error .outOfBounds := by
  by_cases h : src.length ≤ TP_FRAME_DATA_LEN_MAX
  · exact .inl ⟨_, copyData_ok f src h⟩
  · exact .inr (copyData_fault f src (by omega))

theorem load_cases (bytes : List UInt8) (off n : Nat) :
    (∃ b, load bytes off n = .ok b) ∨ load bytes off n = .error .outOfBounds := by
  by_cases h : off + n ≤ bytes.length
  · exact .inl ⟨_, load_of_le _ _ _ h⟩
  · exact .inr (load_of_lt _ _ _ (by omega))

/-- The fields of the type are read one after another; the last read is past the end. -/
theorem bitStream2frame_fault {bytes : List UInt8} (heap : Heap) (hh : bytes.take 4 = tpHeader)
    (hty : Known (typeField bytes)) (h8 : 8 ≤ bytes.length) (hlt : bytes.length < sizeField bytes) :
    bitStream2frame bytes heap = .error .outOfBounds := by
  obtain ⟨start, hft, he⟩ := bitStream2frame_body heap hh h8
  rw [he, decodeBody]
  unfold sizeField at hlt
  rcases hty with e | e | e
  · rw [e, if_neg (by decide)] at hlt
    rw [if_pos (hft.trans e)]
    rcases loadLE_cases bytes 8 4 with ⟨v, hv⟩ | hv
    · rw [hv]
      exact decodeTail_fault heap _ hlt
    · rw [hv]
      rfl
  · rw [e, if_neg (by decide)] at hlt
    rw [if_neg (by rw [hft, e]; decide), if_neg (by rw [hft, e]; decide), if_pos (hft.trans e)]
    rcases loadLE_cases bytes 8 4 with ⟨v, hv⟩ | hv
    · rw [hv]
      exact decodeTail_fault heap _ hlt
    · rw [hv]
      rfl
  · rw [e, if_pos rfl] at hlt
    rw [if_neg (by rw [hft, e]; decide), if_pos (hft.trans e)]
    rcases loadLE_cases bytes 8 2 with ⟨l, hl⟩ | hl
    · rw [hl]
      change Except.bind (Except.bind (load bytes 10 (UInt16.ofNat l).toNat) _) _ = _
      rcases load_cases bytes 10 (UInt16.ofNat l).toNat with ⟨d, hd⟩ | hd
      · rw [hd]
        change Except.bind (Except.bind (Frame.copyData _ d) _) _ = _
        rcases copyData_cases { start with dataLen := UInt16.ofNat l } d with ⟨g, hg⟩ | hg
        · rw [hg]
          change Except.bind (Except.bind (loadLE bytes 522 4) _) _ = _
          rcases loadLE_cases bytes 522 4 with ⟨n, hn⟩ | hn
          · rw [hn]
            exact decodeTail_fault heap _ hlt
          · rw [hn]
            rfl
        · rw [hg]
          rfl
      · rw [hd]
        rfl
    · rw [hl]
      rfl

/-! ## The decoder: frames without data -/

/-- A result that does not depend on the blocks. -/
theorem ignoresHeap_of_eq {bytes : List UInt8} {r : C Bool}
    (h : ∀ heap : Heap, heap.temp.isSome → verdict bytes heap = r) : IgnoresHeap bytes :=
  fun heap heap' ht ht' => (h heap ht).trans (h heap' ht').symm

theorem ignoresHeap_of_header {bytes : List UInt8} (hh : bytes.take 4 ≠ tpHeader) :
    IgnoresHeap bytes := by
  by_cases h4 : 4 ≤ bytes.length
  · refine ignoresHeap_of_eq (r := .ok false) fun heap _ => ?_
    have hd := bitStream2frame_header (bytes.take 4) (bytes.drop 4) heap (by simp; omega) hh
    rw [List.take_append_drop] at hd
    rw [verdict, hd]
    rfl
  · refine ignoresHeap_of_eq (r := .error .outOfBounds) fun heap _ => ?_
    rw [verdict, bitStream2frame, load_of_lt _ _ _ (by omega)]
    rfl

theorem ignoresHeap_of_short {bytes : List UInt8} (hh : bytes.take 4 = tpHeader)
    (h8 : bytes.length < 8) : IgnoresHeap bytes := by
  refine ignoresHeap_of_eq (r := .error .outOfBounds) fun heap _ => ?_
  have h4 : 4 ≤ bytes.length := by
    have := congrArg List.length hh
    rw [tpHeader_length, List.length_take] at this
    omega
  rw [verdict, bitStream2frame, load_of_le _ _ _ (by omega), List.drop_zero, hh,
    loadLE_of_lt (show bytes.length < 6 + 2 by omega)]
  rcases loadLE_cases bytes 4 2 with ⟨v, hv⟩ | hv <;> rw [hv] <;> rfl

theorem ignoresHeap_of_unknown {bytes : List UInt8} (hh : bytes.take 4 = tpHeader)
    (h8 : 8 ≤ bytes.length) (hty : ¬ Known (typeField bytes)) : IgnoresHeap bytes := by
  refine ignoresHeap_of_eq (r := .ok false) fun heap _ => ?_
  obtain ⟨start, hft, he⟩ := bitStream2frame_body heap hh h8
  unfold Known at hty
  push Not at hty
  obtain ⟨h1, h3, h5⟩ := hty
  rw [← hft] at h1 h3 h5
  rw [verdict, he, decodeBody, if_neg h1, if_neg h5, if_neg h3]
  rfl

theorem ignoresHeap_of_fault {bytes : List UInt8} (hh : bytes.take 4 = tpHeader)
    (hty : Known (typeField bytes)) (h8 : 8 ≤ bytes.length) (hlt : bytes.length < sizeField bytes) :
    IgnoresHeap bytes := by
  refine ignoresHeap_of_eq (r := .error .outOfBounds) fun heap _ => ?_
  rw [verdict, bitStream2frame_fault heap hh hty h8 hlt]
  rfl

theorem ignoresHeap_of_type {bytes : List UInt8} (hh : bytes.take 4 = tpHeader)
    (h16 : 16 ≤ bytes.length) (hty : typeField bytes = TP_FRAME_TYPE_CONTROL ∨
      typeField bytes = TP_FRAME_TYPE_REQUEST_DATA) : IgnoresHeap bytes := by
  have hs := split_header hh
  rw [drop_eq_take_append bytes 8 4, drop_eq_take_append bytes 12 2,
    drop_eq_take_append bytes 14 2] at hs
  refine ignoresHeap_of_eq (r := .ok (decide ((bytes.drop 14).take 2 = checkBytes (tpHeader ++
    (bytes.drop 4).take 2 ++ (bytes.drop 6).take 2 ++ (bytes.drop 8).take 4 ++
      (bytes.drop 12).take 2)))) fun heap ht => ?_
  have hd := bitStream2frame_short ((bytes.drop 4).take 2) ((bytes.drop 6).take 2)
    ((bytes.drop 8).take 4) ((bytes.drop 12).take 2) ((bytes.drop 14).take 2) (bytes.drop 16) heap
    (by simp; omega) (by simp; omega) (by simp; omega) (by simp; omega) (by simp; omega) hty
  rw [← hs] at hd
  simp only [ht, true_and] at hd
  rw [verdict, hd]
  split
  · next h => exact congrArg Except.ok (decide_eq_true h).symm
  · next h => exact congrArg Except.ok (decide_eq_false h).symm

/-! ## The decoder: frames with data -/

/-- The length field of a data frame, where the decoder looks for it. -/
def dataLenField (bytes : List UInt8) : Nat := leValue ((bytes.drop 8).take 2)

/-- The message that the decoder sums for a data frame: the fields it found, the data, and
what the scratch block held behind them. -/
def reencoded (bytes pad : List UInt8) : List UInt8 :=
  bytes.take 8 ++ (bytes.drop 522).take 6 ++ (bytes.drop 8).take (2 + dataLenField bytes) ++ pad

def checkField (bytes : List UInt8) : List UInt8 := (bytes.drop 528).take 2

/-- The part of the scratch block behind `n` bytes of data. -/
def scratch (n : Nat) (stale : Nat → UInt8) : List UInt8 :=
  ((malloc 528 stale).drop (16 + n)).take (512 - n)

theorem exists_scratch {n : Nat} {pad : List UInt8} (hn : n ≤ 512) (hp : pad.length = 512 - n) :
    ∃ stale, scratch n stale = pad := by
  refine ⟨fun i => pad.getD (i - (16 + n)) 0, List.ext_getElem ?_ fun i h1 h2 => ?_⟩
  · simp [scratch, hp]
    omega
  · simp [scratch, List.getD_eq_getElem?_getD, h2]

theorem bitStream2frame_of_overrun {bytes : List UInt8} (heap : Heap)
    (hh : bytes.take 4 = tpHeader) (h10 : 10 ≤ bytes.length)
    (hty : typeField bytes = TP_FRAME_TYPE_TRANSPORT_DATA)
    (hbig : TP_FRAME_DATA_LEN_MAX < dataLenField bytes) :
    bitStream2frame bytes heap = .error .outOfBounds := by
  have hs := split_header hh
  rw [drop_eq_take_append bytes 8 2] at hs
  have hd := bitStream2frame_overrun ((bytes.drop 4).take 2) ((bytes.drop 6).take 2)
    ((bytes.drop 8).take 2) (bytes.drop 10) heap (by simp; omega) (by simp; omega)
    (by simp; omega) hty hbig
  rwa [← hs] at hd

theorem ignoresHeap_of_overrun {bytes : List UInt8} (hh : bytes.take 4 = tpHeader)
    (h10 : 10 ≤ bytes.length) (hty : typeField bytes = TP_FRAME_TYPE_TRANSPORT_DATA)
    (hbig : TP_FRAME_DATA_LEN_MAX < dataLenField bytes) : IgnoresHeap bytes := by
  refine ignoresHeap_of_eq (r := .error .outOfBounds) fun heap _ => ?_
  rw [verdict, bitStream2frame_of_overrun heap hh h10 hty hbig]
  rfl

section

variable (a t l d n fr c : List UInt8) (heap : Heap) (hd : d.length = TP_FRAME_DATA_LEN_MAX)

theorem dataLen_longFrame (hfit : leValue l ≤ TP_FRAME_DATA_LEN_MAX) :
    (longFrame a t l d n fr c heap hd).dataLen.toNat = leValue l := by
  unfold TP_FRAME_DATA_LEN_MAX at hfit
  exact uint16_ofNat_toNat (by omega)

theorem body_longFrame (pad : List UInt8) (ha : a.length = 2) (ht : t.length = 2)
    (hl : l.length = 2) (hn : n.length = 4) (hfr : fr.length = 2)
    (hty : UInt16.ofNat (leValue t) = TP_FRAME_TYPE_TRANSPORT_DATA)
    (hfit : leValue l ≤ TP_FRAME_DATA_LEN_MAX) :
    (longFrame a t l d n fr c heap hd).body pad =
      tpHeader ++ a ++ t ++ (n ++ fr) ++ (l ++ d.take (leValue l)) ++ pad := by
  have hlen := dataLen_longFrame a t l d n fr c heap hd hfit
  have hfields : (longFrame a t l d n fr c heap hd).fields = tpHeader ++ a ++ t ++ n ++ fr :=
    fields_shortFrame a t n fr c heap ha ht hn hfr
  have hk : (d.take (leValue l)).length = leValue l := by
    rw [List.length_take, hd]
    omega
  have hdata : (longFrame a t l d n fr c heap hd).data.take (leValue l) = d.take (leValue l) :=
    List.take_left' hk
  have hl' : leBytes 2 (longFrame a t l d n fr c heap hd).dataLen.toNat = l := leBytes_uint16 l hl
  rw [body_of_eq hty, hfields, hl', hlen, hdata]
  simp only [List.append_assoc]

theorem pad_longFrame (stale : Nat → UInt8) (hfit : leValue l ≤ TP_FRAME_DATA_LEN_MAX) :
    (longFrame a t l d n fr c heap hd).pad (malloc 528 stale) = scratch (leValue l) stale := by
  rw [Frame.pad, dataLen_longFrame a t l d n fr c heap hd hfit]
  rfl

end

theorem reencoded_eq {bytes : List UInt8} (pad : List UInt8) (hh : bytes.take 4 = tpHeader)
    (hfit : dataLenField bytes ≤ TP_FRAME_DATA_LEN_MAX) :
    reencoded bytes pad = tpHeader ++ (bytes.drop 4).take 2 ++ (bytes.drop 6).take 2 ++
      ((bytes.drop 522).take 4 ++ (bytes.drop 526).take 2) ++
      ((bytes.drop 8).take 2 ++ ((bytes.drop 10).take 512).take (dataLenField bytes)) ++ pad := by
  have h8 : bytes.take 8 = bytes.take 4 ++ (bytes.drop 4).take 2 ++ (bytes.drop 6).take 2 := by
    rw [show 8 = 4 + 2 + 2 by rfl, List.take_add, List.take_add]
  have h6 : (bytes.drop 522).take 6 = (bytes.drop 522).take 4 ++ (bytes.drop 526).take 2 := by
    rw [show 6 = 4 + 2 by rfl, List.take_add, List.drop_drop]
  have hl : (bytes.drop 8).take (2 + dataLenField bytes) =
      (bytes.drop 8).take 2 ++ ((bytes.drop 10).take 512).take (dataLenField bytes) := by
    unfold TP_FRAME_DATA_LEN_MAX at hfit
    rw [List.take_add, List.drop_drop, List.take_take, Nat.min_eq_left hfit]
  rw [reencoded, h8, h6, hl, hh]

/-- The decoder on a data frame whose length field fits. -/
theorem bitStream2frame_of_long {bytes : List UInt8} (heap : Heap)
    (hh : bytes.take 4 = tpHeader) (h530 : 530 ≤ bytes.length)
    (hty : typeField bytes = TP_FRAME_TYPE_TRANSPORT_DATA)
    (hfit : dataLenField bytes ≤ TP_FRAME_DATA_LEN_MAX) :
    ∃ g : Frame, g.dataLen.toNat = dataLenField bytes ∧
      bitStream2frame bytes heap =
        match heap.temp with
        | none => .ok none
        | some stale =>
          if checkField bytes = checkBytes (reencoded bytes (scratch (dataLenField bytes) stale))
          then .ok (some g) else .ok none := by
  have hs := split_header hh
  rw [drop_eq_take_append bytes 8 2, drop_eq_take_append bytes 10 512,
    drop_eq_take_append bytes 522 4, drop_eq_take_append bytes 526 2,
    drop_eq_take_append bytes 528 2] at hs
  have hd512 : ((bytes.drop 10).take 512).length = TP_FRAME_DATA_LEN_MAX := by
    simp [TP_FRAME_DATA_LEN_MAX]
    omega
  have hd := bitStream2frame_long ((bytes.drop 4).take 2) ((bytes.drop 6).take 2)
    ((bytes.drop 8).take 2) ((bytes.drop 10).take 512) ((bytes.drop 522).take 4)
    ((bytes.drop 526).take 2) ((bytes.drop 528).take 2) (bytes.drop 530) heap (by simp; omega)
    (by simp; omega) (by simp; omega) hd512 (by simp; omega) (by simp; omega) (by simp; omega)
    hty hfit
  rw [← hs] at hd
  refine ⟨_, dataLen_longFrame ((bytes.drop 4).take 2) ((bytes.drop 6).take 2)
    ((bytes.drop 8).take 2) ((bytes.drop 10).take 512) ((bytes.drop 522).take 4)
    ((bytes.drop 526).take 2) ((bytes.drop 528).take 2) heap hd512 hfit, ?_⟩
  rw [hd]
  cases heap.temp with
  | none => rfl
  | some stale =>
    simp only
    rw [pad_longFrame _ _ _ _ _ _ _ _ _ _ hfit,
      body_longFrame _ _ _ _ _ _ _ _ _ _ (by simp; omega) (by simp; omega) (by simp; omega)
        (by simp; omega) (by simp; omega) hty hfit, reencoded_eq _ hh hfit]
    rfl

/-- **The verdict on a data frame.** -/
theorem verdict_long {bytes : List UInt8} (heap : Heap) {stale : Nat → UInt8}
    (ht : heap.temp = some stale) (hh : bytes.take 4 = tpHeader) (h530 : 530 ≤ bytes.length)
    (hty : typeField bytes = TP_FRAME_TYPE_TRANSPORT_DATA)
    (hfit : dataLenField bytes ≤ TP_FRAME_DATA_LEN_MAX) :
    verdict bytes heap = .ok (decide (checkField bytes =
      checkBytes (reencoded bytes (scratch (dataLenField bytes) stale)))) := by
  obtain ⟨g, -, hd⟩ := bitStream2frame_of_long heap hh h530 hty hfit
  rw [ht] at hd
  rw [verdict, hd]
  simp only
  split
  · next h => exact congrArg Except.ok (decide_eq_true h).symm
  · next h => exact congrArg Except.ok (decide_eq_false h).symm

/-- Two blocks whose last bytes differ are not both accepted. -/
theorem not_ignoresHeap {bytes : List UInt8} (heap : Heap) (hh : bytes.take 4 = tpHeader)
    (h530 : 530 ≤ bytes.length) (hty : typeField bytes = TP_FRAME_TYPE_TRANSPORT_DATA)
    (pre : List UInt8) (x : UInt8) (hp : pre.length + 1 + dataLenField bytes = 512)
    (hx : checkField bytes = checkBytes (reencoded bytes (pre ++ [x]))) : ¬ IgnoresHeap bytes := by
  intro h
  have hfit : dataLenField bytes ≤ TP_FRAME_DATA_LEN_MAX := by
    unfold TP_FRAME_DATA_LEN_MAX
    omega
  have hlen : ∀ z, (pre ++ [z]).length = 512 - dataLenField bytes := fun z => by
    rw [List.length_append, List.length_singleton]
    omega
  obtain ⟨stale, hs⟩ := exists_scratch (by omega) (hlen x)
  obtain ⟨stale', hs'⟩ := exists_scratch (by omega) (hlen (x + 1))
  have he := h ⟨heap.frame, some stale⟩ ⟨heap.frame, some stale'⟩ rfl rfl
  rw [verdict_long _ rfl hh h530 hty hfit, verdict_long _ rfl hh h530 hty hfit, hs, hs', ← hx,
    decide_eq_true rfl] at he
  have he := of_decide_eq_true (Except.ok.inj he).symm
  rw [hx, reencoded, reencoded, ← List.append_assoc, ← List.append_assoc] at he
  exact absurd (checkBytes_last_inj he) (by simp)

/-! ## Exactly which bytes -/

/-- A whole data frame whose data leaves at least one byte of the scratch block as it was,
and, where it leaves only one, a checksum that some value of this byte explains. -/
def Sensitive (bytes : List UInt8) : Prop :=
  bytes.take 4 = tpHeader ∧ 530 ≤ bytes.length ∧
    typeField bytes = TP_FRAME_TYPE_TRANSPORT_DATA ∧
    (dataLenField bytes ≤ 510 ∨
      dataLenField bytes = 511 ∧ ∃ x, checkField bytes = checkBytes (reencoded bytes [x]))

theorem not_ignoresHeap_of_sensitive {bytes : List UInt8} (h : Sensitive bytes) :
    ¬ IgnoresHeap bytes := by
  obtain ⟨hh, h530, hty, hlen | ⟨hlen, x, hx⟩⟩ := h
  · obtain ⟨x, y, hxy⟩ := exists_checkBytes
      (reencoded bytes (List.replicate (510 - dataLenField bytes) 0)) (checkField bytes)
      (by simp [checkField]; omega)
    refine not_ignoresHeap ⟨sampleRequest, none⟩ hh h530 hty
      (List.replicate (510 - dataLenField bytes) 0 ++ [x]) y ?_ ?_
    · rw [List.length_append, List.length_replicate, List.length_singleton]
      omega
    · rw [← hxy, reencoded, reencoded]
      simp only [List.append_assoc, List.cons_append, List.nil_append]
  · refine not_ignoresHeap ⟨sampleRequest, none⟩ hh h530 hty [] x ?_ hx
    rw [hlen, List.length_nil]

theorem ignoresHeap_of_long {bytes : List UInt8} (hh : bytes.take 4 = tpHeader)
    (h530 : 530 ≤ bytes.length) (hty : typeField bytes = TP_FRAME_TYPE_TRANSPORT_DATA)
    (h : ¬ Sensitive bytes) : IgnoresHeap bytes := by
  have hlen : 511 ≤ dataLenField bytes := by
    by_contra hlt
    exact h ⟨hh, h530, hty, .inl (by omega)⟩
  by_cases hbig : TP_FRAME_DATA_LEN_MAX < dataLenField bytes
  · exact ignoresHeap_of_overrun hh (by omega) hty hbig
  · have hfit : dataLenField bytes ≤ TP_FRAME_DATA_LEN_MAX := by omega
    by_cases h511 : dataLenField bytes = 511
    · refine ignoresHeap_of_eq (r := .ok false) fun heap ht => ?_
      obtain ⟨stale, hst⟩ := Option.isSome_iff_exists.mp ht
      obtain ⟨x, hx⟩ : ∃ x, scratch (dataLenField bytes) stale = [x] :=
        List.length_eq_one_iff.mp (by simp [scratch, h511])
      rw [verdict_long heap hst hh h530 hty hfit, hx,
        decide_eq_false fun he => h ⟨hh, h530, hty, .inr ⟨h511, x, he⟩⟩]
    · have h512 : dataLenField bytes = 512 := by
        unfold TP_FRAME_DATA_LEN_MAX at hfit
        omega
      refine ignoresHeap_of_eq (r := .ok (decide (checkField bytes =
        checkBytes (reencoded bytes [])))) fun heap ht => ?_
      obtain ⟨stale, hst⟩ := Option.isSome_iff_exists.mp ht
      have hx : scratch (dataLenField bytes) stale = [] :=
        List.eq_nil_of_length_eq_zero (by simp [scratch, h512])
      rw [verdict_long heap hst hh h530 hty hfit, hx]

theorem ignoresHeap_iff (bytes : List UInt8) : IgnoresHeap bytes ↔ ¬ Sensitive bytes := by
  refine ⟨fun h hs => not_ignoresHeap_of_sensitive hs h, fun h => ?_⟩
  by_cases hh : bytes.take 4 = tpHeader
  · by_cases h8 : bytes.length < 8
    · exact ignoresHeap_of_short hh h8
    · by_cases hty : Known (typeField bytes)
      · by_cases hlt : bytes.length < sizeField bytes
        · exact ignoresHeap_of_fault hh hty (by omega) hlt
        · unfold sizeField at hlt
          rcases hty with e | e | e
          · rw [e, if_neg (by decide)] at hlt
            exact ignoresHeap_of_type hh (by omega) (.inl e)
          · rw [e, if_neg (by decide)] at hlt
            exact ignoresHeap_of_type hh (by omega) (.inr e)
          · rw [e, if_pos rfl] at hlt
            exact ignoresHeap_of_long hh (by omega) e h
      · exact ignoresHeap_of_unknown hh (by omega) hty
  · exact ignoresHeap_of_header hh

/-- **Old memory contents**: where the encoder ignores those of its buffer, and where the
decoder ignores those of its blocks. -/
theorem stale_iff (f : Frame) (hf : f.Fits) (bytes : List UInt8) :
    (IgnoresBuffer f ↔ f.frameType ≠ TP_FRAME_TYPE_TRANSPORT_DATA ∨
      f.dataLen.toNat = TP_FRAME_DATA_LEN_MAX) ∧
    (IgnoresHeap bytes ↔ ¬ Sensitive bytes) :=
  ⟨ignoresBuffer_iff f hf, ignoresHeap_iff bytes⟩

theorem stale_iff_sampleData :
    (IgnoresBuffer sampleData ↔ sampleData.frameType ≠ TP_FRAME_TYPE_TRANSPORT_DATA ∨
      sampleData.dataLen.toNat = TP_FRAME_DATA_LEN_MAX) ∧
    (IgnoresHeap (sampleData.wire (List.replicate 530 0)) ↔
      ¬ Sensitive (sampleData.wire (List.replicate 530 0))) :=
  stale_iff sampleData sampleData_fits _

/-- What the encoder writes for `sampleData` over zeros; the decoder takes its file number,
1, for the length. -/
theorem sampleData_sensitive : Sensitive (sampleData.wire (List.replicate 530 0)) := by
  have hl := wire_length sampleData (List.replicate 530 0) sampleData_fits (by
    rw [bodySize_of_eq rfl, List.length_replicate]; decide)
  obtain ⟨rest, hwire, -⟩ := wire_split sampleData (List.replicate 530 0)
  obtain ⟨h0, -, -, h8, -⟩ := fields_layout sampleData rest rfl
  have hty := typeField_wire sampleData (List.replicate 530 0) []
  rw [List.append_nil] at hty
  rw [← hwire] at h0 h8
  refine ⟨h0, by rw [hl, bodySize_of_eq rfl], hty, .inl ?_⟩
  have h2 : ((sampleData.wire (List.replicate 530 0)).drop 8).take 2 =
      (leBytes 4 sampleData.nFile.toNat).take 2 := by
    rw [← h8, List.take_take]
    rfl
  rw [dataLenField, h2]
  decide

theorem sampleData_stale : sampleData.Fits ∧ ¬ IgnoresBuffer sampleData ∧
    ¬ IgnoresHeap (sampleData.wire (List.replicate 530 0)) := by
  refine ⟨sampleData_fits, fun h => ?_, not_ignoresHeap_of_sensitive sampleData_sensitive⟩
  rcases (ignoresBuffer_iff sampleData sampleData_fits).mp h with hne | h512
  · exact hne rfl
  · exact absurd h512 (by decide)

end DeepSpace.TransmissionProtocol
