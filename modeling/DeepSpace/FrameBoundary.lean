import DeepSpace.FrameDistance
import DeepSpace.Recovery

/-!
# Frames back to back

The receiver requests 530 bytes for every type, and a rejected frame ends the program.

* `receiveFrame_fifo`: what one call takes from the line, and what it decodes;
* `not_checkBytes_moved`: a checksum notices that one byte has moved;
* `consumesExactly_iff`: the frames behind which the receiver goes on with the next one.
-/

namespace DeepSpace.TransmissionProtocol

open DeepSpace.Memory DeepSpace.Crc DeepSpace.ShiftRegister

/-! ## Moved bytes -/

theorem corrupt_self (t : List UInt8) : corrupt t t = List.replicate t.length 0 := by
  induction t with
  | nil => rfl
  | cons x t ih =>
    change (x ^^^ x) :: corrupt t t = _
    rw [ih, UInt8.xor_self]
    rfl

theorem lineBits_replicate (n : Nat) :
    lineBits (List.replicate n 0) = List.replicate (8 * n) false := by
  induction n with
  | zero => rfl
  | succ n ih =>
    have e : lineBits (List.replicate (n + 1) 0) =
        List.replicate 8 false ++ lineBits (List.replicate n 0) := rfl
    rw [e, ih, List.replicate_append_replicate, Nat.mul_succ, Nat.add_comm]

/-- The lowest bit of a byte, as the register sees it behind the bytes `t`. -/
theorem register_flip (s : CrcBytes) (t : List UInt8) :
    (crcLoop s (0 :: t)).register ^^^ (crcLoop s (1 :: t)).register =
      (shift feedback)^[8 * t.length + 8] 1#16 := by
  have hr := run_xor feedback s.register s.register (lineBits (0 :: t)) (lineBits (1 :: t))
    (by rw [lineBits_length, lineBits_length]; rfl)
  have hc : corrupt (0 :: t) (1 :: t) = 1 :: List.replicate t.length 0 :=
    congrArg (1 :: ·) (corrupt_self t)
  have hbits : List.zipWith xor (lineBits (0 :: t)) (lineBits (1 :: t)) =
      byteBits 1 ++ List.replicate (8 * t.length) false := by
    rw [← lineBits_xor (0 :: t) (1 :: t) rfl, ← lineBits_replicate]
    exact congrArg lineBits hc
  rw [crcLoop_eq_run, crcLoop_eq_run, ← hr, hbits, BitVec.xor_self, run_append, run_byteBits,
    run_replicate_false, ← Function.iterate_add_apply]
  rfl

/-- **Moved bytes.**  No two orders of the bytes of a frame have one checksum for every value of
a byte that stands last in one of them, and further ahead in the other. -/
theorem not_checkBytes_moved (u v t : List UInt8) (ht : t ≠ []) (hl : t.length ≤ 529) :
    ¬ ∀ x, checkBytes (u ++ [x]) = checkBytes (v ++ x :: t) := by
  intro h
  have hsame : ∀ x, crcLoop (crcLoop crcInit u) [x] = crcLoop (crcLoop crcInit v) (x :: t) :=
    fun x => by
      rw [← crcLoop_append, ← crcLoop_append]
      exact crcLoop_of_checkBytes (h x)
  have hu := register_flip (crcLoop crcInit u) []
  rw [hsame 0, hsame 1, register_flip, Nat.add_comm, Function.iterate_add_apply] at hu
  have hone := iterate_shift_injective feedback feedback_top 8 hu
  have hpos := List.length_pos_iff.mpr ht
  refine iterate_ne_of_meets feedback_meets (d := 8 * t.length - 1) (by omega) ?_
  rwa [Nat.sub_add_cancel (by omega)]

/-! ## One call -/

/-- **One call** takes 530 bytes, or all there are. -/
theorem receiveFrame_fifo (stale : Nat → UInt8) (heap : Heap) {taken rest : List UInt8} (p : Frame)
    (h8 : 8 ≤ taken.length) (hl : taken.length ≤ TP_FRAME_SIZE_TRANSPORT_DATA)
    (hk : Known (typeField taken)) (hr : taken.length < TP_FRAME_SIZE_TRANSPORT_DATA → rest = []) :
    receiveFrame fifo stale heap (taken ++ rest) p =
      (handOver heap (taken ++ (malloc TP_FRAME_SIZE_TRANSPORT_DATA stale).drop taken.length)
        taken.length, rest) := by
  have hread : fifo.read (taken ++ rest) TP_FRAME_SIZE_CMD_TYPE =
      (some (taken.take 8), taken.drop 8 ++ rest) :=
    Prod.ext_iff.mpr ⟨congrArg some (List.take_append_of_le_length h8),
      List.drop_append_of_le_length h8⟩
  have hread' : fifo.read (taken.drop 8 ++ rest)
      (TP_FRAME_SIZE_TRANSPORT_DATA - TP_FRAME_SIZE_CMD_TYPE) =
      (some ((taken.drop 8).take 522), rest) := by
    unfold TP_FRAME_SIZE_TRANSPORT_DATA at hl hr
    have hd : (taken.drop 8).length = taken.length - 8 := List.length_drop
    by_cases hlt : taken.length < 530
    · rw [hr hlt, List.append_nil]
      exact congrArg (some ((taken.drop 8).take 522), ·)
        (List.drop_eq_nil_of_le (by rw [hd]; exact Nat.sub_le_sub_right hl 8))
    · have h522 : (taken.drop 8).length = 522 := by omega
      exact Prod.ext_iff.mpr ⟨congrArg some ((List.take_left' h522).trans
        (List.take_of_length_le h522.le).symm), List.drop_left' h522⟩
  rw [receiveFrame_of_known stale heap p hread (List.length_take_of_le h8)
    (typeField_take taken ▸ hk) hread' (List.length_take_le ..), received_line stale h8 hl]
  congr 2
  unfold TP_FRAME_SIZE_TRANSPORT_DATA at hl
  rw [List.length_take, List.length_drop]
  omega

/-- What comes back is the result of the decoder. -/
theorem receiveFrame_fifo_eq_ok (stale : Nat → UInt8) (heap : Heap) {taken rest : List UInt8}
    (p : Frame) (h8 : 8 ≤ taken.length) (hl : taken.length ≤ TP_FRAME_SIZE_TRANSPORT_DATA)
    (hk : Known (typeField taken)) (hr : taken.length < TP_FRAME_SIZE_TRANSPORT_DATA → rest = []) :
    (∃ g, receiveFrame fifo stale heap (taken ++ rest) p = (.ok ((taken.length : Int), g), rest)) ↔
      ∃ g, bitStream2frame (taken ++ (malloc TP_FRAME_SIZE_TRANSPORT_DATA stale).drop taken.length)
        heap = .ok (some g) := by
  rw [receiveFrame_fifo stale heap p h8 hl hk hr]
  refine exists_congr fun g => ?_
  rw [Prod.mk.injEq, handOver_eq_ok]
  exact ⟨fun h => h.1.1, fun h => ⟨⟨h, rfl⟩, rfl⟩⟩

/-! ## Data frames -/

/-- What the decoder sums for a data frame whose data fills the area: the last six of the 520
bytes, where it looks for the two numbers, come first. -/
def Frame.reordered (f : Frame) (pad : List UInt8) : List UInt8 :=
  f.header ++ (leBytes 2 f.address.toNat ++ (leBytes 2 f.frameType.toNat ++
    ((f.tail pad).drop 514 ++ (f.tail pad).take 514)))

/-- A data frame that looks full to the sender and to the receiver, which takes the low half of the
file number for the length, and whose checksum is the same in both orders of the fields. -/
structure Frame.Balanced (f : Frame) : Prop where
  dataLen : f.dataLen.toNat = TP_FRAME_DATA_LEN_MAX
  nFile : f.nFile.toNat % 2 ^ 16 = TP_FRAME_DATA_LEN_MAX
  checkBytes : checkBytes (f.body []) = checkBytes (f.reordered [])

theorem accepted_iff_exists (bytes : List UInt8) :
    Accepted bytes ↔ ∀ heap : Heap, heap.temp.isSome →
      ∃ g, bitStream2frame bytes heap = .ok (some g) := by
  refine forall_congr' fun heap => imp_congr_right fun _ => ?_
  rw [verdict]
  cases bitStream2frame bytes heap with
  | error e => exact iff_of_false (by rintro ⟨⟩) (by rintro ⟨g, ⟨⟩⟩)
  | ok result =>
    cases result with
    | none => exact iff_of_false (by rintro ⟨⟩) (by rintro ⟨g, ⟨⟩⟩)
    | some g => exact iff_of_true rfl ⟨g, rfl⟩

section

variable {f : Frame} {buffer : List UInt8} (hh : f.header = tpHeader)
  (hty : f.frameType = TP_FRAME_TYPE_TRANSPORT_DATA) (hf : f.Fits) (hb : 528 ≤ buffer.length)

include hh hty hf hb

theorem dataLenField_wire : dataLenField (f.wire buffer) = f.nFile.toNat % 2 ^ 16 := by
  have h2 : ((f.wire buffer).drop 8).take 2 = (f.tail (f.pad buffer)).take 2 := by
    rw [← drop_wire hh hty hf hb, List.take_take]
    rfl
  have h4 : (f.tail (f.pad buffer)).take 2 = leBytes 2 f.nFile.toNat := by
    rw [Frame.tail, List.take_append_of_le_length (by simp)]
    rfl
  rw [dataLenField, h2, h4]
  simp [leBytes, leValue]
  omega

theorem reencoded_wire (h512 : dataLenField (f.wire buffer) = 512) :
    reencoded (f.wire buffer) [] = f.reordered (f.pad buffer) := by
  have h8 : (f.wire buffer).take 8 =
      f.header ++ (leBytes 2 f.address.toNat ++ leBytes 2 f.frameType.toNat) := by
    rw [Frame.wire, body_long hty]
    simp only [← List.append_assoc]
    rw [List.append_assoc (f.header ++ leBytes 2 f.address.toNat ++ leBytes 2 f.frameType.toNat)]
    exact List.take_left' (by simp [f.header_length])
  have h6 : ((f.wire buffer).drop 522).take 6 = (f.tail (f.pad buffer)).drop 514 := by
    rw [← drop_wire hh hty hf hb, List.drop_take, List.drop_drop]
  have h514 : ((f.wire buffer).drop 8).take 514 = (f.tail (f.pad buffer)).take 514 := by
    rw [← drop_wire hh hty hf hb, List.take_take]
    rfl
  rw [reencoded, h512, h8, h6, h514, List.append_nil, Frame.reordered]
  simp only [List.append_assoc]

/-- **A data frame** that is accepted, whatever `malloc` hands out. -/
theorem accepted_wire_iff : Accepted (f.wire buffer) ↔
    f.nFile.toNat % 2 ^ 16 = TP_FRAME_DATA_LEN_MAX ∧
      checkBytes (f.body (f.pad buffer)) = checkBytes (f.reordered (f.pad buffer)) := by
  have hlen := dataLenField_wire hh hty hf hb
  have hbs := bodySize_of_eq hty
  have hl := wire_length f buffer hf (by omega)
  rw [hbs] at hl
  have hhead : (f.wire buffer).take 4 = tpHeader := (take_wire f buffer).trans hh
  have htype : typeField (f.wire buffer) = TP_FRAME_TYPE_TRANSPORT_DATA := by
    have ht := typeField_wire f buffer []
    rw [List.append_nil] at ht
    exact ht.trans hty
  have hcheck : checkField (f.wire buffer) = checkBytes (f.body (f.pad buffer)) := by
    rw [checkField, Frame.wire, List.drop_left' (by rw [body_length f buffer hf (by omega), hbs])]
    rfl
  have hverdict : ∀ (h512 : dataLenField (f.wire buffer) = 512) (heap : Heap), heap.temp.isSome →
      verdict (f.wire buffer) heap = .ok (decide (checkBytes (f.body (f.pad buffer)) =
        checkBytes (f.reordered (f.pad buffer)))) := by
    intro h512 heap hheap
    obtain ⟨stale, hst⟩ := Option.isSome_iff_exists.mp hheap
    have hnil : scratch 512 stale = [] := List.eq_nil_of_length_eq_zero (by simp [scratch])
    rw [verdict_long heap hst hhead hl.ge htype (by rw [h512]; decide), hcheck, h512, hnil,
      reencoded_wire hh hty hf hb h512]
  constructor
  · intro hacc
    have hfit : dataLenField (f.wire buffer) ≤ TP_FRAME_DATA_LEN_MAX := by
      obtain ⟨g, hg⟩ := (accepted_iff_exists _).mp hacc ⟨f, some fun _ => 0⟩ rfl
      exact fits_of_accepted hl hhead htype hg
    have h512 := dataLenField_of_accepted hacc hhead hl.ge htype hfit
    have hv := hverdict h512 ⟨f, some fun _ => 0⟩ rfl
    rw [hacc _ rfl] at hv
    exact ⟨hlen.symm.trans h512, of_decide_eq_true (Except.ok.inj hv).symm⟩
  · rintro ⟨h512, hsum⟩ heap hheap
    rw [hverdict (hlen.trans h512) heap hheap, decide_eq_true hsum]

end

theorem pad_malloc (f : Frame) (stale : Nat → UInt8) :
    f.pad (malloc TP_FRAME_SIZE_TRANSPORT_DATA stale) = scratch f.dataLen.toNat stale := by
  apply List.ext_getElem
  · simp [Frame.pad, scratch, TP_FRAME_DATA_LEN_MAX, TP_FRAME_SIZE_TRANSPORT_DATA]
    omega
  · intro i h1 h2
    simp [Frame.pad, scratch, malloc]

/-- The last byte of an area that the data does not fill is free. -/
theorem dataLen_of_accepted {f : Frame} (hh : f.header = tpHeader)
    (hty : f.frameType = TP_FRAME_TYPE_TRANSPORT_DATA) (hf : f.Fits)
    (h : ∀ stale, Accepted (f.wire (malloc TP_FRAME_SIZE_TRANSPORT_DATA stale))) :
    f.dataLen.toNat = TP_FRAME_DATA_LEN_MAX := by
  by_contra hne
  have hlt : f.dataLen.toNat < 512 := lt_of_le_of_ne (hf hty) hne
  have hk := take_data_length f (hf hty)
  generalize hpre : leBytes 4 f.nFile.toNat ++ (leBytes 2 f.nFrame.toNat ++
    (leBytes 2 f.dataLen.toNat ++ (f.data.take f.dataLen.toNat ++
      List.replicate (511 - f.dataLen.toNat) 0))) = pre
  have hl : pre.length = 519 := by
    simp only [← hpre, List.length_append, leBytes_length, List.length_replicate, hk]
    omega
  have ht : ∀ x, f.tail (List.replicate (511 - f.dataLen.toNat) 0 ++ [x]) = pre ++ [x] := by
    intro x
    simp only [← hpre, Frame.tail, List.append_assoc]
  generalize hstart : f.header ++ (leBytes 2 f.address.toNat ++ leBytes 2 f.frameType.toNat) = start
  have hmoved : ∀ x, checkBytes (start ++ pre ++ [x]) =
      checkBytes (start ++ pre.drop 514 ++ x :: pre.take 514) := by
    intro x
    obtain ⟨stale, hs⟩ := @exists_scratch f.dataLen.toNat
      (List.replicate (511 - f.dataLen.toNat) 0 ++ [x]) hlt.le (by
        rw [List.length_append, List.length_replicate, List.length_singleton]
        omega)
    have hsum := ((accepted_wire_iff hh hty hf (by rw [malloc_length]; decide)).mp (h stale)).2
    rw [pad_malloc, hs, body_long hty, Frame.reordered, ht,
      List.drop_append_of_le_length (by omega), List.take_append_of_le_length (by omega)] at hsum
    simpa only [← hstart, List.append_assoc, List.cons_append, List.nil_append] using hsum
  exact not_checkBytes_moved _ _ _ (List.ne_nil_of_length_pos (by rw [List.length_take]; omega))
    ((List.length_take_le ..).trans (by decide)) hmoved

/-- **Data frames** that are accepted wherever they come from. -/
theorem balanced_iff {f : Frame} (hh : f.header = tpHeader)
    (hty : f.frameType = TP_FRAME_TYPE_TRANSPORT_DATA) (hf : f.Fits) :
    (∀ stale, Accepted (f.wire (malloc TP_FRAME_SIZE_TRANSPORT_DATA stale))) ↔ f.Balanced := by
  have hroom : ∀ stale, 528 ≤ (malloc TP_FRAME_SIZE_TRANSPORT_DATA stale).length := fun stale => by
    rw [malloc_length]
    decide
  constructor
  · intro h
    have h512 := dataLen_of_accepted hh hty hf h
    obtain ⟨hn, hsum⟩ := (accepted_wire_iff hh hty hf (hroom fun _ => 0)).mp (h _)
    rw [pad_full f _ h512] at hsum
    exact ⟨h512, hn, hsum⟩
  · intro h stale
    rw [accepted_wire_iff hh hty hf (hroom stale), pad_full f _ h.dataLen]
    exact ⟨h.nFile, h.checkBytes⟩

/-! ## Frame boundaries -/

/-- One `receive_frame` call behind `f` returns, and leaves what follows `f`: it takes exactly
the bytes that `send_frame` put on the line. -/
def ConsumesExactly (f : Frame) (rest : List UInt8) : Prop :=
  ∀ (stale stale' : Nat → UInt8) (heap : Heap) (p : Frame), heap.temp.isSome →
    ∃ g, receiveFrame fifo stale' heap ((sendFrame fifo stale [] f).2 ++ rest) p =
      (.ok ((f.size : Int), g), rest)

section

variable {f : Frame} {rest : List UInt8} (hty : Known f.frameType) (hf : f.Fits)

include hty hf

theorem sent_eq (stale : Nat → UInt8) :
    (sendFrame fifo stale [] f).2 = f.wire (malloc f.size stale) ∧
      (f.wire (malloc f.size stale)).length = f.size := by
  have hs := size_eq f
  rw [sendFrame_fifo stale [] f hty hf]
  exact ⟨rfl, by rw [wire_length f _ hf (by rw [malloc_length]; omega), hs]⟩

/-- What does not fill the request takes what follows with it. -/
theorem rest_of_consumesExactly (h : ConsumesExactly f rest)
    (hlt : f.size < TP_FRAME_SIZE_TRANSPORT_DATA) : rest = [] := by
  obtain ⟨hsent, hl⟩ := sent_eq hty hf fun _ => 0
  have h16 : 16 ≤ f.size := by
    unfold Frame.size
    split <;> decide
  obtain ⟨g, hg⟩ := h (fun _ => 0) (fun _ => 0) ⟨f, some fun _ => 0⟩ f rfl
  rw [hsent] at hg
  generalize hline : f.wire (malloc f.size fun _ => 0) ++ rest = line at hg
  have htype : typeField line = f.frameType := by rw [← hline, typeField_wire]
  have hlen : line.length = f.size + rest.length := by rw [← hline, List.length_append, hl]
  have htake : (line.take TP_FRAME_SIZE_TRANSPORT_DATA).take 8 = line.take 8 := by
    rw [List.take_take]
    rfl
  have hcall := @receiveFrame_fifo (fun _ => 0) ⟨f, some fun _ => 0⟩
    (line.take TP_FRAME_SIZE_TRANSPORT_DATA) (line.drop TP_FRAME_SIZE_TRANSPORT_DATA) f
    (by rw [List.length_take, TP_FRAME_SIZE_TRANSPORT_DATA]; omega) (List.length_take_le ..)
    (by rw [← typeField_take, htake, typeField_take, htype]; exact hty)
    (fun hs => List.drop_eq_nil_of_le (by rw [List.length_take] at hs; omega))
  rw [List.take_append_drop, hg] at hcall
  have hrest := congrArg List.length (Prod.mk.inj hcall).2
  rw [List.length_drop] at hrest
  exact List.eq_nil_of_length_eq_zero (by omega)

/-- On a frame boundary, the rest is up to the decoder. -/
theorem consumesExactly_iff_decodes (hr : f.size < TP_FRAME_SIZE_TRANSPORT_DATA → rest = []) :
    ConsumesExactly f rest ↔
      ∀ (stale stale' : Nat → UInt8) (heap : Heap), heap.temp.isSome →
        ∃ g, bitStream2frame (f.wire (malloc f.size stale) ++
          (malloc TP_FRAME_SIZE_TRANSPORT_DATA stale').drop f.size) heap = .ok (some g) := by
  have h16 : 16 ≤ f.size ∧ f.size ≤ TP_FRAME_SIZE_TRANSPORT_DATA := by
    unfold Frame.size
    split <;> decide
  refine forall_congr' fun stale => forall_congr' fun stale' => forall_congr' fun heap => ?_
  obtain ⟨hsent, hl⟩ := sent_eq hty hf stale
  have htype : Known (typeField (f.wire (malloc f.size stale))) := by
    have ht := typeField_wire f (malloc f.size stale) []
    rw [List.append_nil] at ht
    exact ht ▸ hty
  have hcall := fun p => @receiveFrame_fifo_eq_ok stale' heap _ rest p
    (by omega : 8 ≤ (f.wire (malloc f.size stale)).length) (by omega) htype (by rwa [hl])
  rw [hl] at hcall
  rw [hsent]
  exact ⟨fun h hheap => (hcall f).mp (h f hheap), fun h p hheap => (hcall p).mpr (h hheap)⟩

theorem header_of_decodes {bytes : List UInt8} {stale : Nat → UInt8} {heap : Heap} {g : Frame}
    (h : bitStream2frame (f.wire (malloc f.size stale) ++ bytes) heap = .ok (some g)) :
    f.header = tpHeader := by
  by_contra hne
  obtain ⟨-, hl⟩ := sent_eq hty hf stale
  have h4 : 4 ≤ (f.wire (malloc f.size stale)).length := by
    rw [hl]
    unfold Frame.size
    split <;> decide
  have hhead := take_wire f (malloc f.size stale)
  have hd := bitStream2frame_header _ ((f.wire (malloc f.size stale)).drop 4 ++ bytes) heap
    f.header_length hne
  rw [← hhead, ← List.append_assoc, List.take_append_drop, h] at hd
  cases hd

/-- **Behind a data frame** there is a next call where it is accepted. -/
theorem consumesExactly_long (hd : f.frameType = TP_FRAME_TYPE_TRANSPORT_DATA) :
    ConsumesExactly f rest ↔ f.header = tpHeader ∧ f.Balanced := by
  have hs : f.size = TP_FRAME_SIZE_TRANSPORT_DATA := if_pos hd
  have hfull : ∀ stale, (malloc TP_FRAME_SIZE_TRANSPORT_DATA stale).drop
      TP_FRAME_SIZE_TRANSPORT_DATA = [] :=
    fun stale => List.drop_eq_nil_of_le (malloc_length ..).le
  rw [consumesExactly_iff_decodes hty hf fun hlt => absurd hs hlt.ne, hs]
  simp only [hfull, List.append_nil]
  constructor
  · intro h
    have hh : f.header = tpHeader := by
      obtain ⟨g, hg⟩ := h (fun _ => 0) (fun _ => 0) ⟨f, some fun _ => 0⟩ rfl
      rw [← hs, ← List.append_nil (f.wire _)] at hg
      exact header_of_decodes hty hf hg
    exact ⟨hh, (balanced_iff hh hd hf).mp fun stale =>
      (accepted_iff_exists _).mpr (h stale fun _ => 0)⟩
  · rintro ⟨hh, hbal⟩ stale _
    exact (accepted_iff_exists _).mp ((balanced_iff hh hd hf).mpr hbal stale)

/-- **Behind a frame without data** there is one where nothing follows. -/
theorem consumesExactly_short (hd : f.frameType ≠ TP_FRAME_TYPE_TRANSPORT_DATA) :
    ConsumesExactly f rest ↔ f.header = tpHeader ∧ rest = [] := by
  have hs : f.size < TP_FRAME_SIZE_TRANSPORT_DATA := by
    rw [Frame.size, if_neg hd]
    decide
  constructor
  · intro h
    have hr := rest_of_consumesExactly hty hf h hs
    obtain ⟨g, hg⟩ := (consumesExactly_iff_decodes hty hf fun _ => hr).mp h (fun _ => 0)
      (fun _ => 0) ⟨f, some fun _ => 0⟩ rfl
    exact ⟨header_of_decodes hty hf hg, hr⟩
  · rintro ⟨hh, hr⟩
    have hshort : f.frameType = TP_FRAME_TYPE_CONTROL ∨
        f.frameType = TP_FRAME_TYPE_REQUEST_DATA := by
      rcases hty with h | h | h
      · exact .inl h
      · exact .inr h
      · exact absurd h hd
    rw [consumesExactly_iff_decodes hty hf fun _ => hr]
    intro stale stale' heap hheap
    obtain ⟨g, hg, -⟩ := decode_wire_short f (malloc f.size stale) _ heap hh hshort hheap
    exact ⟨g, hg⟩

end

/-- **Framing.**  The receiver goes on with the next frame behind the data frames that it accepts,
and behind a frame without data when nothing follows it. -/
theorem consumesExactly_iff (f : Frame) (rest : List UInt8) (hty : Known f.frameType)
    (hf : f.Fits) :
    ConsumesExactly f rest ↔ f.header = tpHeader ∧
      (f.frameType = TP_FRAME_TYPE_TRANSPORT_DATA ∧ f.Balanced ∨
        f.frameType ≠ TP_FRAME_TYPE_TRANSPORT_DATA ∧ rest = []) := by
  by_cases hd : f.frameType = TP_FRAME_TYPE_TRANSPORT_DATA
  · rw [consumesExactly_long hty hf hd]
    simp [hd]
  · rw [consumesExactly_short hty hf hd]
    simp [hd]

/-- The data frames that the decoder gives back are among them. -/
theorem balanced_of_roundTrips {f : Frame} (hh : f.header = tpHeader)
    (hty : f.frameType = TP_FRAME_TYPE_TRANSPORT_DATA) (hf : f.Fits) (h : RoundTrips f) :
    f.Balanced := by
  refine (balanced_iff hh hty hf).mp fun stale => (accepted_iff_exists _).mpr fun heap hheap => ?_
  obtain ⟨g, hg, -⟩ := (roundTrips_iff_wire f hf).mp h (malloc TP_FRAME_SIZE_TRANSPORT_DATA stale)
    heap (by rw [bodySize_of_eq hty, malloc_length]; decide) hheap
  exact ⟨g, hg⟩

/-- A full frame that is taken for a different one with the same checksum. -/
def balancedData : Frame where
  header := tpHeader
  address := TP_ADDRESS_MASTER
  frameType := TP_FRAME_TYPE_TRANSPORT_DATA
  nFile := 512
  nFrame := 1
  dataLen := 512
  data := [162, 61] ++ List.replicate 510 0
  checkSum := 0
  header_length := tpHeader_length
  data_length := by rw [List.length_append, List.length_replicate]; rfl

theorem balancedData_balanced : balancedData.Balanced := ⟨rfl, rfl, by decide +kernel⟩

theorem consumesExactly_iff_balancedData :
    ConsumesExactly balancedData (sampleRequest.wire (List.replicate 16 0)) :=
  (consumesExactly_iff balancedData _ (.inr (.inr rfl)) fun _ => by decide).mpr
    ⟨rfl, .inl ⟨rfl, balancedData_balanced⟩⟩

/-- Behind a request the next one is swallowed with it, and behind the first data frame of a file
there is no next call. -/
theorem sampleRequest_twice_lost :
    sampleRequest.header = tpHeader ∧ sampleData.header = tpHeader ∧
      ¬ ConsumesExactly sampleRequest (sampleRequest.wire (List.replicate 16 0)) ∧
      ∀ rest, ¬ ConsumesExactly sampleData rest := by
  have hty : Known sampleRequest.frameType := .inr (.inl rfl)
  have hw := wire_length sampleRequest (List.replicate 16 0) sampleRequest_fits (by decide)
  refine ⟨rfl, rfl, fun h => ?_, fun rest h => ?_⟩
  · rw [rest_of_consumesExactly hty sampleRequest_fits h (by decide)] at hw
    cases hw
  · have hbal := ((consumesExactly_long (.inr (.inr rfl)) sampleData_fits rfl).mp h).2
    exact absurd hbal.dataLen (by decide)

end DeepSpace.TransmissionProtocol
