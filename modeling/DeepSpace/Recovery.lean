import DeepSpace.Fragmentation
import DeepSpace.StaleMemory

/-!
# `wait_frame`

The loop around `receive_frame`, on blocks of the size of a frame that arrive one by one.

* `receiveFrame_ne_zero`: the case 0 of the loop, which asks for the frame again, is never
  reached;
* `recovers_iff`: the loop does what it is for exactly where the first block needs no recovery.
-/

namespace DeepSpace.TransmissionProtocol

open DeepSpace.Memory DeepSpace.Crc

/-! ## The loop -/

def TP_CONTROL_RESEND : UInt32 := 0

section

variable {σ : Type} (fd : Fd σ) (memory : σ → (Nat → UInt8) × Heap)

/-- At most that many rounds of the loop; `none` where it goes on.  `memory` is what `malloc`
hands out to the calls of a round. -/
def waitLoop : Nat → σ → Frame → Frame → C (Option (Frame × Frame)) × σ
  | 0, s, _, _ => (.ok none, s)
  | rounds + 1, s, pInputFrame, pOutputFrame =>
    match receiveFrame fd (memory s).1 (memory s).2 s pInputFrame with
    | (.error e, s) => (.error e, s)
    | (.ok (n, pInputFrame), s) =>
      if n = -1 then waitLoop rounds s pInputFrame pOutputFrame
      else if n = 0 then
        match sendFrame fd (memory s).1 s pInputFrame with
        | (.error e, s) => (.error e, s)
        | (.ok _, s) =>
          waitLoop rounds s pInputFrame { pOutputFrame with nFrame := pOutputFrame.nFrame + 1 }
      else if n ≤ 0 then waitLoop rounds s pInputFrame pOutputFrame
      else (.ok (some (pInputFrame, pOutputFrame)), s)

/-- `*p_input_frame` and `*p_output_frame` when the call returns. -/
def waitFrame (rounds : Nat) (s : σ) (pInputFrame pOutputFrame : Frame) :
    C (Option (Frame × Frame)) × σ :=
  waitLoop fd memory rounds s pInputFrame
    { pOutputFrame with frameType := TP_FRAME_TYPE_CONTROL, nFile := TP_CONTROL_RESEND }

end

section

variable {σ : Type} {fd : Fd σ} {stale : Nat → UInt8} {heap : Heap} {s t : σ} {p q : Frame}

/-- What `receive_frame` returns, on any descriptor. -/
theorem receiveFrame_result {n : Int} (h : receiveFrame fd stale heap s p = (.ok (n, q), t)) :
    n = -1 ∨ 0 < n := by
  have h8 : ((TP_FRAME_SIZE_CMD_TYPE : Nat) : Int) = 8 := rfl
  simp only [receiveFrame] at h
  split at h
  · cases h
    exact .inl rfl
  · split at h
    · cases h
    · -- the two copies into the block
      obtain ⟨_, -, hres⟩ := bind_eq_ok (Prod.mk.inj h).1
      obtain ⟨_, -, hres⟩ := bind_eq_ok hres
      split at hres
      · cases hres
        exact .inl rfl
      · obtain ⟨frame, -, hres⟩ := bind_eq_ok hres
        cases frame with
        | none => cases hres
        | some frame =>
          cases hres
          exact .inr (by omega)

/-- **The result 0** does not occur: a rejected block ends the program. -/
theorem receiveFrame_ne_zero : receiveFrame fd stale heap s p ≠ (.ok (0, q), t) := by
  intro h
  rcases receiveFrame_result h with h0 | h0 <;> omega

end

/-! ## Blocks -/

/-- Blocks that arrive one by one, and what was sent. -/
structure Line where
  incoming : List (List UInt8)
  sent : List (List UInt8)

/-- No read goes past the end of a block. -/
def blockwise : Fd Line where
  read l n :=
    match l.incoming with
    | [] => (none, l)
    | b :: bs =>
      (some (b.take n), { l with incoming := if b.length ≤ n then bs else b.drop n :: bs })
  write l bs := (some bs.length, { l with sent := l.sent ++ [bs] })

/-- The block is what the encoder writes for `f`. -/
def Encodes (f : Frame) (block : List UInt8) : Prop :=
  f.header = tpHeader ∧ Known f.frameType ∧ f.Fits ∧ Wrote f block

def Good (block : List UInt8) : Prop := ∃ f, Encodes f block

section

variable {b : List UInt8} (stale : Nat → UInt8) (heap : Heap) (more sent : List (List UInt8))
  (p : Frame)

theorem blockwise_read_head (h8 : 8 < b.length) :
    blockwise.read ⟨b :: more, sent⟩ TP_FRAME_SIZE_CMD_TYPE =
      (some (b.take 8), ⟨b.drop 8 :: more, sent⟩) := by
  simp only [blockwise]
  rw [if_neg (by exact Nat.not_le.mpr h8)]
  rfl

theorem receiveFrame_blockwise (h8 : 8 < b.length) (hl : b.length ≤ TP_FRAME_SIZE_TRANSPORT_DATA)
    (hk : Known (typeField b)) :
    receiveFrame blockwise stale heap ⟨b :: more, sent⟩ p =
      (handOver heap (b ++ (malloc TP_FRAME_SIZE_TRANSPORT_DATA stale).drop b.length) b.length,
        ⟨more, sent⟩) := by
  have hr := blockwise_read_head more sent h8
  have hl' : (b.drop 8).length ≤ 522 := by
    rw [List.length_drop]
    exact Nat.sub_le_sub_right hl 8
  have hr' : blockwise.read ⟨b.drop 8 :: more, sent⟩
      (TP_FRAME_SIZE_TRANSPORT_DATA - TP_FRAME_SIZE_CMD_TYPE) =
      (some ((b.drop 8).take 522), ⟨more, sent⟩) := by
    simp only [blockwise]
    rw [if_pos (by exact hl')]
    rfl
  rw [receiveFrame_of_known stale heap p hr (by rw [List.length_take]; omega)
    (typeField_take b ▸ hk) hr' (by rw [List.length_take]; omega), received_line stale h8.le hl,
    List.take_of_length_le hl']
  congr 2
  rw [List.length_drop]
  omega

end

/-! ## What the loop is for -/

/-- The answer number `i`: a request to send again. -/
def answer (output : Frame) (i : Nat) : Frame :=
  { output with
    frameType := TP_FRAME_TYPE_CONTROL
    nFile := TP_CONTROL_RESEND
    nFrame := output.nFrame + UInt16.ofNat i }

def answers (output : Frame) (n : Nat) : List (List UInt8) :=
  (List.range n).map fun i => (answer output i).wire []

/-- Each bad block that the loop gets to is refused and answered, and the first good one is
returned. -/
structure Recovers (blocks : List (List UInt8)) : Prop where
  refused : ∀ bad rest, blocks = bad ++ rest → (∀ b ∈ bad, ¬ Good b) → ∀ b ∈ bad,
    ∀ stale (heap : Heap) more sent p, heap.temp.isSome →
      receiveFrame blockwise stale heap ⟨b :: more, sent⟩ p = (.ok (0, p), ⟨more, sent⟩)
  answered : ∀ bad rest, blocks = bad ++ rest → (∀ b ∈ bad, ¬ Good b) →
    ∀ memory input output, (∀ l, (memory l).2.temp.isSome) →
      waitFrame blockwise memory bad.length ⟨blocks, []⟩ input output =
        (.ok none, ⟨rest, answers output bad.length⟩)
  returned : ∀ bad b rest f, blocks = bad ++ b :: rest → (∀ b ∈ bad, ¬ Good b) →
    Encodes f b → ∀ memory input output, (∀ l, (memory l).2.temp.isSome) →
      ∃ g, waitFrame blockwise memory (bad.length + 1) ⟨blocks, []⟩ input output =
        (.ok (some (g, answer output bad.length)), ⟨rest, answers output bad.length⟩) ∧
        SameFrame f g

/-- A frame that the decoder gives back. -/
def Survives (block : List UInt8) : Prop :=
  Good block ∧ (typeField block ≠ TP_FRAME_TYPE_TRANSPORT_DATA ∨
    (block.drop 8).take 520 = alternating 520)

/-! ## Good blocks -/

theorem Encodes.typeField {f : Frame} {b : List UInt8} (h : Encodes f b) :
    typeField b = f.frameType := by
  obtain ⟨buffer, -, rfl⟩ := h.2.2.2.eq_wire h.2.2.1
  have ht := typeField_wire f buffer []
  rwa [List.append_nil] at ht

theorem Encodes.length {f : Frame} {b : List UInt8} (h : Encodes f b) : b.length = f.size := by
  obtain ⟨buffer, hb, rfl⟩ := h.2.2.2.eq_wire h.2.2.1
  rw [size_eq, wire_length f buffer h.2.2.1 (by omega)]

theorem take_wire (f : Frame) (buffer : List UInt8) : (f.wire buffer).take 4 = f.header := by
  unfold Frame.wire Frame.body Frame.fields
  split <;>
  · simp only [List.append_assoc]
    exact List.take_left' f.header_length

/-- The 520 bytes in a block. -/
theorem drop_wire {f : Frame} {buffer : List UInt8} (hh : f.header = tpHeader)
    (hty : f.frameType = TP_FRAME_TYPE_TRANSPORT_DATA) (hf : f.Fits) (hb : 528 ≤ buffer.length) :
    ((f.wire buffer).drop 8).take 520 = f.tail (f.pad buffer) := by
  have ht := tail_length f buffer hb (hf hty)
  rw [Frame.wire, body_long hty, hh]
  simp only [← List.append_assoc]
  rw [List.append_assoc (tpHeader ++ leBytes 2 f.address.toNat ++ leBytes 2 f.frameType.toNat),
    List.drop_left' (by simp [tpHeader]), List.take_left' ht]

theorem dataLen_of_alternating {f : Frame} {pad : List UInt8}
    (h : f.tail pad = alternating 520) : f.dataLen.toNat = TP_FRAME_DATA_LEN_MAX := by
  have h6 : ((f.tail pad).drop 6).take 2 = leBytes 2 f.dataLen.toNat := by
    rw [Frame.tail, ← List.append_assoc, List.drop_left' (by simp),
      List.take_left' (leBytes_length ..)]
  rw [h, alternating_drop 3 514, alternating_take 2 514 (by decide)] at h6
  rw [← leValue_leBytes 2 _ f.dataLen.toNat_lt, ← h6]
  rfl

/-- Accepted with any blocks from `malloc`. -/
def Accepted (bytes : List UInt8) : Prop :=
  ∀ heap : Heap, heap.temp.isSome → verdict bytes heap = .ok true

/-- A data frame that is accepted so has a full data area, where the decoder looks for it. -/
theorem dataLenField_of_accepted {bytes : List UInt8} (h : Accepted bytes)
    (hh : bytes.take 4 = tpHeader) (h530 : 530 ≤ bytes.length)
    (hty : DeepSpace.TransmissionProtocol.typeField bytes = TP_FRAME_TYPE_TRANSPORT_DATA)
    (hle : dataLenField bytes ≤ 512) : dataLenField bytes = 512 := by
  by_contra hne
  have hverdict := verdict_long ⟨sampleRequest, some fun _ => 0⟩ rfl hh h530 hty hle
  rw [h _ rfl] at hverdict
  have hlen : (scratch (dataLenField bytes) fun _ => 0).length = 512 - dataLenField bytes := by
    simp [scratch]
    omega
  obtain ⟨pre, x, hx⟩ : ∃ pre x, scratch (dataLenField bytes) (fun _ => 0) = pre ++ [x] :=
    ⟨_, _, (List.dropLast_concat_getLast (List.ne_nil_of_length_pos (by omega))).symm⟩
  have hpre : pre.length + 1 + dataLenField bytes = 512 := by
    rw [hx, List.length_append, List.length_singleton] at hlen
    omega
  refine not_ignoresHeap ⟨sampleRequest, none⟩ hh h530 hty pre x hpre ?_ ?_
  · rw [← hx]
    exact of_decide_eq_true (Except.ok.inj hverdict).symm
  · intro heap heap' hheap hheap'
    rw [h heap hheap, h heap' hheap']

/-- Where the decoder gives a data frame back from one block, whatever `malloc` hands out, the
data area is full. -/
theorem dataLen_of_decodes {f : Frame} {buffer : List UInt8} (hh : f.header = tpHeader)
    (hty : f.frameType = TP_FRAME_TYPE_TRANSPORT_DATA) (hf : f.Fits)
    (hb : f.bodySize + 2 ≤ buffer.length)
    (h : ∀ heap : Heap, heap.temp.isSome →
      ∃ g, bitStream2frame (f.wire buffer) heap = .ok (some g) ∧ SameFrame f g) :
    f.dataLen.toNat = TP_FRAME_DATA_LEN_MAX := by
  have hb' : 528 ≤ buffer.length := by rw [bodySize_of_eq hty] at hb; omega
  have hl := wire_length f buffer hf (by omega)
  rw [bodySize_of_eq hty] at hl
  have htype := typeField_wire f buffer []
  rw [List.append_nil] at htype
  have hlen : dataLenField (f.wire buffer) = f.dataLen.toNat := by
    obtain ⟨g, hg, hs⟩ := h ⟨f, some fun _ => 0⟩ rfl
    obtain ⟨-, -, h2, -⟩ := tail_of_decoded hh hty (hf hty) hb' rfl hg hs
    rw [← drop_wire hh hty hf hb', List.take_take] at h2
    rw [dataLenField]
    exact (congrArg leValue h2).trans (leValue_leBytes 2 _ f.dataLen.toNat_lt)
  have hacc : Accepted (f.wire buffer) := fun heap hheap => by
    obtain ⟨g, hg, -⟩ := h heap hheap
    rw [verdict, hg]
    rfl
  rw [← hlen]
  exact dataLenField_of_accepted hacc ((take_wire f buffer).trans hh) (by omega)
    (htype.trans hty) (hlen ▸ hf hty)

/-- A data frame, in one block. -/
theorem decodes_long_iff {f : Frame} {buffer : List UInt8} (hh : f.header = tpHeader)
    (hty : f.frameType = TP_FRAME_TYPE_TRANSPORT_DATA) (hf : f.Fits)
    (hb : f.bodySize + 2 ≤ buffer.length) :
    (∀ heap : Heap, heap.temp.isSome →
      ∃ g, bitStream2frame (f.wire buffer) heap = .ok (some g) ∧ SameFrame f g) ↔
      f.tail (f.pad buffer) = alternating 520 := by
  constructor
  · intro hd
    have h512 := dataLen_of_decodes hh hty hf hb hd
    have hrt : RoundTrips f := (roundTrips_iff_wire f hf).mpr fun buffer' heap _ hheap => by
      have hsame : f.wire buffer' = f.wire buffer := by
        rw [Frame.wire, Frame.wire, pad_full f buffer h512, pad_full f buffer' h512]
      rw [hsame]
      exact hd heap hheap
    rw [pad_full f buffer h512]
    exact alternating_of_roundTrips f hh hty (hf hty) ⟨f, some fun _ => 0⟩ rfl hrt
  · intro halt
    rw [pad_full f buffer (dataLen_of_alternating halt)] at halt
    have hrt := (roundTrips_iff_wire f hf).mp (roundTrips_of_alternating f hh hty halt)
    exact fun heap hheap => hrt buffer heap hb hheap

/-- **One block** that the decoder gives back, whatever `malloc` hands out. -/
theorem decodes_iff {f : Frame} {b : List UInt8} (h : Encodes f b) :
    (∀ (stale : Nat → UInt8) (heap : Heap), heap.temp.isSome →
      ∃ g, bitStream2frame (b ++ (malloc TP_FRAME_SIZE_TRANSPORT_DATA stale).drop b.length) heap =
        .ok (some g) ∧ SameFrame f g) ↔
      f.frameType ≠ TP_FRAME_TYPE_TRANSPORT_DATA ∨ (b.drop 8).take 520 = alternating 520 := by
  have hlen := h.length
  obtain ⟨hh, hk, hf, hw⟩ := h
  obtain ⟨buffer, hb, rfl⟩ := hw.eq_wire hf
  by_cases hty : f.frameType = TP_FRAME_TYPE_TRANSPORT_DATA
  · have hb' : 528 ≤ buffer.length := by rw [bodySize_of_eq hty] at hb; omega
    have hfull : ∀ stale, f.wire buffer ++
        (malloc TP_FRAME_SIZE_TRANSPORT_DATA stale).drop (f.wire buffer).length =
        f.wire buffer := fun stale => by
      rw [hlen, Frame.size, if_pos hty, List.drop_eq_nil_of_le (malloc_length _ _).le,
        List.append_nil]
    simp only [hfull, drop_wire hh hty hf hb', ← decodes_long_iff hh hty hf hb]
    exact ⟨fun hd => .inr (hd fun _ => 0), fun hd _ => hd.resolve_left (not_not.mpr hty)⟩
  · refine iff_of_true (fun stale heap hheap => ?_) (.inl hty)
    refine decode_wire_short f buffer _ heap hh ?_ hheap
    rcases hk with e | e | e
    · exact .inl e
    · exact .inr e
    · exact absurd e hty

/-! ## Recovery -/

theorem answer_zero (output : Frame) : answer output 0 =
    { output with frameType := TP_FRAME_TYPE_CONTROL, nFile := TP_CONTROL_RESEND } := by
  rw [answer, show UInt16.ofNat 0 = 0 from rfl, UInt16.add_zero]

/-- A round with a known block: returned to the caller, or the end of the program. -/
theorem waitFrame_one {b : List UInt8} (h8 : 8 < b.length)
    (hl : b.length ≤ TP_FRAME_SIZE_TRANSPORT_DATA) (hk : Known (typeField b))
    (memory : Line → (Nat → UInt8) × Heap) (rest : List (List UInt8)) (input output : Frame) :
    waitFrame blockwise memory 1 ⟨b :: rest, []⟩ input output =
      ((handOver (memory ⟨b :: rest, []⟩).2 (b ++ (malloc TP_FRAME_SIZE_TRANSPORT_DATA
        (memory ⟨b :: rest, []⟩).1).drop b.length) b.length).map fun r =>
          some (r.2, answer output 0), ⟨rest, []⟩) := by
  have hcall := receiveFrame_blockwise (memory ⟨b :: rest, []⟩).1 (memory ⟨b :: rest, []⟩).2 rest
    [] input h8 hl hk
  obtain ⟨e, he⟩ | ⟨frame, he⟩ := handOver_cases (memory ⟨b :: rest, []⟩).2
    (b ++ (malloc TP_FRAME_SIZE_TRANSPORT_DATA (memory ⟨b :: rest, []⟩).1).drop b.length) b.length
  · rw [he] at hcall ⊢
    simp only [waitFrame, waitLoop, hcall]
    rfl
  · rw [he] at hcall ⊢
    simp only [waitFrame, waitLoop, hcall]
    rw [if_neg (by omega), if_neg (by omega), if_neg (by omega), answer_zero]
    rfl

theorem handOver_eq_ok {heap : Heap} {buffer : List UInt8} {n m : Int} {g : Frame} :
    handOver heap buffer n = .ok (m, g) ↔ bitStream2frame buffer heap = .ok (some g) ∧ m = n := by
  unfold handOver
  cases bitStream2frame buffer heap with
  | error e => exact ⟨fun h => (by cases h), fun h => (by cases h.1)⟩
  | ok result =>
    cases result with
    | none => exact ⟨fun h => (by cases h), fun h => (by cases h.1)⟩
    | some frame =>
      constructor
      · intro h
        cases h
        exact ⟨rfl, rfl⟩
      · rintro ⟨h, rfl⟩
        cases h
        rfl

theorem Encodes.bounds {f : Frame} {b : List UInt8} (h : Encodes f b) :
    8 < b.length ∧ b.length ≤ TP_FRAME_SIZE_TRANSPORT_DATA ∧
      Known (DeepSpace.TransmissionProtocol.typeField b) := by
  rw [h.length, h.typeField]
  refine ⟨?_, ?_, h.2.1⟩ <;>
  · unfold Frame.size
    split <;> decide

/-- The first block, where it is good. -/
theorem returned_iff {f : Frame} {b : List UInt8} (h : Encodes f b) (rest : List (List UInt8)) :
    (∀ memory input output, (∀ l, (memory l).2.temp.isSome) →
      ∃ g, waitFrame blockwise memory 1 ⟨b :: rest, []⟩ input output =
        (.ok (some (g, answer output 0)), ⟨rest, []⟩) ∧ SameFrame f g) ↔
      typeField b ≠ TP_FRAME_TYPE_TRANSPORT_DATA ∨ (b.drop 8).take 520 = alternating 520 := by
  obtain ⟨h8, hl, hk⟩ := h.bounds
  rw [h.typeField, ← decodes_iff h]
  constructor
  · intro hret stale heap hheap
    obtain ⟨g, hg, hs⟩ := hret (fun _ => (stale, heap)) f f fun _ => hheap
    rw [waitFrame_one h8 hl hk] at hg
    obtain ⟨hg, -⟩ := Prod.mk.inj hg
    obtain ⟨e, he⟩ | ⟨frame, he⟩ := handOver_cases heap
      (b ++ (malloc TP_FRAME_SIZE_TRANSPORT_DATA stale).drop b.length) b.length
    · rw [he] at hg
      cases hg
    · rw [he] at hg
      cases hg
      exact ⟨frame, (handOver_eq_ok.mp he).1, hs⟩
  · intro hd memory input output hmem
    obtain ⟨g, hg, hs⟩ := hd (memory ⟨b :: rest, []⟩).1 (memory ⟨b :: rest, []⟩).2 (hmem _)
    refine ⟨g, ?_, hs⟩
    rw [waitFrame_one h8 hl hk, handOver_eq_ok.mpr ⟨hg, rfl⟩]
    rfl

/-- **Recovery** happens exactly where nothing is to be recovered from: the first block is good,
and the decoder gives it back. -/
theorem recovers_iff (blocks : List (List UInt8))
    (hsize : ∀ b ∈ blocks, b.length = TP_FRAME_SIZE_REQUEST_DATA ∨
      b.length = TP_FRAME_SIZE_TRANSPORT_DATA) :
    Recovers blocks ↔ ∀ b ∈ blocks.head?, Survives b := by
  constructor
  · intro h b hb
    obtain ⟨rest, rfl⟩ := List.head?_eq_some_iff.mp hb
    by_cases hg : Good b
    · obtain ⟨f, hf⟩ := hg
      refine ⟨⟨f, hf⟩, (returned_iff hf rest).mp fun memory input output hmem => ?_⟩
      exact h.returned [] b rest f rfl (fun b hb => by cases hb) hf memory input output hmem
    · have hbad : ∀ b' ∈ [b], ¬ Good b' := fun b' hb' => List.mem_singleton.mp hb' ▸ hg
      have h0 := h.refused [b] rest rfl hbad b List.mem_cons_self (fun _ => 0)
        ⟨sampleRequest, some fun _ => 0⟩ [] [] sampleRequest rfl
      exact absurd h0 receiveFrame_ne_zero
  · intro h
    have hbad : ∀ bad rest, blocks = bad ++ rest → (∀ b ∈ bad, ¬ Good b) → bad = [] := by
      intro bad rest hs hb
      cases bad with
      | nil => rfl
      | cons b bad => exact absurd (h b (by rw [hs]; rfl)).1 (hb b List.mem_cons_self)
    refine ⟨fun bad rest hs hb b hm => ?_, fun bad rest hs hb memory input output _ => ?_,
      fun bad b rest f hs hb hf memory input output hmem => ?_⟩
    · cases hbad bad rest hs hb
      cases hm
    · cases hbad bad rest hs hb
      subst hs
      rfl
    · cases hbad bad (b :: rest) hs hb
      subst hs
      exact (returned_iff hf _).mpr (h _ rfl).2 memory input output hmem

/-- A request whose first byte is wrong. -/
def wrongHeader : List UInt8 := [0, 0x90, 0xEB, 0x90, 1, 0, 3, 0, 1, 0, 0, 0, 42, 0, 0, 0]

theorem recovers_iff_wrongHeader :
    let blocks := [wrongHeader, sampleRequest.wire (List.replicate 16 0)]
    (∀ b ∈ blocks, b.length = TP_FRAME_SIZE_REQUEST_DATA ∨
      b.length = TP_FRAME_SIZE_TRANSPORT_DATA) ∧
      (Recovers blocks ↔ ∀ b ∈ blocks.head?, Survives b) := by
  intro blocks
  have hsize : ∀ b ∈ blocks,
      b.length = TP_FRAME_SIZE_REQUEST_DATA ∨ b.length = TP_FRAME_SIZE_TRANSPORT_DATA := by
    intro b hb
    obtain rfl | hb := List.mem_cons.mp hb
    · exact .inl rfl
    · rw [List.mem_singleton.mp hb]
      exact .inl (wire_length sampleRequest _ sampleRequest_fits (by decide))
  exact ⟨hsize, recovers_iff blocks hsize⟩

/-- **One bad block** ends the program: the frame is copied from a null pointer. -/
theorem wrongHeader_not_recovers :
    wrongHeader.length = TP_FRAME_SIZE_REQUEST_DATA ∧
      (∀ memory input output, waitFrame blockwise memory 1 ⟨[wrongHeader], []⟩ input output =
        (.error .nullDereference, ⟨[], []⟩)) ∧ ¬ Recovers [wrongHeader] := by
  have hbad : ¬ Good wrongHeader := by
    rintro ⟨f, hh, hk, hf, hw⟩
    obtain ⟨buffer, -, he⟩ := hw.eq_wire hf
    have h4 := (take_wire f buffer).trans hh
    rw [← he] at h4
    exact absurd h4 (by decide)
  refine ⟨rfl, fun memory input output => ?_, fun h => ?_⟩
  · rw [waitFrame_one (by decide) (by decide) (.inr (.inl rfl)), handOver]
    have hd := bitStream2frame_header (wrongHeader.take 4) (wrongHeader.drop 4 ++
      (malloc TP_FRAME_SIZE_TRANSPORT_DATA (memory ⟨[wrongHeader], []⟩).1).drop wrongHeader.length)
      (memory ⟨[wrongHeader], []⟩).2 rfl (by decide)
    rw [← List.append_assoc, List.take_append_drop] at hd
    rw [hd]
    rfl
  · have h0 := h.refused [wrongHeader] [] rfl (fun b hb => List.mem_singleton.mp hb ▸ hbad)
      wrongHeader List.mem_cons_self (fun _ => 0) ⟨sampleRequest, some fun _ => 0⟩ [] []
      sampleRequest rfl
    exact absurd h0 receiveFrame_ne_zero

end DeepSpace.TransmissionProtocol
