import DeepSpace.ErrorDetection
import DeepSpace.StaleMemory

/-!
# How far apart the frames are

The bits in which two byte strings of one length differ, up to the length of a frame with data.

* `codeword_apart`: byte strings that end in their checksums differ in at least four bits, which
  do not all lie within 16 places;
* `frame_distance`: so do the encodings of two frames of one size;
* `few_flips`: three flipped bits do not turn a frame that the decoder accepts into another one,
  as long as they leave its size and its length field alone.
-/

namespace DeepSpace.TransmissionProtocol

open DeepSpace.Memory DeepSpace.Crc DeepSpace.ShiftRegister

/-! ## Distance -/

/-- The number of bits in which the two differ. -/
def distance (xs ys : List UInt8) : Nat := (lineBits (corrupt xs ys)).count true

structure Apart (xs ys : List UInt8) : Prop where
  four : 4 ≤ distance xs ys
  spread : ∀ k, ∃ i, (lineBits (corrupt xs ys))[i]? = some true ∧ ¬ (k ≤ i ∧ i < k + 16)

section

variable {xs ys xs' ys' : List UInt8}

theorem distance_append (h : xs.length = ys.length) :
    distance (xs ++ xs') (ys ++ ys') = distance xs ys + distance xs' ys' := by
  have hc : corrupt (xs ++ xs') (ys ++ ys') = corrupt xs ys ++ corrupt xs' ys' :=
    List.zipWith_append h
  rw [distance, hc, lineBits_append, List.count_append]
  rfl

theorem distance_nil : distance [] ys = 0 := by
  rw [distance, corrupt, List.zipWith_nil_left]
  rfl

theorem distance_cons (x y : UInt8) :
    distance (x :: xs) (y :: ys) = (byteBits (x ^^^ y)).count true + distance xs ys := by
  have hc : lineBits (corrupt (x :: xs) (y :: ys)) =
      byteBits (x ^^^ y) ++ lineBits (corrupt xs ys) := rfl
  rw [distance, hc, List.count_append]
  rfl

theorem distance_self (xs : List UInt8) : distance xs xs = 0 := by
  induction xs with
  | nil => exact distance_nil
  | cons x xs ih =>
    rw [distance_cons, ih, UInt8.xor_self]
    rfl

theorem eq_of_byteBits {x y : UInt8} (h : (byteBits (x ^^^ y)).count true = 0) : x = y := by
  rw [List.count_eq_zero, byteBits] at h
  apply UInt8.toBitVec_inj.mp
  apply BitVec.eq_of_getLsbD_eq
  intro i hi
  by_contra hne
  refine h (List.mem_map.mpr ⟨i, List.mem_range.mpr hi, ?_⟩)
  rw [UInt8.toBitVec_xor, BitVec.getLsbD_xor]
  revert hne
  cases x.toBitVec.getLsbD i <;> cases y.toBitVec.getLsbD i <;> simp

theorem eq_of_distance (h : xs.length = ys.length) (hd : distance xs ys = 0) : xs = ys := by
  induction xs generalizing ys with
  | nil => exact (List.eq_nil_of_length_eq_zero h.symm).symm
  | cons x xs ih =>
    cases ys with
    | nil => cases h
    | cons y ys =>
      rw [distance_cons] at hd
      obtain rfl : x = y := eq_of_byteBits (by omega)
      obtain rfl : xs = ys := ih (by simpa using h) (by omega)
      rfl

theorem corrupt_corrupt (h : xs.length = ys.length) : corrupt xs (corrupt xs ys) = ys := by
  induction xs generalizing ys with
  | nil => exact (List.eq_nil_of_length_eq_zero h.symm).symm
  | cons x xs ih =>
    cases ys with
    | nil => cases h
    | cons y ys =>
      change (x ^^^ (x ^^^ y)) :: corrupt xs (corrupt xs ys) = _
      rw [ih (by simpa using h), ← UInt8.xor_assoc, UInt8.xor_self, UInt8.zero_xor]

end

/-! ## Codewords -/

/-- The register does not return to 1 within the bits of a frame with data. -/
theorem feedback_meets : meets feedback 1#16 4239 1#16 = false := by decide +kernel

/-- **Codewords.** -/
theorem codeword_apart {xs ys : List UInt8} (hl : xs.length = ys.length) (hn : xs.length ≤ 530)
    (hx : residue xs = 0#16) (hy : residue ys = 0#16) (hne : xs ≠ ys) : Apart xs ys := by
  have hcl : (corrupt xs ys).length = xs.length := by
    rw [corrupt, List.length_zipWith, ← hl, Nat.min_self]
  have hrun : run feedback 0#16 (lineBits (corrupt xs ys)) = 0#16 := by
    have h := residue_xor xs (corrupt xs ys) hcl.symm
    change residue (corrupt xs (corrupt xs ys)) = _ at h
    rw [corrupt_corrupt hl, hx, hy, BitVec.zero_xor] at h
    exact h.symm
  have ht : true ∈ lineBits (corrupt xs ys) := by
    by_contra h
    exact hne (eq_of_distance hl (List.count_eq_zero.mpr h))
  refine ⟨four_le_count feedback (by decide) feedback_top feedback_parity _ ht (fun d hd => ?_)
    hrun, fun k => ?_⟩
  · rw [lineBits_length, hcl] at hd
    exact iterate_ne_of_meets feedback_meets (by omega)
  · by_contra h
    push Not at h
    refine run_ne_zero_of_burst feedback feedback_top _ ht k (fun i hi => ?_) hrun
    exact h i hi

theorem residue_checkBytes (msg : List UInt8) : residue (msg ++ checkBytes msg) = 0#16 :=
  (crc16_eq_iff msg _ _).mp rfl

/-! ## The encoder -/

/-- **Encodings** of two frames of one size, over any buffers: they are the same bytes, for the
same frame, or far apart. -/
theorem frame_distance (f g : Frame) (buffer buffer' : List UInt8) (hf : f.Fits) (hg : g.Fits)
    (hsize : g.bodySize = f.bodySize) (hb : f.bodySize + 2 ≤ buffer.length)
    (hb' : f.bodySize + 2 ≤ buffer'.length) :
    ∃ bs bs', frame2bitStream f buffer = .ok (bs, f.bodySize + 2) ∧
      frame2bitStream g buffer' = .ok (bs', f.bodySize + 2) ∧
      (bs.take (f.bodySize + 2) = bs'.take (f.bodySize + 2) ∧ SameFrame f g ∨
        Apart (bs.take (f.bodySize + 2)) (bs'.take (f.bodySize + 2))) := by
  have hwf := wire_length f buffer hf (by omega)
  have hwg := wire_length g buffer' hg (by omega)
  rw [hsize] at hwg
  have heg := frame2bitStream_wire g buffer' hg (by omega)
  rw [hsize] at heg
  refine ⟨_, _, frame2bitStream_wire f buffer hf hb, heg, ?_⟩
  rw [List.take_left' hwf, List.take_left' hwg]
  by_cases he : f.wire buffer = g.wire buffer'
  · have hsame := wire_delimits.split (r := []) (s := []) ⟨hf, wrote_wire f buffer hf hb⟩
      ⟨hg, wrote_wire g buffer' hg (by omega)⟩ (by rw [he])
    exact .inl ⟨he, hsame.1⟩
  · refine .inr (codeword_apart (by rw [hwf, hwg]) ?_ (residue_checkBytes _)
      (residue_checkBytes _) he)
    rw [hwf]
    unfold Frame.bodySize
    split <;> decide

/-- The request for the image behind the one of the unit test. -/
def nextRequest : Frame := { sampleRequest with nFile := 2 }

theorem frame_distance_nextRequest :
    ∃ bs bs', frame2bitStream sampleRequest (List.replicate 16 0) = .ok (bs, 14 + 2) ∧
      frame2bitStream nextRequest (List.replicate 16 1) = .ok (bs', 14 + 2) ∧
      (bs.take (14 + 2) = bs'.take (14 + 2) ∧ SameFrame sampleRequest nextRequest ∨
        Apart (bs.take (14 + 2)) (bs'.take (14 + 2))) :=
  frame_distance sampleRequest nextRequest (List.replicate 16 0) (List.replicate 16 1)
    sampleRequest_fits (fun h => absurd h (by decide)) rfl (by decide) (by decide)

/-- Four bits are enough: these two requests have one checksum. -/
example :
    distance (sampleRequest.wire []) ({ sampleRequest with nFile := 0x14002 }.wire []) = 4 := by
  decide +kernel

/-! ## The decoder -/

section

variable {bytes bytes' : List UInt8} {heap : Heap}

theorem longFrame_congr {a t l d d' n fr c : List UInt8} (hd : d.length = TP_FRAME_DATA_LEN_MAX)
    (hd' : d'.length = TP_FRAME_DATA_LEN_MAX) (h : d.take (leValue l) = d'.take (leValue l)) :
    longFrame a t l d n fr c heap hd = longFrame a t l d' n fr c heap hd' := by
  simp only [longFrame, h]

/-- The parts of a data frame that the decoder looks at. -/
structure SameParts (bytes bytes' : List UInt8) : Prop where
  type : bytes.take 8 = bytes'.take 8
  data : (bytes.drop 8).take (2 + dataLenField bytes) =
    (bytes'.drop 8).take (2 + dataLenField bytes)
  numbers : (bytes.drop 522).take 6 = (bytes'.drop 522).take 6
  check : (bytes.drop 528).take 2 = (bytes'.drop 528).take 2

/-- A part of a part. -/
theorem drop_take_of_eq {xs ys : List UInt8} {m i n : Nat} (h : xs.take m = ys.take m)
    (hi : i + n ≤ m) : (xs.drop i).take n = (ys.drop i).take n := by
  have hp := congrArg (fun zs => (zs.drop i).take n) h
  simp only [List.drop_take, List.take_take] at hp
  rwa [Nat.min_eq_left (by omega)] at hp

theorem drop_take_length (hl : bytes.length = 530) {i n : Nat} (hi : i + n ≤ 530) :
    ((bytes.drop i).take n).length = n := by
  rw [List.length_take, List.length_drop, hl]
  omega

/-- A data frame, cut into its fields. -/
theorem split_fields (hh : bytes.take 4 = tpHeader) :
    bytes = tpHeader ++ ((bytes.drop 4).take 2 ++ ((bytes.drop 6).take 2 ++
      ((bytes.drop 8).take 2 ++ ((bytes.drop 10).take 512 ++ ((bytes.drop 522).take 4 ++
        ((bytes.drop 526).take 2 ++ ((bytes.drop 528).take 2 ++ bytes.drop 530))))))) := by
  rw [← drop_eq_take_append bytes 528 2, ← drop_eq_take_append bytes 526 2,
    ← drop_eq_take_append bytes 522 4, ← drop_eq_take_append bytes 10 512,
    ← drop_eq_take_append bytes 8 2, ← split_header hh]

/-- **The rest** of the data area does not matter. -/
theorem bitStream2frame_congr (h : SameParts bytes bytes') (hl : bytes.length = 530)
    (hl' : bytes'.length = 530) (hh : bytes.take 4 = tpHeader)
    (hty : typeField bytes = TP_FRAME_TYPE_TRANSPORT_DATA)
    (hfit : dataLenField bytes ≤ TP_FRAME_DATA_LEN_MAX) :
    bitStream2frame bytes' heap = bitStream2frame bytes heap := by
  have hh' : bytes'.take 4 = tpHeader := by
    have h4 := drop_take_of_eq (i := 0) (n := 4) h.type (by omega)
    rwa [List.drop_zero, List.drop_zero, hh, eq_comm] at h4
  have ha := drop_take_of_eq (i := 4) (n := 2) h.type (by omega)
  have ht := drop_take_of_eq (i := 6) (n := 2) h.type (by omega)
  have hlen := drop_take_of_eq (i := 0) (n := 2) h.data (by omega)
  have hdata := drop_take_of_eq (i := 2) (n := dataLenField bytes) h.data (by omega)
  have hn := drop_take_of_eq (i := 0) (n := 4) h.numbers (by omega)
  have hfr := drop_take_of_eq (i := 4) (n := 2) h.numbers (by omega)
  simp only [List.drop_drop, Nat.reduceAdd] at hlen hdata hn hfr
  have h512 : ((bytes.drop 10).take 512).length = TP_FRAME_DATA_LEN_MAX :=
    drop_take_length hl (by omega)
  have h512' : ((bytes'.drop 10).take 512).length = TP_FRAME_DATA_LEN_MAX :=
    drop_take_length hl' (by omega)
  have hparts := fun (d post : List UInt8) (hd : d.length = TP_FRAME_DATA_LEN_MAX) =>
    bitStream2frame_long ((bytes.drop 4).take 2) ((bytes.drop 6).take 2) ((bytes.drop 8).take 2) d
      ((bytes.drop 522).take 4) ((bytes.drop 526).take 2) ((bytes.drop 528).take 2) post heap
      (drop_take_length hl (by omega)) (drop_take_length hl (by omega))
      (drop_take_length hl (by omega)) hd (drop_take_length hl (by omega))
      (drop_take_length hl (by omega)) (drop_take_length hl (by omega)) hty hfit
  have hd := hparts _ (bytes.drop 530) h512
  have hd' := hparts _ (bytes'.drop 530) h512'
  have hsame : ((bytes'.drop 10).take 512).take (dataLenField bytes) =
      ((bytes.drop 10).take 512).take (dataLenField bytes) := by
    unfold TP_FRAME_DATA_LEN_MAX at hfit
    rw [List.take_take, List.take_take, Nat.min_eq_left hfit]
    exact hdata.symm
  rw [← split_fields hh] at hd
  rw [ha, ht, hlen, hn, hfr, h.check, ← split_fields hh', ← ha, ← ht, ← hlen, ← hn, ← hfr,
    ← h.check, longFrame_congr h512' h512 hsame] at hd'
  rw [hd, hd']

/-- What the checksum of a data frame covers, in the order of the encoder. -/
def summed (bytes pad : List UInt8) : List UInt8 := reencoded bytes pad ++ checkField bytes

theorem residue_summed {stale : Nat → UInt8} {g : Frame} (ht : heap.temp = some stale)
    (hl : bytes.length = 530) (hh : bytes.take 4 = tpHeader)
    (hty : typeField bytes = TP_FRAME_TYPE_TRANSPORT_DATA)
    (hfit : dataLenField bytes ≤ TP_FRAME_DATA_LEN_MAX)
    (h : bitStream2frame bytes heap = .ok (some g)) :
    residue (summed bytes (scratch (dataLenField bytes) stale)) = 0#16 := by
  have hv := verdict_long heap ht hh hl.ge hty hfit
  rw [verdict, h] at hv
  have hcheck := of_decide_eq_true (Except.ok.inj hv).symm
  rw [summed, hcheck]
  exact residue_checkBytes _

theorem summed_length (pad : List UInt8) (hl : bytes.length = 530)
    (hfit : dataLenField bytes ≤ TP_FRAME_DATA_LEN_MAX) :
    (summed bytes pad).length = 18 + dataLenField bytes + pad.length := by
  unfold TP_FRAME_DATA_LEN_MAX at hfit
  simp only [summed, reencoded, checkField, List.length_append, List.length_take,
    List.length_drop, hl]
  omega

/-- The order of the parts does not matter for the number of flipped bits. -/
theorem distance_summed (pad : List UInt8) (hl : bytes.length = 530) (hl' : bytes'.length = 530)
    (hlen : dataLenField bytes' = dataLenField bytes)
    (hfit : dataLenField bytes ≤ TP_FRAME_DATA_LEN_MAX) :
    distance (summed bytes pad) (summed bytes' pad) ≤ distance bytes bytes' + distance pad pad := by
  unfold TP_FRAME_DATA_LEN_MAX at hfit
  have split : ∀ {bs : List UInt8}, bs.length = 530 → bs = bs.take 8 ++
      ((bs.drop 8).take (2 + dataLenField bytes) ++
        ((bs.drop (10 + dataLenField bytes)).take (512 - dataLenField bytes) ++
          ((bs.drop 522).take 6 ++ (bs.drop 528).take 2))) := by
    intro bs hbs
    have h522 : 522 = 10 + dataLenField bytes + (512 - dataLenField bytes) := by omega
    have h10 : 10 + dataLenField bytes = 8 + (2 + dataLenField bytes) := by omega
    rw [List.take_of_length_le (show (bs.drop 528).length ≤ 2 by rw [List.length_drop]; omega),
      ← drop_eq_take_append bs 522 6, h522, ← drop_eq_take_append, h10, ← drop_eq_take_append,
      List.take_append_drop]
  have part : ∀ i n, ((bytes.drop i).take n).length = ((bytes'.drop i).take n).length := by
    intro i n
    rw [List.length_take, List.length_take, List.length_drop, List.length_drop, hl, hl']
  have h8 : (bytes.take 8).length = (bytes'.take 8).length := part 0 8
  conv_rhs => rw [split hl, split hl']
  simp only [summed, reencoded, checkField, hlen, List.append_assoc]
  rw [distance_append h8, distance_append (part _ _), distance_append (part _ _),
    distance_append rfl, distance_append h8, distance_append (part _ _),
    distance_append (part _ _), distance_append (part _ _)]
  omega

theorem sameParts_of_summed {pad : List UInt8} (hl : bytes.length = 530)
    (hl' : bytes'.length = 530) (hlen : dataLenField bytes' = dataLenField bytes)
    (h : summed bytes pad = summed bytes' pad) : SameParts bytes bytes' := by
  have part : ∀ i n, ((bytes.drop i).take n).length = ((bytes'.drop i).take n).length := by
    intro i n
    rw [List.length_take, List.length_take, List.length_drop, List.length_drop, hl, hl']
  simp only [summed, reencoded, checkField, hlen, List.append_assoc] at h
  obtain ⟨htype, h⟩ := List.append_inj h (part 0 8)
  obtain ⟨hnumbers, h⟩ := List.append_inj h (part 522 6)
  obtain ⟨hdata, h⟩ := List.append_inj h (part 8 _)
  exact ⟨htype, hdata, hnumbers, List.append_cancel_left h⟩

theorem header_of_accepted {g : Frame} (hl : bytes.length = 530)
    (h : bitStream2frame bytes heap = .ok (some g)) : bytes.take 4 = tpHeader := by
  by_contra hh
  have hr := bitStream2frame_header (bytes.take 4) (bytes.drop 4) heap
    (by rw [List.length_take]; omega) hh
  rw [List.take_append_drop, h] at hr
  cases hr

theorem fits_of_accepted {g : Frame} (hl : bytes.length = 530) (hh : bytes.take 4 = tpHeader)
    (hty : typeField bytes = TP_FRAME_TYPE_TRANSPORT_DATA)
    (h : bitStream2frame bytes heap = .ok (some g)) :
    dataLenField bytes ≤ TP_FRAME_DATA_LEN_MAX := by
  by_contra hbig
  rw [bitStream2frame_of_overrun heap hh (by omega) hty (not_le.mp hbig)] at h
  cases h

theorem temp_of_accepted {g : Frame} (hl : bytes.length = 530) (hh : bytes.take 4 = tpHeader)
    (hty : typeField bytes = TP_FRAME_TYPE_TRANSPORT_DATA)
    (hfit : dataLenField bytes ≤ TP_FRAME_DATA_LEN_MAX)
    (h : bitStream2frame bytes heap = .ok (some g)) : ∃ stale, heap.temp = some stale := by
  obtain ⟨g', -, hg'⟩ := bitStream2frame_of_long heap hh hl.ge hty hfit
  rw [h] at hg'
  cases hm : heap.temp with
  | none =>
    rw [hm] at hg'
    cases hg'
  | some stale => exact ⟨stale, rfl⟩

/-- **Two data frames** that are both accepted, and close to each other. -/
theorem same_of_accepted {g g' : Frame} (hl : bytes.length = 530) (hl' : bytes'.length = 530)
    (hty : typeField bytes = TP_FRAME_TYPE_TRANSPORT_DATA)
    (hty' : typeField bytes' = TP_FRAME_TYPE_TRANSPORT_DATA)
    (hlen : dataLenField bytes' = dataLenField bytes) (hd : distance bytes bytes' ≤ 3)
    (h : bitStream2frame bytes heap = .ok (some g))
    (h' : bitStream2frame bytes' heap = .ok (some g')) : g' = g := by
  have hh := header_of_accepted hl h
  have hh' := header_of_accepted hl' h'
  have hfit := fits_of_accepted hl hh hty h
  have hfit' := fits_of_accepted hl' hh' hty' h'
  obtain ⟨stale, hm⟩ := temp_of_accepted hl hh hty hfit h
  have hr := residue_summed hm hl hh hty hfit h
  have hr' := residue_summed hm hl' hh' hty' hfit' h'
  rw [hlen] at hr'
  -- the scratch block is the same, so that only the flipped bits tell the two apart
  generalize hpad : scratch (dataLenField bytes) stale = pad at hr hr'
  have hpl : pad.length ≤ 512 - dataLenField bytes := by
    rw [← hpad, scratch, List.length_take]
    exact Nat.min_le_left _ _
  have hsl := summed_length pad hl hfit
  have hsl' := summed_length pad hl' hfit'
  have hdist := distance_summed pad hl hl' hlen hfit
  rw [distance_self] at hdist
  unfold TP_FRAME_DATA_LEN_MAX at hfit
  have heq : summed bytes pad = summed bytes' pad := by
    by_contra hne
    have hfour := (codeword_apart (by omega) (by omega) hr hr' hne).four
    omega
  rw [bitStream2frame_congr (sameParts_of_summed hl hl' hlen heq) hl hl' hh hty hfit, h] at h'
  exact (Option.some.inj (Except.ok.inj h')).symm

theorem few_flips_long {g : Frame} (hl : bytes.length = 530) (hl' : bytes'.length = 530)
    (hty : typeField bytes = TP_FRAME_TYPE_TRANSPORT_DATA)
    (hty' : typeField bytes' = TP_FRAME_TYPE_TRANSPORT_DATA)
    (hlen : dataLenField bytes' = dataLenField bytes) (hd : distance bytes bytes' ≤ 3)
    (h : bitStream2frame bytes heap = .ok (some g)) :
    bitStream2frame bytes' heap = .ok none ∨ bitStream2frame bytes' heap = .ok (some g) := by
  have hh := header_of_accepted hl h
  have hfit := fits_of_accepted hl hh hty h
  by_cases hh' : bytes'.take 4 = tpHeader
  · obtain ⟨stale, hm⟩ := temp_of_accepted hl hh hty hfit h
    obtain ⟨g', -, hr⟩ := bitStream2frame_of_long heap hh' hl'.ge hty' (hlen ▸ hfit)
    rw [hm] at hr
    simp only at hr
    split at hr
    · exact .inr (same_of_accepted hl hl' hty hty' hlen hd h hr ▸ hr)
    · exact .inl hr
  · have hr := bitStream2frame_header (bytes'.take 4) (bytes'.drop 4) heap
      (by rw [List.length_take]; omega) hh'
    rw [List.take_append_drop] at hr
    exact .inl hr

theorem few_flips_short {g : Frame} (hl : bytes.length = 16) (hl' : bytes'.length = 16)
    (hty : typeField bytes ≠ TP_FRAME_TYPE_TRANSPORT_DATA)
    (hty' : typeField bytes' ≠ TP_FRAME_TYPE_TRANSPORT_DATA) (hd : distance bytes bytes' ≤ 3)
    (h : bitStream2frame bytes heap = .ok (some g)) :
    bitStream2frame bytes' heap = .ok none ∨ bitStream2frame bytes' heap = .ok (some g) := by
  have hr : residue bytes = 0#16 := by
    refine (bitStream2frame_residue bytes heap hl hty).resolve_left fun hnone => ?_
    rw [hnone] at h
    cases h
  obtain hnone | hr' := bitStream2frame_residue bytes' heap hl' hty'
  · exact .inl hnone
  · by_cases he : bytes = bytes'
    · exact .inr (he ▸ h)
    · have hfour := (codeword_apart (hl.trans hl'.symm) (by omega) hr hr' he).four
      omega

/-- **Three flipped bits** anywhere but in the length field, that leave the frame its size, do not
make another frame of one that the decoder accepts. -/
theorem few_flips {sent received : List UInt8} {g : Frame} (hsent : sent.length = sizeField sent)
    (hl : received.length = sent.length) (hsize : sizeField received = sizeField sent)
    (hlen : typeField sent = TP_FRAME_TYPE_TRANSPORT_DATA →
      dataLenField received = dataLenField sent)
    (hd : distance sent received ≤ 3) (h : bitStream2frame sent heap = .ok (some g)) :
    bitStream2frame received heap = .ok none ∨ bitStream2frame received heap = .ok (some g) := by
  by_cases hty : typeField sent = TP_FRAME_TYPE_TRANSPORT_DATA
  · have h530 : sizeField sent = 530 := if_pos hty
    have hty' : typeField received = TP_FRAME_TYPE_TRANSPORT_DATA := by
      by_contra hne
      rw [h530, sizeField, if_neg hne] at hsize
      cases hsize
    exact few_flips_long (by omega) (by omega) hty hty' (hlen hty) hd h
  · have h16 : sizeField sent = 16 := if_neg hty
    have hty' : typeField received ≠ TP_FRAME_TYPE_TRANSPORT_DATA := by
      intro he
      rw [h16, sizeField, if_pos he] at hsize
      cases hsize
    exact few_flips_short (by omega) (by omega) hty hty' hd h

end

/-- The request of the unit test, and what comes when one bit of its frame number and one of its
checksum are flipped. -/
theorem few_flips_request :
    let sent : List UInt8 := [0xEB, 0x90, 0xEB, 0x90, 1, 0, 3, 0, 1, 0, 0, 0, 42, 0, 20, 253]
    let received : List UInt8 := [0xEB, 0x90, 0xEB, 0x90, 1, 0, 3, 0, 1, 0, 0, 0, 43, 0, 20, 252]
    let heap : Heap := ⟨sampleRequest, some fun _ => 0⟩
    let g : Frame := { sampleRequest with checkSum := 0xFD14 }
    bitStream2frame sent heap = .ok (some g) ∧
      (bitStream2frame received heap = .ok none ∨
        bitStream2frame received heap = .ok (some g)) := by
  intro sent received heap g
  have h : bitStream2frame sent heap = .ok (some g) := by decide +kernel
  have hd : distance sent received ≤ 3 := by decide +kernel
  exact ⟨h, @few_flips heap sent received g rfl rfl rfl (fun h => absurd h (by decide)) hd h⟩

end DeepSpace.TransmissionProtocol
