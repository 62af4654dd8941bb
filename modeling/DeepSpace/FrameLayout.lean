import DeepSpace.TransmissionProtocol

/-!
# The byte format of the frames

Proved here, whatever the buffers and the fresh blocks held before:

* `frame2bitStream_eq`: the encoder leaves `Frame.body`, its checksum and the
  untouched rest of the buffer;
* `bitStream2frame_short`: the decoder on every buffer whose type field is not
  `TRANSPORT_DATA`;
* `bitStream2frame_long`: the decoder on every buffer of type `TRANSPORT_DATA`,
  up to the checksum.
-/

namespace DeepSpace.TransmissionProtocol

open DeepSpace.Memory DeepSpace.Crc

/-! ## Pieces of a frame -/

/-- The two check bytes of a message, in line order. -/
def checkBytes (msg : List UInt8) : List UInt8 :=
  [(crcLoop crcInit msg).crcLo, (crcLoop crcInit msg).crcHi]

/-- The 14 bytes every frame starts with. -/
def Frame.fields (f : Frame) : List UInt8 :=
  f.header ++ leBytes 2 f.address.toNat ++ leBytes 2 f.frameType.toNat ++
    leBytes 4 f.nFile.toNat ++ leBytes 2 f.nFrame.toNat

/-- The bytes before the checksum; `pad` fills the unused part of the data area. -/
def Frame.body (f : Frame) (pad : List UInt8) : List UInt8 :=
  if f.frameType = TP_FRAME_TYPE_TRANSPORT_DATA then
    f.fields ++ (leBytes 2 f.dataLen.toNat ++ (f.data.take f.dataLen.toNat ++ pad))
  else f.fields

/-- The stale bytes of `buffer` that the encoder leaves in the data area. -/
def Frame.pad (f : Frame) (buffer : List UInt8) : List UInt8 :=
  (buffer.drop (16 + f.dataLen.toNat)).take (TP_FRAME_DATA_LEN_MAX - f.dataLen.toNat)

/-- Bytes of the frame without its checksum. -/
def Frame.bodySize (f : Frame) : Nat :=
  if f.frameType = TP_FRAME_TYPE_TRANSPORT_DATA then 528 else 14

/-- `data_len` does not exceed the array it counts, where it is used. -/
def Frame.Fits (f : Frame) : Prop :=
  f.frameType = TP_FRAME_TYPE_TRANSPORT_DATA → f.dataLen.toNat ≤ TP_FRAME_DATA_LEN_MAX

/-- A block of bytes, cut at increasing offsets. -/
theorem drop_eq_take_append (bytes : List UInt8) (m n : Nat) :
    bytes.drop m = (bytes.drop m).take n ++ bytes.drop (m + n) := by
  rw [← List.drop_drop, List.take_append_drop]

/-- The fields of a frame without data. -/
theorem split_short (b : List UInt8) :
    b = b.take 4 ++ ((b.drop 4).take 2 ++ ((b.drop 6).take 2 ++ ((b.drop 8).take 4 ++
      ((b.drop 12).take 2 ++ b.drop 14)))) := by
  rw [← drop_eq_take_append b 12 2, ← drop_eq_take_append b 8 4, ← drop_eq_take_append b 6 2,
    ← drop_eq_take_append b 4 2, List.take_append_drop]

@[simp] theorem checkBytes_length (msg : List UInt8) : (checkBytes msg).length = 2 := rfl

@[simp] theorem fields_length (f : Frame) : f.fields.length = 14 := by
  simp [Frame.fields, f.header_length]

theorem body_of_ne {f : Frame} (h : f.frameType ≠ TP_FRAME_TYPE_TRANSPORT_DATA)
    (pad : List UInt8) : f.body pad = f.fields := if_neg h

theorem bodySize_of_ne {f : Frame} (h : f.frameType ≠ TP_FRAME_TYPE_TRANSPORT_DATA) :
    f.bodySize = 14 := if_neg h

theorem body_of_eq {f : Frame} (h : f.frameType = TP_FRAME_TYPE_TRANSPORT_DATA)
    (pad : List UInt8) : f.body pad =
      f.fields ++ (leBytes 2 f.dataLen.toNat ++ (f.data.take f.dataLen.toNat ++ pad)) := if_pos h

theorem bodySize_of_eq {f : Frame} (h : f.frameType = TP_FRAME_TYPE_TRANSPORT_DATA) :
    f.bodySize = 528 := if_pos h

theorem pad_length (f : Frame) (buffer : List UInt8) (hb : 528 ≤ buffer.length)
    (hf : f.dataLen.toNat ≤ TP_FRAME_DATA_LEN_MAX) :
    (f.pad buffer).length = TP_FRAME_DATA_LEN_MAX - f.dataLen.toNat := by
  unfold TP_FRAME_DATA_LEN_MAX at hf
  simp only [Frame.pad, List.length_take, List.length_drop, TP_FRAME_DATA_LEN_MAX]
  omega

theorem take_data_length (f : Frame) (hf : f.dataLen.toNat ≤ TP_FRAME_DATA_LEN_MAX) :
    (f.data.take f.dataLen.toNat).length = f.dataLen.toNat := by
  rw [List.length_take, f.data_length]
  omega

theorem body_length (f : Frame) (buffer : List UInt8) (hf : f.Fits)
    (hb : f.bodySize ≤ buffer.length) : (f.body (f.pad buffer)).length = f.bodySize := by
  unfold Frame.body Frame.bodySize at *
  by_cases ht : f.frameType = TP_FRAME_TYPE_TRANSPORT_DATA
  · simp only [if_pos ht] at hb ⊢
    have hd := hf ht
    have hp := pad_length f buffer hb hd
    have hk := take_data_length f hd
    unfold TP_FRAME_DATA_LEN_MAX at hd hp
    simp only [List.length_append, fields_length, leBytes_length, hk, hp]
    omega
  · simp only [if_neg ht, fields_length]

/-! ## Encoder -/

/-- The encoder lays out the body in any buffer that is long enough. -/
theorem frameWithoutCheckSum2bitStream_eq (f : Frame) (buffer : List UInt8) (hf : f.Fits)
    (hb : f.bodySize ≤ buffer.length) :
    frameWithoutCheckSum2bitStream f buffer =
      .ok (f.body (f.pad buffer) ++ buffer.drop f.bodySize, f.bodySize) := by
  have hb14 : 14 ≤ buffer.length := by
    unfold Frame.bodySize at hb
    split at hb <;> omega
  have hh := f.header_length
  have h0 := memcpy_append [] buffer f.header 0 rfl (by omega)
  have h1 := memcpy_append f.header (buffer.drop 4) (leBytes 2 f.address.toNat) 4 hh
    (by simp; omega)
  have h2 := memcpy_append (f.header ++ leBytes 2 f.address.toNat) (buffer.drop 6)
    (leBytes 2 f.frameType.toNat) 6 (by simp [hh]) (by simp; omega)
  have h3 := memcpy_append (f.header ++ leBytes 2 f.address.toNat ++ leBytes 2 f.frameType.toNat)
    (buffer.drop 8) (leBytes 4 f.nFile.toNat) 8 (by simp [hh]) (by simp; omega)
  have h4 := memcpy_append (f.header ++ leBytes 2 f.address.toNat ++ leBytes 2 f.frameType.toNat ++
    leBytes 4 f.nFile.toNat) (buffer.drop 12) (leBytes 2 f.nFrame.toNat) 12 (by simp [hh])
    (by simp; omega)
  change memcpy _ _ _ = .ok (f.fields ++ _) at h4
  simp only [List.nil_append, hh, leBytes_length, List.drop_drop, Nat.reduceAdd] at h0 h1 h2 h3 h4
  simp only [frameWithoutCheckSum2bitStream, Frame.cmdId, ite_self, h0, h1, h2, h3, h4, bind,
    Except.bind]
  by_cases ht : f.frameType = TP_FRAME_TYPE_TRANSPORT_DATA
  · have hd := hf ht
    have hk := take_data_length f hd
    have h528 : 528 ≤ buffer.length := by simpa [Frame.bodySize, ht] using hb
    have hsplit : f.pad buffer ++ buffer.drop 528 = buffer.drop (16 + f.dataLen.toNat) := by
      unfold TP_FRAME_DATA_LEN_MAX at hd
      have e : buffer.drop 528 = (buffer.drop (16 + f.dataLen.toNat)).drop
          (TP_FRAME_DATA_LEN_MAX - f.dataLen.toNat) := by
        rw [List.drop_drop, TP_FRAME_DATA_LEN_MAX]
        congr 1
        omega
      rw [e, Frame.pad, List.take_append_drop]
    have hl : load f.data 0 f.dataLen.toNat = .ok (f.data.take f.dataLen.toNat) := by
      rw [load_of_le _ _ _ (by rw [f.data_length]; omega), List.drop_zero]
    have h5 := memcpy_append f.fields (buffer.drop 14) (leBytes 2 f.dataLen.toNat) 14
      (fields_length f) (by simp; omega)
    have h6 := memcpy_append (f.fields ++ leBytes 2 f.dataLen.toNat) (buffer.drop 16)
      (f.data.take f.dataLen.toNat) 16 (by simp) (by
        unfold TP_FRAME_DATA_LEN_MAX at hd
        rw [hk, List.length_drop]; omega)
    simp only [leBytes_length, List.drop_drop, Nat.reduceAdd, hk] at h5 h6
    simp only [if_pos ht, h5, hl, h6, pure, Except.pure, Frame.body, Frame.bodySize]
    rw [← hsplit]
    simp only [List.append_assoc]
    rfl
  · simp only [if_neg ht, pure, Except.pure, Frame.body, Frame.bodySize]

theorem uint16_ofNat_toNat {n : Nat} (h : n < 2 ^ 16) : (UInt16.ofNat n).toNat = n := by
  rw [UInt16.toNat_ofNat', Nat.mod_eq_of_lt h]

theorem bodySize_lt (f : Frame) : f.bodySize < 2 ^ 16 := by
  unfold Frame.bodySize
  split <;> decide

/-- `crc16` over the first `n` bytes of a buffer. -/
theorem crc16_append (msg rest : List UInt8) (n : Nat) (hn : msg.length = n) (h : n < 2 ^ 16) :
    crc16 (msg ++ rest) (UInt16.ofNat n) = .ok (crcLoop crcInit msg).value := by
  subst hn
  rw [crc16_ok _ _ (by rw [uint16_ofNat_toNat h]; simp), uint16_ofNat_toNat h, List.take_left]

/-- **The encoder.**  It leaves the body, its checksum and the rest of the buffer. -/
theorem frame2bitStream_eq (f : Frame) (buffer : List UInt8) (hf : f.Fits)
    (hb : f.bodySize + 2 ≤ buffer.length) :
    frame2bitStream f buffer =
      .ok (f.body (f.pad buffer) ++ (checkBytes (f.body (f.pad buffer)) ++
        buffer.drop (f.bodySize + 2)), f.bodySize + 2) := by
  have hbody := body_length f buffer hf (by omega)
  have hm := memcpy_append (f.body (f.pad buffer)) (buffer.drop f.bodySize)
    (leBytes 2 (crcLoop crcInit (f.body (f.pad buffer))).value.toNat) f.bodySize hbody
    (by rw [leBytes_length, List.length_drop]; omega)
  rw [frame2bitStream, frameWithoutCheckSum2bitStream_eq f buffer hf (by omega)]
  simp only [bind, Except.bind, pure, Except.pure, crc16_append _ _ _ hbody (bodySize_lt f), hm]
  rw [leBytes_value, List.length_cons, List.length_singleton, List.drop_drop, List.append_assoc]
  rfl

/-- The bytes the encoder wrote. -/
def Frame.wire (f : Frame) (buffer : List UInt8) : List UInt8 :=
  f.body (f.pad buffer) ++ checkBytes (f.body (f.pad buffer))

theorem wire_length (f : Frame) (buffer : List UInt8) (hf : f.Fits)
    (hb : f.bodySize ≤ buffer.length) : (f.wire buffer).length = f.bodySize + 2 := by
  rw [Frame.wire, List.length_append, body_length f buffer hf hb, checkBytes_length]

theorem frame2bitStream_wire (f : Frame) (buffer : List UInt8) (hf : f.Fits)
    (hb : f.bodySize + 2 ≤ buffer.length) :
    frame2bitStream f buffer =
      .ok (f.wire buffer ++ buffer.drop (f.bodySize + 2), f.bodySize + 2) := by
  rw [frame2bitStream_eq f buffer hf hb, Frame.wire, List.append_assoc]

/-! ## Decoder -/

/-- Bytes 6 and 7. -/
def typeField (bytes : List UInt8) : UInt16 := UInt16.ofNat (leValue ((bytes.drop 6).take 2))

theorem leBytes_uint16 (a : List UInt8) (h : a.length = 2) :
    leBytes 2 (UInt16.ofNat (leValue a)).toNat = a := by
  have hl := leValue_lt a
  rw [h] at hl
  rw [uint16_ofNat_toNat (by omega)]
  conv_lhs => rw [← h]
  exact leBytes_leValue a

theorem leBytes_uint32 (a : List UInt8) (h : a.length = 4) :
    leBytes 4 (UInt32.ofNat (leValue a)).toNat = a := by
  have hl := leValue_lt a
  rw [h] at hl
  rw [UInt32.toNat_ofNat', Nat.mod_eq_of_lt (by omega)]
  conv_lhs => rw [← h]
  exact leBytes_leValue a

theorem uint16_leValue (x : UInt16) : UInt16.ofNat (leValue (leBytes 2 x.toNat)) = x := by
  rw [leValue_leBytes 2 _ x.toNat_lt, UInt16.ofNat_toNat]

theorem uint32_leValue (x : UInt32) : UInt32.ofNat (leValue (leBytes 4 x.toNat)) = x := by
  rw [leValue_leBytes 4 _ x.toNat_lt, UInt32.ofNat_toNat]

/-- The checksum field equals the computed one iff its bytes are the check bytes. -/
theorem checkSum_eq_iff (msg c : List UInt8) (hc : c.length = 2) :
    UInt16.ofNat (leValue c) = (crcLoop crcInit msg).value ↔ c = checkBytes msg := by
  constructor
  · intro h
    rw [← leBytes_uint16 c hc, h, leBytes_value]
    rfl
  · intro h
    rw [h, checkBytes, ← leBytes_value, uint16_leValue]

/-- `*p_frame` when the decoder reaches its `switch`, for the address bytes `a`
and the type bytes `t`. -/
def startFrame (a t : List UInt8) (heap : Heap) : Frame :=
  { heap.frame with
    header := tpHeader, header_length := tpHeader_length
    address := UInt16.ofNat (leValue a), frameType := UInt16.ofNat (leValue t) }

/-- The decoder as far as the `switch`. -/
theorem bitStream2frame_start (a t rest : List UInt8) (heap : Heap) (ha : a.length = 2)
    (ht : t.length = 2) :
    bitStream2frame (tpHeader ++ (a ++ (t ++ rest))) heap = (do
      match ← decodeBody (tpHeader ++ (a ++ (t ++ rest))) (startFrame a t heap) with
      | none => return none
      | some (frame, p) => decodeTail (tpHeader ++ (a ++ (t ++ rest))) heap frame p) := by
  have h0 := load_append [] tpHeader (a ++ (t ++ rest)) 0 4 rfl rfl
  have h1 := loadLE_append tpHeader a (t ++ rest) 4 2 rfl ha
  have h2 := loadLE_append (tpHeader ++ a) t rest 6 2 (by simp [tpHeader, ha]) ht
  rw [List.nil_append] at h0
  rw [List.append_assoc] at h2
  rw [bitStream2frame]
  simp only [h0, h1, h2, bind, Except.bind, ne_eq, not_true_eq_false, ↓reduceIte]
  rfl

theorem bitStream2frame_header (hd rest : List UInt8) (heap : Heap) (hl : hd.length = 4)
    (hh : hd ≠ tpHeader) : bitStream2frame (hd ++ rest) heap = .ok none := by
  have h0 := load_append [] hd rest 0 4 rfl hl
  rw [List.nil_append] at h0
  rw [bitStream2frame, h0]
  simp only [bind, Except.bind, ne_eq, hh, not_false_eq_true, ↓reduceIte]
  rfl

/-- The end of the decoder, when the re-encoded frame has the size of the scratch
block: the frame is returned iff its check bytes are those of its own body. -/
theorem decodeTail_eq (bitStream : List UInt8) (heap : Heap) (frame : Frame) (p : Nat)
    (fr c : List UInt8) (hfr : loadLE bitStream p 2 = .ok (leValue fr))
    (hc : loadLE bitStream (p + 2) 2 = .ok (leValue c)) (hcl : c.length = 2)
    (hfit : frame.Fits) (hsize : frame.bodySize = p + 2) :
    decodeTail bitStream heap frame p =
      match heap.temp with
      | none => .ok none
      | some stale =>
        let g := { frame with
          nFrame := UInt16.ofNat (leValue fr), checkSum := UInt16.ofNat (leValue c) }
        if c = checkBytes (g.body (g.pad (malloc (p + 2) stale))) then .ok (some g)
        else .ok none := by
  rw [decodeTail]
  simp only [hfr, hc, bind, Except.bind]
  cases heap.temp with
  | none => rfl
  | some stale =>
    simp only
    have hfit' : ({ frame with
        nFrame := UInt16.ofNat (leValue fr), checkSum := UInt16.ofNat (leValue c) } : Frame).Fits :=
      hfit
    have hb : ({ frame with
        nFrame := UInt16.ofNat (leValue fr), checkSum := UInt16.ofNat (leValue c) } :
          Frame).bodySize ≤ (malloc (p + 2) stale).length := by
      rw [malloc_length, ← hsize]; exact le_refl _
    have hbody := body_length _ _ hfit' hb
    rw [frameWithoutCheckSum2bitStream_eq _ _ hfit' hb]
    simp only [crc16_append _ _ _ hbody (bodySize_lt _), ne_eq, ite_not, checkSum_eq_iff _ c hcl]
    rfl

/-! ## Frames without data -/

/-- The frame decoded from the fields `a`, `t`, `n`, `fr` and `c`. -/
def shortFrame (a t n fr c : List UInt8) (heap : Heap) : Frame :=
  { startFrame a t heap with
    nFile := UInt32.ofNat (leValue n), nFrame := UInt16.ofNat (leValue fr)
    checkSum := UInt16.ofNat (leValue c) }

theorem fields_shortFrame (a t n fr c : List UInt8) (heap : Heap) (ha : a.length = 2)
    (ht : t.length = 2) (hn : n.length = 4) (hfr : fr.length = 2) :
    (shortFrame a t n fr c heap).fields = tpHeader ++ a ++ t ++ n ++ fr := by
  simp only [Frame.fields, shortFrame, startFrame, leBytes_uint16 a ha, leBytes_uint16 t ht,
    leBytes_uint32 n hn, leBytes_uint16 fr hfr]

/-- **The decoder on control and request frames.** -/
theorem bitStream2frame_short (a t n fr c post : List UInt8) (heap : Heap) (ha : a.length = 2)
    (ht : t.length = 2) (hn : n.length = 4) (hfr : fr.length = 2) (hc : c.length = 2)
    (hty : UInt16.ofNat (leValue t) = TP_FRAME_TYPE_CONTROL ∨
      UInt16.ofNat (leValue t) = TP_FRAME_TYPE_REQUEST_DATA) :
    bitStream2frame (tpHeader ++ (a ++ (t ++ (n ++ (fr ++ (c ++ post)))))) heap =
      .ok (if heap.temp.isSome ∧ c = checkBytes (tpHeader ++ a ++ t ++ n ++ fr) then
        some (shortFrame a t n fr c heap) else none) := by
  have hl : (tpHeader ++ (a ++ t)).length = 8 := by simp [tpHeader, ha, ht]
  have h3 := loadLE_append (tpHeader ++ (a ++ t)) n (fr ++ (c ++ post)) 8 4 hl hn
  have h4 := loadLE_append (tpHeader ++ (a ++ (t ++ n))) fr (c ++ post) 12 2
    (by simp [tpHeader, ha, ht, hn]) hfr
  have h5 := loadLE_append (tpHeader ++ (a ++ (t ++ (n ++ fr)))) c post 14 2
    (by simp [tpHeader, ha, ht, hn, hfr]) hc
  simp only [List.append_assoc] at h3 h4 h5
  have hne : UInt16.ofNat (leValue t) ≠ TP_FRAME_TYPE_TRANSPORT_DATA := by
    rcases hty with e | e <;> rw [e] <;> decide
  have hbody : decodeBody (tpHeader ++ (a ++ (t ++ (n ++ (fr ++ (c ++ post))))))
      (startFrame a t heap) =
      .ok (some ({ startFrame a t heap with nFile := UInt32.ofNat (leValue n) }, 12)) := by
    have hft : (startFrame a t heap).frameType = UInt16.ofNat (leValue t) := rfl
    rw [decodeBody, hft, h3]
    rcases hty with e | e
    · rw [if_pos e]; rfl
    · rw [if_neg (by rw [e]; decide), if_neg hne, if_pos e]; rfl
  rw [bitStream2frame_start a t _ heap ha ht, hbody]
  simp only [bind, Except.bind]
  rw [decodeTail_eq _ heap _ 12 fr c h4 h5 hc (fun h => absurd h hne) (bodySize_of_ne hne)]
  cases heap.temp with
  | none => simp
  | some stale =>
    have hb : ∀ pad, (shortFrame a t n fr c heap).body pad = tpHeader ++ a ++ t ++ n ++ fr := by
      intro pad
      have hne' : (shortFrame a t n fr c heap).frameType ≠ TP_FRAME_TYPE_TRANSPORT_DATA := hne
      rw [body_of_ne hne', fields_shortFrame a t n fr c heap ha ht hn hfr]
    change (if c = checkBytes ((shortFrame a t n fr c heap).body _) then
      Except.ok (some (shortFrame a t n fr c heap)) else .ok none) = _
    rw [hb]
    by_cases h : c = checkBytes (tpHeader ++ a ++ t ++ n ++ fr)
    · rw [if_pos h, if_pos ⟨rfl, h⟩]
    · rw [if_neg h, if_neg (fun hh => h hh.2)]

/-- A type field that names no frame type. -/
theorem bitStream2frame_unknown (a t rest : List UInt8) (heap : Heap) (ha : a.length = 2)
    (ht : t.length = 2) (h1 : UInt16.ofNat (leValue t) ≠ TP_FRAME_TYPE_CONTROL)
    (h3 : UInt16.ofNat (leValue t) ≠ TP_FRAME_TYPE_REQUEST_DATA)
    (h5 : UInt16.ofNat (leValue t) ≠ TP_FRAME_TYPE_TRANSPORT_DATA) :
    bitStream2frame (tpHeader ++ (a ++ (t ++ rest))) heap = .ok none := by
  have hft : (startFrame a t heap).frameType = UInt16.ofNat (leValue t) := rfl
  rw [bitStream2frame_start a t rest heap ha ht, decodeBody, hft, if_neg h1, if_neg h5, if_neg h3]
  rfl

/-! ## Frames with data -/

/-- The frame decoded from a data frame.  After the type bytes the decoder takes
the length `l` first, then the data area `d`, and only then `n` and `fr`. -/
def longFrame (a t l d n fr c : List UInt8) (heap : Heap) (hd : d.length = TP_FRAME_DATA_LEN_MAX) :
    Frame :=
  { shortFrame a t n fr c heap with
    dataLen := UInt16.ofNat (leValue l)
    data := d.take (leValue l) ++ heap.frame.data.drop (leValue l)
    data_length := by
      rw [List.length_append, List.length_take, List.length_drop, hd, heap.frame.data_length]
      omega }

theorem copyData_ok (f : Frame) (src : List UInt8) (h : src.length ≤ TP_FRAME_DATA_LEN_MAX) :
    f.copyData src = .ok { f with
      data := src ++ f.data.drop src.length
      data_length := by
        rw [List.length_append, List.length_drop, f.data_length]
        omega } := by
  have hm := memcpy_append [] f.data src 0 rfl (by rw [f.data_length]; exact h)
  simp only [List.nil_append] at hm
  rw [Frame.copyData]
  split
  · next data hd =>
    rw [hm] at hd
    cases hd
    rfl
  · next e he =>
    rw [hm] at he
    cases he

theorem copyData_fault (f : Frame) (src : List UInt8) (h : TP_FRAME_DATA_LEN_MAX < src.length) :
    f.copyData src = .error .outOfBounds := by
  have hm : memcpy f.data 0 src = .error .outOfBounds := by
    rw [memcpy, f.data_length, if_neg (by omega)]
  rw [Frame.copyData]
  split
  · next data hd =>
    rw [hm] at hd
    cases hd
  · next e he =>
    rw [hm] at he
    cases he
    rfl

/-- **The decoder on data frames** whose length field fits the data array. -/
theorem bitStream2frame_long (a t l d n fr c post : List UInt8) (heap : Heap) (ha : a.length = 2)
    (ht : t.length = 2) (hl : l.length = 2) (hd : d.length = TP_FRAME_DATA_LEN_MAX)
    (hn : n.length = 4) (hfr : fr.length = 2) (hc : c.length = 2)
    (hty : UInt16.ofNat (leValue t) = TP_FRAME_TYPE_TRANSPORT_DATA)
    (hfit : leValue l ≤ TP_FRAME_DATA_LEN_MAX) :
    bitStream2frame (tpHeader ++ (a ++ (t ++ (l ++ (d ++ (n ++ (fr ++ (c ++ post)))))))) heap =
      match heap.temp with
      | none => .ok none
      | some stale =>
        let g := longFrame a t l d n fr c heap hd
        if c = checkBytes (g.body (g.pad (malloc 528 stale))) then .ok (some g) else .ok none := by
  have hd' : d.length = 512 := hd
  have hlv : (UInt16.ofNat (leValue l)).toNat = leValue l := by
    unfold TP_FRAME_DATA_LEN_MAX at hfit
    exact uint16_ofNat_toNat (by omega)
  have hk : (d.take (leValue l)).length = leValue l := by
    rw [List.length_take, hd]; omega
  have h2 := loadLE_append (tpHeader ++ (a ++ t)) l (d ++ (n ++ (fr ++ (c ++ post)))) 8 2
    (by simp [tpHeader, ha, ht]) hl
  have h3 := load_append (tpHeader ++ (a ++ (t ++ l))) (d.take (leValue l))
    (d.drop (leValue l) ++ (n ++ (fr ++ (c ++ post)))) 10 (leValue l)
    (by simp [tpHeader, ha, ht, hl]) hk
  have h4 := loadLE_append (tpHeader ++ (a ++ (t ++ (l ++ d)))) n (fr ++ (c ++ post)) 522 4
    (by simp [tpHeader, ha, ht, hl, hd']) hn
  have h5 := loadLE_append (tpHeader ++ (a ++ (t ++ (l ++ (d ++ n))))) fr (c ++ post) 526 2
    (by simp [tpHeader, ha, ht, hl, hd', hn]) hfr
  have h6 := loadLE_append (tpHeader ++ (a ++ (t ++ (l ++ (d ++ (n ++ fr)))))) c post 528 2
    (by simp [tpHeader, ha, ht, hl, hd', hn, hfr]) hc
  rw [← List.append_assoc (d.take _), List.take_append_drop] at h3
  simp only [List.append_assoc] at h2 h3 h4 h5 h6
  have hft : (startFrame a t heap).frameType = TP_FRAME_TYPE_TRANSPORT_DATA := hty
  have hcopy := copyData_ok { startFrame a t heap with dataLen := UInt16.ofNat (leValue l) }
    (d.take (leValue l)) (by rw [hk]; exact hfit)
  rw [bitStream2frame_start a t _ heap ha ht, decodeBody, if_neg (by rw [hft]; decide), if_pos hft]
  simp only [h2, hlv, h3, hcopy, h4, bind, Except.bind, pure, Except.pure, TP_FRAME_DATA_LEN_MAX,
    Nat.reduceAdd]
  rw [decodeTail_eq _ heap _ 526 fr c h5 h6 hc (fun _ => by
    change (UInt16.ofNat (leValue l)).toNat ≤ _; rw [hlv]; exact hfit) (bodySize_of_eq hty)]
  simp only [hk]
  rfl

/-- **The decoder on data frames** whose length field does not fit. -/
theorem bitStream2frame_overrun (a t l rest : List UInt8) (heap : Heap) (ha : a.length = 2)
    (ht : t.length = 2) (hl : l.length = 2)
    (hty : UInt16.ofNat (leValue t) = TP_FRAME_TYPE_TRANSPORT_DATA)
    (hbig : TP_FRAME_DATA_LEN_MAX < leValue l) :
    bitStream2frame (tpHeader ++ (a ++ (t ++ (l ++ rest)))) heap = .error .outOfBounds := by
  have h2 := loadLE_append (tpHeader ++ (a ++ t)) l rest 8 2 (by simp [tpHeader, ha, ht]) hl
  simp only [List.append_assoc] at h2
  have hlt := leValue_lt l
  have hlv : (UInt16.ofNat (leValue l)).toNat = leValue l := by
    rw [hl] at hlt
    exact uint16_ofNat_toNat (by omega)
  have hft : (startFrame a t heap).frameType = TP_FRAME_TYPE_TRANSPORT_DATA := hty
  rw [bitStream2frame_start a t _ heap ha ht, decodeBody, if_neg (by rw [hft]; decide), if_pos hft]
  simp only [h2, hlv, bind, Except.bind]
  by_cases hin : 10 + leValue l ≤ (tpHeader ++ (a ++ (t ++ (l ++ rest)))).length
  · rw [load_of_le _ _ _ hin]
    simp only
    rw [copyData_fault _ _ (by rw [List.length_take, List.length_drop]; omega)]
  · rw [load_of_lt _ _ _ (by omega)]

end DeepSpace.TransmissionProtocol
