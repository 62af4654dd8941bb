import DeepSpace.Framing
import DeepSpace.RoundTrip
import Mathlib.Data.List.Forall2

/-!
# The bytes on the wire

What `frame2bit_stream` writes, over any former contents of its buffer.

* `Delimits.forall₂`: words that tell where they end can stand one after another, with nothing
  between them;
* `wire_delimits`: an encoded frame ends where its own type says, and carries its fields;
* `concat_injective`: so the concatenation of encoded frames determines the frames;
* `layout_leBytes`: the layout of the tables in `serial-transmission-protocol.md`, with the
  least significant byte of each field first.
-/

/-! ## Words one after another -/

namespace DeepSpace.SelfDelimiting

variable {α β : Type*}

/-- A relation says which words may be written for a value: a word is told from what follows it,
and tells its value, up to a relation. -/
structure Delimits (W : α → List β → Prop) (R : α → α → Prop) : Prop where
  ne_nil : ∀ {a w}, W a w → w ≠ []
  split : ∀ {a b w v r s}, W a w → W b v → w ++ r = v ++ s → R a b ∧ r = s

variable {W : α → List β → Prop} {R : α → α → Prop} {as bs : List α} {ws vs : List (List β)}

theorem Delimits.eq_nil_of_flatten (h : Delimits W R) (hs : List.Forall₂ W as ws)
    (he : ws.flatten = []) : as = [] := by
  cases hs with
  | nil => rfl
  | cons ha _ => exact absurd (List.append_eq_nil_iff.mp he).1 (h.ne_nil ha)

/-- **Texts.** -/
theorem Delimits.forall₂ (h : Delimits W R) (has : List.Forall₂ W as ws)
    (hbs : List.Forall₂ W bs vs) (he : ws.flatten = vs.flatten) : List.Forall₂ R as bs := by
  induction has generalizing bs vs with
  | nil =>
    rw [h.eq_nil_of_flatten hbs he.symm]
    exact .nil
  | @cons a w as ws ha has ih =>
    cases hbs with
    | nil => exact absurd (List.append_eq_nil_iff.mp he).1 (h.ne_nil ha)
    | @cons b v bs vs hb hbs =>
      obtain ⟨hab, hrest⟩ := h.split ha hb he
      exact .cons hab (ih hbs hrest)

end DeepSpace.SelfDelimiting

namespace DeepSpace.TransmissionProtocol

open DeepSpace.Memory DeepSpace.Crc DeepSpace.SelfDelimiting

/-- The bytes that `frame2bit_stream` writes for `f`, over some former contents of a buffer
that has room for them. -/
def Wrote (f : Frame) (bytes : List UInt8) : Prop :=
  ∃ buffer bs n, f.bodySize + 2 ≤ buffer.length ∧ frame2bitStream f buffer = .ok (bs, n) ∧
    bs.take n = bytes

theorem Wrote.eq_wire {f : Frame} {bytes : List UInt8} (h : Wrote f bytes) (hf : f.Fits) :
    ∃ buffer, f.bodySize + 2 ≤ buffer.length ∧ bytes = f.wire buffer := by
  obtain ⟨buffer, bs, n, hb, he, rfl⟩ := h
  rw [frame2bitStream_wire f buffer hf hb] at he
  cases he
  exact ⟨buffer, hb, List.take_left' (wire_length f buffer hf (by omega))⟩

/-! ## One frame -/

theorem leBytes_inj {n u v : Nat} (hu : u < 256 ^ n) (hv : v < 256 ^ n)
    (h : leBytes n u = leBytes n v) : u = v := by
  rw [← leValue_leBytes n u hu, h, leValue_leBytes n v hv]

theorem uint16_leBytes_inj {x y : UInt16} (h : leBytes 2 x.toNat = leBytes 2 y.toNat) : x = y :=
  UInt16.toNat_inj.mp (leBytes_inj x.toNat_lt y.toNat_lt h)

theorem uint32_leBytes_inj {x y : UInt32} (h : leBytes 4 x.toNat = leBytes 4 y.toNat) : x = y :=
  UInt32.toNat_inj.mp (leBytes_inj x.toNat_lt y.toNat_lt h)

/-- The 14 bytes determine the five fields that all frames have. -/
theorem fields_inj {f g : Frame} (h : f.fields = g.fields) :
    g.header = f.header ∧ g.address = f.address ∧ g.frameType = f.frameType ∧
      g.nFile = f.nFile ∧ g.nFrame = f.nFrame := by
  have hf := f.header_length
  have hg := g.header_length
  unfold Frame.fields at h
  obtain ⟨h, hfr⟩ := List.append_inj h (by simp [hf, hg])
  obtain ⟨h, hn⟩ := List.append_inj h (by simp [hf, hg])
  obtain ⟨h, ht⟩ := List.append_inj h (by simp [hf, hg])
  obtain ⟨hh, ha⟩ := List.append_inj h (by simp [hf, hg])
  exact ⟨hh.symm, (uint16_leBytes_inj ha).symm, (uint16_leBytes_inj ht).symm,
    (uint32_leBytes_inj hn).symm, (uint16_leBytes_inj hfr).symm⟩

theorem sameFrame_of_body {f g : Frame} {pad pad' : List UInt8} (hf : f.Fits) (hg : g.Fits)
    (ht : g.frameType = f.frameType) (h : f.body pad = g.body pad') : SameFrame f g := by
  by_cases hd : f.frameType = TP_FRAME_TYPE_TRANSPORT_DATA
  · rw [body_of_eq hd, body_of_eq (ht.trans hd)] at h
    obtain ⟨hfields, hrest⟩ := List.append_inj h (by simp)
    obtain ⟨hlen, hdata⟩ := List.append_inj hrest (by simp)
    have hlen := uint16_leBytes_inj hlen
    have hk := take_data_length f (hf hd)
    have hk' := take_data_length g (hg (ht.trans hd))
    rw [← hlen] at hdata hk'
    obtain ⟨hh, ha, -, hn, hfr⟩ := fields_inj hfields
    exact ⟨hh, ha, ht, hn, hfr, fun _ =>
      ⟨hlen.symm, (List.append_inj_left hdata (hk.trans hk'.symm)).symm⟩⟩
  · have hd' : g.frameType ≠ TP_FRAME_TYPE_TRANSPORT_DATA := by rwa [ht]
    rw [body_of_ne hd, body_of_ne hd'] at h
    obtain ⟨hh, ha, -, hn, hfr⟩ := fields_inj h
    exact ⟨hh, ha, ht, hn, hfr, fun e => absurd e hd⟩

/-! ## Lists of frames -/

/-- **An encoded frame is self-delimiting.** -/
theorem wire_delimits : Delimits (fun f bytes => f.Fits ∧ Wrote f bytes) SameFrame := by
  constructor
  · rintro f bytes ⟨hf, hw⟩ rfl
    obtain ⟨buffer, hb, he⟩ := hw.eq_wire hf
    have hl := wire_length f buffer hf (by omega)
    rw [← he] at hl
    cases hl
  · rintro f g w v r s ⟨hf, hw⟩ ⟨hg, hv⟩ he
    obtain ⟨buffer, hb, rfl⟩ := hw.eq_wire hf
    obtain ⟨buffer', hb', rfl⟩ := hv.eq_wire hg
    have ht : g.frameType = f.frameType := by
      rw [← typeField_wire g buffer' s, ← he, typeField_wire]
    have hsize : g.bodySize = f.bodySize := by rw [Frame.bodySize, Frame.bodySize, ht]
    have hl := wire_length f buffer hf (by omega)
    have hl' := wire_length g buffer' hg (by omega)
    obtain ⟨hwire, hrest⟩ := List.append_inj he (by rw [hl, hl', hsize])
    have hbody := body_length f buffer hf (by omega)
    have hbody' := body_length g buffer' hg (by omega)
    exact ⟨sameFrame_of_body hf hg ht (List.append_inj_left hwire (by rw [hbody, hbody', hsize])),
      hrest⟩

/-- **The wire format loses nothing**: whatever the buffers held, equal concatenations
come from lists of equal frames. -/
theorem concat_injective (fs gs : List Frame) (ws vs : List (List UInt8))
    (hfs : ∀ f ∈ fs, f.Fits) (hgs : ∀ g ∈ gs, g.Fits) (hws : List.Forall₂ Wrote fs ws)
    (hvs : List.Forall₂ Wrote gs vs) (h : ws.flatten = vs.flatten) :
    List.Forall₂ SameFrame fs gs :=
  wire_delimits.forall₂ ((List.forall₂_and_left fs ws).mpr ⟨hfs, hws⟩)
    ((List.forall₂_and_left gs vs).mpr ⟨hgs, hvs⟩) h

theorem wrote_wire (f : Frame) (buffer : List UInt8) (hf : f.Fits)
    (hb : f.bodySize + 2 ≤ buffer.length) : Wrote f (f.wire buffer) :=
  ⟨buffer, _, _, hb, frame2bitStream_wire f buffer hf hb,
    List.take_left' (wire_length f buffer hf (by omega))⟩

theorem sampleRequest_fits : sampleRequest.Fits := fun h => absurd h (by decide)

theorem sampleData_fits : sampleData.Fits := fun _ => by decide

/-- A request and a data frame, over buffers that held different bytes before. -/
theorem concat_injective_sample :
    let ws := [sampleRequest.wire (List.replicate 16 0), sampleData.wire (List.replicate 530 0)]
    let vs := [sampleRequest.wire (List.replicate 20 1), sampleData.wire (List.replicate 530 0)]
    ws.flatten = vs.flatten ∧
      List.Forall₂ SameFrame [sampleRequest, sampleData] [sampleRequest, sampleData] := by
  intro ws vs
  have hne : sampleRequest.frameType ≠ TP_FRAME_TYPE_TRANSPORT_DATA := by decide
  have hw : ∀ buffer : List UInt8, 16 ≤ buffer.length → Wrote sampleRequest
      (sampleRequest.wire buffer) := fun buffer hb =>
    wrote_wire _ _ sampleRequest_fits (by rw [bodySize_of_ne hne]; exact hb)
  have hd : Wrote sampleData (sampleData.wire (List.replicate 530 0)) :=
    wrote_wire _ _ sampleData_fits (by rw [bodySize_of_eq rfl, List.length_replicate])
  have he : ws.flatten = vs.flatten := by
    simp only [ws, vs, Frame.wire, body_of_ne hne]
  have hfits : ∀ f ∈ [sampleRequest, sampleData], f.Fits :=
    List.forall_mem_cons.mpr
      ⟨sampleRequest_fits, List.forall_mem_singleton.mpr sampleData_fits⟩
  exact ⟨he, concat_injective _ _ ws vs hfits hfits
    (.cons (hw _ (by rw [List.length_replicate])) (.cons hd .nil))
    (.cons (hw _ (by rw [List.length_replicate]; decide)) (.cons hd .nil)) he⟩

/-! ## The documented layout -/

/-- The `n` low bytes of `v`, most significant first. -/
def beBytes (n v : Nat) : List UInt8 := (leBytes n v).reverse

/-- The tables of `serial-transmission-protocol.md`, which number the bytes from 1; `order`
lays out the bytes of a number. -/
structure Layout (order : Nat → Nat → List UInt8) (f : Frame) (bytes : List UInt8) : Prop where
  header : bytes.take 4 = tpHeader
  address : (bytes.drop 4).take 2 = order 2 f.address.toNat
  frameType : (bytes.drop 6).take 2 = order 2 f.frameType.toNat
  nFile : (bytes.drop 8).take 4 = order 4 f.nFile.toNat
  nFrame : (bytes.drop 12).take 2 = order 2 f.nFrame.toNat
  dataLen : f.frameType = TP_FRAME_TYPE_TRANSPORT_DATA →
    (bytes.drop 14).take 2 = order 2 f.dataLen.toNat
  data : f.frameType = TP_FRAME_TYPE_TRANSPORT_DATA →
    (bytes.drop 16).take f.dataLen.toNat = f.data.take f.dataLen.toNat
  checkSum : bytes.length =
    (if f.frameType = TP_FRAME_TYPE_TRANSPORT_DATA then 528 else 14) + 2

/-- A field behind bytes of known length. -/
theorem drop_take_append (pre : List UInt8) {mid : List UInt8} (post : List UInt8) {off n : Nat}
    (hoff : pre.length = off) (hn : mid.length = n) :
    ((pre ++ (mid ++ post)).drop off).take n = mid := by
  rw [List.drop_left' hoff, List.take_left' hn]

theorem wire_split (f : Frame) (buffer : List UInt8) :
    ∃ rest, f.wire buffer = f.fields ++ rest ∧
      (f.frameType = TP_FRAME_TYPE_TRANSPORT_DATA → rest = leBytes 2 f.dataLen.toNat ++
        (f.data.take f.dataLen.toNat ++
          (f.pad buffer ++ checkBytes (f.body (f.pad buffer))))) := by
  by_cases hd : f.frameType = TP_FRAME_TYPE_TRANSPORT_DATA
  · refine ⟨_, ?_, fun _ => rfl⟩
    rw [Frame.wire]
    generalize checkBytes (f.body (f.pad buffer)) = c
    rw [body_of_eq hd]
    simp only [List.append_assoc]
  · refine ⟨checkBytes (f.body (f.pad buffer)), ?_, fun h => absurd h hd⟩
    rw [Frame.wire]
    generalize checkBytes (f.body (f.pad buffer)) = c
    rw [body_of_ne hd]

/-- Where the fields stand in the 14 bytes. -/
theorem fields_layout (f : Frame) (rest : List UInt8) (hh : f.header = tpHeader) :
    let bytes := f.fields ++ rest
    bytes.take 4 = tpHeader ∧ (bytes.drop 4).take 2 = leBytes 2 f.address.toNat ∧
      (bytes.drop 6).take 2 = leBytes 2 f.frameType.toNat ∧
      (bytes.drop 8).take 4 = leBytes 4 f.nFile.toNat ∧
      (bytes.drop 12).take 2 = leBytes 2 f.nFrame.toNat := by
  have h1 := drop_take_append tpHeader (leBytes 2 f.frameType.toNat ++ (leBytes 4 f.nFile.toNat ++
    (leBytes 2 f.nFrame.toNat ++ rest))) tpHeader_length (leBytes_length 2 f.address.toNat)
  have h2 := drop_take_append (tpHeader ++ leBytes 2 f.address.toNat) (leBytes 4
    f.nFile.toNat ++ (leBytes 2 f.nFrame.toNat ++ rest)) rfl (leBytes_length 2 f.frameType.toNat)
  have h3 := drop_take_append (tpHeader ++ leBytes 2 f.address.toNat ++
    leBytes 2 f.frameType.toNat) (leBytes 2 f.nFrame.toNat ++ rest) rfl
    (leBytes_length 4 f.nFile.toNat)
  have h4 := drop_take_append (tpHeader ++ leBytes 2 f.address.toNat ++
    leBytes 2 f.frameType.toNat ++ leBytes 4 f.nFile.toNat) rest rfl
    (leBytes_length 2 f.nFrame.toNat)
  simp only [List.append_assoc, List.length_append, leBytes_length, tpHeader_length,
    Nat.reduceAdd] at h1 h2 h3 h4
  simp only [Frame.fields, hh, List.append_assoc]
  exact ⟨List.take_left' tpHeader_length, h1, h2, h3, h4⟩

/-- **The layout.**  Offsets, widths and order of the fields are the documented ones; the
bytes of a field are in host order. -/
theorem layout_leBytes (f : Frame) (bytes : List UInt8) (hh : f.header = tpHeader) (hf : f.Fits)
    (hw : Wrote f bytes) : Layout leBytes f bytes := by
  obtain ⟨buffer, hb, rfl⟩ := hw.eq_wire hf
  have hl := wire_length f buffer hf (by omega)
  obtain ⟨rest, hwire, hrest⟩ := wire_split f buffer
  rw [hwire] at hl ⊢
  obtain ⟨h0, h1, h2, h3, h4⟩ := fields_layout f rest hh
  have h14 : (f.fields ++ rest).drop 14 = rest := List.drop_left' (fields_length f)
  refine ⟨h0, h1, h2, h3, h4, fun hd => ?_, fun hd => ?_, hl⟩
  · rw [h14, hrest hd, List.take_left' (leBytes_length ..)]
  · rw [show 16 = 14 + 2 by rfl, ← List.drop_drop, h14, hrest hd,
      List.drop_left' (leBytes_length ..), List.take_left' (take_data_length f (hf hd))]

theorem layout_leBytes_sampleData :
    Layout leBytes sampleData (sampleData.wire (List.replicate 530 0)) :=
  layout_leBytes sampleData _ rfl sampleData_fits
    (wrote_wire _ _ sampleData_fits (by rw [bodySize_of_eq rfl, List.length_replicate]))

/-- No type is written in the documented order of bytes. -/
theorem not_layout_beBytes (f : Frame) (bytes : List UInt8) (hh : f.header = tpHeader)
    (hty : Known f.frameType) (hf : f.Fits) (hw : Wrote f bytes) : ¬ Layout beBytes f bytes := by
  intro h
  obtain ⟨buffer, -, rfl⟩ := hw.eq_wire hf
  obtain ⟨rest, hwire, -⟩ := wire_split f buffer
  obtain ⟨-, -, ht, -⟩ := fields_layout f rest hh
  have he := h.frameType
  rw [hwire, ht] at he
  rcases hty with e | e | e
  all_goals
    rw [e] at he
    exact absurd he (by decide)

/-- The request of the unit test: the test expects the type as `03 00`. -/
theorem sampleRequest_not_layout_beBytes :
    sampleRequest.header = tpHeader ∧ sampleRequest.frameType = TP_FRAME_TYPE_REQUEST_DATA ∧
      Wrote sampleRequest (sampleRequest.wire (List.replicate 16 0)) ∧
      ¬ Layout beBytes sampleRequest (sampleRequest.wire (List.replicate 16 0)) := by
  have hw : Wrote sampleRequest (sampleRequest.wire (List.replicate 16 0)) :=
    wrote_wire _ _ sampleRequest_fits (by
      rw [bodySize_of_ne (by decide), List.length_replicate])
  exact ⟨rfl, rfl, hw, not_layout_beBytes _ _ rfl (.inr (.inl rfl)) sampleRequest_fits hw⟩

end DeepSpace.TransmissionProtocol
