import DeepSpace.Framing

/-!
# `master.c`: a file in answer to a request

`requestData` is the `TP_FRAME_TYPE_REQUEST_DATA` branch of `main`.  Proved here,
for images of every size and a line on which no send fails:

* `sendImg_spec`: the loop sends one full frame per 512 bytes, and last a frame of
  `size % 512` bytes;
* `requestData_lossless_iff`: the file arrives whole unless its size is a positive
  multiple of 512, when the last 512 bytes are missing.
-/

namespace DeepSpace.Master

open DeepSpace.Memory DeepSpace.TransmissionProtocol

/-! ## The program -/

/-- The part of `img_t` that `main` sends from. -/
structure Img where
  file : List UInt8
  size : Nat
  file_length : file.length = size

/-- The sender while it answers: `output_frame`, the line, and the frames that
`send_frame` has accepted so far. -/
structure Sender (σ : Type) where
  output : Frame
  line : σ
  sent : List Frame

variable {σ : Type} (fd : Fd σ) (stale : Nat → UInt8)

/-- `send_frame (fd, &output_frame)`. -/
def Sender.send (m : Sender σ) : C (Int × Sender σ) := do
  let (r, line) := sendFrame fd stale m.line m.output
  let n ← r
  return (n, { m with line, sent := if n = -1 then m.sent else m.sent ++ [m.output] })

/-- The `for` loop, with `totolFrames - i` iterations left. -/
def sendImg (img : Img) (totolFrames : Nat) : Nat → Nat → Nat → Sender σ → C (Sender σ)
  | 0, _, _, m => .ok m
  | left + 1, i, pFile, m => do
    let output := if i = totolFrames - 1 then
        { m.output with dataLen := UInt16.ofNat (img.size % TP_FRAME_DATA_LEN_MAX) }
      else m.output
    let data ← load img.file pFile output.dataLen.toNat
    let output ← output.copyData data
    let pFile := pFile + output.dataLen.toNat
    let (n, m) ← { m with output }.send fd stale
    if n = -1 then return m
    sendImg img totolFrames left (i + 1) pFile m

def totolFrames (img : Img) : Nat :=
  img.size / TP_FRAME_DATA_LEN_MAX + if img.size % TP_FRAME_DATA_LEN_MAX ≠ 0 then 1 else 0

/-- The branch of `main` for a request; `p_opt->imgs` is read without a check. -/
def requestData (imgs : List Img) (input : Frame) (m : Sender σ) : C (Sender σ) := do
  let output := { m.output with
    frameType := TP_FRAME_TYPE_TRANSPORT_DATA, nFile := input.nFile
    dataLen := UInt16.ofNat TP_FRAME_DATA_LEN_MAX }
  match imgs[input.nFile.toNat]? with
  | none => .error .outOfBounds
  | some img =>
    let m ← sendImg fd stale img (totolFrames img) (totolFrames img) 0 0 { m with output }
    let (_, m) ← { m with
      output := { m.output with frameType := TP_FRAME_TYPE_REQUEST_DATA } }.send fd stale
    return m

/-! ## One frame -/

/-- No `write` on the descriptor fails. -/
def Succeeds (fd : Fd σ) : Prop := ∀ s bs, (fd.write s bs).1 ≠ none

/-- The data bytes a frame announces. -/
def payload (f : Frame) : List UInt8 := f.data.take f.dataLen.toNat

/-- Only the fields that `main` sets for each frame differ. -/
def SameSender (f g : Frame) : Prop :=
  g.header = f.header ∧ g.address = f.address ∧ g.nFrame = f.nFrame

theorem send_eq (m : Sender σ) (hty : Known m.output.frameType) (hf : m.output.Fits)
    {r : Option Nat} {line : σ}
    (hw : fd.write m.line (m.output.wire (malloc m.output.size stale)) = (r, line)) :
    m.send fd stale = .ok (ssize r, { m with
      line, sent := if ssize r = -1 then m.sent else m.sent ++ [m.output] }) := by
  have hs := sendFrame_eq fd stale m.line m.output hty hf
  rw [hw] at hs
  rw [Sender.send, hs]
  rfl

variable {fd} in
theorem send_ok (hfd : Succeeds fd) (m : Sender σ) (hty : Known m.output.frameType)
    (hf : m.output.Fits) :
    ∃ n m', m.send fd stale = .ok (n, m') ∧ n ≠ -1 ∧ m'.output = m.output ∧
      m'.sent = m.sent ++ [m.output] := by
  have hw := hfd m.line (m.output.wire (malloc m.output.size stale))
  obtain ⟨r, line, he⟩ : ∃ r line,
    fd.write m.line (m.output.wire (malloc m.output.size stale)) = (r, line) := ⟨_, _, rfl⟩
  rw [he] at hw
  obtain ⟨n, rfl⟩ := Option.ne_none_iff_exists'.mp hw
  have hn : ssize (some n) ≠ -1 := by
    change (n : Int) ≠ -1
    omega
  refine ⟨_, _, send_eq fd stale m hty hf he, hn, rfl, ?_⟩
  simp only [if_neg hn]

/-- One iteration, for the frame `out` that its first statement leaves. -/
theorem sendImg_step (img : Img) (t left i pFile : Nat) (m : Sender σ)
    (out : Frame) (hout : (if i = t - 1 then
        { m.output with dataLen := UInt16.ofNat (img.size % TP_FRAME_DATA_LEN_MAX) }
      else m.output) = out)
    (hlen : out.dataLen.toNat ≤ TP_FRAME_DATA_LEN_MAX)
    (hb : pFile + out.dataLen.toNat ≤ img.size) :
    ∃ g : Frame, g.frameType = out.frameType ∧ g.dataLen = out.dataLen ∧ SameSender out g ∧
      payload g = (img.file.drop pFile).take out.dataLen.toNat ∧
      sendImg fd stale img t (left + 1) i pFile m = (do
        let (n, m) ← { m with output := g }.send fd stale
        if n = -1 then return m
        sendImg fd stale img t left (i + 1) (pFile + out.dataLen.toNat) m) := by
  have hl : load img.file pFile out.dataLen.toNat =
      .ok ((img.file.drop pFile).take out.dataLen.toNat) :=
    load_of_le _ _ _ (by rw [img.file_length]; exact hb)
  have hk : ((img.file.drop pFile).take out.dataLen.toNat).length = out.dataLen.toNat := by
    rw [List.length_take, List.length_drop, img.file_length]; omega
  have hc := copyData_ok out _ (hk.trans_le hlen)
  generalize hg : ({ out with data := _, data_length := _ } : Frame) = g at hc
  refine ⟨g, by rw [← hg], by rw [← hg], by rw [← hg]; exact ⟨rfl, rfl, rfl⟩, ?_, ?_⟩
  · rw [payload, ← hg]
    exact List.take_left' hk
  · have hgd : g.dataLen = out.dataLen := by rw [← hg]
    rw [sendImg, hout]
    simp only [hl, bind, Except.bind, hc, hgd]

variable {fd} in
/-- One iteration on a line that takes every frame. -/
theorem sendImg_succ (hfd : Succeeds fd) (img : Img) (t left i pFile : Nat) (m : Sender σ)
    (out : Frame) (hout : (if i = t - 1 then
        { m.output with dataLen := UInt16.ofNat (img.size % TP_FRAME_DATA_LEN_MAX) }
      else m.output) = out)
    (hty : out.frameType = TP_FRAME_TYPE_TRANSPORT_DATA)
    (hlen : out.dataLen.toNat ≤ TP_FRAME_DATA_LEN_MAX)
    (hb : pFile + out.dataLen.toNat ≤ img.size) :
    ∃ m', sendImg fd stale img t (left + 1) i pFile m =
        sendImg fd stale img t left (i + 1) (pFile + out.dataLen.toNat) m' ∧
      m'.sent = m.sent ++ [m'.output] ∧
      m'.output.frameType = TP_FRAME_TYPE_TRANSPORT_DATA ∧ m'.output.dataLen = out.dataLen ∧
      payload m'.output = (img.file.drop pFile).take out.dataLen.toNat := by
  obtain ⟨g, hgt, hgd, -, hp, hstep⟩ := sendImg_step fd stale img t left i pFile m out hout hlen hb
  have hgt : g.frameType = TP_FRAME_TYPE_TRANSPORT_DATA := hgt.trans hty
  obtain ⟨n, m', hsend, hn, ho, hsent⟩ := send_ok stale hfd { m with output := g }
    (.inr (.inr hgt)) (fun _ => by rw [hgd]; exact hlen)
  refine ⟨m', ?_, by rw [hsent, ho], by rw [ho, hgt], by rw [ho, hgd], by rw [ho, hp]⟩
  rw [hstep]
  simp only [hsend, bind, Except.bind, if_neg hn]

/-! ## The whole file -/

theorem dataLenMax_toNat :
    (UInt16.ofNat TP_FRAME_DATA_LEN_MAX).toNat = TP_FRAME_DATA_LEN_MAX := by decide

theorem lastLen_toNat (n : Nat) :
    (UInt16.ofNat (n % TP_FRAME_DATA_LEN_MAX)).toNat = n % TP_FRAME_DATA_LEN_MAX := by
  have h : n % TP_FRAME_DATA_LEN_MAX < 512 := Nat.mod_lt _ (by decide)
  exact uint16_ofNat_toNat (by omega)

/-- The last frame ends with the file, or before. -/
theorem last_le (img : Img) {i : Nat} (hi : i + 1 = totolFrames img) :
    TP_FRAME_DATA_LEN_MAX * i + img.size % TP_FRAME_DATA_LEN_MAX ≤ img.size := by
  have htot : totolFrames img = img.size / TP_FRAME_DATA_LEN_MAX +
    if img.size % TP_FRAME_DATA_LEN_MAX ≠ 0 then 1 else 0 := rfl
  unfold TP_FRAME_DATA_LEN_MAX at *
  split at htot <;> omega

/-- Those before it are full. -/
theorem full_le (img : Img) {i : Nat} (hi : i + 1 < totolFrames img) :
    TP_FRAME_DATA_LEN_MAX * i + TP_FRAME_DATA_LEN_MAX ≤ img.size := by
  have htot : totolFrames img = img.size / TP_FRAME_DATA_LEN_MAX +
    if img.size % TP_FRAME_DATA_LEN_MAX ≠ 0 then 1 else 0 := rfl
  unfold TP_FRAME_DATA_LEN_MAX at *
  split at htot <;> omega

variable {fd} in
/-- **The loop**, with `left + 1` frames to go: all of them are full but the last,
which carries `size % 512` bytes. -/
theorem sendImg_spec (hfd : Succeeds fd) (img : Img) (left i : Nat) (m : Sender σ)
    (hi : i + left + 1 = totolFrames img)
    (hty : m.output.frameType = TP_FRAME_TYPE_TRANSPORT_DATA)
    (hlen : m.output.dataLen = UInt16.ofNat TP_FRAME_DATA_LEN_MAX) :
    ∃ fs m', sendImg fd stale img (totolFrames img) (left + 1) i (TP_FRAME_DATA_LEN_MAX * i) m =
        .ok m' ∧ m'.sent = m.sent ++ fs ∧
      (∀ f ∈ fs, f.frameType = TP_FRAME_TYPE_TRANSPORT_DATA ∧
        f.dataLen.toNat ≤ TP_FRAME_DATA_LEN_MAX) ∧
      fs.flatMap payload = (img.file.drop (TP_FRAME_DATA_LEN_MAX * i)).take
        (TP_FRAME_DATA_LEN_MAX * left + img.size % TP_FRAME_DATA_LEN_MAX) := by
  have hmod : img.size % TP_FRAME_DATA_LEN_MAX < TP_FRAME_DATA_LEN_MAX := Nat.mod_lt _ (by decide)
  induction left generalizing i m with
  | zero =>
    have hb := last_le img (i := i) (by omega)
    obtain ⟨m₁, hrun, hsent, hgt, hgd, hp⟩ := sendImg_succ stale hfd img (totolFrames img) 0 i
      (TP_FRAME_DATA_LEN_MAX * i) m _ (if_pos (by omega)) hty
      (by simp only [lastLen_toNat]; omega) (by simp only [lastLen_toNat]; omega)
    refine ⟨[m₁.output], m₁, hrun.trans rfl, hsent, ?_, ?_⟩
    · rintro f hf
      rw [List.mem_singleton.mp hf, hgd, lastLen_toNat]
      exact ⟨hgt, hmod.le⟩
    · simp only [List.flatMap_singleton, hp, lastLen_toNat, Nat.mul_zero, Nat.zero_add]
  | succ left ih =>
    have hd : m.output.dataLen.toNat = TP_FRAME_DATA_LEN_MAX := by rw [hlen, dataLenMax_toNat]
    have hb := full_le img (i := i) (by omega)
    obtain ⟨m₁, hrun, hsent₁, hgt, hgd, hp⟩ := sendImg_succ stale hfd img (totolFrames img)
      (left + 1) i (TP_FRAME_DATA_LEN_MAX * i) m _ (if_neg (by omega)) hty hd.le
      (by rw [hd]; exact hb)
    obtain ⟨fs, m', hrest, hsent, hall, hflat⟩ := ih (i + 1) m₁ (by omega) hgt (hgd.trans hlen)
    rw [hd, ← Nat.mul_succ] at hrun
    refine ⟨m₁.output :: fs, m', hrun.trans hrest, ?_, ?_, ?_⟩
    · rw [hsent, hsent₁, List.append_assoc]; rfl
    · rintro f (_ | ⟨_, hf⟩)
      · exact ⟨hgt, by rw [hgd, hd]⟩
      · exact hall f hf
    · rw [List.flatMap_cons, hp, hflat, hd, Nat.mul_succ, ← List.drop_drop, ← List.take_add]
      congr 1
      rw [Nat.mul_succ]
      omega

/-- The data frames among the frames sent. -/
def dataFrames (sent : List Frame) : List Frame :=
  sent.filter (·.frameType = TP_FRAME_TYPE_TRANSPORT_DATA)

theorem dataFrames_answer {data : List Frame} {last : Frame}
    (hall : ∀ f ∈ data, f.frameType = TP_FRAME_TYPE_TRANSPORT_DATA)
    (hlast : last.frameType = TP_FRAME_TYPE_REQUEST_DATA) : dataFrames (data ++ [last]) = data := by
  have hne : TP_FRAME_TYPE_REQUEST_DATA ≠ TP_FRAME_TYPE_TRANSPORT_DATA := by decide
  have hf : data.filter (·.frameType = TP_FRAME_TYPE_TRANSPORT_DATA) = data :=
    List.filter_eq_self.mpr fun f hf => decide_eq_true (hall f hf)
  have hl : [last].filter (·.frameType = TP_FRAME_TYPE_TRANSPORT_DATA) = [] :=
    List.filter_eq_nil_iff.mpr fun f hf => by
      rw [List.mem_singleton.mp hf, hlast]
      simpa using hne
  rw [dataFrames, List.filter_append, hf, hl, List.append_nil]

/-- The answer to `input`: no frame announces more than 512 bytes, and together
they carry `img`. -/
def Lossless (fd : Fd σ) (stale : Nat → UInt8) (imgs : List Img) (input : Frame) (m : Sender σ)
    (img : Img) : Prop :=
  ∃ m', requestData fd stale imgs input m = .ok m' ∧
    (∀ f ∈ dataFrames m'.sent, f.dataLen.toNat ≤ TP_FRAME_DATA_LEN_MAX) ∧
    (dataFrames m'.sent).flatMap payload = img.file

variable {fd} in
/-- The data frames of an answer, whatever the size of the image. -/
theorem requestData_spec (hfd : Succeeds fd) (imgs : List Img) (input : Frame) (m : Sender σ)
    (img : Img) (himg : imgs[input.nFile.toNat]? = some img) (hm : m.sent = []) :
    ∃ m', requestData fd stale imgs input m = .ok m' ∧
      (∀ f ∈ dataFrames m'.sent, f.dataLen.toNat ≤ TP_FRAME_DATA_LEN_MAX) ∧
      (dataFrames m'.sent).flatMap payload = img.file.take
        (TP_FRAME_DATA_LEN_MAX * (totolFrames img - 1) + img.size % TP_FRAME_DATA_LEN_MAX) := by
  have hne : TP_FRAME_TYPE_REQUEST_DATA ≠ TP_FRAME_TYPE_TRANSPORT_DATA := by decide
  -- the loop, also when there is nothing to send
  obtain ⟨fs, m₁, hrun, hsent, hall, hflat⟩ : ∃ fs m₁,
      sendImg fd stale img (totolFrames img) (totolFrames img) 0 0 { m with
        output := { m.output with
          frameType := TP_FRAME_TYPE_TRANSPORT_DATA, nFile := input.nFile
          dataLen := UInt16.ofNat TP_FRAME_DATA_LEN_MAX } } = .ok m₁ ∧ m₁.sent = fs ∧
      (∀ f ∈ fs, f.frameType = TP_FRAME_TYPE_TRANSPORT_DATA ∧
        f.dataLen.toNat ≤ TP_FRAME_DATA_LEN_MAX) ∧
      fs.flatMap payload = img.file.take
        (TP_FRAME_DATA_LEN_MAX * (totolFrames img - 1) + img.size % TP_FRAME_DATA_LEN_MAX) := by
    cases ht : totolFrames img with
    | zero =>
      have hz : img.size % TP_FRAME_DATA_LEN_MAX = 0 := by
        unfold totolFrames at ht
        by_contra h
        rw [if_pos h] at ht
        exact Nat.succ_ne_zero _ ht
      exact ⟨[], _, rfl, hm, by simp, by simp [hz]⟩
    | succ n =>
      obtain ⟨fs, m₁, hrun, hsent, hall, hflat⟩ := sendImg_spec stale hfd img n 0 { m with
        output := { m.output with
          frameType := TP_FRAME_TYPE_TRANSPORT_DATA, nFile := input.nFile
          dataLen := UInt16.ofNat TP_FRAME_DATA_LEN_MAX } } (by omega) rfl rfl
      rw [ht] at hrun
      exact ⟨fs, m₁, hrun, by rw [hsent, hm]; rfl, hall, hflat⟩
  obtain ⟨n, m', hsend, -, -, hsent'⟩ := send_ok stale hfd { m₁ with
    output := { m₁.output with frameType := TP_FRAME_TYPE_REQUEST_DATA } } (.inr (.inl rfl))
    (fun h => absurd h hne)
  have hfs : dataFrames m'.sent = fs := by
    rw [hsent', hsent]
    exact dataFrames_answer (fun f hf => (hall f hf).1) rfl
  refine ⟨m', ?_, ?_, ?_⟩
  · simp only [requestData, himg, hrun, bind, Except.bind, hsend, pure, Except.pure]
  · rw [hfs]
    exact fun f hf => (hall f hf).2
  · rw [hfs, hflat]

variable {fd} in
/-- **Segmentation.**  The answer carries the whole file, unless the size is a
positive multiple of 512: then the last frame, which should be full, is empty. -/
theorem requestData_lossless_iff (hfd : Succeeds fd) (imgs : List Img) (input : Frame)
    (m : Sender σ) (img : Img) (himg : imgs[input.nFile.toNat]? = some img) (hm : m.sent = []) :
    Lossless fd stale imgs input m img ↔
      img.size = 0 ∨ img.size % TP_FRAME_DATA_LEN_MAX ≠ 0 := by
  obtain ⟨m', hrun, hle, hflat⟩ := requestData_spec stale hfd imgs input m img himg hm
  have hdiv := Nat.div_add_mod img.size TP_FRAME_DATA_LEN_MAX
  have htot : totolFrames img = img.size / TP_FRAME_DATA_LEN_MAX +
    if img.size % TP_FRAME_DATA_LEN_MAX ≠ 0 then 1 else 0 := rfl
  unfold TP_FRAME_DATA_LEN_MAX at hdiv htot
  constructor
  · rintro ⟨m'', hrun', -, hfile⟩
    rw [hrun] at hrun'
    obtain rfl := Except.ok.inj hrun'
    have hlen := congrArg List.length (hflat.symm.trans hfile)
    rw [List.length_take, img.file_length, TP_FRAME_DATA_LEN_MAX] at hlen
    unfold TP_FRAME_DATA_LEN_MAX
    split at htot <;> omega
  · intro h
    refine ⟨m', hrun, hle, ?_⟩
    rw [hflat, List.take_of_length_le]
    rw [img.file_length, TP_FRAME_DATA_LEN_MAX]
    unfold TP_FRAME_DATA_LEN_MAX at h
    split at htot <;> omega

/-- `output_frame = default_frame`, before the first request. -/
def sampleSender : Sender (List UInt8) where
  output := { sampleRequest with address := TP_ADDRESS_MASTER, nFile := 0, nFrame := 0 }
  line := []
  sent := []

/-- One byte. -/
def sampleImg : Img := ⟨[7], 1, rfl⟩

/-- 512 bytes. -/
def fullImg : Img := ⟨List.replicate 512 7, 512, List.length_replicate⟩

theorem fifo_succeeds : Succeeds fifo := fun _ _ h => nomatch h

/-- Three frames of bytes, the last one not full. -/
def threeFrames : Img :=
  ⟨(List.range 1300).map UInt8.ofNat, 1300, by rw [List.length_map, List.length_range]⟩

theorem requestData_lossless_iff_threeFrames :
    Lossless fifo (fun _ => 0) [fullImg, threeFrames] sampleRequest sampleSender threeFrames ↔
      threeFrames.size = 0 ∨ threeFrames.size % TP_FRAME_DATA_LEN_MAX ≠ 0 :=
  requestData_lossless_iff (fun _ => 0) fifo_succeeds [fullImg, threeFrames] sampleRequest
    sampleSender threeFrames rfl rfl

/-- One full frame's worth of image is not sent at all. -/
theorem fullImg_lost :
    ¬ Lossless fifo (fun _ => 0) [sampleImg, fullImg] sampleRequest sampleSender fullImg := by
  rintro ⟨m', hrun, -, hfile⟩
  obtain ⟨m'', hrun', -, hflat⟩ := requestData_spec (fun _ => 0) fifo_succeeds
    [sampleImg, fullImg] sampleRequest sampleSender fullImg rfl rfl
  rw [hrun] at hrun'
  obtain rfl := Except.ok.inj hrun'
  have hlen := congrArg List.length (hflat.symm.trans hfile)
  rw [List.length_take, fullImg.file_length] at hlen
  revert hlen
  decide

end DeepSpace.Master
