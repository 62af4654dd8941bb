import DeepSpace.Master
import DeepSpace.Slave

/-!
# `master.c`: the loop

`main` behind `open`: `wait_frame`, the `switch`, and `n_frame++`, on any line.

* `requestData_sends`: the frames that the answer to a request hands to `send_frame`;
* `waitFrame_reads`: `wait_frame` sends nothing and counts nothing;
* `round_cases`: what one round can do;
* `main_induct`: what every round keeps holds after every run.
-/

namespace DeepSpace.Master

open DeepSpace.Memory DeepSpace.TransmissionProtocol

/-! ## The program -/

structure NamedImg extends Img where
  name : CString

/-- The part of `opt_t` that `main` reads. -/
structure Opt where
  outputDir : CString
  imgs : List NamedImg

theorem noData_length : (List.replicate 512 (0 : UInt8)).length = TP_FRAME_DATA_LEN_MAX :=
  List.length_replicate

def defaultFrame : Frame where
  header := tpHeader
  address := TP_ADDRESS_MASTER
  frameType := 0
  nFile := 0
  nFrame := 0
  dataLen := 0
  data := List.replicate 512 0
  checkSum := 0
  header_length := tpHeader_length
  data_length := noData_length

/-- The part behind the last slash; slashes at the end do not count. -/
def lastComponent (path : List UInt8) : List UInt8 :=
  let stem := path.reverse.dropWhile (· = 47)
  if path = [] then [46]
  else if stem = [] then [47]
  else (stem.takeWhile (· ≠ 47)).reverse

theorem zero_notMem_lastComponent {path : List UInt8} (h : (0 : UInt8) ∉ path) :
    (0 : UInt8) ∉ lastComponent path := by
  unfold lastComponent
  dsimp only
  split
  · decide
  · split
    · decide
    · rw [List.mem_reverse]
      intro hm
      have hm := (List.dropWhile_suffix _).subset ((List.takeWhile_prefix _).subset hm)
      exact h (List.mem_reverse.mp hm)

def basename (path : CString) : CString :=
  ⟨lastComponent path.bytes, zero_notMem_lastComponent path.noNul⟩

/-- `"%s/%s.bin"` -/
def binPath (outputDir name : CString) : List UInt8 :=
  outputDir.bytes ++ [47] ++ name.bytes ++ [46, 98, 105, 110]

variable {σ : Type} (fd : Fd σ) (opt : Opt) (room : Nat)

/-- The branch of `main` for data.  `malloc (len)` hands out `room` bytes more than it is asked
for. -/
def storeData (stale : Nat → UInt8) (files : FileSystem) (input : Frame) : C FileSystem :=
  match opt.imgs[input.nFile.toNat]? with
  | none => .error .outOfBounds
  | some img => do
    let name := basename img.name
    let len := strlen opt.outputDir + strlen name + 5
    let (filename, n) ← sprintf (malloc (len + room) stale) (binPath opt.outputDir name)
    if n ≠ len then return files
    let data ← load input.data 0 input.dataLen.toNat
    return append files (cString filename) data

def handle (stale : Nat → UInt8) (input : Frame) (files : FileSystem) (m : Sender σ) :
    C (Sender σ × FileSystem) :=
  if input.frameType = TP_FRAME_TYPE_REQUEST_DATA then do
    let m ← requestData fd stale (opt.imgs.map (·.toImg)) input m
    return (m, files)
  else if input.frameType = TP_FRAME_TYPE_TRANSPORT_DATA then do
    let files ← storeData opt room stale files input
    return (m, files)
  else return (m, files)

/-- What `wait_frame` returned, and the frames that `send_frame` accepted in answer. -/
structure Round where
  input : Frame
  sent : List Frame

/-- The variables of `main` with the line and the files, and the rounds so far. -/
structure State (σ : Type) where
  inputFrame : Frame
  outputFrame : Frame
  line : σ
  files : FileSystem
  rounds : List Round

def start (inputFrame : Frame) (line : σ) (files : FileSystem) : State σ :=
  ⟨inputFrame, defaultFrame, line, files, []⟩

variable (memory : σ → (Nat → UInt8) × Heap) (waits : Nat)

/-- One round, with at most `waits` rounds of `wait_frame`; `none` where that goes on. -/
def round (m : State σ) : C (Option (State σ)) :=
  match waitFrame fd memory waits m.line m.inputFrame m.outputFrame with
  | (.error e, _) => .error e
  | (.ok none, _) => .ok none
  | (.ok (some (inputFrame, outputFrame)), line) => do
    let (s, files) ← handle fd opt room (memory line).1 inputFrame m.files ⟨outputFrame, line, []⟩
    return some
      { inputFrame, files
        outputFrame := { s.output with nFrame := s.output.nFrame + 1 }
        line := s.line
        rounds := m.rounds ++ [⟨inputFrame, s.sent⟩] }

/-- That many rounds. -/
def main : Nat → State σ → C (Option (State σ))
  | 0, m => .ok (some m)
  | n + 1, m => do
    match ← round fd opt room memory waits m with
    | none => return none
    | some m => main n m

/-! ## Frames handed to `send_frame` -/

theorem SameSender.refl (f : Frame) : SameSender f f := ⟨rfl, rfl, rfl⟩

theorem SameSender.trans {f g h : Frame} (hfg : SameSender f g) (hgh : SameSender g h) :
    SameSender f h :=
  ⟨hgh.1.trans hfg.1, hgh.2.1.trans hfg.2.1, hgh.2.2.trans hfg.2.2⟩

section

variable (stale : Nat → UInt8)

/-- One call after the other. -/
def sendAll (fs : List Frame) (s : σ) : σ := fs.foldl (fun s f => (sendFrame fd stale s f).2) s

/-- From `m` to `m'` the frames `passed` are handed to `send_frame`. -/
structure Sends (m m' : Sender σ) (passed : List Frame) : Prop where
  line : m'.line = sendAll fd stale passed m.line
  sent : ∃ sent, m'.sent = m.sent ++ sent ∧ sent.Sublist passed ∧ (Succeeds fd → sent = passed)
  sendable : ∀ f ∈ passed, SameSender m.output f ∧ Known f.frameType ∧ f.Fits
  output : SameSender m.output m'.output

variable {fd stale} in
theorem Sends.trans {m m' m'' : Sender σ} {fs gs : List Frame} (h : Sends fd stale m m' fs)
    (h' : Sends fd stale m' m'' gs) : Sends fd stale m m'' (fs ++ gs) := by
  obtain ⟨s, hs, hsub, hall⟩ := h.sent
  obtain ⟨s', hs', hsub', hall'⟩ := h'.sent
  refine ⟨?_, ⟨s ++ s', ?_, hsub.append hsub', fun hfd => ?_⟩, fun f hf => ?_,
    h.output.trans h'.output⟩
  · rw [h'.line, h.line, sendAll, sendAll, sendAll, List.foldl_append]
  · rw [hs', hs, List.append_assoc]
  · rw [hall hfd, hall' hfd]
  · rcases List.mem_append.mp hf with hf | hf
    · exact h.sendable f hf
    · obtain ⟨ho, hf⟩ := h'.sendable f hf
      exact ⟨h.output.trans ho, hf⟩

theorem sends_nil (m : Sender σ) {o : Frame} (ho : SameSender m.output o) :
    Sends fd stale m { m with output := o } [] :=
  ⟨rfl, ⟨[], (List.append_nil _).symm, List.Sublist.refl _, fun _ => rfl⟩,
    fun f hf => (by cases hf), ho⟩

theorem send_sends (m : Sender σ) (hty : Known m.output.frameType) (hf : m.output.Fits) :
    ∃ n m', m.send fd stale = .ok (n, m') ∧ Sends fd stale m m' [m.output] ∧
      m'.output = m.output ∧ (Succeeds fd → n ≠ -1) := by
  obtain ⟨r, line, hw⟩ : ∃ r line,
    fd.write m.line (m.output.wire (malloc m.output.size stale)) = (r, line) := ⟨_, _, rfl⟩
  have hn : Succeeds fd → ssize r ≠ -1 := by
    intro hfd
    have hr := hfd m.line (m.output.wire (malloc m.output.size stale))
    rw [hw] at hr
    obtain ⟨n, rfl⟩ := Option.ne_none_iff_exists'.mp hr
    change (n : Int) ≠ -1
    omega
  refine ⟨_, _, send_eq fd stale m hty hf hw, ⟨?_, ?_, ?_, SameSender.refl _⟩, rfl, hn⟩
  · rw [sendAll, List.foldl_cons, List.foldl_nil, sendFrame_eq fd stale m.line m.output hty hf, hw]
  · by_cases he : ssize r = -1
    · exact ⟨[], (if_pos he).trans (List.append_nil _).symm, List.nil_sublist _,
        fun hfd => absurd he (hn hfd)⟩
    · exact ⟨[m.output], if_neg he, List.Sublist.refl _, fun _ => rfl⟩
  · intro f hf'
    rw [List.mem_singleton.mp hf']
    exact ⟨SameSender.refl _, hty, hf⟩

/-- The frame that an iteration fills: the last one announces `size % 512` bytes. -/
theorem exists_announced (img : Img) {left i : Nat} {f : Frame}
    (hi : i + (left + 1) = totolFrames img) (hty : f.frameType = TP_FRAME_TYPE_TRANSPORT_DATA)
    (hlen : f.dataLen = UInt16.ofNat TP_FRAME_DATA_LEN_MAX) :
    ∃ out : Frame, (if i = totolFrames img - 1 then
        { f with dataLen := UInt16.ofNat (img.size % TP_FRAME_DATA_LEN_MAX) } else f) = out ∧
      SameSender f out ∧ out.frameType = TP_FRAME_TYPE_TRANSPORT_DATA ∧
      out.dataLen.toNat ≤ TP_FRAME_DATA_LEN_MAX ∧
      TP_FRAME_DATA_LEN_MAX * i + out.dataLen.toNat ≤ img.size ∧ (left ≠ 0 → out = f) := by
  by_cases hl : left = 0
  · rw [if_pos (by omega)]
    refine ⟨_, rfl, ⟨rfl, rfl, rfl⟩, hty, ?_, ?_, fun h => absurd hl h⟩
    · rw [lastLen_toNat]
      exact (Nat.mod_lt _ (by decide)).le
    · rw [lastLen_toNat]
      exact last_le img (by omega)
  · have hd : f.dataLen.toNat = TP_FRAME_DATA_LEN_MAX := by rw [hlen, dataLenMax_toNat]
    rw [if_neg (by omega)]
    refine ⟨_, rfl, SameSender.refl _, hty, hd.le, ?_, fun _ => rfl⟩
    rw [hd]
    exact full_le img (by omega)

/-- **The loop** on any line: it ends with the first frame that is refused. -/
theorem sendImg_sends (img : Img) (left i : Nat) (m : Sender σ) (hi : i + left = totolFrames img)
    (hty : m.output.frameType = TP_FRAME_TYPE_TRANSPORT_DATA)
    (hlen : m.output.dataLen = UInt16.ofNat TP_FRAME_DATA_LEN_MAX) :
    ∃ data m', sendImg fd stale img (totolFrames img) left i (TP_FRAME_DATA_LEN_MAX * i) m =
        .ok m' ∧ Sends fd stale m m' data ∧
      (∀ f ∈ data, f.frameType = TP_FRAME_TYPE_TRANSPORT_DATA) ∧ data.length ≤ left ∧
      (Succeeds fd → data.length = left) := by
  induction left generalizing i m with
  | zero =>
    exact ⟨[], m, rfl, sends_nil fd stale m (SameSender.refl _), fun f hf => (by cases hf), le_rfl,
      fun _ => rfl⟩
  | succ left ih =>
    obtain ⟨out, hout, hsame, hot, hb, hfile, hfull⟩ := exists_announced img hi hty hlen
    obtain ⟨g, hgt, hgd, hgs, -, hstep⟩ := sendImg_step fd stale img (totolFrames img) left i
      (TP_FRAME_DATA_LEN_MAX * i) m out hout hb hfile
    obtain ⟨n, m₁, hsend, hs₁, ho₁, hn⟩ := send_sends fd stale { m with output := g }
      (.inr (.inr (hgt.trans hot))) (fun _ => by rw [hgd]; exact hb)
    have hs := (sends_nil fd stale m (hsame.trans hgs)).trans hs₁
    have hg : ∀ f ∈ [g], f.frameType = TP_FRAME_TYPE_TRANSPORT_DATA :=
      fun f hf => List.mem_singleton.mp hf ▸ hgt.trans hot
    rw [hstep]
    simp only [hsend, bind, Except.bind]
    by_cases he : n = -1
    · rw [if_pos he]
      exact ⟨[g], m₁, rfl, hs, hg, Nat.le_add_left _ _, fun hfd => absurd he (hn hfd)⟩
    · rw [if_neg he]
      by_cases hl : left = 0
      · subst hl
        exact ⟨[g], m₁, rfl, hs, hg, le_rfl, fun _ => rfl⟩
      · rw [hfull hl] at hgd ⊢
        rw [hlen, dataLenMax_toNat, ← Nat.mul_succ]
        obtain ⟨data, m', hrun, hs', hall, hle, heq⟩ := ih (i + 1) m₁ (by omega)
          (by rw [ho₁]; exact hgt.trans hot) (by rw [ho₁]; exact hgd.trans hlen)
        refine ⟨g :: data, m', hrun, hs.trans hs', ?_, Nat.succ_le_succ hle,
          fun hfd => congrArg (· + 1) (heq hfd)⟩
        exact List.forall_mem_cons.mpr ⟨hgt.trans hot, hall⟩

/-- **The answer**: the data frames as far as they are accepted, then the request. -/
theorem requestData_sends (imgs : List Img) (input : Frame) (m : Sender σ) (img : Img)
    (himg : imgs[input.nFile.toNat]? = some img) :
    ∃ data last m', requestData fd stale imgs input m = .ok m' ∧
      Sends fd stale m m' (data ++ [last]) ∧
      (∀ f ∈ data, f.frameType = TP_FRAME_TYPE_TRANSPORT_DATA) ∧
      last.frameType = TP_FRAME_TYPE_REQUEST_DATA ∧ data.length ≤ totolFrames img ∧
      (Succeeds fd → data.length = totolFrames img) := by
  have hne : TP_FRAME_TYPE_REQUEST_DATA ≠ TP_FRAME_TYPE_TRANSPORT_DATA := by decide
  obtain ⟨data, m₁, hrun, hs, hall, hle, heq⟩ := sendImg_sends fd stale img (totolFrames img) 0
    { m with output := { m.output with
        frameType := TP_FRAME_TYPE_TRANSPORT_DATA, nFile := input.nFile
        dataLen := UInt16.ofNat TP_FRAME_DATA_LEN_MAX } } (Nat.zero_add _) rfl rfl
  obtain ⟨n, m', hsend, hs', -, -⟩ := send_sends fd stale { m₁ with
    output := { m₁.output with frameType := TP_FRAME_TYPE_REQUEST_DATA } } (.inr (.inl rfl))
    (fun h => absurd h hne)
  have h₁ := (sends_nil fd stale m (by exact ⟨rfl, rfl, rfl⟩)).trans hs
  have h₂ := (sends_nil fd stale m₁ (by exact ⟨rfl, rfl, rfl⟩)).trans hs'
  refine ⟨data, _, m', ?_, h₁.trans h₂, hall, rfl, hle, heq⟩
  rw [Nat.mul_zero] at hrun
  simp only [requestData, himg, hrun, hsend, bind, Except.bind, pure, Except.pure]

end

/-! ## Waiting -/

/-- From `s` to `t` the line is only read. -/
abbrev Reads : σ → σ → Prop := Relation.ReflTransGen fun s t => ∃ n, t = (fd.read s n).2

variable {fd} in
theorem receiveFrame_reads {stale : Nat → UInt8} {heap : Heap} {s t : σ} {p : Frame}
    {r : C (Int × Frame)} (h : receiveFrame fd stale heap s p = (r, t)) : Reads fd s t := by
  obtain ⟨temp, s₁, hr⟩ : ∃ temp s₁, fd.read s TP_FRAME_SIZE_CMD_TYPE = (temp, s₁) := ⟨_, _, rfl⟩
  have hs₁ : Reads fd s s₁ := .single ⟨TP_FRAME_SIZE_CMD_TYPE, by rw [hr]⟩
  simp only [receiveFrame, hr] at h
  split at h
  · cases h
    exact hs₁
  · split at h
    · cases h
      exact hs₁
    · obtain ⟨-, rfl⟩ := Prod.mk.inj h
      exact hs₁.tail ⟨_, rfl⟩

variable {fd memory} in
theorem waitLoop_reads {n : Nat} {s t : σ} {p o : Frame} {r : C (Option (Frame × Frame))}
    (h : waitLoop fd memory n s p o = (r, t)) :
    Reads fd s t ∧ ∀ q o', r = .ok (some (q, o')) → o' = o := by
  induction n generalizing s p with
  | zero =>
    cases h
    exact ⟨.refl, fun q o' hq => (by cases hq)⟩
  | succ n ih =>
    obtain ⟨r₁, s₁, hr⟩ : ∃ r₁ s₁, receiveFrame fd (memory s).1 (memory s).2 s p = (r₁, s₁) :=
      ⟨_, _, rfl⟩
    have hs₁ := receiveFrame_reads hr
    rw [waitLoop, hr] at h
    obtain e | ⟨n, p₁⟩ := r₁
    · cases h
      exact ⟨hs₁, fun q o' hq => (by cases hq)⟩
    · obtain rfl | hn := receiveFrame_result hr
      · obtain ⟨hs, ho⟩ := ih h
        exact ⟨hs₁.trans hs, ho⟩
      · dsimp only at h
        rw [if_neg (by omega), if_neg (by omega), if_neg (by omega)] at h
        cases h
        exact ⟨hs₁, fun q o' hq => by cases hq; rfl⟩

variable {fd memory waits} in
/-- **`wait_frame`** only reads, whether it returns or not, and the count stays: its case 0 is
never reached. -/
theorem waitFrame_reads {s t : σ} {p o : Frame} {r : C (Option (Frame × Frame))}
    (h : waitFrame fd memory waits s p o = (r, t)) :
    Reads fd s t ∧ ∀ q o', r = .ok (some (q, o')) → SameSender o o' := by
  obtain ⟨hs, ho⟩ := waitLoop_reads h
  refine ⟨hs, fun q o' hq => ?_⟩
  rw [ho q o' hq]
  exact ⟨rfl, rfl, rfl⟩

/-! ## Rounds -/

/-- What a round hands to `send_frame` in answer to `input`. -/
inductive Answer (input : Frame) : List Frame → Prop where
  | silent : input.frameType ≠ TP_FRAME_TYPE_REQUEST_DATA → Answer input []
  | image (img : NamedImg) (data : List Frame) (last : Frame) :
      input.frameType = TP_FRAME_TYPE_REQUEST_DATA → opt.imgs[input.nFile.toNat]? = some img →
      (∀ f ∈ data, f.frameType = TP_FRAME_TYPE_TRANSPORT_DATA) →
      last.frameType = TP_FRAME_TYPE_REQUEST_DATA → data.length ≤ totolFrames img.toImg →
      (Succeeds fd → data.length = totolFrames img.toImg) → Answer input (data ++ [last])

variable {fd opt room} in
theorem handle_cases {stale : Nat → UInt8} {input : Frame} {files files' : FileSystem}
    {m m' : Sender σ} (h : handle fd opt room stale input files m = .ok (m', files')) :
    ∃ passed, Sends fd stale m m' passed ∧ Answer fd opt input passed := by
  unfold handle at h
  split at h
  · rename_i hty
    cases himg : opt.imgs[input.nFile.toNat]? with
    | none =>
      rw [requestData, List.getElem?_map, himg] at h
      cases h
    | some img =>
      have himg' : (opt.imgs.map (·.toImg))[input.nFile.toNat]? = some img.toImg := by
        rw [List.getElem?_map, himg]
        rfl
      obtain ⟨data, last, m₁, hrun, hs, hall, hlast, hle, heq⟩ :=
        requestData_sends fd stale (opt.imgs.map (·.toImg)) input m img.toImg himg'
      rw [hrun] at h
      cases h
      exact ⟨_, hs, .image img data last hty himg hall hlast hle heq⟩
  · rename_i hty
    have hm : m' = m := by
      split at h
      · obtain ⟨f, -, h⟩ := bind_eq_ok h
        cases h
        rfl
      · cases h
        rfl
    exact ⟨[], by rw [hm]; exact sends_nil fd stale m (SameSender.refl _), .silent hty⟩

variable {fd opt room memory waits} in
/-- **One round**: frames are handed to `send_frame` in answer to a request only, all of them
with the number that the round started with. -/
theorem round_cases {m m' : State σ} (h : round fd opt room memory waits m = .ok (some m')) :
    ∃ line sender o sent passed, Reads fd m.line line ∧ SameSender m.outputFrame o ∧
      Sends fd (memory line).1 ⟨o, line, []⟩ sender passed ∧ sender.sent = sent ∧
      Answer fd opt m'.inputFrame passed ∧
      m'.outputFrame = { sender.output with nFrame := sender.output.nFrame + 1 } ∧
      m'.line = sender.line ∧ m'.rounds = m.rounds ++ [⟨m'.inputFrame, sent⟩] := by
  unfold round at h
  split at h
  · cases h
  · cases h
  · rename_i input o line hw
    obtain ⟨hr, ho⟩ := waitFrame_reads hw
    have ho := ho _ _ rfl
    obtain ⟨⟨s, files⟩, hh, h⟩ := bind_eq_ok h
    obtain ⟨passed, hs, ha⟩ := handle_cases hh
    cases h
    exact ⟨line, s, o, _, passed, hr, ho, hs, rfl, ha, rfl, rfl, rfl⟩

variable {fd opt room memory waits} in
theorem main_induct {P : State σ → Prop}
    (hround : ∀ m m', round fd opt room memory waits m = .ok (some m') → P m → P m') {n : Nat}
    {m m' : State σ} (h : main fd opt room memory waits n m = .ok (some m')) (hm : P m) :
    P m' := by
  induction n generalizing m with
  | zero =>
    cases h
    exact hm
  | succ n ih =>
    rw [main] at h
    obtain ⟨r, hr, h⟩ := bind_eq_ok h
    cases r with
    | none => cases h
    | some m₁ => exact ih h (hround m m₁ hr hm)

/-! ## A request -/

section

variable {fd} {memory} {s t u : σ} {f : Frame} {b : List UInt8}
  (hh : f.header = tpHeader) (hty : f.frameType = TP_FRAME_TYPE_REQUEST_DATA)
  (hb : f.bodySize + 2 ≤ b.length) (hheap : (memory s).2.temp.isSome)
  (hr : fd.read s TP_FRAME_SIZE_CMD_TYPE = (some ((f.wire b).take 8), t))
  (hr' : fd.read t (TP_FRAME_SIZE_TRANSPORT_DATA - TP_FRAME_SIZE_CMD_TYPE) =
    (some ((f.wire b).drop 8), u))

include hh hty hb hheap hr hr'

/-- A request that arrives in one piece behind the command type. -/
theorem waitFrame_request (p o : Frame) :
    ∃ g, SameFrame f g ∧
      waitFrame fd memory (waits + 1) s p o = (.ok (some (g, answer o 0)), u) := by
  have hne : f.frameType ≠ TP_FRAME_TYPE_TRANSPORT_DATA := by rw [hty]; decide
  have hl : (f.wire b).length = 16 := by
    rw [wire_length f b (fun h => absurd h hne) (by omega), bodySize_of_ne hne]
  have hk : Known (typeField ((f.wire b).take 8)) := by
    have ht := typeField_wire f b []
    rw [List.append_nil] at ht
    rw [typeField_take, ht, hty]
    exact .inr (.inl rfl)
  have h8 : ((f.wire b).drop 8).length = 8 := by rw [List.length_drop, hl]
  obtain ⟨g, hg, hs⟩ := decode_wire_short f b
    ((malloc TP_FRAME_SIZE_TRANSPORT_DATA (memory s).1).drop
      (((f.wire b).take 8).length + ((f.wire b).drop 8).length)) (memory s).2 hh (.inr hty) hheap
  have hcall := receiveFrame_of_known (memory s).1 (memory s).2 p hr
    (by rw [List.length_take, hl]; rfl) hk hr' (by rw [h8]; decide)
  rw [received, List.take_append_drop, handOver, hg] at hcall
  refine ⟨g, hs, ?_⟩
  simp only [waitFrame, waitLoop, hcall, bind, Except.bind, pure, Except.pure]
  rw [if_neg (by omega), if_neg (by omega), if_neg (by omega), answer_zero]

/-- A round that ends. -/
theorem round_request {img : NamedImg} (himg : opt.imgs[f.nFile.toNat]? = some img) (m : State σ)
    (hm : m.line = s) :
    ∃ m', round fd opt room memory (waits + 1) m = .ok (some m') ∧
      m'.inputFrame.frameType = TP_FRAME_TYPE_REQUEST_DATA ∧ m'.inputFrame.nFile = f.nFile := by
  subst hm
  obtain ⟨g, ⟨-, -, hgt, hn, -⟩, hw⟩ :=
    waitFrame_request waits hh hty hb hheap hr hr' m.inputFrame m.outputFrame
  have hg : g.frameType = TP_FRAME_TYPE_REQUEST_DATA := hgt.trans hty
  have himg' : (opt.imgs.map (·.toImg))[g.nFile.toNat]? = some img.toImg := by
    rw [List.getElem?_map, hn, himg]
    rfl
  obtain ⟨data, last, m', hrun, -⟩ := requestData_sends fd (memory u).1 _ g
    ⟨answer m.outputFrame 0, u, []⟩ img.toImg himg'
  unfold round
  rw [hw]
  simp only [handle, if_pos hg, hrun, bind, Except.bind, pure, Except.pure]
  exact ⟨_, rfl, hg, hn⟩

end

end DeepSpace.Master
