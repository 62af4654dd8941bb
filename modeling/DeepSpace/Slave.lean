import DeepSpace.Recovery

/-!
# `main.c`: the slave

What the slave does with the frames it receives, and the files it writes.

* `decimal_length_le_iff`: how many characters `%d` prints;
* `handleFrame_data`: what becomes of a data frame, by the length of the path;
* `slave_stored`: the files that are written are those whose numbers print in four characters, and
  that is past the end of the block for the path;
* `stores_iff`: so the files end up right in the runs whose frames carry no data and whose
  numbers print in three characters.
-/

namespace DeepSpace.TransmissionProtocol

open DeepSpace.Memory

/-! ## Strings -/

structure CString where
  bytes : List UInt8
  noNul : (0 : UInt8) ∉ bytes

def strlen (s : CString) : Nat := s.bytes.length

def digits (n : Nat) : List UInt8 := (Nat.toDigits 10 n).map fun c => UInt8.ofNat c.toNat

/-- What `%d` prints. -/
def decimal : Int → List UInt8
  | .ofNat n => digits n
  | .negSucc n => 45 :: digits (n + 1)

/-- The `int` that the bits of `x` are. -/
def int32 (x : UInt32) : Int := if x.toNat < 2 ^ 31 then x.toNat else x.toNat - 2 ^ 32

/-- `sprintf`: the block, and the number of characters without the terminating NUL. -/
def sprintf (block text : List UInt8) : C (List UInt8 × Nat) := do
  let block ← memcpy block 0 (text ++ [0])
  return (block, text.length)

/-- The string that starts a block. -/
def cString (block : List UInt8) : List UInt8 := block.takeWhile (· ≠ 0)

/-- `"%s/%d.yuv"` -/
def yuvPath (outputDir : CString) (n : Int) : List UInt8 :=
  outputDir.bytes ++ [47] ++ decimal n ++ [46, 121, 117, 118]

/-! ## Files -/

/-- The contents of each file that exists. -/
abbrev FileSystem := List UInt8 → Option (List UInt8)

def contents (fs : FileSystem) (path : List UInt8) : List UInt8 := (fs path).getD []

/-- `fopen (path, "a")`, `fwrite`, `fclose`. -/
def append (fs : FileSystem) (path data : List UInt8) : FileSystem :=
  fun p => if p = path then some (contents fs path ++ data) else fs p

/-! ## The loop -/

/-- One round of `main` after `wait_frame`; `stale` is the block for the path, of which `malloc`
hands out `room` bytes more than it is asked for. -/
def handleFrame (outputDir : CString) (room : Nat) (stale : Nat → UInt8) (fs : FileSystem)
    (inputFrame outputFrame : Frame) : C (FileSystem × Frame) := do
  let (fs, outputFrame) ←
    if inputFrame.frameType = TP_FRAME_TYPE_CONTROL then pure (fs, outputFrame)
    else if inputFrame.frameType = TP_FRAME_TYPE_REQUEST_DATA then
      pure (fs, { outputFrame with
        frameType := TP_FRAME_TYPE_TRANSPORT_DATA
        nFile := inputFrame.nFile
        dataLen := UInt16.ofNat TP_FRAME_DATA_LEN_MAX })
    else if inputFrame.frameType = TP_FRAME_TYPE_TRANSPORT_DATA then do
      let outputFrame := { outputFrame with frameType := TP_FRAME_TYPE_TRANSPORT_DATA }
      -- four characters for the number, five for the rest
      let len := strlen outputDir + 4 + 5
      let (filename, n) ← sprintf (malloc (len + room) stale)
        (yuvPath outputDir (int32 inputFrame.nFile))
      -- the frame is dropped, and the round ends as any other
      if n ≠ len then pure (fs, outputFrame)
      else
        let data ← load inputFrame.data 0 inputFrame.dataLen.toNat
        pure (append fs (cString filename) data, outputFrame)
    else pure (fs, outputFrame)
  return (fs, { outputFrame with nFrame := outputFrame.nFrame + 1 })

/-- The rounds for these frames, which `wait_frame` returned one after the other. -/
def slave (outputDir : CString) (room : Nat) (memory : Nat → Nat → UInt8) :
    List Frame → FileSystem → Frame → C (FileSystem × Frame)
  | [], fs, outputFrame => .ok (fs, outputFrame)
  | f :: frames, fs, outputFrame => do
    let (fs, outputFrame) ←
      handleFrame outputDir room (memory frames.length) fs f (answer outputFrame 0)
    slave outputDir room memory frames fs outputFrame

/-! ## The path -/

theorem digits_length_le_iff {n k : Nat} (hk : 0 < k) : (digits n).length ≤ k ↔ n < 10 ^ k := by
  rw [digits, List.length_map, Nat.length_toDigits_le_iff (by decide) hk]

theorem decimal_length_le_iff (n : Int) : (decimal n).length ≤ 3 ↔ -99 ≤ n ∧ n ≤ 999 := by
  cases n with
  | ofNat n =>
    rw [decimal, digits_length_le_iff (by decide), Int.ofNat_eq_natCast]
    omega
  | negSucc n =>
    have h2 := digits_length_le_iff (n := n + 1) (k := 2) (by decide)
    rw [decimal, List.length_cons]
    omega

/-- The number of a file prints in at most three characters. -/
def Short (x : UInt32) : Prop := x.toNat ≤ 999 ∨ 2 ^ 32 - 99 ≤ x.toNat

theorem decimal_int32_length_le_iff (x : UInt32) :
    (decimal (int32 x)).length ≤ 3 ↔ Short x := by
  have hlt := x.toNat_lt
  rw [decimal_length_le_iff]
  unfold int32 Short
  split <;> omega

theorem yuvPath_length (outputDir : CString) (n : Int) :
    (yuvPath outputDir n).length = strlen outputDir + 5 + (decimal n).length := by
  simp only [yuvPath, List.length_append, List.length_cons, List.length_nil, strlen]
  omega

theorem zero_notMem_decimal (n : Int) : (0 : UInt8) ∉ decimal n := by
  have hd : ∀ k : Nat, (0 : UInt8) ∉ digits k := by
    intro k h
    obtain ⟨c, hc, h0⟩ := List.mem_map.mp h
    have hdigit := Nat.isDigit_of_mem_toDigits (by decide) (by decide) hc
    simp only [Char.isDigit, Bool.and_eq_true, decide_eq_true_eq] at hdigit
    have hlo : 48 ≤ c.toNat := UInt32.le_iff_toNat_le.mp hdigit.1
    have hhi : c.toNat ≤ 57 := UInt32.le_iff_toNat_le.mp hdigit.2
    have hnat := congrArg UInt8.toNat h0
    rw [UInt8.toNat_ofNat', Nat.mod_eq_of_lt (by omega)] at hnat
    simp at hnat
    omega
  cases n with
  | ofNat n => exact hd n
  | negSucc n =>
    intro h
    obtain h | h := List.mem_cons.mp h
    · cases h
    · exact hd (n + 1) h

theorem zero_notMem_yuvPath (outputDir : CString) (n : Int) :
    (0 : UInt8) ∉ yuvPath outputDir n := by
  intro h
  simp only [yuvPath, List.mem_append] at h
  obtain ((h | h) | h) | h := h
  · exact outputDir.noNul h
  · exact absurd h (by decide)
  · exact zero_notMem_decimal n h
  · exact absurd h (by decide)

theorem cString_append {text rest : List UInt8} (h : (0 : UInt8) ∉ text) :
    cString (text ++ 0 :: rest) = text := by
  have hall : ∀ b ∈ text, decide (b ≠ 0) = true := fun b hb =>
    decide_eq_true fun (h0 : b = 0) => h (h0 ▸ hb)
  rw [cString, List.takeWhile_append_of_pos hall, List.takeWhile_cons_of_neg (by decide),
    List.append_nil]

/-! ## One frame -/

def payload (f : Frame) : List UInt8 := f.data.take f.dataLen.toNat

/-- The length of the number in the path of a frame. -/
def Frame.numberLength (f : Frame) : Nat := (decimal (int32 f.nFile)).length

section

variable (outputDir : CString) {room : Nat} (stale : Nat → UInt8) (fs : FileSystem)
  {inputFrame : Frame} (outputFrame : Frame)

/-- The path and its NUL fit in the block that `malloc` handed out. -/
theorem sprintf_ok (h : inputFrame.numberLength < 4 + room) :
    ∃ filename, sprintf (malloc (strlen outputDir + 4 + 5 + room) stale)
        (yuvPath outputDir (int32 inputFrame.nFile)) =
          .ok (filename, strlen outputDir + 5 + inputFrame.numberLength) ∧
      cString filename = yuvPath outputDir (int32 inputFrame.nFile) := by
  have hl := yuvPath_length outputDir (int32 inputFrame.nFile)
  change _ = strlen outputDir + 5 + inputFrame.numberLength at hl
  have hm := memcpy_append [] (malloc (strlen outputDir + 4 + 5 + room) stale)
    (yuvPath outputDir (int32 inputFrame.nFile) ++ [0]) 0 rfl (by
      rw [malloc_length, List.length_append, List.length_singleton]
      omega)
  rw [List.nil_append, List.nil_append, List.append_assoc] at hm
  rw [sprintf, hm, ← hl]
  exact ⟨_, rfl, cString_append (zero_notMem_yuvPath outputDir (int32 inputFrame.nFile))⟩

theorem sprintf_overrun (h : 4 + room ≤ inputFrame.numberLength) :
    sprintf (malloc (strlen outputDir + 4 + 5 + room) stale)
      (yuvPath outputDir (int32 inputFrame.nFile)) = .error .outOfBounds := by
  have hl := yuvPath_length outputDir (int32 inputFrame.nFile)
  change _ = strlen outputDir + 5 + inputFrame.numberLength at hl
  have hfit : ¬ 0 + (yuvPath outputDir (int32 inputFrame.nFile) ++ [0]).length ≤
      (malloc (strlen outputDir + 4 + 5 + room) stale).length := by
    rw [malloc_length, List.length_append, List.length_singleton]
    omega
  rw [sprintf, memcpy, if_neg hfit]
  rfl

variable (hty : inputFrame.frameType = TP_FRAME_TYPE_TRANSPORT_DATA)

include hty

/-- The branch for data. -/
theorem handleFrame_data :
    handleFrame outputDir room stale fs inputFrame outputFrame = (do
      let (filename, n) ← sprintf (malloc (strlen outputDir + 4 + 5 + room) stale)
        (yuvPath outputDir (int32 inputFrame.nFile))
      let fs ← if n ≠ strlen outputDir + 4 + 5 then pure fs
        else append fs (cString filename) <$> load inputFrame.data 0 inputFrame.dataLen.toNat
      return (fs, { outputFrame with
        frameType := TP_FRAME_TYPE_TRANSPORT_DATA, nFrame := outputFrame.nFrame + 1 })) := by
  unfold handleFrame
  rw [if_neg (by rw [hty]; decide), if_neg (by rw [hty]; decide), if_pos hty]
  dsimp only
  cases sprintf (malloc (strlen outputDir + 4 + 5 + room) stale)
    (yuvPath outputDir (int32 inputFrame.nFile)) with
  | error e => rfl
  | ok r =>
    obtain ⟨filename, n⟩ := r
    by_cases hn : n = strlen outputDir + 4 + 5
    · simp only [bind, Except.bind, hn, ne_eq, not_true_eq_false, ↓reduceIte]
      cases load inputFrame.data 0 inputFrame.dataLen.toNat <;> rfl
    · simp only [bind, Except.bind, ne_eq, hn, not_false_eq_true, ↓reduceIte]
      rfl

/-- **Dropped**, unless the length printed is the one predicted, for exactly four characters. -/
theorem handleFrame_of_ne (h : inputFrame.numberLength < 4 + room)
    (hne : inputFrame.numberLength ≠ 4) :
    ∃ out, handleFrame outputDir room stale fs inputFrame outputFrame = .ok (fs, out) := by
  obtain ⟨filename, hs, -⟩ := sprintf_ok outputDir stale h
  rw [handleFrame_data outputDir stale fs outputFrame hty, hs]
  simp only [bind, Except.bind]
  rw [if_pos (by omega)]
  exact ⟨_, rfl⟩

/-- With four characters there is no room for the NUL; where `malloc` has handed out some, the
data is appended. -/
theorem handleFrame_of_four (hroom : 0 < room) (h : inputFrame.numberLength = 4)
    (hf : inputFrame.Fits) :
    ∃ out, handleFrame outputDir room stale fs inputFrame outputFrame =
      .ok (append fs (yuvPath outputDir (int32 inputFrame.nFile)) (payload inputFrame), out) := by
  obtain ⟨filename, hs, hpath⟩ := @sprintf_ok outputDir room stale inputFrame
    (show inputFrame.numberLength < 4 + room by omega)
  have hload : load inputFrame.data 0 inputFrame.dataLen.toNat = .ok (payload inputFrame) :=
    load_of_le _ _ _ (by rw [inputFrame.data_length, Nat.zero_add]; exact hf hty)
  rw [handleFrame_data outputDir stale fs outputFrame hty, hs]
  simp only [bind, Except.bind]
  rw [if_neg (by omega), hload, hpath]
  exact ⟨_, rfl⟩

/-- A length that the array does not hold. -/
theorem handleFrame_of_overrun (h : inputFrame.numberLength = 4) (hf : ¬ inputFrame.Fits) :
    handleFrame outputDir room stale fs inputFrame outputFrame = .error .outOfBounds := by
  have hload : load inputFrame.data 0 inputFrame.dataLen.toNat = .error .outOfBounds := by
    refine load_of_lt _ _ _ ?_
    rw [inputFrame.data_length, Nat.zero_add]
    exact not_le.mp fun hle => hf fun _ => hle
  rw [handleFrame_data outputDir stale fs outputFrame hty]
  by_cases hroom : 0 < room
  · obtain ⟨filename, hs, -⟩ := @sprintf_ok outputDir room stale inputFrame
      (show inputFrame.numberLength < 4 + room by omega)
    rw [hs]
    simp only [bind, Except.bind]
    rw [if_neg (by omega), hload]
    rfl
  · rw [sprintf_overrun outputDir stale (by omega)]
    rfl

/-- A longer number. -/
theorem handleFrame_of_long (h : 4 + room ≤ inputFrame.numberLength) :
    handleFrame outputDir room stale fs inputFrame outputFrame = .error .outOfBounds := by
  rw [handleFrame_data outputDir stale fs outputFrame hty, sprintf_overrun outputDir stale h]
  rfl

end

/-! ## What may be written -/

/-- Files are only changed by data frames whose numbers print in four characters, which are
appended when `malloc` has handed out more than it was asked for. -/
structure Appended (outputDir : CString) (room : Nat) (f : Frame) (fs fs' : FileSystem) : Prop where
  room : 0 < room
  frameType : f.frameType = TP_FRAME_TYPE_TRANSPORT_DATA
  four : f.numberLength = 4
  files : fs' = append fs (yuvPath outputDir (int32 f.nFile)) (payload f)

/-- After any number of frames. -/
abbrev Stored (outputDir : CString) (room : Nat) : FileSystem → FileSystem → Prop :=
  Relation.ReflTransGen fun fs fs' => ∃ f, Appended outputDir room f fs fs'

/-- Within the block, nothing is written. -/
theorem Stored.eq {outputDir : CString} {fs fs' : FileSystem} (h : Stored outputDir 0 fs fs') :
    fs' = fs := by
  induction h with
  | refl => rfl
  | tail _ hstep ih =>
    obtain ⟨f, hf⟩ := hstep
    exact absurd hf.room (lt_irrefl 0)

/-- **Old contents** stay, and other files are left alone. -/
theorem Stored.contents {outputDir : CString} {room : Nat} {fs fs' : FileSystem}
    (h : Stored outputDir room fs fs') (path : List UInt8) :
    contents fs path <+: contents fs' path ∧
      ((∀ n, (decimal n).length = 4 → path ≠ yuvPath outputDir n) → fs' path = fs path) := by
  induction h with
  | refl => exact ⟨List.prefix_rfl, fun _ => rfl⟩
  | tail _ hstep ih =>
    obtain ⟨f, hf⟩ := hstep
    rw [hf.files]
    by_cases hp : path = yuvPath outputDir (int32 f.nFile)
    · refine ⟨ih.1.trans ?_, fun hother => absurd hp (hother _ hf.four)⟩
      have hnew : ∀ fs : FileSystem,
          append fs (yuvPath outputDir (int32 f.nFile)) (payload f) path =
            some (TransmissionProtocol.contents fs path ++ payload f) := fun fs => by
        rw [hp]
        exact if_pos rfl
      conv_rhs => rw [TransmissionProtocol.contents, hnew]
      exact List.prefix_append _ _
    · have hsame : ∀ fs : FileSystem,
          append fs (yuvPath outputDir (int32 f.nFile)) (payload f) path = fs path :=
        fun fs => if_neg hp
      refine ⟨?_, fun hother => (hsame _).trans (ih.2 hother)⟩
      rw [TransmissionProtocol.contents, TransmissionProtocol.contents, hsame]
      exact ih.1

/-- **One frame** of any type. -/
theorem handleFrame_files {outputDir : CString} {room : Nat} {stale : Nat → UInt8}
    {fs fs' : FileSystem} {inputFrame outputFrame out : Frame}
    (h : handleFrame outputDir room stale fs inputFrame outputFrame = .ok (fs', out)) :
    fs' = fs ∨ Appended outputDir room inputFrame fs fs' := by
  by_cases hty : inputFrame.frameType = TP_FRAME_TYPE_TRANSPORT_DATA
  · by_cases hlong : 4 + room ≤ inputFrame.numberLength
    · rw [handleFrame_of_long outputDir stale fs outputFrame hty hlong] at h
      cases h
    · by_cases h4 : inputFrame.numberLength = 4
      · by_cases hf : inputFrame.Fits
        · obtain ⟨out', ho⟩ := @handleFrame_of_four outputDir room stale fs inputFrame
            outputFrame hty (by omega) h4 hf
          rw [ho] at h
          cases h
          exact .inr ⟨by omega, hty, h4, rfl⟩
        · rw [handleFrame_of_overrun outputDir stale fs outputFrame hty h4 hf] at h
          cases h
      · obtain ⟨out', ho⟩ := handleFrame_of_ne outputDir stale fs outputFrame hty
          (not_le.mp hlong) h4
        rw [ho] at h
        cases h
        exact .inl rfl
  · unfold handleFrame at h
    by_cases hc : inputFrame.frameType = TP_FRAME_TYPE_CONTROL
    · rw [if_pos hc] at h
      cases h
      exact .inl rfl
    · rw [if_neg hc, if_neg hty] at h
      split at h <;>
      · cases h
        exact .inl rfl

/-! ## Runs -/

theorem slave_of_short (outputDir : CString) (room : Nat) (memory : Nat → Nat → UInt8)
    {frames : List Frame} (hty : ∀ f ∈ frames, f.frameType = TP_FRAME_TYPE_TRANSPORT_DATA)
    (h : ∀ f ∈ frames, Short f.nFile) (fs : FileSystem) (outputFrame : Frame) :
    ∃ out, slave outputDir room memory frames fs outputFrame = .ok (fs, out) := by
  induction frames generalizing outputFrame with
  | nil => exact ⟨outputFrame, rfl⟩
  | cons f frames ih =>
    obtain ⟨hf, hty⟩ := List.forall_mem_cons.mp hty
    obtain ⟨hs, h⟩ := List.forall_mem_cons.mp h
    have hlen : f.numberLength ≤ 3 := (decimal_int32_length_le_iff f.nFile).mpr hs
    obtain ⟨out, ho⟩ := @handleFrame_of_ne outputDir room (memory frames.length) fs f
      (answer outputFrame 0) hf (by omega) (by omega)
    obtain ⟨out', ho'⟩ := ih hty h out
    refine ⟨out', ?_⟩
    simp only [slave, ho, bind, Except.bind, ho']

/-- Without room for a NUL the run ends at the first frame whose number is not short. -/
theorem short_of_slave {outputDir : CString} {memory : Nat → Nat → UInt8} {frames : List Frame}
    (hty : ∀ f ∈ frames, f.frameType = TP_FRAME_TYPE_TRANSPORT_DATA) {fs : FileSystem}
    {outputFrame : Frame} {r : FileSystem × Frame}
    (h : slave outputDir 0 memory frames fs outputFrame = .ok r) : ∀ f ∈ frames, Short f.nFile := by
  induction frames generalizing fs outputFrame with
  | nil => exact fun f hf => by cases hf
  | cons f frames ih =>
    obtain ⟨hf, hty⟩ := List.forall_mem_cons.mp hty
    obtain ⟨⟨fs', out⟩, ho, h⟩ := bind_eq_ok h
    refine List.forall_mem_cons.mpr ⟨?_, ih hty h⟩
    by_contra hs
    have hlen : ¬ f.numberLength ≤ 3 := mt (decimal_int32_length_le_iff f.nFile).mp hs
    rw [handleFrame_of_long outputDir (memory frames.length) fs (answer outputFrame 0) hf
      (by omega)] at ho
    cases ho

/-- **A run** of the slave on any frames. -/
theorem slave_stored {outputDir : CString} {room : Nat} {memory : Nat → Nat → UInt8}
    {frames : List Frame} {fs fs' : FileSystem} {outputFrame out : Frame}
    (h : slave outputDir room memory frames fs outputFrame = .ok (fs', out)) :
    Stored outputDir room fs fs' := by
  induction frames generalizing fs outputFrame with
  | nil =>
    cases h
    exact .refl
  | cons f frames ih =>
    obtain ⟨⟨fs₁, out₁⟩, ho, hrest⟩ := bind_eq_ok h
    obtain rfl | happ := handleFrame_files ho
    · exact ih hrest
    · exact (ih hrest).head ⟨f, happ⟩

/-! ## Storage -/

/-- The paths fit, and the file of each number gets its payloads in order, however much `malloc`
hands out. -/
def Stores (outputDir : CString) (frames : List Frame) : Prop :=
  ∀ room memory fs outputFrame, ∃ fs' out,
    slave outputDir room memory frames fs outputFrame = .ok (fs', out) ∧
      ∀ k : UInt32, contents fs' (yuvPath outputDir k.toNat) =
        contents fs (yuvPath outputDir k.toNat) ++
          (frames.filter fun f => f.nFile = k).flatMap payload

theorem payload_eq_nil_iff (f : Frame) : payload f = [] ↔ f.dataLen = 0 := by
  have hl := f.data_length
  unfold TP_FRAME_DATA_LEN_MAX at hl
  rw [payload, List.take_eq_nil_iff, ← UInt16.toNat_inj]
  constructor
  · rintro (h | h)
    · exact h
    · rw [h] at hl
      cases hl
  · exact .inl

/-- What a run within its blocks would store. -/
theorem payload_of_stores {outputDir : CString} {frames : List Frame}
    (hty : ∀ f ∈ frames, f.frameType = TP_FRAME_TYPE_TRANSPORT_DATA)
    (h : Stores outputDir frames) : ∀ f ∈ frames, Short f.nFile ∧ payload f = [] := by
  intro f hf
  obtain ⟨fs', out, hrun, hk⟩ := h 0 (fun _ _ => 0) (fun _ => none) f
  have hk := hk f.nFile
  rw [(slave_stored hrun).eq] at hk
  exact ⟨short_of_slave hty hrun f hf,
    List.flatMap_eq_nil_iff.mp (List.self_eq_append_right.mp hk) f
      (List.mem_filter.mpr ⟨hf, decide_eq_true rfl⟩)⟩

/-- **Storage** comes out right exactly for frames without data whose numbers are short. -/
theorem stores_iff (outputDir : CString) (frames : List Frame)
    (hty : ∀ f ∈ frames, f.frameType = TP_FRAME_TYPE_TRANSPORT_DATA) :
    Stores outputDir frames ↔ ∀ f ∈ frames, f.dataLen = 0 ∧
      (f.nFile.toNat ≤ 999 ∨ 2 ^ 32 - 99 ≤ f.nFile.toNat) := by
  constructor
  · intro h f hf
    obtain ⟨hs, hp⟩ := payload_of_stores hty h f hf
    exact ⟨(payload_eq_nil_iff f).mp hp, hs⟩
  · intro h room memory fs outputFrame
    obtain ⟨out, ho⟩ := slave_of_short outputDir room memory hty (fun f hf => (h f hf).2) fs
      outputFrame
    refine ⟨fs, out, ho, fun k => ?_⟩
    have hnil : (frames.filter fun f => f.nFile = k).flatMap payload = [] :=
      List.flatMap_eq_nil_iff.mpr fun f hf =>
        (payload_eq_nil_iff f).mpr (h f (List.mem_filter.mp hf).1).1
    rw [hnil, List.append_nil]

/-- `/tmp` -/
def sampleDir : CString := ⟨[47, 116, 109, 112], by decide⟩

def emptyData : Frame := { sampleData with dataLen := 0 }

/-- A file whose number prints in four characters. -/
def manyDigits : Frame := { sampleData with nFile := 1000 }

theorem stores_iff_sampleData :
    (∀ f ∈ [emptyData, sampleData, manyDigits], f.frameType = TP_FRAME_TYPE_TRANSPORT_DATA) ∧
      (Stores sampleDir [emptyData, sampleData, manyDigits] ↔
        ∀ f ∈ [emptyData, sampleData, manyDigits], f.dataLen = 0 ∧
          (f.nFile.toNat ≤ 999 ∨ 2 ^ 32 - 99 ≤ f.nFile.toNat)) := by
  have hty : ∀ f ∈ [emptyData, sampleData, manyDigits],
      f.frameType = TP_FRAME_TYPE_TRANSPORT_DATA :=
    List.forall_mem_cons.mpr
      ⟨rfl, List.forall_mem_cons.mpr ⟨rfl, List.forall_mem_singleton.mpr rfl⟩⟩
  exact ⟨hty, stores_iff sampleDir [emptyData, sampleData, manyDigits] hty⟩

/-- **Three bytes** for file 1 are dropped; for file 1000 the path overflows its block, with the
NUL only, so that one byte more is enough for the file. -/
theorem sampleData_not_stored :
    sampleData.Fits ∧ ¬ Stores sampleDir [sampleData] ∧ ¬ Stores sampleDir [manyDigits] ∧
      (∀ memory fs out, slave sampleDir 0 memory [manyDigits] fs out = .error .outOfBounds) ∧
      ∀ memory fs out, ∃ out', slave sampleDir 1 memory [manyDigits] fs out =
        .ok (append fs (yuvPath sampleDir 1000) [10, 20, 30], out') := by
  have hsingle : ∀ g : Frame, g.frameType = TP_FRAME_TYPE_TRANSPORT_DATA →
      ∀ f ∈ [g], f.frameType = TP_FRAME_TYPE_TRANSPORT_DATA :=
    fun g hg => List.forall_mem_singleton.mpr hg
  have hfits : manyDigits.Fits := fun _ => by decide
  refine ⟨sampleData_fits, fun h => ?_, fun h => ?_, fun memory fs out => ?_,
    fun memory fs out => ?_⟩
  · exact absurd (payload_of_stores (hsingle _ rfl) h _ List.mem_cons_self).2 (by decide)
  · exact absurd (payload_of_stores (hsingle _ rfl) h _ List.mem_cons_self).2 (by decide)
  · rw [slave, List.length_nil, handleFrame_of_long sampleDir (memory 0) fs (answer out 0) rfl
      (by decide)]
    rfl
  · obtain ⟨out', ho⟩ := handleFrame_of_four sampleDir (memory 0) fs (answer out 0) rfl
      Nat.one_pos (show manyDigits.numberLength = 4 by decide) hfits
    refine ⟨out', ?_⟩
    rw [slave, List.length_nil, ho]
    rfl

end DeepSpace.TransmissionProtocol
