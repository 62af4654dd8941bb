import DeepSpace.MasterLoop

/-!
# Short writes

The line of `main` is opened with `O_NONBLOCK`: a `write` may accept any part of its buffer.

* `onLine_countP`: the bytes of one frame on the line;
* `wholeFrames_of_sent`: what the writes leave on the line, with one write for each frame;
* `wholeFrames_iff`: the frames on the line are whole in the runs where no write before the last
  is short, and only there.
-/

namespace DeepSpace.Master

open DeepSpace.Memory DeepSpace.TransmissionProtocol

/-! ## The line -/

/-- A call of `write`, and how many bytes it accepted; `none` is -1. -/
structure Write where
  buffer : List UInt8
  accepted : Option Nat
  accepted_le : ∀ n ∈ accepted, n ≤ buffer.length

def Write.count (w : Write) : Nat := w.accepted.getD 0

theorem Write.count_le (w : Write) : w.count ≤ w.buffer.length := by
  unfold Write.count
  cases h : w.accepted with
  | none => exact Nat.zero_le _
  | some n => exact w.accepted_le n h

theorem accepted_min_le (way : Option Nat) (buffer : List UInt8) :
    ∀ n ∈ way.map (min · buffer.length), n ≤ buffer.length := by
  intro n hn
  obtain ⟨k, -, rfl⟩ := Option.mem_map.mp hn
  exact min_le_right _ _

/-- A call that accepts as much of the buffer as `way` says, if there is as much. -/
def Write.call (way : Option Nat) (buffer : List UInt8) : Write :=
  ⟨buffer, way.map (min · buffer.length), accepted_min_le way buffer⟩

/-- A non-blocking line with its number of reads and its writes so far.  `arrive` says what each
read finds, and `way` how much of its buffer each write would accept. -/
def tty (arrive : Nat → Option (List UInt8)) (way : Nat → Option Nat) :
    Fd (Nat × List Write) where
  read s n := ((arrive s.1).map (·.take n), (s.1 + 1, s.2))
  write s bs :=
    ((Write.call (way s.2.length) bs).accepted, (s.1, s.2 ++ [.call (way s.2.length) bs]))

/-- The first `n` bytes of the frame of write `i`.  A byte is known by the number of its write
and its place in the buffer. -/
def piece (i n : Nat) : List (Nat × Nat) := (List.range n).map (i, ·)

/-- The bytes on the line. -/
def onLine (log : List Write) : List (Nat × Nat) :=
  log.zipIdx.flatMap fun (w, i) => piece i w.count

/-- Bytes of the frame of write `i`. -/
def sizeOf (log : List Write) (i : Nat) : Nat :=
  match log[i]? with
  | none => 0
  | some w => w.buffer.length

/-- At every moment, `j` bytes of the frame `now` being on the line, complete frames are on it and
then the beginning of the frame that is being sent. -/
structure WholeFrames (log : List Write) : Prop where
  frames : ∀ w ∈ log, Good w.buffer
  whole : ∀ past now rest, log = past ++ now :: rest → ∀ j ≤ now.count,
    ∃ (done : List Nat) (k : Nat), onLine past ++ piece past.length j =
      done.flatMap (fun i => piece i (sizeOf log i)) ++ piece past.length k

/-- All of the buffer or nothing. -/
def Write.Whole (w : Write) : Prop := w.count = 0 ∨ w.count = w.buffer.length

/-! ## Bytes -/

theorem piece_countP (i k n : Nat) :
    (piece i n).countP (·.1 = k) = if i = k then n else 0 := by
  rw [piece, List.countP_map]
  split
  · rename_i h
    exact (List.countP_eq_length.mpr fun j _ => decide_eq_true h).trans List.length_range
  · rename_i h
    exact List.countP_eq_zero.mpr fun j _ => by simpa using h

theorem onLine_append (log : List Write) (w : Write) :
    onLine (log ++ [w]) = onLine log ++ piece log.length w.count := by
  rw [onLine, List.zipIdx_append, List.flatMap_append, Nat.zero_add]
  simp only [List.zipIdx_singleton, List.flatMap_singleton]
  rfl

/-- The bytes of one frame on the line. -/
theorem onLine_countP (log : List Write) (i : Nat) :
    (onLine log).countP (·.1 = i) = (log[i]?.map Write.count).getD 0 := by
  induction log using List.reverseRecOn with
  | nil => rfl
  | append_singleton log w ih =>
    rw [onLine_append, List.countP_append, ih, piece_countP]
    rcases Nat.lt_trichotomy i log.length with h | h | h
    · rw [if_neg (by omega), List.getElem?_append_left h, Nat.add_zero]
    · subst h
      rw [if_pos rfl, List.getElem?_eq_none le_rfl, List.getElem?_concat_length]
      exact Nat.zero_add _
    · rw [if_neg (by omega), List.getElem?_eq_none (by omega),
        List.getElem?_eq_none (by rw [List.length_append, List.length_singleton]; omega)]
      rfl

/-- The bytes of one frame among complete frames. -/
theorem frames_countP (size : Nat → Nat) (done : List Nat) (i : Nat) :
    (done.flatMap fun j => piece j (size j)).countP (·.1 = i) = done.count i * size i := by
  induction done with
  | nil => exact (Nat.zero_mul _).symm
  | cons j done ih =>
    rw [List.flatMap_cons, List.countP_append, ih, piece_countP, List.count_cons, Nat.add_mul]
    by_cases h : j = i
    · subst h
      rw [if_pos rfl, if_pos (beq_self_eq_true j), Nat.one_mul, Nat.add_comm]
    · rw [if_neg h, if_neg (by simpa using h), Nat.zero_mul, Nat.add_comm]

/-- Frames that are on the line whole, or not at all. -/
theorem onLine_of_whole (size : Nat → Nat) (log : List Write)
    (hsize : ∀ i w, log[i]? = some w → size i = w.buffer.length) (h : ∀ w ∈ log, w.Whole) :
    ∃ done : List Nat, onLine log = done.flatMap fun i => piece i (size i) := by
  induction log using List.reverseRecOn with
  | nil => exact ⟨[], rfl⟩
  | append_singleton log w ih =>
    obtain ⟨done, hdone⟩ := ih
      (fun i w' hi => hsize i w' (by
        rw [List.getElem?_append_left (List.getElem?_eq_some_iff.mp hi).1, hi]))
      fun w' hw => h w' (List.mem_append_left _ hw)
    rw [onLine_append, hdone]
    rcases h w (by simp) with hw | hw
    · refine ⟨done, ?_⟩
      rw [hw]
      exact List.append_nil _
    · refine ⟨done ++ [log.length], ?_⟩
      rw [List.flatMap_append, List.flatMap_singleton, hw,
        hsize log.length w List.getElem?_concat_length]

/-! ## Short writes -/

/-- **One write for each frame**: the line is whole exactly where no write before the last one is
short. -/
theorem wholeFrames_of_sent {log : List Write} (hgood : ∀ w ∈ log, Good w.buffer) :
    WholeFrames log ↔ ∀ i w, log[i]? = some w → i + 1 < log.length → w.Whole := by
  constructor
  · intro h i w hi hlt
    have hi' := (List.getElem?_eq_some_iff.mp hi).1
    have hsplit : log = log.take (i + 1) ++ log[i + 1] :: log.drop (i + 2) := by
      rw [List.getElem_cons_drop, List.take_append_drop]
    obtain ⟨done, k, he⟩ := h.whole _ _ _ hsplit 0 (Nat.zero_le _)
    have hlen : (log.take (i + 1)).length = i + 1 := by
      rw [List.length_take]
      omega
    have hc := congrArg (List.countP (·.1 = i)) he
    rw [List.countP_append, List.countP_append, onLine_countP, frames_countP, piece_countP,
      piece_countP, hlen, if_neg (by omega), if_neg (by omega),
      List.getElem?_take_of_lt (Nat.lt_succ_self i), hi, sizeOf, hi] at hc
    have hle := w.count_le
    change w.count + 0 = done.count i * w.buffer.length + 0 at hc
    cases hn : done.count i with
    | zero =>
      rw [hn, Nat.zero_mul] at hc
      exact .inl hc
    | succ n =>
      rw [hn, Nat.succ_mul] at hc
      exact .inr (by omega)
  · intro h
    refine ⟨hgood, fun past now rest hlog j hj => ?_⟩
    have hlen := congrArg List.length hlog
    rw [List.length_append, List.length_cons] at hlen
    have hpast : ∀ i w, past[i]? = some w → log[i]? = some w := fun i w hi => by
      rw [hlog, List.getElem?_append_left (List.getElem?_eq_some_iff.mp hi).1, hi]
    obtain ⟨done, hdone⟩ := onLine_of_whole (sizeOf log) past
      (fun i w hi => by rw [sizeOf, hpast i w hi])
      fun w hw => by
        obtain ⟨i, hi⟩ := List.mem_iff_getElem?.mp hw
        have hi' := (List.getElem?_eq_some_iff.mp hi).1
        exact h i w (hpast i w hi) (by omega)
    exact ⟨done, j, by rw [hdone]⟩

/-! ## Runs -/

section

variable {arrive : Nat → Option (List UInt8)} {way : Nat → Option Nat}

theorem reads_tty {s t : Nat × List Write} (h : Reads (tty arrive way) s t) : t.2 = s.2 := by
  induction h with
  | refl => rfl
  | tail _ hstep ih =>
    obtain ⟨n, rfl⟩ := hstep
    exact ih

/-- A write for each frame. -/
theorem sendAll_tty (stale : Nat → UInt8) (fs : List Frame) (s : Nat × List Write)
    (hfs : ∀ f ∈ fs, f.header = tpHeader ∧ Known f.frameType ∧ f.Fits) :
    ∃ more, (sendAll (tty arrive way) stale fs s).2 = s.2 ++ more ∧ more.length = fs.length ∧
      ∀ w ∈ more, Good w.buffer ∧ ∃ i, w.accepted = (way i).map (min · w.buffer.length) := by
  induction fs generalizing s with
  | nil => exact ⟨[], (List.append_nil _).symm, rfl, fun w hw => (by cases hw)⟩
  | cons f fs ih =>
    obtain ⟨⟨hh, hk, hf⟩, hfs⟩ := List.forall_mem_cons.mp hfs
    obtain ⟨more, hmore, hlen, hall⟩ := ih (sendFrame (tty arrive way) stale s f).2 hfs
    have hs := size_eq f
    have hgood : Good (f.wire (malloc f.size stale)) :=
      ⟨f, hh, hk, hf, wrote_wire f _ hf (by rw [malloc_length, hs])⟩
    rw [sendFrame_eq _ stale s f hk hf] at hmore
    refine ⟨.call (way s.2.length) (f.wire (malloc f.size stale)) :: more, ?_,
      congrArg (· + 1) hlen, ?_⟩
    · rw [sendAll, List.foldl_cons, sendFrame_eq _ stale s f hk hf]
      refine hmore.trans ?_
      rw [List.append_cons]
      rfl
    · exact List.forall_mem_cons.mpr ⟨⟨hgood, _, rfl⟩, hall⟩

variable {opt : Opt} {room : Nat} {memory : Nat × List Write → (Nat → UInt8) × Heap} {waits : Nat}

/-- The writes of a round. -/
theorem round_tty {m m' : State (Nat × List Write)}
    (h : round (tty arrive way) opt room memory waits m = .ok (some m'))
    (hm : m.outputFrame.header = tpHeader) :
    m'.outputFrame.header = tpHeader ∧ ∃ passed more,
      Answer (tty arrive way) opt m'.inputFrame passed ∧ m'.line.2 = m.line.2 ++ more ∧
      more.length = passed.length ∧
      ∀ w ∈ more, Good w.buffer ∧ ∃ i, w.accepted = (way i).map (min · w.buffer.length) := by
  obtain ⟨line, sender, o, sent, passed, hr, ho, hs, -, ha, hout, hline, -⟩ := round_cases h
  have hoh : o.header = tpHeader := ho.1.trans hm
  obtain ⟨more, hmore, hlen, hall⟩ := sendAll_tty (memory line).1 passed line fun f hf => by
    obtain ⟨hsame, hk, hfit⟩ := hs.sendable f hf
    exact ⟨hsame.1.trans hoh, hk, hfit⟩
  refine ⟨?_, passed, more, ha, ?_, hlen, hall⟩
  · rw [hout]
    exact hs.output.1.trans hoh
  · rw [hline, hs.line, hmore, reads_tty hr]

theorem main_tty {n : Nat} {input : Frame} {files : FileSystem} {m : State (Nat × List Write)}
    (h : main (tty arrive way) opt room memory waits n (start input (0, []) files) =
      .ok (some m)) : ∀ w ∈ m.line.2, Good w.buffer := by
  refine (main_induct (P := fun m : State (Nat × List Write) =>
    m.outputFrame.header = tpHeader ∧ ∀ w ∈ m.line.2, Good w.buffer) ?_ h ⟨rfl, ?_⟩).2
  · intro m m' hround hm
    obtain ⟨hh, passed, more, -, hline, -, hall⟩ := round_tty hround hm.1
    refine ⟨hh, fun w hw => ?_⟩
    rw [hline] at hw
    rcases List.mem_append.mp hw with hw | hw
    · exact hm.2 w hw
    · exact (hall w hw).1
  · exact fun w hw => (by cases hw)

/-- **Whole frames** are on the line in the runs where each write but the last has accepted all
of its frame or nothing. -/
theorem wholeFrames_iff {n : Nat} {input : Frame} {files : FileSystem}
    {m : State (Nat × List Write)}
    (h : main (tty arrive way) opt room memory waits n (start input (0, []) files) =
      .ok (some m)) :
    WholeFrames m.line.2 ↔
      ∀ i w, m.line.2[i]? = some w → i + 1 < m.line.2.length → w.Whole :=
  wholeFrames_of_sent (main_tty h)

end

/-! ## One request -/

/-- The reads of a request, in one piece behind the command type. -/
def oneRequest : Nat → Option (List UInt8)
  | 0 => some ((sampleRequest.wire (List.replicate 16 0)).take 8)
  | 1 => some ((sampleRequest.wire (List.replicate 16 0)).drop 8)
  | _ => none

def sampleMemory {σ : Type} : σ → (Nat → UInt8) × Heap :=
  fun _ => (fun _ => 0, ⟨sampleRequest, some fun _ => 0⟩)

/-- One round, which answers the request with the image. -/
theorem main_oneRequest (way : Nat → Option Nat) (opt : Opt) {img : NamedImg}
    (himg : opt.imgs[sampleRequest.nFile.toNat]? = some img) :
    ∃ m, main (tty oneRequest way) opt 0 sampleMemory 1 1
        (start sampleRequest (0, []) fun _ => none) = .ok (some m) ∧
      round (tty oneRequest way) opt 0 sampleMemory 1
        (start sampleRequest (0, []) fun _ => none) = .ok (some m) ∧
      m.inputFrame.frameType = TP_FRAME_TYPE_REQUEST_DATA ∧
      m.inputFrame.nFile = sampleRequest.nFile := by
  have hl : (sampleRequest.wire (List.replicate 16 0)).length = 16 :=
    wire_length sampleRequest _ sampleRequest_fits (by decide)
  have hr : (tty oneRequest way).read (0, []) TP_FRAME_SIZE_CMD_TYPE =
      (some ((sampleRequest.wire (List.replicate 16 0)).take 8), (1, [])) := by
    change (some (((sampleRequest.wire (List.replicate 16 0)).take 8).take 8), _) = _
    rw [List.take_take]
    rfl
  have hr' : (tty oneRequest way).read (1, [])
      (TP_FRAME_SIZE_TRANSPORT_DATA - TP_FRAME_SIZE_CMD_TYPE) =
      (some ((sampleRequest.wire (List.replicate 16 0)).drop 8), (2, [])) := by
    change (some (((sampleRequest.wire (List.replicate 16 0)).drop 8).take 522), _) = _
    rw [List.take_of_length_le (by rw [List.length_drop, hl]; decide)]
  obtain ⟨m, hround, hm⟩ := round_request opt 0 0 rfl rfl (by decide)
    (show (sampleMemory ((0, []) : Nat × List Write)).2.temp.isSome from rfl) hr hr' himg
    (start sampleRequest (0, []) fun _ => none) rfl
  refine ⟨m, ?_, hround, hm⟩
  rw [main, hround]
  rfl

theorem good_length {b : List UInt8} (h : Good b) : 8 < b.length := by
  obtain ⟨f, hf⟩ := h
  exact hf.bounds.1

/-- An image of one byte, behind another. -/
def sampleOpt : Opt :=
  ⟨sampleDir, [⟨fullImg, sampleDir⟩, ⟨sampleImg, sampleDir⟩]⟩

theorem wholeFrames_iff_oneRequest :
    ∃ m, main (tty oneRequest some) sampleOpt 0 sampleMemory 1 1
        (start sampleRequest (0, []) fun _ => none) = .ok (some m) ∧
      (WholeFrames m.line.2 ↔
        ∀ i w, m.line.2[i]? = some w → i + 1 < m.line.2.length → w.Whole) := by
  obtain ⟨m, hrun, -⟩ := main_oneRequest some sampleOpt rfl
  exact ⟨m, hrun, wholeFrames_iff hrun⟩

/-- **One byte** of each frame is accepted: a data frame and a request leave two bytes on the
line. -/
theorem oneByte_not_wholeFrames :
    ∃ m, main (tty oneRequest fun _ => some 1) sampleOpt 0 sampleMemory 1 1
        (start sampleRequest (0, []) fun _ => none) = .ok (some m) ∧
      ¬ WholeFrames m.line.2 := by
  obtain ⟨m, hrun, hround, hty, hn⟩ := main_oneRequest (fun _ => some 1) sampleOpt rfl
  obtain ⟨-, passed, more, ha, hline, hlen, hall⟩ := round_tty hround rfl
  refine ⟨m, hrun, fun h => ?_⟩
  have hmore : m.line.2 = more := hline
  rw [hmore] at h
  obtain hne | ⟨img, data, last, -, himg, -, -, -, heq⟩ := ha
  · exact hne hty
  · rw [hn] at himg
    cases himg
    have hdata := heq fun _ _ h => (by cases h)
    rw [List.length_append, hdata] at hlen
    obtain ⟨w, w', hw⟩ := List.length_eq_two.mp hlen
    obtain ⟨hgood, i, hi⟩ := hall w (by simp [hw])
    have hwhole := (wholeFrames_of_sent fun w hw => (hall w hw).1).mp h 0 w (by rw [hw]; rfl)
      (by rw [hw]; exact Nat.lt_add_one 1)
    have h8 := good_length hgood
    unfold Write.Whole Write.count at hwhole
    rw [hi] at hwhole
    change min 1 w.buffer.length = 0 ∨ min 1 w.buffer.length = w.buffer.length at hwhole
    omega

end DeepSpace.Master
