import DeepSpace.Framing
import DeepSpace.RoundTrip

/-!
# Short reads

The descriptor is opened with `O_NONBLOCK`: a read returns -1 while nothing is there, and may
return fewer bytes than requested.

* `receiveFrame_of_short`, `receiveFrame_of_unknown`, `receiveFrame_of_known`: what one call
  does on any descriptor;
* `fragmentationIndependent_iff`: what is delivered depends on the way the bytes are handed
  out as soon as there are enough of them for the first read of a call;
* `frames_of_uncut`: pauses between the calls make no difference.
-/

namespace DeepSpace.TransmissionProtocol

open DeepSpace.Memory

/-! ## One call -/

section

variable {σ : Type} {fd : Fd σ} {s t u : σ} (stale : Nat → UInt8) (heap : Heap) (p : Frame)

/-- The block `malloc (size)` after the two reads. -/
def received (stale : Nat → UInt8) (temp rest : List UInt8) : List UInt8 :=
  temp ++ rest ++ (malloc TP_FRAME_SIZE_TRANSPORT_DATA stale).drop (temp.length + rest.length)

/-- The end of a call that has `n` bytes in its buffer. -/
def handOver (heap : Heap) (buffer : List UInt8) (n : Int) : C (Int × Frame) := do
  match ← bitStream2frame buffer heap with
  | none => .error .nullDereference
  | some frame => return (n, frame)

theorem receiveFrame_of_short
    (h : ssize ((fd.read s TP_FRAME_SIZE_CMD_TYPE).1.map List.length) < 8) :
    receiveFrame fd stale heap s p = (.ok (-1, p), (fd.read s TP_FRAME_SIZE_CMD_TYPE).2) := by
  simp only [receiveFrame]
  exact if_pos h

theorem receiveFrame_of_none (hr : fd.read s TP_FRAME_SIZE_CMD_TYPE = (none, t)) :
    receiveFrame fd stale heap s p = (.ok (-1, p), t) := by
  rw [receiveFrame_of_short stale heap p (by rw [hr]; show (-1 : Int) < 8; decide), hr]

theorem receiveFrame_of_few {temp : List UInt8}
    (hr : fd.read s TP_FRAME_SIZE_CMD_TYPE = (some temp, t)) (hl : temp.length < 8) :
    receiveFrame fd stale heap s p = (.ok (-1, p), t) := by
  rw [receiveFrame_of_short stale heap p (by rw [hr]; show (temp.length : Int) < 8; omega), hr]

/-- The two copies fit. -/
theorem memcpy_received {temp rest : List UInt8} (hl : temp.length = 8)
    (hl' : rest.length ≤ 522) :
    ∃ buffer, memcpy (malloc TP_FRAME_SIZE_TRANSPORT_DATA stale) 0 temp = .ok buffer ∧
      memcpy buffer TP_FRAME_SIZE_CMD_TYPE rest = .ok (received stale temp rest) := by
  have hm := malloc_length TP_FRAME_SIZE_TRANSPORT_DATA stale
  have h1 := memcpy_append [] (malloc TP_FRAME_SIZE_TRANSPORT_DATA stale) temp 0 rfl
    (by rw [hm, hl]; decide)
  have h2 := memcpy_append temp ((malloc TP_FRAME_SIZE_TRANSPORT_DATA stale).drop temp.length)
    rest TP_FRAME_SIZE_CMD_TYPE hl (by rw [List.length_drop, hm, hl]; exact hl')
  rw [List.nil_append] at h1
  rw [List.drop_drop] at h2
  exact ⟨_, h1, h2⟩

theorem receiveSize_typeField {temp : List UInt8} (hl : temp.length = 8) :
    (do
      let frameType ← loadLE temp 6 2
      receiveSize (UInt16.ofNat frameType)) = receiveSize (typeField temp) := by
  rw [loadLE, load_of_le _ _ _ (by omega)]
  rfl

theorem receiveFrame_of_unknown {temp : List UInt8}
    (hr : fd.read s TP_FRAME_SIZE_CMD_TYPE = (some temp, t)) (hl : temp.length = 8)
    (hk : ¬ Known (typeField temp)) :
    receiveFrame fd stale heap s p = (.error .uninitialised, t) := by
  have hn : ¬ (temp.length : Int) < 8 := by omega
  have hs : receiveSize (typeField temp) = .error .uninitialised := if_neg hk
  simp only [receiveFrame, hr, Option.map_some, ssize, Option.getD_some, receiveSize_typeField hl,
    hs]
  exact if_neg hn

variable {temp : List UInt8} (hr : fd.read s TP_FRAME_SIZE_CMD_TYPE = (some temp, t))
  (hl : temp.length = 8) (hk : Known (typeField temp))

include hr hl hk

theorem receiveFrame_of_paused
    (hr' : fd.read t (TP_FRAME_SIZE_TRANSPORT_DATA - TP_FRAME_SIZE_CMD_TYPE) = (none, u)) :
    receiveFrame fd stale heap s p = (.ok (-1, p), u) := by
  have hn : ¬ (temp.length : Int) < TP_FRAME_SIZE_CMD_TYPE := by rw [hl]; decide
  have hs : receiveSize (typeField temp) = .ok TP_FRAME_SIZE_TRANSPORT_DATA := if_pos hk
  obtain ⟨buffer, h1, h2⟩ := @memcpy_received stale temp [] hl (Nat.zero_le _)
  simp only [receiveFrame, hr, Option.map_some, ssize, Option.getD_some, receiveSize_typeField hl,
    hs, hr', Option.map_none, Option.getD_none]
  rw [if_neg hn]
  simp only [h1, h2, bind, Except.bind]
  rw [if_pos (by rw [hl]; decide)]
  rfl

theorem receiveFrame_of_known {rest : List UInt8}
    (hr' : fd.read t (TP_FRAME_SIZE_TRANSPORT_DATA - TP_FRAME_SIZE_CMD_TYPE) = (some rest, u))
    (hl' : rest.length ≤ 522) :
    receiveFrame fd stale heap s p =
      (handOver heap (received stale temp rest) (8 + rest.length), u) := by
  have hn : ¬ (temp.length : Int) < TP_FRAME_SIZE_CMD_TYPE := by rw [hl]; decide
  have hs : receiveSize (typeField temp) = .ok TP_FRAME_SIZE_TRANSPORT_DATA := if_pos hk
  obtain ⟨buffer, h1, h2⟩ := memcpy_received stale hl hl'
  simp only [receiveFrame, hr, Option.map_some, ssize, Option.getD_some, receiveSize_typeField hl,
    hs, hr']
  rw [if_neg hn]
  simp only [h1, h2, bind, Except.bind]
  rw [if_neg (not_lt.mpr (by rw [hl]; exact Int.le_add_of_nonneg_right (by omega)))]
  simp only [handOver, hl, bind, Except.bind]
  rfl

end

/-! ## Ways of handing a stream out -/

/-- The stream behind a non-blocking descriptor, after the given number of reads.  `way` says
what becomes of each read: nothing has arrived, or one byte more than the number says, as far as
requested and left. -/
def nonblocking (way : Nat → Option Nat) : Fd (Nat × List UInt8) where
  read s n :=
    match way s.1 with
    | none => (none, (s.1 + 1, s.2))
    | some k =>
      if s.2 = [] then (none, (s.1 + 1, s.2))
      else (some (s.2.take (min (k + 1) n)), (s.1 + 1, s.2.drop (min (k + 1) n)))
  write s bs := (some bs.length, s)

/-- What `malloc` hands out in a call that starts with so many bytes left. -/
abbrev Blocks := Nat → (Nat → UInt8) × Heap

/-- That many calls of `receive_frame`: the frames delivered, and the fault that ended the
program. -/
def receiveFrames (way : Nat → Option Nat) (blocks : Blocks) :
    Nat → Nat × List UInt8 → Frame → List Frame × Option Fault × Nat × List UInt8
  | 0, s, _ => ([], none, s)
  | calls + 1, s, p =>
    let (stale, heap) := blocks s.2.length
    match receiveFrame (nonblocking way) stale heap s p with
    | (.error e, s) => ([], some e, s)
    | (.ok (n, p), s) =>
      let (frames, rest) := receiveFrames way blocks calls s p
      (if 0 < n then p :: frames else frames, rest)

/-- These are all frames of the stream: the calls go on until nothing is left, or to a fault. -/
def Delivers (blocks : Blocks) (way : Nat → Option Nat) (line : List UInt8) (p : Frame)
    (frames : List Frame) (fault : Option Fault) : Prop :=
  ∃ calls i left, receiveFrames way blocks calls (0, line) p = (frames, fault, i, left) ∧
    (fault = none → left = [])

def FragmentationIndependent (blocks : Blocks) (line : List UInt8) (p : Frame) : Prop :=
  ∀ way way' frames frames' fault fault', Delivers blocks way line p frames fault →
    Delivers blocks way' line p frames' fault' → frames = frames' ∧ fault = fault'

variable {way : Nat → Option Nat} {blocks : Blocks}

/-- The two outcomes of a read. -/
theorem nonblocking_read (way : Nat → Option Nat) (i : Nat) (line : List UInt8) {n : Nat}
    (hn : 0 < n) :
    (nonblocking way).read (i, line) n = (none, i + 1, line) ∨
      line ≠ [] ∧ ∃ m, 0 < m ∧ m ≤ n ∧
        (nonblocking way).read (i, line) n = (some (line.take m), i + 1, line.drop m) := by
  simp only [nonblocking]
  cases way i with
  | none => exact .inl rfl
  | some k =>
    by_cases hl : line = []
    · exact .inl (if_pos hl)
    · exact .inr ⟨hl, min (k + 1) n, by omega, by omega, if_neg hl⟩

theorem nonblocking_read_nil (way : Nat → Option Nat) (i n : Nat) :
    (nonblocking way).read (i, []) n = (none, i + 1, []) := by
  simp only [nonblocking]
  cases way i <;> rfl

theorem nonblocking_read_some {i k : Nat} {line : List UInt8} (hw : way i = some k)
    (hl : line ≠ []) (n : Nat) :
    (nonblocking way).read (i, line) n =
      (some (line.take (min (k + 1) n)), i + 1, line.drop (min (k + 1) n)) := by
  simp only [nonblocking, hw]
  exact if_neg hl

theorem nonblocking_read_all {i k n : Nat} {line : List UInt8} (hw : way i = some k)
    (hk : n ≤ k + 1) (hl : line ≠ []) :
    (nonblocking way).read (i, line) n = (some (line.take n), i + 1, line.drop n) := by
  rw [nonblocking_read_some hw hl, Nat.min_eq_right hk]

section

variable (s : Nat × List UInt8) {t : Nat × List UInt8} {p q : Frame}

theorem receiveFrames_of_error (calls : Nat) {e : Fault}
    (h : receiveFrame (nonblocking way) (blocks s.2.length).1 (blocks s.2.length).2 s p =
      (.error e, t)) :
    receiveFrames way blocks (calls + 1) s p = ([], some e, t) := by
  simp only [receiveFrames, h]

theorem receiveFrames_of_ok (calls : Nat) {n : Int} {frames : List Frame}
    {rest : Option Fault × Nat × List UInt8}
    (h : receiveFrame (nonblocking way) (blocks s.2.length).1 (blocks s.2.length).2 s p =
      (.ok (n, q), t)) :
    receiveFrames way blocks (calls + 1) s p = (frames, rest) ↔
      ∃ fs, receiveFrames way blocks calls t q = (fs, rest) ∧
        (if 0 < n then q :: fs else fs) = frames := by
  simp only [receiveFrames, h]
  constructor
  · intro he
    obtain ⟨hf, rfl⟩ := Prod.mk.inj he
    exact ⟨_, rfl, hf⟩
  · rintro ⟨fs, hfs, rfl⟩
    rw [hfs]

theorem receiveFrames_of_lost (calls : Nat)
    (h : receiveFrame (nonblocking way) (blocks s.2.length).1 (blocks s.2.length).2 s p =
      (.ok (-1, p), t)) :
    receiveFrames way blocks (calls + 1) s p = receiveFrames way blocks calls t p :=
  (receiveFrames_of_ok s calls h).mpr ⟨_, rfl, if_neg (by decide)⟩

end

/-! ## Streams that deliver nothing -/

/-- At most the first read of a call, with nothing behind it. -/
def Starved (line : List UInt8) : Prop :=
  line.length < 8 ∨ line.length = 8 ∧ Known (typeField line)

theorem Starved.receiveFrame {line : List UInt8} (h : Starved line) (way : Nat → Option Nat)
    (stale : Nat → UInt8) (heap : Heap) (i : Nat) (p : Frame) : ∃ i' line',
      receiveFrame (nonblocking way) stale heap (i, line) p = (.ok (-1, p), i', line') ∧
        Starved line' := by
  obtain hr | ⟨hne, m, h0, hm, hr⟩ :=
    nonblocking_read way i line (n := TP_FRAME_SIZE_CMD_TYPE) (by decide)
  · exact ⟨i + 1, line, receiveFrame_of_none stale heap p hr, h⟩
  · have hpos := List.length_pos_of_ne_nil hne
    by_cases hall : m = 8 ∧ line.length = 8
    · obtain ⟨rfl, hl⟩ := hall
      obtain ⟨-, hk⟩ := h.resolve_left (by omega)
      rw [List.take_of_length_le hl.le, List.drop_eq_nil_of_le hl.le] at hr
      exact ⟨i + 2, [], receiveFrame_of_paused stale heap p hr hl hk
        (nonblocking_read_nil way (i + 1) _), .inl (Nat.zero_lt_succ 7)⟩
    · have hl : line.length ≤ 8 := h.elim (fun h => h.le) fun h => h.1.le
      change m ≤ 8 at hm
      exact ⟨i + 1, line.drop m,
        receiveFrame_of_few stale heap p hr (by rw [List.length_take]; omega),
        .inl (by rw [List.length_drop]; omega)⟩

theorem Starved.receiveFrames {line : List UInt8} (h : Starved line) (way : Nat → Option Nat)
    (blocks : Blocks) (calls i : Nat) (p : Frame) :
    ∃ s, receiveFrames way blocks calls (i, line) p = ([], none, s) := by
  induction calls generalizing i line with
  | zero => exact ⟨_, rfl⟩
  | succ calls ih =>
    obtain ⟨i', line', hc, h'⟩ := h.receiveFrame way (blocks line.length).1
      (blocks line.length).2 i p
    obtain ⟨s, hs⟩ := ih h' i'
    exact ⟨s, (receiveFrames_of_lost (i, line) calls hc).trans hs⟩

/-! ## Calls that are not cut short -/

/-- The two reads of a call that starts here give all that is requested, as far as left. -/
def Full (way : Nat → Option Nat) (i : Nat) : Prop :=
  (∃ k, way i = some k ∧ TP_FRAME_SIZE_CMD_TYPE ≤ k + 1) ∧
    ∃ k, way (i + 1) = some k ∧ TP_FRAME_SIZE_TRANSPORT_DATA - TP_FRAME_SIZE_CMD_TYPE ≤ k + 1

theorem typeField_take (line : List UInt8) : typeField (line.take 8) = typeField line := by
  rw [typeField, typeField, List.drop_take, List.take_take]
  rfl

section

variable {i : Nat} (hw : Full way i) (stale : Nat → UInt8) (heap : Heap) {line : List UInt8}
  (p : Frame)

include hw

theorem Full.receiveFrame_short (hl : line.length < 8) :
    receiveFrame (nonblocking way) stale heap (i, line) p = (.ok (-1, p), i + 1, []) := by
  obtain ⟨⟨k, hk, h8⟩, -⟩ := hw
  by_cases hne : line = []
  · subst hne
    exact receiveFrame_of_none stale heap p (nonblocking_read_nil way i TP_FRAME_SIZE_CMD_TYPE)
  · have hr := nonblocking_read_all hk h8 hne
    have hnil : line.drop TP_FRAME_SIZE_CMD_TYPE = [] := List.drop_eq_nil_of_le hl.le
    rw [hnil] at hr
    exact receiveFrame_of_few stale heap p hr (by rw [List.length_take]; omega)

variable (hl : 8 ≤ line.length)

include hl

theorem Full.read : line ≠ [] ∧ (line.take 8).length = 8 ∧
    (nonblocking way).read (i, line) TP_FRAME_SIZE_CMD_TYPE =
      (some (line.take 8), i + 1, line.drop 8) := by
  have hne : line ≠ [] := List.ne_nil_of_length_pos (by omega)
  obtain ⟨⟨k, hk, h8⟩, -⟩ := hw
  exact ⟨hne, by rw [List.length_take]; omega, nonblocking_read_all hk h8 hne⟩

theorem Full.receiveFrame_unknown (hk : ¬ Known (typeField line)) :
    receiveFrame (nonblocking way) stale heap (i, line) p =
      (.error .uninitialised, i + 1, line.drop 8) := by
  obtain ⟨-, h8, hr⟩ := Full.read hw hl
  exact receiveFrame_of_unknown stale heap p hr h8 (typeField_take line ▸ hk)

theorem Full.receiveFrame_eight (hl' : line.length = 8) (hk : Known (typeField line)) :
    receiveFrame (nonblocking way) stale heap (i, line) p = (.ok (-1, p), i + 2, []) := by
  obtain ⟨-, h8, hr⟩ := Full.read hw hl
  rw [List.drop_eq_nil_of_le hl'.le] at hr
  exact receiveFrame_of_paused stale heap p hr h8 (typeField_take line ▸ hk)
    (nonblocking_read_nil way (i + 1) _)

theorem Full.receiveFrame_known (hl' : 8 < line.length) (hk : Known (typeField line)) :
    receiveFrame (nonblocking way) stale heap (i, line) p =
      (handOver heap (received stale (line.take 8) ((line.drop 8).take 522))
        (8 + ((line.drop 8).take 522).length), i + 2, line.drop TP_FRAME_SIZE_TRANSPORT_DATA) := by
  obtain ⟨-, h8, hr⟩ := Full.read hw hl
  obtain ⟨-, k', hk', h522⟩ := hw
  have hne : line.drop 8 ≠ [] := fun he => by
    have := List.drop_eq_nil_iff.mp he
    omega
  have hr' := nonblocking_read_all hk' h522 hne
  rw [receiveFrame_of_known stale heap p hr h8 (typeField_take line ▸ hk) hr'
    (by rw [List.length_take]; exact Nat.min_le_left _ _), List.drop_drop]
  rfl

end

/-! ## Two ways -/

/-- From some read on, one byte at a time: nothing is delivered. -/
theorem receiveFrames_drip {i : Nat} (hw : ∀ j, i ≤ j → way j = some 0) (blocks : Blocks)
    (line : List UInt8) (p : Frame) :
    receiveFrames way blocks line.length (i, line) p = ([], none, i + line.length, []) := by
  induction line generalizing i with
  | nil => rfl
  | cons b line ih =>
    have hr := nonblocking_read_some (hw i le_rfl) (List.cons_ne_nil b line) TP_FRAME_SIZE_CMD_TYPE
    have hlost : receiveFrame (nonblocking way) (blocks (b :: line).length).1
        (blocks (b :: line).length).2 (i, b :: line) p = (.ok (-1, p), i + 1, line) :=
      receiveFrame_of_few _ _ p hr (Nat.succ_lt_succ (Nat.zero_lt_succ 6))
    rw [List.length_cons, receiveFrames_of_lost (i, b :: line) _ hlost,
      ih fun j hj => hw j (Nat.le_of_succ_le hj), Nat.add_comm line.length 1, ← Nat.add_assoc]

/-- Two reads as large as they are requested, the rest one byte at a time. -/
def gulp (i : Nat) : Option Nat := if i < 2 then some TP_FRAME_SIZE_TRANSPORT_DATA else some 0

theorem gulp_full : Full gulp 0 := ⟨⟨_, rfl, by decide⟩, _, rfl, by decide⟩

theorem handOver_cases (heap : Heap) (buffer : List UInt8) (n : Int) :
    (∃ e, handOver heap buffer n = .error e) ∨
      ∃ frame, handOver heap buffer n = .ok (n, frame) := by
  unfold handOver
  cases bitStream2frame buffer heap with
  | error e => exact .inl ⟨e, rfl⟩
  | ok result =>
    cases result with
    | none => exact .inl ⟨.nullDereference, rfl⟩
    | some frame => exact .inr ⟨frame, rfl⟩

/-- The first call ends the program or delivers a frame. -/
theorem receiveFrame_gulp {line : List UInt8} (h : ¬ Starved line) (stale : Nat → UInt8)
    (heap : Heap) (p : Frame) :
    (∃ e s, receiveFrame (nonblocking gulp) stale heap (0, line) p = (.error e, s)) ∨
      ∃ n frame, 0 < n ∧ receiveFrame (nonblocking gulp) stale heap (0, line) p =
        (.ok (n, frame), 2, line.drop TP_FRAME_SIZE_TRANSPORT_DATA) := by
  obtain ⟨h8, hlong⟩ := not_or.mp h
  by_cases hk : Known (typeField line)
  · have h9 : 8 < line.length := by
      by_contra hle
      exact hlong ⟨by omega, hk⟩
    have hcall := gulp_full.receiveFrame_known stale heap p h9.le h9 hk
    obtain ⟨e, he⟩ | ⟨frame, he⟩ := handOver_cases heap (received stale (line.take 8)
      ((line.drop 8).take 522)) (8 + ((line.drop 8).take 522).length)
    · rw [he] at hcall
      exact .inl ⟨e, _, hcall⟩
    · rw [he] at hcall
      exact .inr ⟨_, frame, by omega, hcall⟩
  · exact .inl ⟨_, _, gulp_full.receiveFrame_unknown stale heap p (by omega) hk⟩

theorem receiveFrames_gulp {line : List UInt8} (h : ¬ Starved line) (blocks : Blocks)
    (p : Frame) : ∃ frames fault, Delivers blocks gulp line p frames fault ∧
      (frames ≠ [] ∨ fault ≠ none) := by
  have hdrip : ∀ j, 2 ≤ j → gulp j = some 0 := fun j hj => if_neg (by omega)
  obtain ⟨e, s, hc⟩ | ⟨n, frame, hn, hc⟩ := receiveFrame_gulp h (blocks line.length).1
    (blocks line.length).2 p
  · exact ⟨[], some e, ⟨1, s.1, s.2, receiveFrames_of_error (0, line) 0 hc, fun h => by cases h⟩,
      .inr (by simp)⟩
  · have hrest := receiveFrames_drip hdrip blocks (line.drop TP_FRAME_SIZE_TRANSPORT_DATA) frame
    exact ⟨[frame], none, ⟨(line.drop TP_FRAME_SIZE_TRANSPORT_DATA).length + 1,
      2 + (line.drop TP_FRAME_SIZE_TRANSPORT_DATA).length, [],
      (receiveFrames_of_ok (0, line) _ hc).mpr ⟨[], hrest, if_pos hn⟩, fun _ => rfl⟩,
      .inl (List.cons_ne_nil _ _)⟩

/-- **Fragmentation.**  What is delivered is independent of the way in which the stream is
handed out only where nothing is ever delivered. -/
theorem fragmentationIndependent_iff (blocks : Blocks) (line : List UInt8) (p : Frame) :
    FragmentationIndependent blocks line p ↔
      line.length < TP_FRAME_SIZE_CMD_TYPE ∨
        line.length = TP_FRAME_SIZE_CMD_TYPE ∧ Known (typeField line) := by
  constructor
  · intro hi
    by_contra h
    obtain ⟨frames, fault, hg, hne⟩ := receiveFrames_gulp h blocks p
    have hd : Delivers blocks (fun _ => some 0) line p [] none :=
      ⟨_, _, _, receiveFrames_drip (i := 0) (fun _ _ => rfl) blocks line p, fun _ => rfl⟩
    obtain ⟨hf, hn⟩ := hi _ _ _ _ _ _ hg hd
    exact hne.elim (fun h => h hf) fun h => h hn
  · rintro h way way' frames frames' fault fault' ⟨calls, i, left, hr, -⟩
      ⟨calls', i', left', hr', -⟩
    obtain ⟨s, hs⟩ := Starved.receiveFrames h way blocks calls 0 p
    obtain ⟨s', hs'⟩ := Starved.receiveFrames h way' blocks calls' 0 p
    obtain ⟨hf, hrest⟩ := Prod.mk.inj (hr.symm.trans hs)
    obtain ⟨hf', hrest'⟩ := Prod.mk.inj (hr'.symm.trans hs')
    exact ⟨hf.trans hf'.symm, (Prod.mk.inj hrest).1.trans (Prod.mk.inj hrest').1.symm⟩

theorem received_line (stale : Nat → UInt8) {line : List UInt8} (h8 : 8 ≤ line.length)
    (hl : line.length ≤ TP_FRAME_SIZE_TRANSPORT_DATA) :
    received stale (line.take 8) ((line.drop 8).take 522) =
      line ++ (malloc TP_FRAME_SIZE_TRANSPORT_DATA stale).drop line.length := by
  have hd : (line.drop 8).take 522 = line.drop 8 :=
    List.take_of_length_le (by rw [List.length_drop]; exact Nat.sub_le_sub_right hl 8)
  rw [hd, received, List.take_append_drop, List.length_take, List.length_drop,
    Nat.min_eq_left h8, Nat.add_sub_cancel' h8]

def sampleBlocks : Blocks := fun _ => (fun _ => 0, ⟨sampleRequest, some fun _ => 0⟩)

/-- **One request frame**, in two reads and byte by byte; neither run ends in a fault. -/
theorem sampleRequest_fragmented :
    let line := sampleRequest.wire (List.replicate 16 0)
    (∃ frame, Delivers sampleBlocks gulp line sampleRequest [frame] none) ∧
      Delivers sampleBlocks (fun _ => some 0) line sampleRequest [] none ∧
      ¬ FragmentationIndependent sampleBlocks line sampleRequest := by
  intro line
  have hl : line.length = 16 :=
    wire_length sampleRequest (List.replicate 16 0) (fun h => absurd h (by decide)) (by decide)
  have hk : Known (typeField line) := by
    have h := typeField_wire sampleRequest (List.replicate 16 0) []
    rw [List.append_nil] at h
    exact h ▸ .inr (.inl rfl)
  obtain ⟨g, hd, -⟩ := decode_wire_short sampleRequest (List.replicate 16 0)
    ((malloc TP_FRAME_SIZE_TRANSPORT_DATA fun _ => 0).drop line.length)
    ⟨sampleRequest, some fun _ => 0⟩ rfl (.inr rfl) rfl
  change bitStream2frame (line ++ _) _ = _ at hd
  clear_value line
  have hcall := gulp_full.receiveFrame_known (fun _ => 0) ⟨sampleRequest, some fun _ => 0⟩
    sampleRequest (by omega) (by omega) hk
  have hnil : line.drop TP_FRAME_SIZE_TRANSPORT_DATA = [] :=
    List.drop_eq_nil_of_le (by rw [hl]; decide)
  rw [received_line _ (by omega) (by rw [hl]; decide), handOver, hd, hnil] at hcall
  have hg : Delivers sampleBlocks gulp line sampleRequest [g] none :=
    ⟨1, 2, [], (@receiveFrames_of_ok gulp sampleBlocks (0, line) _ _ _ 0 _ _ _ hcall).mpr
      ⟨[], rfl, if_pos (by omega)⟩, fun _ => rfl⟩
  have hdrip : Delivers sampleBlocks (fun _ => some 0) line sampleRequest [] none :=
    ⟨_, _, _, receiveFrames_drip (i := 0) (fun _ _ => rfl) sampleBlocks line _, fun _ => rfl⟩
  exact ⟨⟨g, hg⟩, hdrip, fun hi => List.cons_ne_nil _ _ (hi _ _ _ _ _ _ hg hdrip).1⟩

/-! ## Runs that are not cut short -/

/-- In each call the first read gives nothing, or both give all that is requested. -/
def Uncut (way : Nat → Option Nat) (blocks : Blocks) : Nat → Nat × List UInt8 → Frame → Prop
  | 0, _, _ => True
  | calls + 1, s, p => (way s.1 = none ∨ Full way s.1) ∧
    ∀ n q t, receiveFrame (nonblocking way) (blocks s.2.length).1 (blocks s.2.length).2 s p =
      (.ok (n, q), t) → Uncut way blocks calls t q

theorem Full.receiveFrame_same {way way' : Nat → Option Nat} {i i' : Nat} (hw : Full way i)
    (hw' : Full way' i') (stale : Nat → UInt8) (heap : Heap) (line : List UInt8) (p : Frame) :
    ∃ r j j' left, receiveFrame (nonblocking way) stale heap (i, line) p = (r, j, left) ∧
      receiveFrame (nonblocking way') stale heap (i', line) p = (r, j', left) := by
  by_cases h8 : line.length < 8
  · exact ⟨_, _, _, _, hw.receiveFrame_short stale heap p h8,
      hw'.receiveFrame_short stale heap p h8⟩
  · have hl : 8 ≤ line.length := Nat.not_lt.mp h8
    by_cases hk : Known (typeField line)
    · rcases hl.eq_or_lt with he | hlt
      · exact ⟨_, _, _, _, hw.receiveFrame_eight stale heap p hl he.symm hk,
          hw'.receiveFrame_eight stale heap p hl he.symm hk⟩
      · exact ⟨_, _, _, _, hw.receiveFrame_known stale heap p hl hlt hk,
          hw'.receiveFrame_known stale heap p hl hlt hk⟩
    · exact ⟨_, _, _, _, hw.receiveFrame_unknown stale heap p hl hk,
        hw'.receiveFrame_unknown stale heap p hl hk⟩

/-- Everything is there for every read. -/
def whole (_ : Nat) : Option Nat := some TP_FRAME_SIZE_TRANSPORT_DATA

theorem whole_full (i : Nat) : Full whole i := ⟨⟨_, rfl, by decide⟩, _, rfl, by decide⟩

/-- A pause is a stutter, and any other call the call behind a descriptor that has everything. -/
theorem Uncut.receiveFrames {calls : Nat} {s : Nat × List UInt8} {p : Frame}
    (h : Uncut way blocks calls s p) {frames : List Frame} {fault : Option Fault} {j : Nat}
    {left : List UInt8} (hr : receiveFrames way blocks calls s p = (frames, fault, j, left))
    (i : Nat) : ∃ calls' j',
      receiveFrames whole blocks calls' (i, s.2) p = (frames, fault, j', left) := by
  induction calls generalizing s p frames fault j left i with
  | zero =>
    cases hr
    exact ⟨0, i, rfl⟩
  | succ calls ih =>
    obtain ⟨hfull, hnext⟩ := h
    obtain ⟨k, line⟩ := s
    rcases hfull with hnone | hfull
    · have hread : (nonblocking way).read (k, line) TP_FRAME_SIZE_CMD_TYPE =
          (none, k + 1, line) := by
        change way k = none at hnone
        simp only [nonblocking, hnone]
      have hlost : receiveFrame (nonblocking way) (blocks line.length).1 (blocks line.length).2
          (k, line) p = (.ok (-1, p), k + 1, line) := receiveFrame_of_none _ _ p hread
      rw [receiveFrames_of_lost (k, line) calls hlost] at hr
      exact ih (hnext _ _ _ hlost) hr i
    · obtain ⟨r, k', i', line', hc, hc'⟩ := hfull.receiveFrame_same (whole_full i)
        (blocks line.length).1 (blocks line.length).2 line p
      cases r with
      | error e =>
        rw [receiveFrames_of_error (k, line) calls hc] at hr
        cases hr
        exact ⟨1, i', receiveFrames_of_error (i, line) 0 hc'⟩
      | ok nq =>
        obtain ⟨fs, hfs, hf⟩ := (receiveFrames_of_ok (k, line) calls hc).mp hr
        obtain ⟨calls', j', hi⟩ := ih (hnext _ _ _ hc) hfs i'
        exact ⟨calls' + 1, j', (receiveFrames_of_ok (i, line) calls' hc').mpr ⟨fs, hi, hf⟩⟩

/-- More calls deliver no more. -/
theorem receiveFrames_add {calls : Nat} {s : Nat × List UInt8} {p : Frame} {frames : List Frame}
    {fault : Option Fault} {j : Nat} {left : List UInt8}
    (hr : receiveFrames way blocks calls s p = (frames, fault, j, left))
    (hleft : fault = none → left = []) (more : Nat) :
    ∃ t, receiveFrames way blocks (calls + more) s p = (frames, fault, t) := by
  induction calls generalizing s p frames fault with
  | zero =>
    cases hr
    cases hleft rfl
    rw [Nat.zero_add]
    have hs : Starved [] := .inl (Nat.zero_lt_succ 7)
    exact hs.receiveFrames way blocks more j p
  | succ calls ih =>
    rw [Nat.add_right_comm]
    cases hc : receiveFrame (nonblocking way) (blocks s.2.length).1 (blocks s.2.length).2 s p with
    | mk r t =>
      cases r with
      | error e =>
        rw [receiveFrames_of_error s calls hc] at hr
        cases hr
        exact ⟨_, receiveFrames_of_error s (calls + more) hc⟩
      | ok nq =>
        obtain ⟨fs, hfs, hf⟩ := (receiveFrames_of_ok s calls hc).mp hr
        obtain ⟨u, hu⟩ := ih hfs hleft
        exact ⟨u, (receiveFrames_of_ok s (calls + more) hc).mpr ⟨fs, hu, hf⟩⟩

theorem Delivers.unique {line : List UInt8} {p : Frame} {frames frames' : List Frame}
    {fault fault' : Option Fault} (h : Delivers blocks way line p frames fault)
    (h' : Delivers blocks way line p frames' fault') : frames = frames' ∧ fault = fault' := by
  obtain ⟨calls, i, left, hr, hleft⟩ := h
  obtain ⟨calls', i', left', hr', hleft'⟩ := h'
  obtain ⟨t, ht⟩ := receiveFrames_add hr hleft calls'
  obtain ⟨t', ht'⟩ := receiveFrames_add hr' hleft' calls
  rw [Nat.add_comm, ht'] at ht
  obtain ⟨hf, hrest⟩ := Prod.mk.inj ht
  exact ⟨hf.symm, (Prod.mk.inj hrest).1.symm⟩

/-- **Runs without short reads**, with any pauses between the calls, all deliver the same. -/
theorem frames_of_uncut {way' : Nat → Option Nat} {calls calls' : Nat} {line : List UInt8}
    {p : Frame} {frames frames' : List Frame} {fault fault' : Option Fault} {i i' : Nat}
    {left left' : List UInt8} (h : Uncut way blocks calls (0, line) p)
    (hr : receiveFrames way blocks calls (0, line) p = (frames, fault, i, left))
    (hleft : fault = none → left = []) (h' : Uncut way' blocks calls' (0, line) p)
    (hr' : receiveFrames way' blocks calls' (0, line) p = (frames', fault', i', left'))
    (hleft' : fault' = none → left' = []) : frames = frames' ∧ fault = fault' := by
  obtain ⟨n, j, hw⟩ := h.receiveFrames hr 0
  obtain ⟨n', j', hw'⟩ := h'.receiveFrames hr' 0
  exact Delivers.unique ⟨n, j, left, hw, hleft⟩ ⟨n', j', left', hw', hleft'⟩

end DeepSpace.TransmissionProtocol
