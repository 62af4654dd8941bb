import DeepSpace.MasterLoop

/-!
# `main.c`: the loop

`main` behind `open`: one request, and then rounds of `wait_frame`, the `switch` and `n_frame++`,
on any line.

* `rounds_reads`: no round writes to the line, or to a file but those of `Stored`;
* `main_silent`: whatever arrives, the slave writes its first request and nothing else to the line.
-/

namespace DeepSpace.Slave

open DeepSpace.Memory DeepSpace.TransmissionProtocol DeepSpace.Master

/-! ## The program -/

def defaultFrame : Frame where
  header := tpHeader
  address := TP_ADDRESS_SLAVE
  frameType := TP_FRAME_TYPE_REQUEST_DATA
  nFile := 0
  nFrame := 0
  dataLen := 0
  data := List.replicate 512 0
  checkSum := 0
  header_length := tpHeader_length
  data_length := noData_length

/-- The variables of `main`, with the line and the files. -/
structure State (σ : Type) where
  inputFrame : Frame
  outputFrame : Frame
  line : σ
  files : FileSystem

variable {σ : Type} (fd : Fd σ) (outputDir : CString) (room : Nat)
  (memory : σ → (Nat → UInt8) × Heap) (waits : Nat)

/-- One round, with at most `waits` rounds of `wait_frame`; `false` where that goes on.  A fault
keeps the state as it found it. -/
def round (m : State σ) : C Bool × State σ :=
  match waitFrame fd memory waits m.line m.inputFrame m.outputFrame with
  | (.error e, line) => (.error e, { m with line })
  | (.ok none, line) => (.ok false, { m with line })
  | (.ok (some (inputFrame, outputFrame)), line) =>
    match handleFrame outputDir room (memory line).1 m.files inputFrame outputFrame with
    -- each copy of `handleFrame` that may fail stands before it writes to a file
    | .error e => (.error e, { m with inputFrame, outputFrame, line })
    | .ok (files, outputFrame) => (.ok true, { inputFrame, outputFrame, line, files })

def rounds : Nat → State σ → C Bool × State σ
  | 0, m => (.ok true, m)
  | n + 1, m =>
    match round fd outputDir room memory waits m with
    | (.ok true, m) => rounds n m
    | r => r

/-- The first request, and that many rounds; what `send_frame` returns is not looked at. -/
def main (n : Nat) (inputFrame : Frame) (line : σ) (files : FileSystem) : C Bool × State σ :=
  match sendFrame fd (memory line).1 line defaultFrame with
  | (.error e, line) => (.error e, ⟨inputFrame, defaultFrame, line, files⟩)
  | (.ok _, line) =>
    rounds fd outputDir room memory waits n ⟨inputFrame, defaultFrame, line, files⟩

/-! ## What it leaves alone -/

variable {fd outputDir room memory waits}

theorem round_reads (m : State σ) :
    Reads fd m.line (round fd outputDir room memory waits m).2.line ∧
      Stored outputDir room m.files (round fd outputDir room memory waits m).2.files := by
  obtain ⟨r, line, hw⟩ : ∃ r line,
      waitFrame fd memory waits m.line m.inputFrame m.outputFrame = (r, line) := ⟨_, _, rfl⟩
  have hr := (waitFrame_reads hw).1
  rw [round, hw]
  obtain e | _ | ⟨input, output⟩ := r
  · exact ⟨hr, .refl⟩
  · exact ⟨hr, .refl⟩
  · dsimp only
    cases hh : handleFrame outputDir room (memory line).1 m.files input output with
    | error e => exact ⟨hr, .refl⟩
    | ok r =>
      obtain ⟨files, out⟩ := r
      obtain rfl | happ := handleFrame_files hh
      · exact ⟨hr, .refl⟩
      · exact ⟨hr, .single ⟨input, happ⟩⟩

theorem rounds_reads (n : Nat) (m : State σ) :
    Reads fd m.line (rounds fd outputDir room memory waits n m).2.line ∧
      Stored outputDir room m.files (rounds fd outputDir room memory waits n m).2.files := by
  induction n generalizing m with
  | zero => exact ⟨.refl, .refl⟩
  | succ n ih =>
    obtain ⟨hline, hfiles⟩ := @round_reads _ fd outputDir room memory waits m
    rw [rounds]
    split
    · rename_i m' hm
      rw [hm] at hline hfiles
      exact ⟨hline.trans (ih m').1, hfiles.trans (ih m').2⟩
    · exact ⟨hline, hfiles⟩

theorem defaultFrame_wire (buffer : List UInt8) :
    defaultFrame.wire buffer = defaultFrame.wire [] := by
  rw [wire_short _ _ rfl (by decide), wire_short _ _ rfl (by decide)]

theorem main_eq (n : Nat) (inputFrame : Frame) (line : σ) (files : FileSystem) :
    main fd outputDir room memory waits n inputFrame line files =
      rounds fd outputDir room memory waits n
        ⟨inputFrame, defaultFrame, (fd.write line (defaultFrame.wire [])).2, files⟩ := by
  have hsend := sendFrame_eq fd (memory line).1 line defaultFrame (.inr (.inl rfl))
    (fun h => absurd h (by decide))
  rw [defaultFrame_wire] at hsend
  rw [main, hsend]

theorem main_reads (n : Nat) (inputFrame : Frame) (line : σ) (files : FileSystem) :
    Reads fd (fd.write line (defaultFrame.wire [])).2
      (main fd outputDir room memory waits n inputFrame line files).2.line := by
  rw [main_eq]
  exact (rounds_reads n ⟨inputFrame, defaultFrame, _, files⟩).1

theorem main_files (n : Nat) (inputFrame : Frame) (line : σ) (files : FileSystem) :
    Stored outputDir room files
      (main fd outputDir room memory waits n inputFrame line files).2.files := by
  rw [main_eq]
  exact (rounds_reads n ⟨inputFrame, defaultFrame, _, files⟩).2

/-- **The slave** on any line, whether it is still waiting, has handled any number of frames or
ended with a fault: it has written one request, and no file that it could write within its
blocks. -/
theorem main_silent (n : Nat) (inputFrame : Frame) (line : σ) (files : FileSystem) :
    Reads fd (fd.write line (defaultFrame.wire [])).2
        (main fd outputDir room memory waits n inputFrame line files).2.line ∧
      Stored outputDir room files
        (main fd outputDir room memory waits n inputFrame line files).2.files ∧
      (room = 0 → (main fd outputDir room memory waits n inputFrame line files).2.files = files) :=
  ⟨main_reads n inputFrame line files, main_files n inputFrame line files, fun h => by
    subst h
    exact (main_files n inputFrame line files).eq⟩

end DeepSpace.Slave
