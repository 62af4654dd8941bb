import DeepSpace.WholeFrames

/-!
# Outside the image table

The master takes `n_file` of the peer as an index into `imgs`, whatever `img_number` is.

* `handle_confined_iff`: the answer to a frame depends on the table alone exactly if the frame has
  no index or one of the table;
* `confined_iff`: so a run keeps to the table exactly if its requests and data frames do.
-/

namespace DeepSpace.Master

open DeepSpace.Memory DeepSpace.TransmissionProtocol

/-- The same table, where the memory behind it holds `foreign`. -/
def Opt.behind (opt : Opt) (foreign : List NamedImg) : Opt :=
  { opt with imgs := opt.imgs ++ foreign }

/-- The frames that `main` takes an index from. -/
def Indexed (input : Frame) : Prop :=
  input.frameType = TP_FRAME_TYPE_REQUEST_DATA ∨ input.frameType = TP_FRAME_TYPE_TRANSPORT_DATA

variable {σ : Type} (fd : Fd σ) (opt : Opt) (room : Nat)

/-- **Confined**: what lies behind the table makes no difference, and an index behind it has no
consequence: no data frame is sent, and no file is written. -/
structure Confined (stale : Nat → UInt8) (input : Frame) (files : FileSystem) (m : Sender σ) :
    Prop where
  own : ∀ foreign, handle fd (opt.behind foreign) room stale input files m =
    handle fd opt room stale input files m
  ignored : opt.imgs.length ≤ input.nFile.toNat →
    ∃ m', handle fd opt room stale input files m = .ok (m', files) ∧
      dataFrames m'.sent = dataFrames m.sent

variable (memory : σ → (Nat → UInt8) × Heap)

/-- What holds in every iteration of every run: of the frame that `wait_frame` hands over, and the
files and the sender at that time. -/
def EveryIteration (inputFrame : Frame) (line : σ) (files : FileSystem)
    (P : (Nat → UInt8) → Frame → FileSystem → Sender σ → Prop) : Prop :=
  ∀ waits n m input output line',
    main fd opt room memory waits n (start inputFrame line files) = .ok (some m) →
    waitFrame fd memory waits m.line m.inputFrame m.outputFrame =
      (.ok (some (input, output)), line') →
    P (memory line').1 input m.files ⟨output, line', []⟩

section

variable {fd opt room} {stale : Nat → UInt8} {input : Frame} {files : FileSystem} {m : Sender σ}

theorem behind_getElem? {i : Nat} (h : i < opt.imgs.length) (foreign : List NamedImg) :
    (opt.behind foreign).imgs[i]? = opt.imgs[i]? := List.getElem?_append_left h

theorem requestData_congr {imgs imgs' : List Img}
    (h : imgs[input.nFile.toNat]? = imgs'[input.nFile.toNat]?) :
    requestData fd stale imgs input m = requestData fd stale imgs' input m := by
  unfold requestData
  rw [h]

theorem storeData_congr {opt' : Opt} (hdir : opt'.outputDir = opt.outputDir)
    (h : opt'.imgs[input.nFile.toNat]? = opt.imgs[input.nFile.toNat]?) :
    storeData opt' room stale files input = storeData opt room stale files input := by
  unfold storeData
  rw [h, hdir]

/-- A frame with an index outside the table is taken up all the same. -/
theorem handle_outside (hin : Indexed input) (h : opt.imgs.length ≤ input.nFile.toNat) :
    handle fd opt room stale input files m = .error .outOfBounds := by
  have hnone : opt.imgs[input.nFile.toNat]? = none := List.getElem?_eq_none h
  rcases hin with hty | hty
  · have hmap : (opt.imgs.map (·.toImg))[input.nFile.toNat]? = none := by
      rw [List.getElem?_map, hnone, Option.map_none]
    unfold handle requestData
    rw [if_pos hty, hmap]
    rfl
  · unfold handle storeData
    rw [if_neg (by rw [hty]; decide), if_pos hty, hnone]
    rfl

/-- **One frame.** -/
theorem handle_confined_iff :
    Confined fd opt room stale input files m ↔
      (Indexed input → input.nFile.toNat < opt.imgs.length) := by
  constructor
  · intro h hin
    by_contra hout
    obtain ⟨m', hok, -⟩ := h.ignored (not_lt.mp hout)
    rw [handle_outside hin (not_lt.mp hout)] at hok
    cases hok
  · intro h
    by_cases hin : Indexed input
    · have hlt := h hin
      refine ⟨fun foreign => ?_, fun hout => absurd hlt (not_lt.mpr hout)⟩
      have hget := behind_getElem? hlt foreign
      have hmap : ((opt.behind foreign).imgs.map (·.toImg))[input.nFile.toNat]? =
          (opt.imgs.map (·.toImg))[input.nFile.toNat]? := by
        rw [List.getElem?_map, List.getElem?_map, hget]
      have hstore : storeData (opt.behind foreign) room stale files input =
          storeData opt room stale files input := storeData_congr rfl hget
      unfold handle
      rw [requestData_congr hmap, hstore]
    · have hok : ∀ opt : Opt, handle fd opt room stale input files m = .ok (m, files) := by
        intro opt
        unfold handle
        rw [if_neg fun hty => hin (.inl hty), if_neg fun hty => hin (.inr hty)]
        rfl
      exact ⟨fun foreign => by rw [hok, hok], fun _ => ⟨m, hok opt, rfl⟩⟩

end

/-- **Every run**: the master keeps to its table exactly if its peer does. -/
theorem confined_iff (inputFrame : Frame) (line : σ) (files : FileSystem) :
    EveryIteration fd opt room memory inputFrame line files (Confined fd opt room) ↔
      EveryIteration fd opt room memory inputFrame line files fun _ input _ _ =>
        Indexed input → input.nFile.toNat < opt.imgs.length := by
  constructor
  · intro h waits n m input output line' hrun hw
    exact handle_confined_iff.mp (h waits n m input output line' hrun hw)
  · intro h waits n m input output line' hrun hw
    exact handle_confined_iff.mpr (h waits n m input output line' hrun hw)

/-! ## One image, and what lies behind it -/

def oneImg : Opt := ⟨sampleDir, [⟨sampleImg, sampleDir⟩]⟩

/-- What the memory behind the table happens to be read as. -/
def secret : NamedImg := ⟨⟨[83, 69, 67], 3, rfl⟩, sampleDir⟩

theorem round_parts {memory : σ → (Nat → UInt8) × Heap} {waits : Nat} {m m' : State σ}
    (h : round fd opt room memory waits m = .ok (some m')) :
    ∃ o line s files, waitFrame fd memory waits m.line m.inputFrame m.outputFrame =
        (.ok (some (m'.inputFrame, o)), line) ∧
      handle fd opt room (memory line).1 m'.inputFrame m.files ⟨o, line, []⟩ = .ok (s, files) ∧
      m'.rounds = m.rounds ++ [⟨m'.inputFrame, s.sent⟩] := by
  unfold round at h
  split at h
  · cases h
  · cases h
  · rename_i input o line hw
    obtain ⟨⟨s, files⟩, hh, h⟩ := bind_eq_ok h
    cases h
    exact ⟨o, line, s, files, hw, hh, rfl⟩

/-- **A request for image 1** of a table of one: the master sends what it finds there. -/
theorem secret_sent :
    ¬ EveryIteration (tty oneRequest some) oneImg 0 sampleMemory sampleRequest (0, [])
        (fun _ => none) (Confined (tty oneRequest some) oneImg 0) ∧
      ∃ m, main (tty oneRequest some) (oneImg.behind [secret]) 0 sampleMemory 1 1
          (start sampleRequest (0, []) fun _ => none) = .ok (some m) ∧
        ∃ r ∈ m.rounds, oneImg.imgs.length ≤ r.input.nFile.toNat ∧
          (dataFrames r.sent).flatMap payload = secret.file := by
  obtain ⟨m, hrun, hround, hty, hn⟩ := main_oneRequest some (oneImg.behind [secret]) rfl
  obtain ⟨o, line, s, files, hw, hh, hrounds⟩ := round_parts _ _ _ hround
  constructor
  · intro h
    have hin := handle_confined_iff.mp (h 1 0 _ _ o line rfl hw) (.inl hty)
    rw [hn] at hin
    exact absurd hin (by decide)
  · refine ⟨m, hrun, _, by rw [hrounds]; exact List.mem_singleton_self _, ?_, ?_⟩
    · rw [hn]
      decide
    · obtain ⟨m', hreq, -, hflat⟩ := requestData_spec (sampleMemory line).1
        (show Succeeds (tty oneRequest some) from fun _ _ h => (by cases h))
        ((oneImg.behind [secret]).imgs.map (·.toImg)) m.inputFrame ⟨o, line, []⟩ secret.toImg
        (by rw [hn]; rfl) rfl
      unfold handle at hh
      rw [if_pos hty, hreq] at hh
      obtain rfl : m' = s := congrArg Prod.fst (Except.ok.inj hh)
      exact hflat

end DeepSpace.Master
