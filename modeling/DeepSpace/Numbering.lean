import DeepSpace.WholeFrames

/-!
# Frame numbers

`n_frame` counts the rounds of `main`: every frame of an answer carries the number of the round.

* `main_counted`: the frames sent in round `k` carry `k % 65536`;
* `numbering`: they are numbered as in `serial-transmission-protocol.md` in the runs where the
  number of the round is not a multiple of 65536 and one data frame holds the image.
-/

namespace DeepSpace.Master

open DeepSpace.Memory DeepSpace.TransmissionProtocol

/-! ## The protocol -/

/-- The number behind `n`, from 0x0001 to 0xFFFF. -/
def next (n : Nat) : Nat := if n = 0xFFFF then 1 else n + 1

/-- The numbers on the frames of one answer. -/
structure Numbered (sent : List Frame) : Prop where
  range : ∀ f ∈ sent, 1 ≤ f.nFrame.toNat ∧ f.nFrame.toNat ≤ 0xFFFF
  consecutive : (dataFrames sent).IsChain fun f g => g.nFrame.toNat = next f.nFrame.toNat
  distinct : ((dataFrames sent).map (·.nFrame)).Nodup

/-- Requests arrive in rounds whose number does not wrap to 0, for images of one data frame. -/
def InTurn (opt : Opt) (rounds : List Round) : Prop :=
  ∀ k r, rounds[k]? = some r → r.input.frameType = TP_FRAME_TYPE_REQUEST_DATA →
    k % 2 ^ 16 ≠ 0 ∧ ∀ img, opt.imgs[r.input.nFile.toNat]? = some img → totolFrames img.toImg ≤ 1

/-! ## One round -/

theorem not_nodup_of_eq {f g : Frame} (h : f.nFrame = g.nFrame) (rest : List Frame) :
    ¬ ((f :: g :: rest).map (·.nFrame)).Nodup := by
  rw [List.map_cons, List.map_cons, h]
  exact fun hd => (List.nodup_cons.mp hd).1 List.mem_cons_self

section

variable {σ : Type} {fd : Fd σ} {opt : Opt} {k : Nat} {input : Frame} {passed sent : List Frame}
  (ha : Answer fd opt input passed) (hk : ∀ f ∈ passed, f.nFrame = UInt16.ofNat k)

include ha hk

theorem numbered_of_answer (hsub : sent.Sublist passed)
    (h : input.frameType = TP_FRAME_TYPE_REQUEST_DATA → k % 2 ^ 16 ≠ 0 ∧
      ∀ img, opt.imgs[input.nFile.toNat]? = some img → totolFrames img.toImg ≤ 1) :
    Numbered sent := by
  obtain hne | ⟨img, data, last, hty, himg, hall, hlast, hle, -⟩ := ha
  · obtain rfl := List.sublist_nil.mp hsub
    exact ⟨fun f hf => (by cases hf), .nil, .nil⟩
  · obtain ⟨hpos, hone⟩ := h hty
    have hlen : (dataFrames sent).length ≤ 1 := by
      have hd := (hsub.filter (·.frameType = TP_FRAME_TYPE_TRANSPORT_DATA)).length_le
      have hd' := congrArg List.length (dataFrames_answer hall hlast)
      have hone := hone img himg
      exact hd.trans (by rw [dataFrames] at hd'; omega)
    refine ⟨fun f hf => ?_, ?_, ?_⟩
    · have hlt := f.nFrame.toNat_lt
      rw [hk f (hsub.subset hf), UInt16.toNat_ofNat'] at hlt ⊢
      omega
    all_goals
      obtain hd | ⟨f, hd⟩ : dataFrames sent = [] ∨ ∃ f, dataFrames sent = [f] := by
        rcases Nat.le_one_iff_eq_zero_or_eq_one.mp hlen with h | h
        · exact .inl (List.eq_nil_of_length_eq_zero h)
        · exact .inr (List.length_eq_one_iff.mp h)
      all_goals simp [hd]

/-- A request that was answered in full. -/
theorem inTurn_of_numbered (hfd : Succeeds fd) (h : Numbered passed)
    (hty : input.frameType = TP_FRAME_TYPE_REQUEST_DATA) :
    k % 2 ^ 16 ≠ 0 ∧
      ∀ img, opt.imgs[input.nFile.toNat]? = some img → totolFrames img.toImg ≤ 1 := by
  obtain hne | ⟨img, data, last, -, himg, hall, hlast, -, heq⟩ := ha
  · exact absurd hty hne
  · refine ⟨fun hz => ?_, fun img' himg' => ?_⟩
    · have hlast := h.range last (by simp)
      rw [hk last (by simp), UInt16.toNat_ofNat'] at hlast
      omega
    · obtain rfl := Option.some.inj (himg.symm.trans himg')
      rw [← heq hfd]
      by_contra hlt
      obtain ⟨f, g, rest, rfl⟩ : ∃ f g rest, data = f :: g :: rest := by
        match data, hlt with
        | f :: g :: rest, _ => exact ⟨f, g, rest, rfl⟩
        | [], h => exact absurd (Nat.zero_le _) h
        | [f], h => exact absurd le_rfl h
      have hd := h.distinct
      rw [dataFrames_answer hall hlast] at hd
      exact not_nodup_of_eq ((hk f (by simp)).trans (hk g (by simp)).symm) rest hd

end

/-! ## Runs -/

section

variable {σ : Type} {fd : Fd σ} {opt : Opt} {room : Nat} {memory : σ → (Nat → UInt8) × Heap}
  {waits : Nat}

/-- The counter, and the rounds that it has counted. -/
structure Counted (fd : Fd σ) (opt : Opt) (m : State σ) : Prop where
  counter : m.outputFrame.nFrame = UInt16.ofNat m.rounds.length
  answers : ∀ k r, m.rounds[k]? = some r → ∃ passed, Answer fd opt r.input passed ∧
    (∀ f ∈ passed, f.nFrame = UInt16.ofNat k) ∧ r.sent.Sublist passed ∧
    (Succeeds fd → r.sent = passed)

theorem round_counted {m m' : State σ} (h : round fd opt room memory waits m = .ok (some m'))
    (hm : Counted fd opt m) : Counted fd opt m' := by
  obtain ⟨line, sender, o, sent, passed, -, ho, hs, rfl, ha, hout, -, hrounds⟩ := round_cases h
  have hcount : o.nFrame = UInt16.ofNat m.rounds.length := ho.2.2.trans hm.counter
  constructor
  · rw [hout, hrounds, List.length_append, List.length_singleton, UInt16.ofNat_add]
    exact congrArg (· + 1) (hs.output.2.2.trans hcount)
  · intro k r hr
    rw [hrounds] at hr
    rcases Nat.lt_or_ge k m.rounds.length with hk | hk
    · rw [List.getElem?_append_left hk] at hr
      exact hm.answers k r hr
    · rw [List.getElem?_append_right hk] at hr
      obtain ⟨hlt, hr⟩ := List.getElem?_eq_some_iff.mp hr
      rw [List.length_singleton] at hlt
      have hk : k = m.rounds.length := by omega
      rw [List.getElem_singleton] at hr
      subst hr
      obtain ⟨sent, he, hsub, hall⟩ := hs.sent
      rw [List.nil_append] at he
      rw [he]
      exact ⟨passed, ha, fun f hf => by rw [(hs.sendable f hf).1.2.2, hcount, hk], hsub, hall⟩

/-- **The number of a frame** is the number of the round that sends it. -/
theorem main_counted {n : Nat} {input : Frame} {line : σ} {files : FileSystem} {m : State σ}
    (h : main fd opt room memory waits n (start input line files) = .ok (some m)) :
    Counted fd opt m :=
  main_induct (fun _ _ => round_counted) h ⟨rfl, fun k r hr => (by cases hr)⟩

/-- **Numbering** holds in the runs whose requests all arrive in turn, and on a line that takes
every frame it holds in no other. -/
theorem numbering {n : Nat} {input : Frame} {line : σ} {files : FileSystem} {m : State σ}
    (h : main fd opt room memory waits n (start input line files) = .ok (some m)) :
    (InTurn opt m.rounds → ∀ r ∈ m.rounds, Numbered r.sent) ∧
      (Succeeds fd → (∀ r ∈ m.rounds, Numbered r.sent) → InTurn opt m.rounds) := by
  have hm := main_counted h
  constructor
  · intro hturn r hr
    obtain ⟨k, hk⟩ := List.mem_iff_getElem?.mp hr
    obtain ⟨passed, ha, hnum, hsub, -⟩ := hm.answers k r hk
    exact numbered_of_answer ha hnum hsub (hturn k r hk)
  · intro hfd hall k r hk hty
    obtain ⟨passed, ha, hnum, -, he⟩ := hm.answers k r hk
    have hn := hall r (List.mem_iff_getElem?.mpr ⟨k, hk⟩)
    rw [he hfd] at hn
    exact inTurn_of_numbered ha hnum hfd hn hty

end

theorem numbering_oneRequest :
    ∃ m, main (tty oneRequest some) sampleOpt 0 sampleMemory 1 1
        (start sampleRequest (0, []) fun _ => none) = .ok (some m) ∧
      (InTurn sampleOpt m.rounds → ∀ r ∈ m.rounds, Numbered r.sent) ∧
      (Succeeds (tty oneRequest some) → (∀ r ∈ m.rounds, Numbered r.sent) →
        InTurn sampleOpt m.rounds) := by
  obtain ⟨m, hrun, -⟩ := main_oneRequest some sampleOpt rfl
  exact ⟨m, hrun, numbering hrun⟩

/-- Two data frames' worth. -/
def longImg : NamedImg := ⟨⟨List.replicate 513 7, 513, List.length_replicate⟩, sampleDir⟩

def longOpt : Opt := ⟨sampleDir, [longImg, longImg]⟩

/-- **The first answer** of a run: all its frames carry the number 0, the two data frames too. -/
theorem longImg_not_numbered :
    (∀ img ∈ longOpt.imgs, totolFrames img.toImg ≤ 0xFFFF) ∧
    ∃ m, main (tty oneRequest some) longOpt 0 sampleMemory 1 1
        (start sampleRequest (0, []) fun _ => none) = .ok (some m) ∧
      ∃ r ∈ m.rounds, (∃ f ∈ r.sent, f.nFrame.toNat = 0) ∧
        (dataFrames r.sent).length = 2 ∧ ¬ ((dataFrames r.sent).map (·.nFrame)).Nodup ∧
        ¬ Numbered r.sent := by
  refine ⟨by decide, ?_⟩
  have hfd : Succeeds (tty oneRequest some) := fun s bs h => (by cases h)
  obtain ⟨m, hrun, hround, hty, hn⟩ := main_oneRequest some longOpt rfl
  obtain ⟨-, -, -, sent, -, -, -, -, -, -, -, -, hrounds⟩ := round_cases hround
  have hr : m.rounds[0]? = some ⟨m.inputFrame, sent⟩ := by rw [hrounds]; rfl
  obtain ⟨passed, ha, hnum, -, he⟩ := (main_counted hrun).answers 0 _ hr
  obtain rfl : sent = passed := he hfd
  have hbad : ¬ Numbered sent := fun h => (inTurn_of_numbered ha hnum hfd h hty).1 rfl
  obtain hne | ⟨img, data, last, -, himg, hall, hlast, -, heq⟩ := ha
  · exact absurd hty hne
  · obtain rfl : longImg = img := Option.some.inj ((congrArg (longOpt.imgs[·.toNat]?) hn).symm.trans
      himg)
    obtain ⟨f, g, rfl⟩ := List.length_eq_two.mp (heq hfd)
    refine ⟨m, hrun, _, List.mem_iff_getElem?.mpr ⟨0, hr⟩, ?_, ?_⟩
    · exact ⟨last, by simp, by rw [hnum last (by simp)]; rfl⟩
    · rw [dataFrames_answer hall hlast]
      exact ⟨rfl, not_nodup_of_eq ((hnum f (by simp)).trans (hnum g (by simp)).symm) [], hbad⟩

end DeepSpace.Master
