import DeepSpace.Loopback
import DeepSpace.Memory

/-!
# What a loopback leaves behind

* `loopback_memory`: both memories after a call, byte by byte, for any size, any length of the
  bursts and any end of the two waits;
* `test_count`: what `axitangxi_test.c` counts, for any size of its buffers.
-/

namespace DeepSpace.AxiTangxi

open DeepSpace.Window DeepSpace.Memory

/-! ## The memories -/

/-- `R` bytes from `P` on went through the window, `D` bytes a burst. -/
structure Filled (D R P : Nat) (m m' : Board) : Prop where
  window : ∀ j < R, m'.pl (P + j % D) = m.ps (P + lastWriter D R j)
  frame : ∀ a, a < P ∨ P + min D R ≤ a → m'.pl a = m.pl a

/-- The window went to the `R` bytes from `Q` on, again and again. -/
structure Drained (D R P Q : Nat) (m m' : Board) : Prop where
  place : ∀ j < R, m'.ps (Q + j) = m.ps (P + lastWriter D R j)
  frame : ∀ a, a < Q ∨ Q + R ≤ a → m'.ps a = m.ps a

section

variable {addrList : List Allocation} {trans : Transaction} {P Q : Nat}
  (h0 : 0 < trans.txDataSize) (ht : (transfer addrList trans).Regular)
  (hP : uservirtToPhys addrList trans.txDataPsPtr = P)
  (hQ : uservirtToPhys addrList trans.rxDataPsPtr = Q)
  (hPS : P + aligned trans.txDataSize ≤ 2 ^ 32) (hQS : Q + aligned trans.txDataSize ≤ 2 ^ 32)
  (fuel : Nat) (hfuel : count trans.burstData trans.txDataSize ≤ fuel)
  (timeRemain₁ timeRemain₂ : Nat) (m : Board)

include h0 ht hP hQ hPS hQS hfuel

/-- The call, whatever the waits leave. -/
theorem loopback_eq : runLoops fuel (transfer addrList trans) timeRemain₁ timeRemain₂ m =
    let D := trans.burstData
    let R := aligned trans.txDataSize
    let n := count D trans.txDataSize
    let pl := fill D R m.ps P P m.pl n
    some (if timeRemain₁ = 0 ∨ timeRemain₂ = 0 then -ETIME else 0,
      { ps := if timeRemain₁ = 0 then m.ps else drain D R pl P Q m.ps n, pl }) := by
  have hpos : 0 < aligned trans.txDataSize := by
    unfold aligned
    omega
  have hB : trans.burstData = 16 * trans.burstSize := ht.burstData_eq
  have hB1 : 1 ≤ trans.burstSize := ht.burstSize_pos
  have h32 : trans.burstData < 2 ^ 32 := ht.burstData_lt
  have hs₁ : psddrPlddr fuel (transfer addrList trans) =
      some (schedule mm2sPsDataS2mmPl trans.burstData trans.txDataSize P P) := by
    rw [psddrPlddr_eq ht fuel hfuel (by change uservirtToPhys _ _ < _; omega), ← hP]
    rfl
  have hs₂ : plddrPsddr fuel (transfer addrList trans) =
      some (schedule s2mmPsDataMm2sPl trans.burstData trans.txDataSize Q P) := by
    rw [plddrPsddr_eq ht fuel hfuel (by change uservirtToPhys _ _ < _; omega), ← hP, ← hQ]
    rfl
  simp only [runLoops, hs₁, hs₂, Option.bind_eq_bind, Option.bind_some,
    toPl_schedule P m ⟨_, hB⟩ (by omega) h32 hPS]
  by_cases h₁ : timeRemain₁ = 0
  · simp [h₁]
  · rw [if_neg h₁, toPs_schedule P _ ⟨_, hB⟩ (by omega) h32 hQS]
    by_cases h₂ : timeRemain₂ = 0 <;> simp [h₁, h₂]

/-- What the two loops leave in the memories. -/
theorem loopback_spec : ∃ m', runLoops fuel (transfer addrList trans) timeRemain₁ timeRemain₂ m =
      some (if timeRemain₁ = 0 ∨ timeRemain₂ = 0 then -ETIME else 0, m') ∧
    Filled trans.burstData (aligned trans.txDataSize) P m m' ∧
    if timeRemain₁ = 0 then m'.ps = m.ps
    else Drained trans.burstData (aligned trans.txDataSize) P Q m m' := by
  have hB : trans.burstData = 16 * trans.burstSize := ht.burstData_eq
  have hB1 : 1 ≤ trans.burstSize := ht.burstSize_pos
  have hD : 0 < trans.burstData := by omega
  have hR := aligned_le_count (S := trans.txDataSize) ⟨_, hB⟩ hD
  refine ⟨_, loopback_eq h0 ht hP hQ hPS hQS fuel hfuel timeRemain₁ timeRemain₂ m, ⟨?_, ?_⟩, ?_⟩
  · intro j hj
    exact fill_lastWriter _ _ _ _ hD _ hR hj
  · intro a ha
    exact fill_frame _ _ _ _ _ _ ha
  · by_cases h₁ : timeRemain₁ = 0
    · simp only [if_pos h₁]
    · simp only [if_neg h₁]
      refine ⟨fun j hj => ?_, fun a ha => ?_⟩
      · dsimp only
        rw [drain_place _ _ _ _ _ _ (by rw [Nat.min_eq_right hR]; exact hj)]
        exact fill_lastWriter _ _ _ _ hD _ hR hj
      · exact drain_frame _ _ _ _ _ _ ha

end

/-- **After a loopback**: the window of the PL, and behind the second wait the receive buffer,
hold the bytes that were the last ones to go through the window, and nothing else has changed. -/
theorem loopback_memory {addrList : List Allocation} {readable : Nat → Bool}
    {trans : Transaction} {tx rx : Allocation}
    (h0 : 0 < trans.txDataSize) (ht : (transfer addrList trans).Regular)
    (htx : Registered addrList readable trans.txDataPsPtr tx)
    (hrx : Registered addrList readable trans.rxDataPsPtr rx) (hStx : trans.txDataSize ≤ tx.size)
    (hSrx : trans.txDataSize ≤ rx.size) (fuel : Nat)
    (hfuel : count trans.burstData trans.txDataSize ≤ fuel) (timeRemain₁ timeRemain₂ : Nat)
    (m : Board) :
    ∃ m', psddrPlddrLoopback fuel addrList readable trans timeRemain₁ timeRemain₂ m =
        .ok (some (if timeRemain₁ = 0 ∨ timeRemain₂ = 0 then -ETIME else 0, m')) ∧
      Filled trans.burstData (aligned trans.txDataSize) tx.physAddr m m' ∧
      if timeRemain₁ = 0 then m'.ps = m.ps
      else Drained trans.burstData (aligned trans.txDataSize) tx.physAddr rx.physAddr m m' := by
  have hAtx := htx.aligned_le hStx
  have hArx := hrx.aligned_le hSrx
  have hPtx := htx.reach
  have hPrx := hrx.reach
  obtain ⟨m', hrun, hm'⟩ := loopback_spec h0 ht (uservirtToPhys_of_find? htx.found)
    (uservirtToPhys_of_find? hrx.found) (by omega) (by omega) fuel hfuel timeRemain₁ timeRemain₂ m
  refine ⟨m', ?_, hm'⟩
  rw [psddrPlddrLoopback_of_readable (htx.txReadable (by omega)), hrun]

/-- Three bursts of one beat each, and the wait for the way back times out. -/
theorem loopback_memory_sample :
    ∃ m', psddrPlddrLoopback 3 [sampleTx, sampleRx] sampleReadable
        ⟨40, 40, 1, 3, 16, 0x10000000, 0x11000000, 0, 0, 0⟩ 1 0 sampleBoard =
          .ok (some (if 1 = 0 ∨ 0 = 0 then -ETIME else 0, m')) ∧
      Filled 16 (aligned 40) sampleTx.physAddr sampleBoard m' ∧
      if 1 = 0 then m'.ps = sampleBoard.ps
      else Drained 16 (aligned 40) sampleTx.physAddr sampleRx.physAddr sampleBoard m' :=
  loopback_memory (by decide) ⟨by decide, by decide, by decide, by decide⟩ sampleTx_registered
    sampleRx_registered (by decide) (by decide) 3 (by decide) 1 0 sampleBoard

/-! ## `axitangxi_test.c` -/

/-- The 32-bit word at `a`. -/
def loadWord (ps : Nat → UInt8) (a : Nat) : Nat :=
  leValue ((List.range 4).map fun i => ps (a + i))

def storeWord (ps : Nat → UInt8) (a v : Nat) : Nat → UInt8 := fun x =>
  if a ≤ x ∧ x < a + 4 then (leBytes 4 v).getD (x - a) 0 else ps x

def memset (ps : Nat → UInt8) (a : Nat) (c : UInt8) (n : Nat) : Nat → UInt8 := fun x =>
  if a ≤ x ∧ x < a + n then c else ps x

/-- `memset`, and the loop that numbers the words of the buffer. -/
def numberWords (ps : Nat → UInt8) (tx txSize : Nat) : Nat → UInt8 :=
  (List.range (txSize / 4)).foldl (fun ps i => storeWord ps (tx + 4 * i) (i + 1))
    (memset ps tx 0 txSize)

/-- `verify_data`, behind the pointers `tx` and `rx`; `len` is an `int`. -/
def verifyData (ps : Nat → UInt8) (txDataSize tx rx : Nat) : Nat :=
  let len := Int.bmod (txDataSize / 4 : Nat) (2 ^ 32)
  (List.range len.toNat).countP fun i => loadWord ps (rx + 4 * i) ≠ loadWord ps (tx + 4 * i)

theorem loadWord_congr {ps ps' : Nat → UInt8} {a b : Nat}
    (h : ∀ i < 4, ps (a + i) = ps' (b + i)) : loadWord ps a = loadWord ps' b := by
  refine congrArg leValue (List.map_congr_left fun i hi => ?_)
  exact h i (List.mem_range.mp hi)

theorem loadWord_storeWord (ps : Nat → UInt8) (a : Nat) {v : Nat} (hv : v < 2 ^ 32) :
    loadWord (storeWord ps a v) a = v := by
  have hbytes : (List.range 4).map (fun i => storeWord ps a v (a + i)) = leBytes 4 v := by
    refine List.ext_getElem (by simp) fun i hi hi' => ?_
    rw [leBytes_length] at hi'
    rw [List.getElem_map, List.getElem_range, storeWord, if_pos (by omega), Nat.add_sub_cancel_left]
    simp [hi']
  rw [loadWord, hbytes, leValue_leBytes 4 v hv]

theorem loadWord_storeWord_of_ne (ps : Nat → UInt8) (v : Nat) {a b : Nat}
    (h : b + 4 ≤ a ∨ a + 4 ≤ b) : loadWord (storeWord ps a v) b = loadWord ps b := by
  refine loadWord_congr fun i hi => ?_
  rw [storeWord, if_neg (by omega)]

theorem loadWord_foldl_storeWord (ps : Nat → UInt8) (tx : Nat) {n i : Nat} (hn : n < 2 ^ 32)
    (hi : i < n) : loadWord ((List.range n).foldl
      (fun ps i => storeWord ps (tx + 4 * i) (i + 1)) ps) (tx + 4 * i) = i + 1 := by
  induction n with
  | zero => cases hi
  | succ n ih =>
    rw [List.range_succ, List.foldl_append, List.foldl_cons, List.foldl_nil]
    obtain rfl | hlt := Nat.eq_or_lt_of_le (Nat.le_of_lt_succ hi)
    · exact loadWord_storeWord _ _ (by omega)
    · rw [loadWord_storeWord_of_ne _ _ (by omega), ih (by omega) hlt]

/-- **The words** are numbered from 1. -/
theorem loadWord_numberWords (ps : Nat → UInt8) (tx : Nat) {txSize i : Nat}
    (hsize : txSize < 2 ^ 32) (hi : i < txSize / 4) :
    loadWord (numberWords ps tx txSize) (tx + 4 * i) = i + 1 :=
  loadWord_foldl_storeWord _ tx (by omega) hi

theorem countP_range_lt (n k : Nat) : (List.range n).countP (· < k) = min n k := by
  induction n with
  | zero => simp
  | succ n ih =>
    rw [List.range_succ, List.countP_append, ih, List.countP_singleton]
    by_cases h : n < k <;> simp [h] <;> omega

/-- The words of a buffer that are behind the window when the last ones have gone through it. -/
theorem countP_lastWriter {D : Nat} (hD : 0 < D) (n : Nat) :
    (List.range n).countP (fun i => lastWriter D n i ≠ i) = n - D := by
  have hiff : ∀ i ∈ List.range n,
      decide (lastWriter D n i ≠ i) = true ↔ decide (i < n - D) = true := by
    intro i hi
    rw [decide_eq_true_iff, decide_eq_true_iff, ne_eq,
      lastWriter_eq_self_iff hD (List.mem_range.mp hi)]
    omega
  rw [List.countP_congr hiff, countP_range_lt]
  omega

/-- `main`, from the buffers to the count, for buffers of `size` bytes; 1 MiB in the source.  What
the call returns is not looked at before the data is compared. -/
def axitangxiTest (fuel : Nat) (addrList : List Allocation) (readable : Nat → Bool)
    (dev : Transaction) (txBuffer rxBuffer size timeRemain₁ timeRemain₂ : Nat) (m : Board) :
    C (Option (Int × Nat)) := do
  let tx := uservirtToPhys addrList txBuffer
  let rx := uservirtToPhys addrList rxBuffer
  let m := { m with ps := numberWords m.ps tx size }
  let result ← psddrPlddrLoopback fuel addrList readable
    (dataInit dev size size txBuffer rxBuffer) timeRemain₁ timeRemain₂ m
  return result.map fun (rc, m) => (rc, verifyData m.ps size tx rx)

/-- Whole words came through the window. -/
theorem loadWord_drained {k n P Q : Nat} {m m' : Board} (h : Drained (4 * k) (4 * n) P Q m m')
    {i : Nat} (hi : i < n) :
    loadWord m'.ps (Q + 4 * i) = loadWord m.ps (P + 4 * lastWriter k n i) := by
  refine loadWord_congr fun b hb => ?_
  rw [Nat.add_assoc, h.place _ (by omega), lastWriter_mul hb hi, Nat.add_assoc]

/-- **The count** over memories that a loopback left behind. -/
theorem verifyData_drained {n P Q : Nat} {m m' : Board} (hn : 4 * n < 2 ^ 32)
    (hdisj : P + 4 * n ≤ Q ∨ Q + 4 * n ≤ P) (hsent : ∀ i < n, loadWord m.ps (P + 4 * i) = i + 1)
    (h : Drained (4 * 2 ^ 18) (4 * n) P Q m m') : verifyData m'.ps (4 * n) P Q = n - 2 ^ 18 := by
  have hlen : (Int.bmod (4 * n / 4 : Nat) (2 ^ 32)).toNat = n := by
    rw [Nat.mul_div_cancel_left n (by decide), Int.bmod_eq_of_le (by omega) (by omega),
      Int.toNat_natCast]
  -- the word that the receive buffer has in a place, and the one that was sent from there
  have hwords : ∀ i ∈ List.range n,
      decide (loadWord m'.ps (Q + 4 * i) ≠ loadWord m'.ps (P + 4 * i)) = true ↔
        decide (lastWriter (2 ^ 18) n i ≠ i) = true := by
    intro i hi
    have hi := List.mem_range.mp hi
    have hkept : loadWord m'.ps (P + 4 * i) = i + 1 := by
      rw [← hsent i hi]
      exact loadWord_congr fun b hb => h.frame _ (by omega)
    rw [loadWord_drained h hi, hkept, hsent _ (lastWriter_lt (2 ^ 18) hi), decide_eq_true_iff,
      decide_eq_true_iff]
    omega
  rw [verifyData, hlen, List.countP_congr hwords, countP_lastWriter (by decide)]

/-- **The count** of the test: the words behind the first 1 MiB, each of them once. -/
theorem test_count {addrList : List Allocation} {readable : Nat → Bool}
    {txBuffer rxBuffer size : Nat} {tx rx : Allocation} (dev : Transaction) (h16 : 16 ∣ size)
    (h0 : 0 < size)
    (htx : Registered addrList readable txBuffer tx)
    (hrx : Registered addrList readable rxBuffer rx) (hdisj : Disjoint tx rx)
    (hStx : size ≤ tx.size) (hSrx : size ≤ rx.size) (fuel : Nat)
    (hfuel : (dataInit dev size size txBuffer rxBuffer).burstCount ≤ fuel)
    {timeRemain₁ : Nat} (h₁ : timeRemain₁ ≠ 0) (timeRemain₂ : Nat) (m : Board) :
    axitangxiTest fuel addrList readable dev txBuffer rxBuffer size timeRemain₁ timeRemain₂ m =
      .ok (some (if timeRemain₂ = 0 then -ETIME else 0, size / 4 - 2 ^ 18)) := by
  have hPtx := htx.reach
  have hPrx := hrx.reach
  unfold Disjoint at hdisj
  have hlt : size < 2 ^ 32 := by omega
  obtain ⟨n, rfl⟩ : ∃ n, size = 4 * n := ⟨size / 4, by omega⟩
  have hal : aligned (4 * n) = 4 * n := by
    unfold aligned
    omega
  have htxP := uservirtToPhys_of_find? htx.found
  have hrxP := uservirtToPhys_of_find? hrx.found
  have hcount : count (BURST_SIZE * 16) (4 * n) ≤ fuel := by
    rw [count_dataInit dev (4 * n) (4 * n) txBuffer rxBuffer h0 (by omega)]
    exact hfuel
  obtain ⟨m', hcall, -, hps⟩ := @loopback_spec addrList
    (dataInit dev (4 * n) (4 * n) txBuffer rxBuffer) tx.physAddr rx.physAddr h0
    (dataInit_regular dev hlt (4 * n) txBuffer rxBuffer) htxP hrxP
    (by change tx.physAddr + aligned (4 * n) ≤ _; omega)
    (by change rx.physAddr + aligned (4 * n) ≤ _; omega) fuel hcount timeRemain₁ timeRemain₂
    { m with ps := numberWords m.ps tx.physAddr (4 * n) }
  rw [if_neg h₁] at hps
  have hdrained : Drained (4 * 2 ^ 18) (4 * n) tx.physAddr rx.physAddr
      { m with ps := numberWords m.ps tx.physAddr (4 * n) } m' := by
    rw [show aligned (dataInit dev (4 * n) (4 * n) txBuffer rxBuffer).txDataSize = 4 * n from hal]
      at hps
    exact hps
  have hsent : ∀ i < n, loadWord (numberWords m.ps tx.physAddr (4 * n)) (tx.physAddr + 4 * i) =
      i + 1 := fun i hi => loadWord_numberWords m.ps tx.physAddr hlt (by omega)
  have hread : txReadable readable (dataInit dev (4 * n) (4 * n) txBuffer rxBuffer) = true :=
    Registered.txReadable htx (by omega)
  rw [axitangxiTest, htxP, hrxP, psddrPlddrLoopback_of_readable hread]
  simp only [hcall, bind, Except.bind, pure, Except.pure, Option.map_some, or_iff_right h₁,
    verifyData_drained hlt (by omega) hsent hdrained, Nat.mul_div_cancel_left n (by decide : 0 < 4)]

/-- Buffers of one page more than the source has. -/
theorem test_count_page :
    axitangxiTest 2 [sampleTx, sampleRx] sampleReadable sampleTransaction 0x10000000 0x11000000
      0x101000 1 1 sampleBoard = .ok (some (if 1 = 0 then -ETIME else 0, 0x101000 / 4 - 2 ^ 18)) :=
  test_count sampleTransaction (by decide) (by decide) sampleTx_registered sampleRx_registered
    sample_disjoint (by decide) (by decide) 2 (by decide) (by decide) 1 sampleBoard

end DeepSpace.AxiTangxi
