import DeepSpace.AxiTangxi
import DeepSpace.Memory

/-!
# The loopback on the memories

Every programmed burst is taken to copy `16 * (SIZE + 1)` bytes, in programming order
and to completion before the next.  The times that the two waits leave are arguments.

* `toPl_schedule`, `toPs_schedule`: the loops fill, and drain, one window of the PL;
* `identity_iff`: so the bytes come back iff bytes one burst apart are equal.
-/

namespace DeepSpace.AxiTangxi

open DeepSpace.Window DeepSpace.Memory

/-! ## The board -/

/-- The memories of the two sides. -/
structure Board where
  ps : Nat → UInt8
  pl : Nat → UInt8

def Burst.length (b : Burst) : Nat := 16 * (b.s2mmSize + 1)

namespace Board

def toPl (m : Board) (b : Burst) : Board :=
  { m with pl := copy m.ps b.mm2sAddr b.s2mmAddr b.length m.pl }

def toPs (m : Board) (b : Burst) : Board :=
  { m with ps := copy m.pl b.mm2sAddr b.s2mmAddr b.length m.ps }

end Board

/-- `axitangxi_psddr_plddr_loopback` behind its loads. -/
def runLoops (fuel : Nat) (axitxTrans : Transfer) (timeRemain₁ timeRemain₂ : Nat) (m : Board) :
    Option (Int × Board) := do
  let m := (← psddrPlddr fuel axitxTrans).foldl Board.toPl m
  if timeRemain₁ = 0 then
    return (-ETIME, m)
  let m := (← plddrPsddr fuel axitxTrans).foldl Board.toPs m
  if timeRemain₂ = 0 then
    return (-ETIME, m)
  return (0, m)

/-- `axitangxi_psddr_plddr_loopback`: the return value and the board, or the fault of a load.
`readable` says which addresses of user space can be read. -/
def psddrPlddrLoopback (fuel : Nat) (addrList : List Allocation) (readable : Nat → Bool)
    (trans : Transaction) (timeRemain₁ timeRemain₂ : Nat) (m : Board) :
    C (Option (Int × Board)) := do
  let axitxTrans := transfer addrList trans
  if txReadable readable trans then
    return runLoops fuel axitxTrans timeRemain₁ timeRemain₂ m
  else .error .outOfBounds

/-! ## The loops -/

theorem length_mm2sPsDataS2mmPl (p q : Nat) {c : Nat} (h0 : 0 < c) (h16 : 16 ∣ c)
    (hc : c < 2 ^ 32) : (mm2sPsDataS2mmPl p q (c / 16)).length = c := by
  change 16 * (uint32 (c / 16 + 2 ^ 32 - 1) + 1) = c
  unfold uint32
  omega

theorem length_s2mmPsDataMm2sPl (p q : Nat) {c : Nat} (h0 : 0 < c) (h16 : 16 ∣ c)
    (hc : c < 2 ^ 32) : (s2mmPsDataMm2sPl p q (c / 16)).length = c :=
  length_mm2sPsDataS2mmPl q p h0 h16 hc

/-- Every burst of the loop has bytes to carry, up to a multiple of 16. -/
theorem chunk_spec {D S k : Nat} (hD : 16 ∣ D) (h0 : 0 < D) (hk : k < count D S) :
    0 < chunk D (aligned S) k ∧ 16 ∣ chunk D (aligned S) k ∧ chunk D (aligned S) k ≤ D ∧
      D * k + chunk D (aligned S) k ≤ aligned S := by
  have hlt : D * k < S := by
    have h := (Nat.lt_div_iff_mul_lt h0).mp hk
    rw [Nat.mul_comm] at h
    omega
  obtain ⟨d, rfl⟩ := hD
  have hm : 16 * d * k = 16 * (d * k) := Nat.mul_assoc 16 d k
  unfold chunk aligned
  omega

section

variable {D S p : Nat} (q : Nat) (m : Board)

/-- **PS to PL.**  The PL address never moves. -/
theorem toPl_schedule (hD : 16 ∣ D) (h0 : 0 < D) (h32 : D < 2 ^ 32) (hp : p + aligned S ≤ 2 ^ 32) :
    (schedule mm2sPsDataS2mmPl D S p q).foldl Board.toPl m =
      { m with pl := fill D (aligned S) m.ps p q m.pl (count D S) } := by
  refine foldl_schedule Board.toPl
    (fun n => { m with pl := fill D (aligned S) m.ps p q m.pl n }) fun k hk => ?_
  obtain ⟨hpos, h16, hle, hend⟩ := chunk_spec hD h0 hk
  rw [uint32_of_lt (by omega), Board.toPl, length_mm2sPsDataS2mmPl _ _ hpos h16 (by omega)]
  rfl

/-- **PL to PS.**  Nor does it here. -/
theorem toPs_schedule (hD : 16 ∣ D) (h0 : 0 < D) (h32 : D < 2 ^ 32) (hp : p + aligned S ≤ 2 ^ 32) :
    (schedule s2mmPsDataMm2sPl D S p q).foldl Board.toPs m =
      { m with ps := drain D (aligned S) m.pl q p m.ps (count D S) } := by
  refine foldl_schedule Board.toPs
    (fun n => { m with ps := drain D (aligned S) m.pl q p m.ps n }) fun k hk => ?_
  obtain ⟨hpos, h16, hle, hend⟩ := chunk_spec hD h0 hk
  rw [uint32_of_lt (by omega), Board.toPs, length_s2mmPsDataMm2sPl _ _ hpos h16 (by omega)]
  rfl

end

/-! ## The buffers -/

/-- `a` is the newest entry of `addr_list` for the address, and as `axitangxi_mmap` leaves
it: whole pages that are mapped at the address, here within the reach of 32 bits. -/
structure Registered (addrList : List Allocation) (readable : Nat → Bool) (userAddr : Nat)
    (a : Allocation) : Prop where
  found : addrList.find? (fun b => b.userAddr = userAddr) = some a
  mapped : ∀ i < a.size, readable (userAddr + i) = true
  phys_aligned : 4096 ∣ a.physAddr
  size_aligned : 4096 ∣ a.size
  reach : a.physAddr + a.size ≤ 2 ^ 32

def Disjoint (a b : Allocation) : Prop :=
  a.physAddr + a.size ≤ b.physAddr ∨ b.physAddr + b.size ≤ a.physAddr

variable {addrList : List Allocation} {readable : Nat → Bool} {userAddr : Nat}
  {a tx rx : Allocation}

theorem uservirtToPhys_of_find? (h : addrList.find? (fun b => b.userAddr = userAddr) = some a) :
    uservirtToPhys addrList userAddr = a.physAddr := by
  induction addrList with
  | nil => cases h
  | cons b iter ih =>
    rw [List.find?_cons] at h
    by_cases hb : b.userAddr = userAddr
    · simp only [hb, decide_true, Option.some.injEq] at h
      rw [uservirtToPhys, if_pos hb, h]
    · simp only [hb, decide_false] at h
      rw [uservirtToPhys, if_neg hb, ih h]

/-- A buffer has room for the bytes up to the next multiple of 16. -/
theorem Registered.aligned_le (h : Registered addrList readable userAddr a) {S : Nat}
    (hS : S ≤ a.size) : aligned S ≤ a.size := by
  have := h.size_aligned
  unfold aligned
  omega

/-- The ten words are in the first page of the buffer. -/
theorem Registered.txReadable {trans : Transaction}
    (h : Registered addrList readable trans.txDataPsPtr a) (h0 : 0 < a.size) :
    txReadable readable trans = true := by
  have h40 : 40 ≤ a.size := by
    have := h.size_aligned
    omega
  refine List.all_eq_true.mpr fun i hi => List.all_eq_true.mpr fun b hb => ?_
  have hi := List.mem_range.mp hi
  have hb := List.mem_range.mp hb
  rw [Nat.add_assoc]
  exact h.mapped _ (by omega)

/-! ## The call -/

theorem psddrPlddrLoopback_of_readable {trans : Transaction}
    (h : txReadable readable trans = true) (fuel timeRemain₁ timeRemain₂ : Nat) (m : Board) :
    psddrPlddrLoopback fuel addrList readable trans timeRemain₁ timeRemain₂ m =
      .ok (runLoops fuel (transfer addrList trans) timeRemain₁ timeRemain₂ m) := if_pos h

theorem psddrPlddrLoopback_of_not_readable {trans : Transaction}
    (h : txReadable readable trans = false) (fuel timeRemain₁ timeRemain₂ : Nat) (m : Board) :
    psddrPlddrLoopback fuel addrList readable trans timeRemain₁ timeRemain₂ m =
      .error .outOfBounds := if_neg (by rw [h]; exact Bool.false_ne_true)

/-- **The two loops**: a buffer is copied to one window of the PL, and back from it. -/
theorem runLoops_eq (trans : Transaction) {P Q : Nat} (h0 : 0 < trans.txDataSize)
    (ht : (transfer addrList trans).Regular)
    (hP : uservirtToPhys addrList trans.txDataPsPtr = P)
    (hQ : uservirtToPhys addrList trans.rxDataPsPtr = Q)
    (hPS : P + aligned trans.txDataSize ≤ 2 ^ 32) (hQS : Q + aligned trans.txDataSize ≤ 2 ^ 32)
    (fuel : Nat) (hfuel : count trans.burstData trans.txDataSize ≤ fuel)
    {timeRemain₁ timeRemain₂ : Nat} (h₁ : timeRemain₁ ≠ 0) (h₂ : timeRemain₂ ≠ 0) (m : Board) :
    runLoops fuel (transfer addrList trans) timeRemain₁ timeRemain₂ m =
      let D := trans.burstData
      let R := aligned trans.txDataSize
      let n := count D trans.txDataSize
      let pl := fill D R m.ps P P m.pl n
      some (0, { ps := drain D R pl P Q m.ps n, pl }) := by
  have hpos : 0 < aligned trans.txDataSize := by
    unfold aligned
    omega
  have hB : trans.burstData = 16 * trans.burstSize := ht.burstData_eq
  have hB1 : 1 ≤ trans.burstSize := ht.burstSize_pos
  have h32 : trans.burstData < 2 ^ 32 := ht.burstData_lt
  have hs₁ : psddrPlddr fuel (transfer addrList trans) =
      some (schedule mm2sPsDataS2mmPl trans.burstData trans.txDataSize P P) := by
    rw [psddrPlddr_eq ht fuel hfuel (by change uservirtToPhys _ _ < _; omega), ← hP]
    rfl
  have hs₂ : plddrPsddr fuel (transfer addrList trans) =
      some (schedule s2mmPsDataMm2sPl trans.burstData trans.txDataSize Q P) := by
    rw [plddrPsddr_eq ht fuel hfuel (by change uservirtToPhys _ _ < _; omega), ← hP, ← hQ]
    rfl
  simp only [runLoops, hs₁, hs₂, Option.bind_eq_bind, Option.bind_some, if_neg h₁,
    if_neg h₂]
  rw [toPl_schedule P m ⟨_, hB⟩ (by omega) h32 hPS, toPs_schedule P _ ⟨_, hB⟩ (by omega) h32 hQS]
  rfl

/-- The bytes of the receive buffer are those of the send buffer. -/
def Identity (S : Nat) (tx rx : Allocation) (m : Board) : Prop :=
  ∀ i < S, m.ps (rx.physAddr + i) = m.ps (tx.physAddr + i)

/-- Bytes of the send buffer that are one burst apart are equal. -/
def Periodic (S : Nat) (tx : Allocation) (m : Board) : Prop :=
  ∀ i, i + BURST_SIZE * 16 < aligned S →
    m.ps (tx.physAddr + i) = m.ps (tx.physAddr + (i + BURST_SIZE * 16))

theorem dataInit_regular (dev : Transaction) {S : Nat} (hS : S < 2 ^ 32)
    (rxSize txBuf rxBuf : Nat) :
    (transfer addrList (dataInit dev S rxSize txBuf rxBuf)).Regular := by
  constructor
  · exact (by decide : 1 ≤ BURST_SIZE)
  · exact Nat.mul_comm BURST_SIZE 16
  · exact (by decide : BURST_SIZE * 16 < 2 ^ 32)
  · exact hS

theorem aligned_le_count {D S : Nat} (hD : 16 ∣ D) (h0 : 0 < D) :
    aligned S ≤ D * count D S := by
  have hdiv : D * ((S + (D - 1)) / D) + (S + (D - 1)) % D = S + (D - 1) := Nat.div_add_mod _ _
  have hmod : (S + (D - 1)) % D < D := Nat.mod_lt _ h0
  obtain ⟨d, rfl⟩ := hD
  have hm : 16 * d * ((S + (16 * d - 1)) / (16 * d)) =
    16 * (d * ((S + (16 * d - 1)) / (16 * d))) := Nat.mul_assoc _ _ _
  unfold aligned count
  omega

/-- What both loops leave, for a buffer at `P` and one at `Q`. -/
theorem drain_fill_iff {D S P Q : Nat} (ps pl : Nat → UInt8) (hD : 16 ∣ D) (h0 : 0 < D)
    (hdisj : P + aligned S ≤ Q ∨ Q + aligned S ≤ P) :
    let window := fill D (aligned S) ps P P pl (count D S)
    let ps' := drain D (aligned S) window P Q ps (count D S)
    (∀ i < S, ps' (Q + i) = ps' (P + i)) ↔
      ∀ i, i + D < aligned S → ps (P + i) = ps (P + (i + D)) := by
  intro window ps'
  have hn := aligned_le_count (S := S) hD h0
  have hSR : S ≤ aligned S ∧ aligned S ≤ S + D := by
    obtain ⟨d, rfl⟩ := hD
    unfold aligned
    omega
  have hlast : ∀ j < aligned S, aligned S ≤ j + D → window (P + j % D) = ps (P + j) :=
    fun j hj hl => fill_window ps P P pl _ j (by omega) (by omega)
  have hrx : ∀ i < S, ps' (Q + i) = window (P + i % D) := fun i hi =>
    drain_place window P Q ps _ i (by omega)
  have htx : ∀ i < S, ps' (P + i) = ps (P + i) := fun i hi =>
    drain_frame window P Q ps _ _ (by omega)
  rw [← agree_iff (fun i => ps (P + i)) (fun i => window (P + i)) hSR.1 hSR.2 h0 hlast]
  exact forall₂_congr fun i hi => by rw [hrx i hi, htx i hi]

/-- **The loopback.**  A call that returns 0 has brought the bytes back iff bytes one
burst apart were equal: all bursts of a call go through the first burst of the PL. -/
theorem identity_iff (dev : Transaction) (txBuf rxBuf S : Nat) (m : Board) (h0 : 1 ≤ S)
    (htx : Registered addrList readable txBuf tx) (hrx : Registered addrList readable rxBuf rx)
    (hdisj : Disjoint tx rx) (hStx : S ≤ tx.size) (hSrx : S ≤ rx.size) (fuel : Nat)
    (hfuel : (dataInit dev S S txBuf rxBuf).burstCount ≤ fuel) (timeRemain₁ timeRemain₂ : Nat)
    (h₁ : timeRemain₁ ≠ 0) (h₂ : timeRemain₂ ≠ 0) :
    ∃ m', psddrPlddrLoopback fuel addrList readable (dataInit dev S S txBuf rxBuf)
        timeRemain₁ timeRemain₂ m = .ok (some (0, m')) ∧
      (Identity S tx rx m' ↔ Periodic S tx m) := by
  have hrt := htx.reach
  have hrr := hrx.reach
  have hat := htx.aligned_le hStx
  have har := hrx.aligned_le hSrx
  unfold Disjoint at hdisj
  have hS : S < 2 ^ 32 := by omega
  rw [← count_dataInit dev S S txBuf rxBuf h0 (by omega)] at hfuel
  have hfit : tx.physAddr + aligned S ≤ 2 ^ 32 ∧ rx.physAddr + aligned S ≤ 2 ^ 32 := by omega
  have hread : txReadable readable (dataInit dev S S txBuf rxBuf) = true :=
    Registered.txReadable htx (by omega)
  have hrun := runLoops_eq (dataInit dev S S txBuf rxBuf) h0
    (dataInit_regular dev hS S txBuf rxBuf) (uservirtToPhys_of_find? htx.found)
    (uservirtToPhys_of_find? hrx.found) hfit.1 hfit.2 fuel hfuel h₁ h₂ m
  rw [psddrPlddrLoopback_of_readable hread, hrun]
  exact ⟨_, rfl, drain_fill_iff m.ps m.pl ⟨BURST_SIZE, Nat.mul_comm _ _⟩
    (by decide : 0 < BURST_SIZE * 16) (by omega)⟩

/-! ## One byte more than a burst -/

/-- Two buffers of 1 MiB and one page. -/
def sampleTx : Allocation := ⟨0x101000, 0x10000000, 0x20000000⟩

def sampleRx : Allocation := ⟨0x101000, 0x11000000, 0x30000000⟩

def sampleTransaction : Transaction := ⟨0, 0, 0, 0, 0, 0, 0, 0, 0, 0⟩

/-- Only the first byte of the send buffer is not 0. -/
def sampleBoard : Board := ⟨fun a => if a = 0x20000000 then 1 else 0, fun _ => 0⟩

/-- Both are mapped, and nothing else is. -/
def sampleReadable (addr : Nat) : Bool :=
  0x10000000 ≤ addr && addr < 0x10101000 || 0x11000000 ≤ addr && addr < 0x11101000

theorem sampleTx_registered :
    Registered [sampleTx, sampleRx] sampleReadable 0x10000000 sampleTx := by
  refine ⟨by decide, fun i hi => ?_, by decide, by decide, by decide⟩
  have hi : i < 0x101000 := hi
  simp [sampleReadable]
  omega

theorem sampleRx_registered :
    Registered [sampleTx, sampleRx] sampleReadable 0x11000000 sampleRx := by
  refine ⟨by decide, fun i hi => ?_, by decide, by decide, by decide⟩
  have hi : i < 0x101000 := hi
  simp [sampleReadable]
  omega

theorem sample_disjoint : Disjoint sampleTx sampleRx := .inl (by decide)

theorem identity_iff_sampleBoard :
    ∃ m', psddrPlddrLoopback 2 [sampleTx, sampleRx] sampleReadable
        (dataInit sampleTransaction 1048577 1048577 0x10000000 0x11000000) 1 1 sampleBoard =
          .ok (some (0, m')) ∧
      (Identity 1048577 sampleTx sampleRx m' ↔ Periodic 1048577 sampleTx sampleBoard) :=
  identity_iff sampleTransaction 0x10000000 0x11000000 1048577 sampleBoard (by decide)
    sampleTx_registered sampleRx_registered sample_disjoint (by decide) (by decide) 2 (by decide)
    1 1 (by decide) (by decide)

/-- The second burst overwrites the first byte. -/
theorem sampleBoard_lost :
    Registered [sampleTx, sampleRx] sampleReadable 0x10000000 sampleTx ∧
      Registered [sampleTx, sampleRx] sampleReadable 0x11000000 sampleRx ∧
      Disjoint sampleTx sampleRx ∧
    ∃ m', psddrPlddrLoopback 2 [sampleTx, sampleRx] sampleReadable
        (dataInit sampleTransaction 1048577 1048577 0x10000000 0x11000000) 1 1 sampleBoard =
          .ok (some (0, m')) ∧
      ¬ Identity 1048577 sampleTx sampleRx m' := by
  have hrun : (runLoops 2 (transfer [sampleTx, sampleRx]
      (dataInit sampleTransaction 1048577 1048577 0x10000000 0x11000000)) 1 1 sampleBoard).map
      (fun r => (r.1, r.2.ps sampleTx.physAddr, r.2.ps sampleRx.physAddr)) = some (0, 1, 0) := by
    decide +kernel
  obtain ⟨⟨rc, m'⟩, hm, he⟩ := Option.map_eq_some_iff.mp hrun
  simp only [Prod.mk.injEq] at he
  obtain ⟨rfl, htx, hrx⟩ := he
  refine ⟨sampleTx_registered, sampleRx_registered, sample_disjoint, m', ?_, fun h => ?_⟩
  · rw [psddrPlddrLoopback_of_readable (by decide), hm]
  have h0 := h 0 (by decide)
  rw [Nat.add_zero, Nat.add_zero, htx, hrx] at h0
  exact absurd h0 (by decide)

end DeepSpace.AxiTangxi
