import DeepSpace.Window
import Mathlib.Data.List.Range
import Mathlib.Tactic.Ring

/-!
# `axi-tangxi`: burst loops

The data of the driver, the loops of `axi_tangxi.c` that cut a transfer into bursts,
and the part of `libaxitangxi.c` that fills in the argument of the call.  The clock,
the interrupts and what the PL does with a burst are not here.

* `bursts_eq`: the bursts of a loop, for every size and every burst length;
* `count_dataInit`: they are as many as `axitangxi_data_init` counts.
-/

namespace DeepSpace.AxiTangxi

open DeepSpace.Window

/-! ## Data -/

def BURST_SIZE : Nat := 65536

def ADDR_ALIGN_BASE_16 : Nat := 0x0010

def ADDR_ALIGN_BASE_16_MASK : Nat := 0x000F

def ETIME : Int := 62

def uint32 (n : Nat) : Nat := n % 2 ^ 32

def uint64 (n : Nat) : Nat := n % 2 ^ 64

/-- `struct axitangxi_transaction`; the PS addresses are those of user space. -/
structure Transaction where
  txDataSize : Nat
  rxDataSize : Nat
  burstSize : Nat
  burstCount : Nat
  burstData : Nat
  txDataPsPtr : Nat
  rxDataPsPtr : Nat
  txDataPlPtr : Nat
  rxDataPlPtr : Nat
  node : UInt8

/-- `struct axitangxi_transfer`; all addresses are physical. -/
structure Transfer where
  txDataSize : Nat
  rxDataSize : Nat
  burstSize : Nat
  burstCount : Nat
  burstData : Nat
  txDataPsPtr : Nat
  rxDataPsPtr : Nat
  txDataPlPtr : Nat
  rxDataPlPtr : Nat
  node : UInt8

/-- `struct axitangxi_allocation`: an entry of `addr_list`. -/
structure Allocation where
  size : Nat
  userAddr : Nat
  physAddr : Nat
  deriving DecidableEq

/-- `axitangxi_data_init`, and the copy of the device into the ioctl argument. -/
def dataInit (dev : Transaction) (txSize rxSize txBuf rxBuf : Nat) : Transaction :=
  { dev with
    burstSize := BURST_SIZE
    txDataSize := txSize
    rxDataSize := rxSize
    burstCount := uint64 (txSize + 2 ^ 64 - 1) / (BURST_SIZE * 16) + 1
    burstData := BURST_SIZE * 16
    txDataPsPtr := txBuf
    rxDataPsPtr := rxBuf
    txDataPlPtr := uint32 txBuf
    rxDataPlPtr := uint32 txBuf }

def uservirtToPhys : List Allocation → Nat → Nat
  | [], _ => 0
  | a :: iter, userAddr =>
    if a.userAddr = userAddr then a.physAddr else uservirtToPhys iter userAddr

/-- The first statements of `axitangxi_psddr_plddr_loopback`, up to its first `printk`. -/
def transfer (addrList : List Allocation) (trans : Transaction) : Transfer :=
  let txDataPsPtr := uservirtToPhys addrList trans.txDataPsPtr
  { txDataSize := trans.txDataSize
    rxDataSize := trans.rxDataSize
    burstSize := trans.burstSize
    burstCount := trans.burstCount
    burstData := trans.burstData
    rxDataPsPtr := uservirtToPhys addrList trans.rxDataPsPtr
    txDataPsPtr := txDataPsPtr
    rxDataPlPtr := txDataPsPtr
    txDataPlPtr := txDataPsPtr
    node := trans.node }

/-- The ten `printk`s load the words at `tx_data_ps_ptr`, which is a pointer of user space: can
they be read? -/
def txReadable (readable : Nat → Bool) (trans : Transaction) : Bool :=
  (List.range 10).all fun i => (List.range 4).all fun b => readable (trans.txDataPsPtr + 4 * i + b)

/-! ## Registers -/

/-- The four registers that program one burst. -/
structure Burst where
  mm2sAddr : Nat
  mm2sSize : Nat
  s2mmAddr : Nat
  s2mmSize : Nat
  deriving DecidableEq

def mm2sPsDataS2mmPl (txDataPsAddr rxDataPlAddr burstSize : Nat) : Burst where
  mm2sAddr := txDataPsAddr
  mm2sSize := uint32 (burstSize + 2 ^ 32 - 1)
  s2mmAddr := rxDataPlAddr
  s2mmSize := uint32 (burstSize + 2 ^ 32 - 1)

def s2mmPsDataMm2sPl (rxDataPsAddr txDataPlAddr burstSize : Nat) : Burst where
  mm2sAddr := txDataPlAddr
  mm2sSize := uint32 (burstSize + 2 ^ 32 - 1)
  s2mmAddr := rxDataPsAddr
  s2mmSize := uint32 (burstSize + 2 ^ 32 - 1)

/-! ## Loops -/

/-- The variables of a burst loop. -/
structure Loop where
  dataRemaining : Nat
  burstSize : Nat
  burstData : Nat
  psNext : Nat
  plNext : Nat

namespace Loop

/-- The last burst: what remains, rounded up to 16 bytes. -/
def lastBurst (l : Loop) : Loop :=
  if l.dataRemaining < l.burstData then
    let dataRemaining :=
      if l.dataRemaining &&& ADDR_ALIGN_BASE_16_MASK ≠ 0x00 then
        uint32 (l.dataRemaining +
          (ADDR_ALIGN_BASE_16 - (l.dataRemaining &&& ADDR_ALIGN_BASE_16_MASK)))
      else l.dataRemaining
    { l with dataRemaining, burstSize := dataRemaining >>> 4, burstData := dataRemaining }
  else l

/-- `data_remaining -= burst_data`. -/
def subtract (l : Loop) : Loop :=
  { l with dataRemaining := uint32 (l.dataRemaining + 2 ^ 32 - l.burstData) }

/-- The PS address of the next burst.  No statement changes the PL address. -/
def advance (l : Loop) : Loop := { l with psNext := uint32 (l.psNext + l.burstData) }

/-- The bursts that the loop programs, if it ends within `fuel` iterations. -/
def bursts (program : Nat → Nat → Nat → Burst) : Nat → Loop → Option (List Burst)
  | 0, l => if l.dataRemaining > 0 then none else some []
  | fuel + 1, l =>
    if l.dataRemaining > 0 then
      let l := l.lastBurst.subtract
      (bursts program fuel l.advance).map (program l.psNext l.plNext l.burstSize :: ·)
    else some []

end Loop

/-- The first statements of `axitangxi_psddr_plddr`. -/
def psddrPlddrStart (t : Transfer) : Loop where
  dataRemaining := uint32 t.txDataSize
  burstSize := uint32 t.burstSize
  burstData := uint32 t.burstData
  psNext := t.txDataPsPtr
  plNext := t.txDataPlPtr

/-- The first statements of `axitangxi_plddr_psddr`; this loop, too, runs over
`tx_data_size`. -/
def plddrPsddrStart (t : Transfer) : Loop where
  dataRemaining := uint32 t.txDataSize
  burstSize := uint32 t.burstSize
  burstData := uint32 t.burstData
  psNext := t.rxDataPsPtr
  plNext := t.txDataPlPtr

def psddrPlddr (fuel : Nat) (t : Transfer) : Option (List Burst) :=
  (psddrPlddrStart t).bursts mm2sPsDataS2mmPl fuel

def plddrPsddr (fuel : Nat) (t : Transfer) : Option (List Burst) :=
  (plddrPsddrStart t).bursts s2mmPsDataMm2sPl fuel

/-! ## One iteration -/

/-- The next multiple of 16. -/
def aligned (n : Nat) : Nat := (n + 15) / 16 * 16

theorem uint32_of_lt {n : Nat} (h : n < 2 ^ 32) : uint32 n = n := Nat.mod_eq_of_lt h

theorem uint32_add (m n : Nat) : uint32 (uint32 m + n) = uint32 (m + n) := by
  unfold uint32
  omega

theorem mask_eq (n : Nat) : n &&& ADDR_ALIGN_BASE_16_MASK = n % 16 :=
  Nat.and_two_pow_sub_one_eq_mod n 4

variable {l : Loop}

theorem subtract_of_le (hle : l.burstData ≤ l.dataRemaining) (hl : l.dataRemaining < 2 ^ 32) :
    l.subtract = { l with dataRemaining := l.dataRemaining - l.burstData } := by
  have hr : uint32 (l.dataRemaining + 2 ^ 32 - l.burstData) = l.dataRemaining - l.burstData := by
    unfold uint32
    omega
  rw [Loop.subtract, hr]

theorem lastBurst_of_le (h : l.burstData ≤ l.dataRemaining) : l.lastBurst = l :=
  if_neg (by omega)

theorem lastBurst_of_lt (h : l.dataRemaining < l.burstData)
    (hl : aligned l.dataRemaining < 2 ^ 32) :
    l.lastBurst = { l with
      dataRemaining := aligned l.dataRemaining
      burstSize := aligned l.dataRemaining / 16
      burstData := aligned l.dataRemaining } := by
  have hr : (if l.dataRemaining &&& ADDR_ALIGN_BASE_16_MASK ≠ 0x00 then
      uint32 (l.dataRemaining +
        (ADDR_ALIGN_BASE_16 - (l.dataRemaining &&& ADDR_ALIGN_BASE_16_MASK)))
      else l.dataRemaining) = aligned l.dataRemaining := by
    rw [mask_eq]
    unfold aligned ADDR_ALIGN_BASE_16 uint32 at *
    split <;> omega
  rw [Loop.lastBurst, if_pos h]
  simp only [hr, Nat.shiftRight_eq_div_pow, Nat.reducePow]

/-! ## The whole loop -/

theorem bursts_of_zero (program : Nat → Nat → Nat → Burst) (fuel : Nat)
    (h : l.dataRemaining = 0) : l.bursts program fuel = some [] := by
  cases fuel <;> simp [Loop.bursts, h]

/-- More fuel changes nothing. -/
theorem bursts_mono {program : Nat → Nat → Nat → Burst} {fuel : Nat} {bs : List Burst}
    (h : l.bursts program fuel = some bs) (more : Nat) :
    l.bursts program (fuel + more) = some bs := by
  induction fuel generalizing l bs with
  | zero =>
    by_cases h0 : l.dataRemaining > 0
    · rw [Loop.bursts, if_pos h0] at h
      cases h
    · rw [Loop.bursts, if_neg h0] at h
      rw [bursts_of_zero program _ (Nat.eq_zero_of_not_pos h0), h]
  | succ fuel ih =>
    rw [Nat.add_right_comm]
    by_cases h0 : l.dataRemaining > 0
    · rw [Loop.bursts, if_pos h0] at h ⊢
      obtain ⟨bs', hb, rfl⟩ := Option.map_eq_some_iff.mp h
      simp only [ih hb, Option.map_some]
    · rw [Loop.bursts, if_neg h0] at h ⊢
      exact h

/-- A full burst. -/
theorem bursts_of_le (program : Nat → Nat → Nat → Burst) (fuel : Nat)
    (h0 : 0 < l.dataRemaining) (h : l.burstData ≤ l.dataRemaining)
    (hl : l.dataRemaining < 2 ^ 32) :
    l.bursts program (fuel + 1) =
      (Loop.bursts program fuel { l with
        dataRemaining := l.dataRemaining - l.burstData
        psNext := uint32 (l.psNext + l.burstData) }).map
        (program l.psNext l.plNext l.burstSize :: ·) := by
  rw [Loop.bursts, if_pos h0, lastBurst_of_le h, subtract_of_le h hl]
  rfl

/-- A short burst. -/
theorem bursts_of_lt (program : Nat → Nat → Nat → Burst) (fuel : Nat)
    (h0 : 0 < l.dataRemaining) (h : l.dataRemaining < l.burstData)
    (hl : aligned l.dataRemaining < 2 ^ 32) :
    l.bursts program (fuel + 1) =
      some [program l.psNext l.plNext (aligned l.dataRemaining / 16)] := by
  rw [Loop.bursts, if_pos h0, lastBurst_of_lt h hl]
  rw [subtract_of_le le_rfl hl]
  simp only [Nat.sub_self]
  rw [bursts_of_zero program fuel (by rfl)]
  rfl

/-- The number of bursts of `D` bytes for `S` bytes. -/
def count (D S : Nat) : Nat := (S + (D - 1)) / D

/-- Burst `k` is for the `D` bytes at `p + D * k`, or for what is left of them up to the
next multiple of 16. -/
def schedule (program : Nat → Nat → Nat → Burst) (D S p q : Nat) : List Burst :=
  (List.range (count D S)).map fun k =>
    program (uint32 (p + D * k)) q (chunk D (aligned S) k / 16)

section

variable (program : Nat → Nat → Nat → Burst) {D S : Nat} (p q : Nat)

theorem count_of_lt (h0 : 0 < S) (h : S < D) : count D S = 1 := by
  rw [count, show S + (D - 1) = S - 1 + D by omega, Nat.add_div_right _ (by omega),
    Nat.div_eq_of_lt (by omega)]

theorem count_of_le (hD : 0 < D) (h : D ≤ S) : count D S = count D (S - D) + 1 := by
  rw [count, count, ← Nat.add_div_right _ hD]
  congr 1
  omega

theorem schedule_zero (hD : 0 < D) : schedule program D 0 p q = [] := by
  have h0 : count D 0 = 0 := Nat.div_eq_of_lt (by omega)
  rw [schedule, h0]
  rfl

theorem schedule_of_lt (h0 : 0 < S) (h : S < D) (hD : 16 ∣ D) :
    schedule program D S p q = [program (uint32 p) q (aligned S / 16)] := by
  have hc : chunk D (aligned S) 0 = aligned S := by
    unfold chunk aligned
    omega
  rw [schedule, count_of_lt h0 h]
  simp [hc]

theorem schedule_of_le (hD : 0 < D) (h : D ≤ S) (h16 : 16 ∣ D) :
    schedule program D S p q =
      program (uint32 p) q (D / 16) :: schedule program D (S - D) (p + D) q := by
  have hc : chunk D (aligned S) 0 = D := by
    unfold chunk aligned
    omega
  have hk : ∀ k, chunk D (aligned S) (k + 1) = chunk D (aligned (S - D)) k := by
    intro k
    have hm : D * (k + 1) = D * k + D := Nat.mul_succ D k
    unfold chunk aligned
    omega
  have hp : ∀ k, p + D * (k + 1) = p + D + D * k := by
    intro k
    rw [Nat.mul_succ]
    omega
  rw [schedule, schedule, count_of_le hD h, List.range_succ_eq_map]
  simp [hc, hk, hp, Function.comp_def]

/-- **A burst loop**, with bursts of `B` beats of 16 bytes. -/
theorem bursts_eq {B : Nat} (hB : 1 ≤ B) (hD : 16 * B < 2 ^ 32) (hS : S < 2 ^ 32) (fuel : Nat)
    (hfuel : count (16 * B) S ≤ fuel) :
    Loop.bursts program fuel ⟨S, B, 16 * B, uint32 p, q⟩ =
      some (schedule program (16 * B) S p q) := by
  induction fuel generalizing S p with
  | zero =>
    have h0 : S = 0 := by
      by_contra hne
      by_cases hlt : S < 16 * B
      · rw [count_of_lt (by omega) hlt] at hfuel
        omega
      · rw [count_of_le (by omega) (by omega)] at hfuel
        omega
    rw [bursts_of_zero program 0 h0, h0, schedule_zero program p q (by omega)]
  | succ fuel ih =>
    by_cases h0 : S = 0
    · rw [bursts_of_zero program _ h0, h0, schedule_zero program p q (by omega)]
    · have hpos : 0 < S := Nat.pos_of_ne_zero h0
      by_cases hlt : S < 16 * B
      · have ha : aligned S < 2 ^ 32 := by
          unfold aligned
          omega
        rw [bursts_of_lt (l := ⟨S, B, 16 * B, uint32 p, q⟩) program fuel hpos hlt ha,
          schedule_of_lt program p q hpos hlt ⟨B, rfl⟩]
      · have hle : 16 * B ≤ S := Nat.le_of_not_lt hlt
        have hc := count_of_le (by omega) hle
        have hr := ih (S := S - 16 * B) (p + 16 * B) (by omega) (by omega)
        rw [bursts_of_le (l := ⟨S, B, 16 * B, uint32 p, q⟩) program fuel hpos hle hS, uint32_add,
          schedule_of_le program p q (by omega) hle ⟨B, rfl⟩, Nat.mul_div_cancel_left B (by omega)]
        exact congrArg (Option.map _) hr

end

/-- What the loops need of a transfer: bursts of whole beats, within 32 bits. -/
structure Transfer.Regular (t : Transfer) : Prop where
  burstSize_pos : 1 ≤ t.burstSize
  burstData_eq : t.burstData = 16 * t.burstSize
  burstData_lt : t.burstData < 2 ^ 32
  txDataSize_lt : t.txDataSize < 2 ^ 32

section

variable {t : Transfer} (ht : t.Regular) (fuel : Nat)
  (hfuel : count t.burstData t.txDataSize ≤ fuel)
include ht hfuel

theorem Transfer.Regular.bursts_eq (program : Nat → Nat → Nat → Burst) {p : Nat} (q : Nat)
    (hp : p < 2 ^ 32) :
    Loop.bursts program fuel
        ⟨uint32 t.txDataSize, uint32 t.burstSize, uint32 t.burstData, p, q⟩ =
      some (schedule program t.burstData t.txDataSize p q) := by
  have hB := ht.burstData_eq
  have hD := ht.burstData_lt
  rw [hB] at hD hfuel
  rw [hB, uint32_of_lt ht.txDataSize_lt, uint32_of_lt hD, uint32_of_lt (by omega),
    ← AxiTangxi.bursts_eq program p q ht.burstSize_pos hD ht.txDataSize_lt fuel hfuel,
    uint32_of_lt hp]

theorem psddrPlddr_eq (hp : t.txDataPsPtr < 2 ^ 32) :
    psddrPlddr fuel t =
      some (schedule mm2sPsDataS2mmPl t.burstData t.txDataSize t.txDataPsPtr t.txDataPlPtr) :=
  ht.bursts_eq fuel hfuel _ _ hp

theorem plddrPsddr_eq (hp : t.rxDataPsPtr < 2 ^ 32) :
    plddrPsddr fuel t =
      some (schedule s2mmPsDataMm2sPl t.burstData t.txDataSize t.rxDataPsPtr t.txDataPlPtr) :=
  ht.bursts_eq fuel hfuel _ _ hp

end

/-- What the bursts of a loop do, one by one. -/
theorem foldl_schedule {β : Type} {program : Nat → Nat → Nat → Burst} {D S p q : Nat}
    (f : β → Burst → β) (F : Nat → β)
    (hstep : ∀ k < count D S,
      f (F k) (program (uint32 (p + D * k)) q (chunk D (aligned S) k / 16)) = F (k + 1)) :
    (schedule program D S p q).foldl f (F 0) = F (count D S) := by
  have key : ∀ n ≤ count D S, ((List.range n).map fun k =>
      program (uint32 (p + D * k)) q (chunk D (aligned S) k / 16)).foldl f (F 0) = F n := by
    intro n hn
    induction n with
    | zero => rfl
    | succ n ih =>
      rw [List.range_succ, List.map_append, List.foldl_append, ih (by omega)]
      exact hstep n (by omega)
  exact key _ le_rfl

/-- The count of `axitangxi_data_init` is that of the loops. -/
theorem count_dataInit (dev : Transaction) (S rxSize txBuf rxBuf : Nat) (h0 : 0 < S)
    (hS : S < 2 ^ 64) :
    count (BURST_SIZE * 16) S = (dataInit dev S rxSize txBuf rxBuf).burstCount := by
  have hw : uint64 (S + 2 ^ 64 - 1) = S - 1 := by
    unfold uint64
    omega
  change (S + (BURST_SIZE * 16 - 1)) / (BURST_SIZE * 16) =
    uint64 (S + 2 ^ 64 - 1) / (BURST_SIZE * 16) + 1
  rw [hw, BURST_SIZE]
  omega

end DeepSpace.AxiTangxi
