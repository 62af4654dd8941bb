import DeepSpace.Containment

/-!
# The schedule of the bursts

The four loops of `axi_tangxi.c` that cut a transfer into bursts, with the flags that two of
them assign.

* `run_eq`: what any of them does, iteration by iteration;
* `burst_schedule`: the bursts of a transfer whose argument fits;
* `sound_iff`: the arguments for which the loops end and program no empty burst.
-/

namespace DeepSpace.AxiTangxi

open DeepSpace.Window

/-! ## The loops -/

/-- The four registers of a burst that goes to the chip. -/
structure NocBurst where
  mm2sPsAddr : Nat
  mm2sPsSize : Nat
  nocDataPkgAddr : Nat
  nocDataPkgCtl : Nat
  deriving DecidableEq

def mm2sPsDataTangxi (txDataPsAddr rxDataPlAddr burstSize chipPosition : Nat) (node : UInt8) :
    NocBurst where
  mm2sPsAddr := txDataPsAddr
  mm2sPsSize := uint32 (burstSize + 2 ^ 32 - 1)
  nocDataPkgAddr := uint32 (chipPosition <<< 28) ||| node.toNat <<< 20 ||| rxDataPlAddr
  nocDataPkgCtl := uint32 (uint32 (burstSize + 2 ^ 32 - 1) <<< 10) ||| 0b0000000010

/-- What the iterations of a loop leave, if it ends within `fuel` of them.  An iteration gives
its result, and the variables for the next one. -/
def Loop.run {β : Type} (body : Loop → β × Loop) : Nat → Loop → Option (List β)
  | 0, l => if l.dataRemaining > 0 then none else some []
  | fuel + 1, l =>
    if l.dataRemaining > 0 then (run body fuel (body l).2).map ((body l).1 :: ·) else some []

/-- A burst, and whether the iteration assigns `last_s2mm_pl_done`. -/
def psddrPlddrBody (l : Loop) : (Burst × Bool) × Loop :=
  let l := l.lastBurst.subtract
  let lastS2mmPlDone := decide (l.dataRemaining = 0)
  ((mm2sPsDataS2mmPl l.psNext l.plNext l.burstSize, lastS2mmPlDone), l.advance)

/-- A burst, and whether the iteration assigns `last_s2mm_ps_done`. -/
def plddrPsddrBody (l : Loop) : (Burst × Bool) × Loop :=
  let l := l.lastBurst.subtract
  let lastS2mmPsDone := decide (l.dataRemaining = 0)
  ((s2mmPsDataMm2sPl l.psNext l.plNext l.burstSize, lastS2mmPsDone), l.advance)

/-- Here the address moves on before `data_remaining` is counted down. -/
def batchMm2sPsDataTangxiBody (l : Loop) : NocBurst × Loop :=
  let l := l.lastBurst
  (mm2sPsDataTangxi l.psNext l.plNext l.burstSize 0 3, l.advance.subtract)

def batchS2mmPsDataMm2sPlBody (l : Loop) : Burst × Loop :=
  let l := l.lastBurst
  (s2mmPsDataMm2sPl l.psNext l.plNext l.burstSize, l.advance.subtract)

/-- The first statements of `batch_mm2s_ps_data_tangxi`. -/
def batchMm2sPsDataTangxiStart (t : Transfer) : Loop where
  dataRemaining := uint32 t.txDataSize
  burstSize := uint32 t.burstSize
  burstData := uint32 t.burstData
  psNext := t.txDataPsPtr
  plNext := t.rxDataPlPtr

/-- The first statements of `batch_s2mm_ps_data_mm2s_pl`: only this loop runs over
`rx_data_size`. -/
def batchS2mmPsDataMm2sPlStart (t : Transfer) : Loop where
  dataRemaining := uint32 t.rxDataSize
  burstSize := uint32 t.burstSize
  burstData := uint32 t.burstData
  psNext := t.rxDataPsPtr
  plNext := t.rxDataPlPtr

def axitangxiPsddrPlddr (fuel : Nat) (t : Transfer) : Option (List (Burst × Bool)) :=
  (psddrPlddrStart t).run psddrPlddrBody fuel

def axitangxiPlddrPsddr (fuel : Nat) (t : Transfer) : Option (List (Burst × Bool)) :=
  (plddrPsddrStart t).run plddrPsddrBody fuel

def batchMm2sPsDataTangxi (fuel : Nat) (t : Transfer) : Option (List NocBurst) :=
  (batchMm2sPsDataTangxiStart t).run batchMm2sPsDataTangxiBody fuel

def batchS2mmPsDataMm2sPl (fuel : Nat) (t : Transfer) : Option (List Burst) :=
  (batchS2mmPsDataMm2sPlStart t).run batchS2mmPsDataMm2sPlBody fuel

/-! ## One schedule -/

/-- The four bodies agree on the variables: they give `visit` of those that the burst is
programmed with, and go on in the same way. -/
structure Visits {β : Type} (body : Loop → β × Loop) (visit : Loop → β) : Prop where
  result : ∀ l, (body l).1 = visit l.lastBurst.subtract
  next : ∀ l, (body l).2 = l.lastBurst.subtract.advance

theorem psddrPlddr_visits : Visits psddrPlddrBody fun l =>
    (mm2sPsDataS2mmPl l.psNext l.plNext l.burstSize, decide (l.dataRemaining = 0)) :=
  ⟨fun _ => rfl, fun _ => rfl⟩

theorem plddrPsddr_visits : Visits plddrPsddrBody fun l =>
    (s2mmPsDataMm2sPl l.psNext l.plNext l.burstSize, decide (l.dataRemaining = 0)) :=
  ⟨fun _ => rfl, fun _ => rfl⟩

theorem subtract_plNext (l : Loop) : l.subtract.plNext = l.plNext := by
  cases l
  rfl

/-- Moving on and counting down do not interfere. -/
theorem advance_subtract (l : Loop) : l.advance.subtract = l.subtract.advance := by
  unfold Loop.subtract Loop.advance
  rfl

theorem batchMm2sPsDataTangxi_visits : Visits batchMm2sPsDataTangxiBody fun l =>
    mm2sPsDataTangxi l.psNext l.plNext l.burstSize 0 3 := by
  refine ⟨fun l => ?_, fun l => advance_subtract l.lastBurst⟩
  rw [subtract_psNext, subtract_plNext, subtract_burstSize]
  rfl

theorem batchS2mmPsDataMm2sPl_visits : Visits batchS2mmPsDataMm2sPlBody fun l =>
    s2mmPsDataMm2sPl l.psNext l.plNext l.burstSize := by
  refine ⟨fun l => ?_, fun l => advance_subtract l.lastBurst⟩
  rw [subtract_psNext, subtract_plNext, subtract_burstSize]
  rfl

section

variable {β : Type} {body : Loop → β × Loop} {visit : Loop → β} {l : Loop}

theorem run_of_zero (body : Loop → β × Loop) (fuel : Nat) (h : l.dataRemaining = 0) :
    l.run body fuel = some [] := by
  cases fuel <;> simp [Loop.run, h]

theorem count_zero {D : Nat} (hD : 0 < D) : count D 0 = 0 := Nat.div_eq_of_lt (by omega)

theorem count_pos {D S : Nat} (hD : 0 < D) (hS : 0 < S) : 0 < count D S :=
  Nat.div_pos (by omega) hD

/-- **Any burst loop**, iteration by iteration. -/
theorem run_eq (hv : Visits body visit) (fuel : Nat) (hD : 0 < l.burstData)
    (hl : l.dataRemaining < 2 ^ 32) (hp : l.psNext < 2 ^ 32)
    (hfuel : count l.burstData l.dataRemaining ≤ fuel) :
    l.run body fuel = some ((List.range (count l.burstData l.dataRemaining)).map fun k =>
      visit (l.iteration k).lastBurst.subtract) := by
  induction fuel generalizing l with
  | zero =>
    by_cases h0 : l.dataRemaining = 0
    · rw [run_of_zero body 0 h0, h0, count_zero hD]
      rfl
    · have := count_pos hD (Nat.pos_of_ne_zero h0)
      omega
  | succ fuel ih =>
    by_cases h0 : l.dataRemaining = 0
    · rw [run_of_zero body _ h0, h0, count_zero hD]
      rfl
    · have hpos : 0 < l.dataRemaining := Nat.pos_of_ne_zero h0
      rw [Loop.run, if_pos hpos, hv.result, hv.next]
      by_cases hlt : l.dataRemaining < l.burstData
      · rw [run_of_zero body fuel (l := l.lastBurst.subtract.advance) (lastBurst_remaining hlt),
          count_of_lt hpos hlt, List.range_one, List.map_singleton, iteration_zero hp]
        rfl
      · have hle : l.burstData ≤ l.dataRemaining := not_lt.mp hlt
        have hc := count_of_le hD hle
        have h1 : (l.iteration 1).dataRemaining = l.dataRemaining - l.burstData := by
          change l.dataRemaining - 1 * l.burstData = _
          rw [Nat.one_mul]
        have hr := ih (l := l.iteration 1) hD (by omega) (uint32_lt _) (by
          rw [h1]
          change count l.burstData _ ≤ fuel
          omega)
        rw [h1] at hr
        rw [iteration_one hle hl, hr, hc, List.range_succ_eq_map, List.map_cons, List.map_map,
          iteration_zero hp]
        simp only [Option.map_some, iteration_iteration]
        rfl

/-- Without the flags, the first two loops are those of `bursts`. -/
theorem bursts_eq_run {body : Loop → (Burst × Bool) × Loop} {program : Nat → Nat → Nat → Burst}
    {last : Loop → Bool}
    (hv : Visits body fun l => (program l.psNext l.plNext l.burstSize, last l)) (fuel : Nat)
    (l : Loop) : l.bursts program fuel = (l.run body fuel).map (List.map Prod.fst) := by
  induction fuel generalizing l with
  | zero =>
    rw [Loop.bursts, Loop.run]
    split <;> rfl
  | succ fuel ih =>
    rw [Loop.bursts, Loop.run]
    by_cases h : l.dataRemaining > 0
    · rw [if_pos h, if_pos h, hv.result, hv.next]
      simp only [ih, Option.map_map]
      rfl
    · rw [if_neg h, if_neg h]
      rfl

/-- Where a loop ends, its results are those of the bursts it programs. -/
theorem mem_run_iff (hv : Visits body visit) {fuel : Nat} {bs : List β}
    (h : l.run body fuel = some bs) (b : β) : b ∈ bs ↔ ∃ l', l.Programs l' ∧ b = visit l' := by
  induction fuel generalizing l bs with
  | zero =>
    by_cases h0 : l.dataRemaining > 0
    · rw [Loop.run, if_pos h0] at h
      cases h
    · rw [Loop.run, if_neg h0] at h
      obtain rfl := Option.some.inj h
      simp [not_programs (l := l) (Nat.eq_zero_of_not_pos h0)]
  | succ fuel ih =>
    by_cases h0 : l.dataRemaining > 0
    · rw [Loop.run, if_pos h0] at h
      obtain ⟨bs', hb', rfl⟩ := Option.map_eq_some_iff.mp h
      rw [hv.next] at hb'
      rw [List.mem_cons, ih hb', hv.result]
      constructor
      · rintro (rfl | ⟨l', hl', rfl⟩)
        · exact ⟨_, .now h0, rfl⟩
        · exact ⟨l', .later h0 hl', rfl⟩
      · rintro ⟨l', hl', rfl⟩
        cases hl' with
        | now _ => exact .inl rfl
        | later _ hl' => exact .inr ⟨l', hl', rfl⟩
    · rw [Loop.run, if_neg h0] at h
      obtain rfl := Option.some.inj h
      simp [not_programs (l := l) (Nat.eq_zero_of_not_pos h0)]

theorem isSome_bursts {body : Loop → (Burst × Bool) × Loop} {program : Nat → Nat → Nat → Burst}
    {last : Loop → Bool}
    (hv : Visits body fun l => (program l.psNext l.plNext l.burstSize, last l)) (fuel : Nat)
    (l : Loop) : (l.bursts program fuel).isSome = (l.run body fuel).isSome := by
  rw [bursts_eq_run hv, Option.isSome_map]

/-- The bursts of the first two loops are those that they program. -/
theorem mem_bursts_iff {body : Loop → (Burst × Bool) × Loop} {program : Nat → Nat → Nat → Burst}
    {last : Loop → Bool}
    (hv : Visits body fun l => (program l.psNext l.plNext l.burstSize, last l)) {fuel : Nat}
    {bs : List Burst} (h : l.bursts program fuel = some bs) (b : Burst) :
    b ∈ bs ↔ ∃ l', l.Programs l' ∧ b = program l'.psNext l'.plNext l'.burstSize := by
  rw [bursts_eq_run hv] at h
  obtain ⟨rs, hr, rfl⟩ := Option.map_eq_some_iff.mp h
  rw [List.mem_map]
  constructor
  · rintro ⟨r, hmem, rfl⟩
    obtain ⟨l', hl', rfl⟩ := (mem_run_iff hv hr r).mp hmem
    exact ⟨l', hl', rfl⟩
  · rintro ⟨l', hl', rfl⟩
    exact ⟨_, (mem_run_iff hv hr _).mpr ⟨l', hl', rfl⟩, rfl⟩

end

/-! ## A transfer whose argument fits -/

/-- PS addresses and SIZE registers of the bursts for `S` bytes from `P` on, `B` beats each; the
register holds one less than the beats. -/
structure Scheduled (S B P : Nat) (bursts : List (Nat × Nat)) : Prop where
  length : bursts.length = (S + (16 * B - 1)) / (16 * B)
  address : ∀ k (h : k < bursts.length), bursts[k].1 = (P + 16 * B * k) % 2 ^ 32
  full : ∀ k (h : k + 1 < bursts.length), bursts[k].2 + 1 = B
  last : ∀ b ∈ bursts.getLast?, 1 ≤ b.2 + 1 ∧ b.2 + 1 ≤ B
  total : (bursts.map fun b => 16 * (b.2 + 1)).sum = aligned S

/-- The flag is assigned in the last iteration, and in no other one. -/
def FlagsLast (flags : List Bool) : Prop :=
  ∀ k (h : k < flags.length), flags[k] = true ↔ k + 1 = flags.length

/-- The loop ends, with these results of its iterations. -/
def Ends {β : Type} (loop : Nat → Option (List β)) (results : List β) : Prop :=
  ∀ fuel, results.length ≤ fuel → loop fuel = some results

theorem lt_count_iff {D S k : Nat} (hD : 0 < D) : k < count D S ↔ k * D < S := by
  rw [count, Nat.lt_div_iff_mul_lt hD]
  omega

section

variable {l : Loop}

theorem visit_psNext (l : Loop) (k : Nat) :
    (l.iteration k).lastBurst.subtract.psNext = uint32 (l.psNext + k * l.burstData) :=
  lastBurst_psNext _

theorem visit_remaining (hl : l.dataRemaining < 2 ^ 32) (k : Nat) :
    (l.iteration k).lastBurst.subtract.dataRemaining =
      l.dataRemaining - k * l.burstData - l.burstData := by
  have hr : (l.iteration k).dataRemaining = l.dataRemaining - k * l.burstData := rfl
  have hd : (l.iteration k).burstData = l.burstData := rfl
  by_cases hlt : (l.iteration k).dataRemaining < (l.iteration k).burstData
  · rw [lastBurst_remaining hlt]
    omega
  · rw [lastBurst_of_le (not_lt.mp hlt), subtract_of_le (not_lt.mp hlt) (by omega)]
    rfl

/-- What the burst of an iteration carries, in beats. -/
theorem visit_burstSize {B : Nat} (hB : l.burstSize = B) (hD : l.burstData = 16 * B)
    (h32 : 16 * B < 2 ^ 32) (hl : l.dataRemaining < 2 ^ 32) {k : Nat}
    (hk : k < count (16 * B) l.dataRemaining) :
    (l.iteration k).lastBurst.subtract.burstSize =
      chunk (16 * B) (aligned l.dataRemaining) k / 16 := by
  have hpos : 0 < 16 * B := by
    by_contra h0
    rw [count, Nat.eq_zero_of_not_pos h0, Nat.div_zero] at hk
    omega
  rw [lt_count_iff hpos] at hk
  have hr : (l.iteration k).dataRemaining = l.dataRemaining - k * (16 * B) := by
    change l.dataRemaining - k * l.burstData = _
    rw [hD]
  have hm : 16 * B * k = k * (16 * B) := Nat.mul_comm _ _
  have h16 : k * (16 * B) = 16 * (k * B) := by ring
  rw [lastBurst_burstSize (by omega)]
  change (if l.burstData ≤ (l.iteration k).dataRemaining then l.burstSize else _) = _
  rw [hr, hD, hB]
  unfold chunk aligned uint32
  split <;> omega

/-- The flag of an iteration. -/
theorem visit_last {B : Nat} (hD : l.burstData = 16 * B) (hB : 1 ≤ B)
    (hl : l.dataRemaining < 2 ^ 32) (k : Nat) (hk : k < count (16 * B) l.dataRemaining) :
    (l.iteration k).lastBurst.subtract.dataRemaining = 0 ↔
      k + 1 = count (16 * B) l.dataRemaining := by
  have hlast := lt_count_iff (D := 16 * B) (S := l.dataRemaining) (k := k + 1) (by omega)
  have hm : (k + 1) * (16 * B) = k * (16 * B) + 16 * B := Nat.succ_mul k _
  rw [visit_remaining hl, hD]
  omega

end

section

variable {S B P : Nat}

theorem chunk_beats (hB : 1 ≤ B) {k : Nat} (hk : k < count (16 * B) S) :
    16 * (chunk (16 * B) (aligned S) k / 16) = chunk (16 * B) (aligned S) k ∧
      1 ≤ chunk (16 * B) (aligned S) k / 16 ∧ chunk (16 * B) (aligned S) k / 16 ≤ B := by
  obtain ⟨hpos, h16, hle, -⟩ := chunk_spec ⟨B, rfl⟩ (by omega) hk
  omega

theorem size_succ {b : Nat} (h0 : 1 ≤ b) (hb : b < 2 ^ 32) : uint32 (b + 2 ^ 32 - 1) + 1 = b := by
  unfold uint32
  omega

/-- Every burst but the last is full. -/
theorem chunk_of_lt (hB : 1 ≤ B) {k : Nat} (hk : k + 1 < count (16 * B) S) :
    chunk (16 * B) (aligned S) k = 16 * B := by
  rw [lt_count_iff (by omega), Nat.succ_mul] at hk
  have hm : 16 * B * k = k * (16 * B) := Nat.mul_comm _ _
  unfold chunk aligned
  omega

/-- **The schedule** of a loop, from its iterations. -/
theorem scheduled_of_eq (hB : 1 ≤ B) {bursts : List (Nat × Nat)} {size : Nat → Nat}
    (hsize : ∀ k, k < count (16 * B) S → size k + 1 = chunk (16 * B) (aligned S) k / 16)
    (h : bursts =
      (List.range (count (16 * B) S)).map fun k => (uint32 (P + k * (16 * B)), size k)) :
    Scheduled S B P bursts := by
  have hlen : bursts.length = count (16 * B) S := by
    rw [h, List.length_map, List.length_range]
  refine ⟨hlen, fun k hk => ?_, fun k hk => ?_, fun b hb => ?_, ?_⟩
  · simp only [h, List.getElem_map, List.getElem_range]
    rw [uint32, Nat.mul_comm k]
  · simp only [h, List.getElem_map, List.getElem_range]
    rw [hlen] at hk
    rw [hsize k (by omega), chunk_of_lt hB hk, Nat.mul_div_cancel_left B (by decide)]
  · rw [h] at hb
    obtain ⟨k, hk, rfl⟩ := List.mem_map.mp (List.mem_of_getLast? hb)
    have hlt := List.mem_range.mp hk
    simp only [hsize k hlt]
    exact (chunk_beats hB hlt).2
  · have hsum := sum_chunk (16 * B) (aligned S) (count (16 * B) S)
    have hall := aligned_le_count (S := S) (D := 16 * B) ⟨B, rfl⟩ (by omega)
    rw [Nat.min_eq_right hall] at hsum
    rw [← hsum, h, List.map_map]
    refine congrArg List.sum (List.map_congr_left fun k hk => ?_)
    have hlt := List.mem_range.mp hk
    simp only [Function.comp, hsize k hlt]
    exact (chunk_beats hB hlt).1

end

/-! ## The four loops -/

section

variable {β : Type} {body : Loop → β × Loop} {visit : Loop → β} {S B P Q : Nat}

/-- **One loop** over `S` bytes from `P` on. -/
theorem run_scheduled (hv : Visits body visit) (entry : β → Nat × Nat)
    (hentry : ∀ l, entry (visit l) = (l.psNext, uint32 (l.burstSize + 2 ^ 32 - 1)))
    (hS : S < 2 ^ 32) (hB : 1 ≤ B) (h32 : 16 * B < 2 ^ 32) (hP : P < 2 ^ 32) :
    ∃ results, Ends (fun fuel => Loop.run body fuel ⟨S, B, 16 * B, P, Q⟩) results ∧
      Scheduled S B P (results.map entry) ∧
      ∀ last : β → Bool, (∀ l, last (visit l) = decide (l.dataRemaining = 0)) →
        FlagsLast (results.map last) := by
  have hsize : ∀ k, k < count (16 * B) S →
      uint32 (chunk (16 * B) (aligned S) k / 16 + 2 ^ 32 - 1) + 1 =
        chunk (16 * B) (aligned S) k / 16 := fun k hk => by
    obtain ⟨-, h1, hle⟩ := chunk_beats hB hk
    exact size_succ h1 (by omega)
  refine ⟨_, fun fuel hfuel => run_eq (l := ⟨S, B, 16 * B, P, Q⟩) hv fuel
    (show 0 < 16 * B by omega) hS hP ?_, scheduled_of_eq hB hsize ?_, fun last hlast k hk => ?_⟩
  · rwa [List.length_map, List.length_range] at hfuel
  · rw [List.map_map]
    refine List.map_congr_left fun k hk => ?_
    have hb := visit_burstSize (l := ⟨S, B, 16 * B, P, Q⟩) rfl rfl h32 hS (List.mem_range.mp hk)
    have hp := visit_psNext ⟨S, B, 16 * B, P, Q⟩ k
    rw [Function.comp, hentry, hb, hp]
  · simp only [List.length_map, List.length_range] at hk
    have h := visit_last (l := ⟨S, B, 16 * B, P, Q⟩) rfl hB hS k hk
    simp only [List.getElem_map, List.getElem_range, hlast, decide_eq_true_iff, List.length_map,
      List.length_range]
    exact h

end

/-- **The burst schedule**, in each of the four loops. -/
theorem burst_schedule (t : Transfer) (hB : 1 ≤ t.burstSize) (hD : t.burstData = 16 * t.burstSize)
    (h32 : t.burstData < 2 ^ 32) (hP : t.txDataPsPtr < 2 ^ 32) (hQ : t.rxDataPsPtr < 2 ^ 32) :
    (1 ≤ t.txDataSize → t.txDataSize < 2 ^ 32 →
      (∃ its, Ends (axitangxiPsddrPlddr · t) its ∧
        Scheduled t.txDataSize t.burstSize t.txDataPsPtr
          (its.map fun it => (it.1.mm2sAddr, it.1.mm2sSize)) ∧ FlagsLast (its.map Prod.snd)) ∧
      (∃ its, Ends (axitangxiPlddrPsddr · t) its ∧
        Scheduled t.txDataSize t.burstSize t.rxDataPsPtr
          (its.map fun it => (it.1.s2mmAddr, it.1.s2mmSize)) ∧ FlagsLast (its.map Prod.snd)) ∧
      ∃ bs, Ends (batchMm2sPsDataTangxi · t) bs ∧
        Scheduled t.txDataSize t.burstSize t.txDataPsPtr
          (bs.map fun b => (b.mm2sPsAddr, b.mm2sPsSize))) ∧
    (1 ≤ t.rxDataSize → t.rxDataSize < 2 ^ 32 →
      ∃ bs, Ends (batchS2mmPsDataMm2sPl · t) bs ∧
        Scheduled t.rxDataSize t.burstSize t.rxDataPsPtr
          (bs.map fun b => (b.s2mmAddr, b.s2mmSize))) ∧
    ∀ dev S rxSize txBuf rxBuf, 1 ≤ S → S < 2 ^ 32 →
      (dataInit dev S rxSize txBuf rxBuf).burstCount =
        (S + (16 * BURST_SIZE - 1)) / (16 * BURST_SIZE) := by
  have hB32 : t.burstSize < 2 ^ 32 := by omega
  have hstart : ∀ {S : Nat} (P Q : Nat), S < 2 ^ 32 →
      (⟨uint32 S, uint32 t.burstSize, uint32 t.burstData, P, Q⟩ : Loop) =
        ⟨S, t.burstSize, 16 * t.burstSize, P, Q⟩ := fun P Q hS => by
    rw [uint32_of_lt hS, uint32_of_lt hB32, uint32_of_lt h32, hD]
  rw [hD] at h32
  refine ⟨fun _ hS => ⟨?_, ?_, ?_⟩, fun _ hS => ?_, fun dev S rxSize txBuf rxBuf h0 hS => ?_⟩
  · obtain ⟨its, he, hs, hf⟩ := run_scheduled (Q := t.txDataPlPtr) psddrPlddr_visits
      (fun it => (it.1.mm2sAddr, it.1.mm2sSize)) (fun _ => rfl) hS hB h32 hP
    rw [← hstart _ _ hS] at he
    exact ⟨its, he, hs, hf _ fun _ => rfl⟩
  · obtain ⟨its, he, hs, hf⟩ := run_scheduled (Q := t.txDataPlPtr) plddrPsddr_visits
      (fun it => (it.1.s2mmAddr, it.1.s2mmSize)) (fun _ => rfl) hS hB h32 hQ
    rw [← hstart _ _ hS] at he
    exact ⟨its, he, hs, hf _ fun _ => rfl⟩
  · obtain ⟨bs, he, hs, -⟩ := run_scheduled (Q := t.rxDataPlPtr) batchMm2sPsDataTangxi_visits
      (fun b => (b.mm2sPsAddr, b.mm2sPsSize)) (fun _ => rfl) hS hB h32 hP
    rw [← hstart _ _ hS] at he
    exact ⟨bs, he, hs⟩
  · obtain ⟨bs, he, hs, -⟩ := run_scheduled (Q := t.rxDataPlPtr) batchS2mmPsDataMm2sPl_visits
      (fun b => (b.s2mmAddr, b.s2mmSize)) (fun _ => rfl) hS hB h32 hQ
    rw [← hstart _ _ hS] at he
    exact ⟨bs, he, hs⟩
  · rw [← count_dataInit dev S rxSize txBuf rxBuf h0 (by omega), count, Nat.mul_comm 16]

/-- One byte more than a burst. -/
def sampleTransfer : Transfer :=
  transfer [sampleTx, sampleRx]
    (dataInit sampleTransaction 1048577 1048577 0x10000000 0x11000000)

theorem burst_schedule_sampleTransfer :
    (∃ its, Ends (axitangxiPsddrPlddr · sampleTransfer) its ∧
      Scheduled 1048577 65536 0x20000000 (its.map fun it => (it.1.mm2sAddr, it.1.mm2sSize)) ∧
      FlagsLast (its.map Prod.snd)) ∧
    ∃ bs, Ends (batchS2mmPsDataMm2sPl · sampleTransfer) bs ∧
      Scheduled 1048577 65536 0x30000000 (bs.map fun b => (b.s2mmAddr, b.s2mmSize)) := by
  obtain ⟨htx, hrx, -⟩ := burst_schedule sampleTransfer (by decide) (by decide) (by decide)
    (by decide) (by decide)
  exact ⟨(htx (by decide) (by decide)).1, hrx (by decide) (by decide)⟩

/-! ## Any argument -/

/-- The beats counted down from a size of 0. -/
def Burst.Wrapped (b : Burst) : Prop := b.mm2sSize = 0xFFFFFFFF ∨ b.s2mmSize = 0xFFFFFFFF

/-- Both loops end, and neither programs a burst of no beats, whether it ends or not. -/
structure Sound (t : Transfer) : Prop where
  ends : ∃ fuel, (axitangxiPsddrPlddr fuel t).isSome
  ends' : ∃ fuel, (axitangxiPlddrPsddr fuel t).isSome
  beats : ∀ l, (psddrPlddrStart t).Programs l →
    ¬ (mm2sPsDataS2mmPl l.psNext l.plNext l.burstSize).Wrapped
  beats' : ∀ l, (plddrPsddrStart t).Programs l →
    ¬ (s2mmPsDataMm2sPl l.psNext l.plNext l.burstSize).Wrapped

theorem size_wrapped_iff (b : Nat) : uint32 (b + 2 ^ 32 - 1) = 0xFFFFFFFF ↔ uint32 b = 0 := by
  unfold uint32
  omega

theorem mm2sPsDataS2mmPl_wrapped_iff (p q b : Nat) :
    (mm2sPsDataS2mmPl p q b).Wrapped ↔ uint32 b = 0 := by
  rw [← size_wrapped_iff]
  exact or_self_iff

theorem s2mmPsDataMm2sPl_wrapped_iff (p q b : Nat) :
    (s2mmPsDataMm2sPl p q b).Wrapped ↔ uint32 b = 0 := mm2sPsDataS2mmPl_wrapped_iff q p b

/-- The variables of a loop that ends and programs bursts of some beats only. -/
def Loop.Sound (l : Loop) : Prop :=
  l.dataRemaining = 0 ∨ l.burstData ≠ 0 ∧ (l.burstData ≤ l.dataRemaining → l.burstSize ≠ 0) ∧
    (l.dataRemaining < l.burstData → l.dataRemaining ≤ 2 ^ 32 - 16)

section

variable {l l' : Loop}

/-- The beats of the next burst. -/
theorem lastBurst_beats_iff (hl : l.dataRemaining < 2 ^ 32) (hb : l.burstSize < 2 ^ 32)
    (h0 : 0 < l.dataRemaining) :
    uint32 l.lastBurst.subtract.burstSize ≠ 0 ↔
      (l.burstData ≤ l.dataRemaining → l.burstSize ≠ 0) ∧
        (l.dataRemaining < l.burstData → l.dataRemaining ≤ 2 ^ 32 - 16) := by
  rw [lastBurst_burstSize hl]
  unfold uint32 aligned
  split <;> omega

/-- The next iteration finds such variables again. -/
theorem Loop.Sound.next (h : l.Sound) (hl : l.dataRemaining < 2 ^ 32) (h0 : 0 < l.dataRemaining) :
    l.lastBurst.subtract.advance.Sound ∧
      l.lastBurst.subtract.advance.dataRemaining < 2 ^ 32 ∧
      (l.lastBurst.subtract.advance.dataRemaining = 0 ∨
        l.lastBurst.subtract.advance.burstSize = l.burstSize) := by
  by_cases hlt : l.dataRemaining < l.burstData
  · have hz : l.lastBurst.subtract.advance.dataRemaining = 0 := lastBurst_remaining hlt
    exact ⟨.inl hz, by omega, .inl hz⟩
  · have hle : l.burstData ≤ l.dataRemaining := not_lt.mp hlt
    obtain hz | ⟨hD, hB, -⟩ := h
    · omega
    · have hr : (l.iteration 1).dataRemaining = l.dataRemaining - l.burstData := by
        change l.dataRemaining - 1 * l.burstData = _
        rw [Nat.one_mul]
      rw [iteration_one hle hl]
      refine ⟨.inr ⟨hD, fun _ => hB hle, fun hlt' => ?_⟩, by omega, .inr rfl⟩
      change _ < l.burstData at hlt'
      omega

theorem Loop.Sound.beats (h : l.Programs l') (hs : l.Sound) (hl : l.dataRemaining < 2 ^ 32)
    (hb : l.burstSize < 2 ^ 32) : uint32 l'.burstSize ≠ 0 := by
  induction h with
  | @now l h0 =>
    rw [lastBurst_beats_iff hl hb h0]
    obtain hz | ⟨-, h⟩ := hs
    · omega
    · exact h
  | @later l l' h0 hrest ih =>
    obtain ⟨hs', hl', hz | hb'⟩ := hs.next hl h0
    · exact absurd hrest (not_programs hz)
    · exact ih hs' hl' (hb' ▸ hb)

/-- A loop, whatever it programs. -/
theorem loop_sound_iff (program : Nat → Nat → Nat → Burst) (hl : l.dataRemaining < 2 ^ 32)
    (hb : l.burstSize < 2 ^ 32) :
    ((∃ fuel, (l.bursts program fuel).isSome) ∧ ∀ l', l.Programs l' → uint32 l'.burstSize ≠ 0) ↔
      l.Sound := by
  constructor
  · rintro ⟨hends, hbeats⟩
    rcases Nat.eq_zero_or_pos l.dataRemaining with h0 | h0
    · exact .inl h0
    · exact .inr ⟨((ends_iff program hl).mp hends).resolve_right h0.ne',
        (lastBurst_beats_iff hl hb h0).mp (hbeats _ (.now h0))⟩
  · intro h
    refine ⟨(ends_iff program hl).mpr ?_, fun l' hl' => h.beats hl' hl hb⟩
    rcases h with h0 | ⟨hD, -⟩
    · exact .inr h0
    · exact .inl hD

end

/-- **Any argument.**  The two loops of a loopback end and program no empty burst iff there is
nothing to send, or a burst has bytes to count down, beats where a full one is programmed, and
no remainder is rounded up to 0. -/
theorem sound_iff (addrList : List Allocation) (trans : Transaction) :
    Sound (transfer addrList trans) ↔
      uint32 trans.txDataSize = 0 ∨ uint32 trans.burstData ≠ 0 ∧
        (uint32 trans.burstData ≤ uint32 trans.txDataSize → uint32 trans.burstSize ≠ 0) ∧
        (uint32 trans.txDataSize < uint32 trans.burstData →
          uint32 trans.txDataSize ≤ 2 ^ 32 - 16) := by
  have h₁ := loop_sound_iff (l := psddrPlddrStart (transfer addrList trans)) mm2sPsDataS2mmPl
    (uint32_lt _) (uint32_lt _)
  have h₂ := loop_sound_iff (l := plddrPsddrStart (transfer addrList trans)) s2mmPsDataMm2sPl
    (uint32_lt _) (uint32_lt _)
  have hsome₁ : ∀ fuel, ((psddrPlddrStart (transfer addrList trans)).bursts mm2sPsDataS2mmPl
      fuel).isSome = (axitangxiPsddrPlddr fuel (transfer addrList trans)).isSome := fun fuel =>
    isSome_bursts psddrPlddr_visits fuel _
  have hsome₂ : ∀ fuel, ((plddrPsddrStart (transfer addrList trans)).bursts s2mmPsDataMm2sPl
      fuel).isSome = (axitangxiPlddrPsddr fuel (transfer addrList trans)).isSome := fun fuel =>
    isSome_bursts plddrPsddr_visits fuel _
  simp only [hsome₁] at h₁
  simp only [hsome₂] at h₂
  constructor
  · rintro ⟨hends, -, hbeats, -⟩
    exact h₁.mp ⟨hends, fun l hl hz => hbeats l hl ((mm2sPsDataS2mmPl_wrapped_iff _ _ _).mpr hz)⟩
  · intro h
    obtain ⟨hends, hbeats⟩ := h₁.mpr h
    obtain ⟨hends', hbeats'⟩ := h₂.mpr h
    refine ⟨hends, hends', fun l hl => ?_, fun l hl => ?_⟩
    · rw [mm2sPsDataS2mmPl_wrapped_iff]
      exact hbeats l hl
    · rw [s2mmPsDataMm2sPl_wrapped_iff]
      exact hbeats' l hl

/-- 16 bytes in bursts of no bytes: the first loop goes on for ever.  In bursts of no beats: the
first burst is programmed with 0xFFFFFFFF. -/
theorem sampleTransaction_not_sound :
    (∀ fuel, axitangxiPsddrPlddr fuel (transfer [sampleTx, sampleRx]
      { sampleTransaction with txDataSize := 16, burstSize := 1 }) = none) ∧
    ¬ Sound (transfer [sampleTx, sampleRx]
      { sampleTransaction with txDataSize := 16, burstSize := 1 }) ∧
    ¬ Sound (transfer [sampleTx, sampleRx]
      { sampleTransaction with txDataSize := 16, burstData := 16 }) := by
  have hnone : ∀ fuel, axitangxiPsddrPlddr fuel (transfer [sampleTx, sampleRx]
      { sampleTransaction with txDataSize := 16, burstSize := 1 }) = none := fun fuel => by
    have h := bursts_eq_none (l := psddrPlddrStart (transfer [sampleTx, sampleRx]
      { sampleTransaction with txDataSize := 16, burstSize := 1 })) mm2sPsDataS2mmPl fuel
      (by decide) (by decide) (by decide)
    rw [bursts_eq_run psddrPlddr_visits, Option.map_eq_none_iff] at h
    exact h
  refine ⟨hnone, fun h => ?_, fun h => ?_⟩
  · obtain ⟨fuel, hf⟩ := h.ends
    rw [hnone] at hf
    cases hf
  · exact h.beats _ (.now (by decide)) ((mm2sPsDataS2mmPl_wrapped_iff _ _ _).mpr (by decide))

end DeepSpace.AxiTangxi
