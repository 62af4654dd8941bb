import DeepSpace.Loopback

/-!
# Where the bursts go

The bursts of a loopback call for any entries of `addr_list` and any argument, also where a
loop does not end.

* `programs_iff`: burst `k` starts `burst_data * k` bytes into the buffer;
* `ends_iff`: a loop without burst data programs its first burst for ever;
* `contained_iff`: the calls whose bursts stay inside the two buffers.
-/

namespace DeepSpace.AxiTangxi

/-! ## The bursts of a loop -/

/-- The loop from `l` on gets to a burst with the variables `l'`. -/
inductive Loop.Programs : Loop → Loop → Prop where
  | now {l : Loop} (h : l.dataRemaining > 0) : Programs l l.lastBurst.subtract
  | later {l l' : Loop} (h : l.dataRemaining > 0)
      (hl : Programs l.lastBurst.subtract.advance l') : Programs l l'

/-- The variables at the head of iteration `k`, when all before it are full bursts. -/
def Loop.iteration (l : Loop) (k : Nat) : Loop :=
  { l with
    dataRemaining := l.dataRemaining - k * l.burstData
    psNext := uint32 (l.psNext + k * l.burstData) }

theorem uint32_lt (n : Nat) : uint32 n < 2 ^ 32 := Nat.mod_lt _ (Nat.two_pow_pos 32)

variable {l l' : Loop}

theorem subtract_remaining (h : l.dataRemaining = l.burstData) :
    l.subtract.dataRemaining = 0 := by
  change uint32 (l.dataRemaining + 2 ^ 32 - l.burstData) = 0
  rw [h, Nat.add_sub_cancel_left]
  rfl

/-- A short burst is the last one. -/
theorem lastBurst_remaining (h : l.dataRemaining < l.burstData) :
    l.lastBurst.subtract.dataRemaining = 0 := by
  refine subtract_remaining ?_
  rw [Loop.lastBurst, if_pos h]

theorem not_programs (h : l.dataRemaining = 0) : ¬ l.Programs l' := by
  intro hp
  cases hp with
  | now h0 => omega
  | later h0 _ => omega

theorem iteration_one (h : l.burstData ≤ l.dataRemaining) (hl : l.dataRemaining < 2 ^ 32) :
    l.lastBurst.subtract.advance = l.iteration 1 := by
  rw [lastBurst_of_le h, subtract_of_le h hl, Loop.iteration, Nat.one_mul]
  rfl

theorem iteration_iteration (k : Nat) : (l.iteration 1).iteration k = l.iteration (k + 1) := by
  have hd : l.dataRemaining - 1 * l.burstData - k * l.burstData =
      l.dataRemaining - (k + 1) * l.burstData := by
    rw [Nat.sub_sub, ← Nat.add_mul, Nat.add_comm]
  have hp : uint32 (uint32 (l.psNext + 1 * l.burstData) + k * l.burstData) =
      uint32 (l.psNext + (k + 1) * l.burstData) := by
    rw [uint32_add, Nat.add_assoc, ← Nat.add_mul, Nat.add_comm 1 k]
  simp only [Loop.iteration, hd, hp]

theorem iteration_zero (hp : l.psNext < 2 ^ 32) : l.iteration 0 = l := by
  simp only [Loop.iteration, Nat.zero_mul, Nat.sub_zero, Nat.add_zero, uint32_of_lt hp]

theorem programs_of_iteration (k : Nat) (hl : l.dataRemaining < 2 ^ 32) (hp : l.psNext < 2 ^ 32)
    (hk : k * l.burstData < l.dataRemaining) :
    l.Programs (l.iteration k).lastBurst.subtract := by
  induction k generalizing l with
  | zero =>
    rw [iteration_zero hp]
    exact .now (by omega)
  | succ k ih =>
    have hm : (k + 1) * l.burstData = k * l.burstData + l.burstData := Nat.succ_mul k _
    refine .later (by omega) ?_
    rw [iteration_one (by omega) hl, ← iteration_iteration (l := l) k]
    have h1 : (l.iteration 1).dataRemaining = l.dataRemaining - l.burstData := by
      change l.dataRemaining - 1 * l.burstData = _
      rw [Nat.one_mul]
    refine ih (l := l.iteration 1) (by omega) (uint32_lt _) ?_
    rw [h1]
    change k * l.burstData < _
    omega

theorem exists_iteration (h : l.Programs l') (hl : l.dataRemaining < 2 ^ 32)
    (hp : l.psNext < 2 ^ 32) :
    ∃ k, k * l.burstData < l.dataRemaining ∧ l' = (l.iteration k).lastBurst.subtract := by
  induction h with
  | @now l h => exact ⟨0, by omega, by rw [iteration_zero hp]⟩
  | @later l l' h hnext ih =>
    by_cases hlt : l.dataRemaining < l.burstData
    · exact absurd hnext (not_programs (lastBurst_remaining hlt))
    · rw [iteration_one (by omega) hl] at hnext ih
      have h1 : (l.iteration 1).dataRemaining = l.dataRemaining - l.burstData := by
        change l.dataRemaining - 1 * l.burstData = _
        rw [Nat.one_mul]
      obtain ⟨k, hk, rfl⟩ := ih (by omega) (uint32_lt _)
      rw [h1] at hk
      change k * l.burstData < _ at hk
      have hm : (k + 1) * l.burstData = k * l.burstData + l.burstData := Nat.succ_mul k _
      exact ⟨k + 1, by omega, by rw [iteration_iteration]⟩

/-- **The bursts of a loop**, in closed form. -/
theorem programs_iff (hl : l.dataRemaining < 2 ^ 32) (hp : l.psNext < 2 ^ 32) :
    l.Programs l' ↔
      ∃ k, k * l.burstData < l.dataRemaining ∧ l' = (l.iteration k).lastBurst.subtract := by
  refine ⟨fun h => exists_iteration h hl hp, ?_⟩
  rintro ⟨k, hk, rfl⟩
  exact programs_of_iteration k hl hp hk

/-! ## Loops that end -/

theorem bursts_eq_none (program : Nat → Nat → Nat → Burst) (fuel : Nat) (hD : l.burstData = 0)
    (h : l.dataRemaining > 0) (hl : l.dataRemaining < 2 ^ 32) :
    l.bursts program fuel = none := by
  induction fuel generalizing l with
  | zero => rw [Loop.bursts, if_pos h]
  | succ fuel ih =>
    have hs : l.dataRemaining - l.burstData = l.dataRemaining := by
      rw [hD, Nat.sub_zero]
    rw [bursts_of_le program fuel h (by omega) hl, hs,
      ih (l := { l with psNext := uint32 (l.psNext + l.burstData) }) hD h hl, Option.map_none]

theorem exists_bursts (program : Nat → Nat → Nat → Burst) (hD : l.burstData ≠ 0)
    (hl : l.dataRemaining < 2 ^ 32) : ∃ fuel, (l.bursts program fuel).isSome := by
  induction hS : l.dataRemaining using Nat.strong_induction_on generalizing l with
  | _ S ih =>
    by_cases h0 : l.dataRemaining = 0
    · exact ⟨0, by rw [bursts_of_zero program 0 h0]; rfl⟩
    · by_cases hlt : l.dataRemaining < l.burstData
      · refine ⟨1, ?_⟩
        rw [Loop.bursts, if_pos (by omega), Option.isSome_map,
          bursts_of_zero program 0 (l := l.lastBurst.subtract.advance) (lastBurst_remaining hlt)]
        rfl
      · obtain ⟨fuel, hf⟩ := ih (l.dataRemaining - l.burstData) (by omega)
          (l := { l with
            dataRemaining := l.dataRemaining - l.burstData
            psNext := uint32 (l.psNext + l.burstData) }) hD
          (show l.dataRemaining - l.burstData < _ by omega) rfl
        refine ⟨fuel + 1, ?_⟩
        rw [bursts_of_le program fuel (by omega) (by omega) hl, Option.isSome_map]
        exact hf

/-- A loop without burst data programs its first burst for ever. -/
theorem ends_iff (program : Nat → Nat → Nat → Burst) (hl : l.dataRemaining < 2 ^ 32) :
    (∃ fuel, (l.bursts program fuel).isSome) ↔ l.burstData ≠ 0 ∨ l.dataRemaining = 0 := by
  constructor
  · rintro ⟨fuel, hf⟩
    by_contra hne
    push Not at hne
    rw [bursts_eq_none program fuel hne.1 (by omega) hl] at hf
    cases hf
  · rintro (hD | h0)
    · exact exists_bursts program hD hl
    · exact ⟨0, by rw [bursts_of_zero program 0 h0]; rfl⟩

/-! ## Bursts inside a buffer -/

/-- Beats of 16 bytes that a burst of length `n` makes; the register holds one less. -/
def beats (n : Nat) : Nat := uint32 (n + 2 ^ 32 - 1) + 1

def Inside (a : Allocation) (addr length : Nat) : Prop :=
  a.physAddr ≤ addr ∧ addr + length ≤ a.physAddr + a.size

/-- Every burst for `S` bytes, in bursts of length `B` that advance by `D` bytes, ends inside
the buffer `a`, at an address that 32 bits hold. -/
def Fits (S B D : Nat) (a : Allocation) : Prop :=
  ∀ k, k * D < S → a.physAddr + k * D < 2 ^ 32 ∧
    k * D + 16 * beats (if D ≤ S - k * D then B else uint32 (aligned (S - k * D)) / 16) ≤ a.size

theorem inside_iff {a : Allocation} {o length : Nat} (ha : a.physAddr < 2 ^ 32) (ho : o < 2 ^ 32) :
    Inside a (uint32 (a.physAddr + o)) length ↔
      a.physAddr + o < 2 ^ 32 ∧ o + length ≤ a.size := by
  unfold Inside uint32
  omega

theorem subtract_psNext (l : Loop) : l.subtract.psNext = l.psNext := by
  cases l
  rfl

theorem subtract_burstSize (l : Loop) : l.subtract.burstSize = l.burstSize := by
  cases l
  rfl

theorem lastBurst_psNext (l : Loop) : l.lastBurst.subtract.psNext = l.psNext := by
  rw [subtract_psNext, Loop.lastBurst]
  split <;> rfl

theorem lastBurst_burstSize (hl : l.dataRemaining < 2 ^ 32) :
    l.lastBurst.subtract.burstSize =
      if l.burstData ≤ l.dataRemaining then l.burstSize
      else uint32 (aligned l.dataRemaining) / 16 := by
  rw [subtract_burstSize]
  by_cases hlt : l.dataRemaining < l.burstData
  · have hr : (if l.dataRemaining &&& ADDR_ALIGN_BASE_16_MASK ≠ 0x00 then
        uint32 (l.dataRemaining +
          (ADDR_ALIGN_BASE_16 - (l.dataRemaining &&& ADDR_ALIGN_BASE_16_MASK)))
        else l.dataRemaining) = uint32 (aligned l.dataRemaining) := by
      rw [mask_eq]
      unfold aligned ADDR_ALIGN_BASE_16 uint32
      split <;> omega
    rw [if_neg (by omega), Loop.lastBurst, if_pos hlt]
    simp only [hr, Nat.shiftRight_eq_div_pow, Nat.reducePow]
  · rw [if_pos (by omega), lastBurst_of_le (by omega)]

/-- **The loop** over a buffer, from its start. -/
theorem programs_inside_iff {a : Allocation} (hl : l.dataRemaining < 2 ^ 32)
    (hp : l.psNext = a.physAddr) (ha : a.physAddr < 2 ^ 32) :
    (∀ l', l.Programs l' → Inside a l'.psNext (16 * beats l'.burstSize)) ↔
      Fits l.dataRemaining l.burstSize l.burstData a := by
  have hk : ∀ k, k * l.burstData < l.dataRemaining →
      (Inside a (l.iteration k).lastBurst.subtract.psNext
          (16 * beats (l.iteration k).lastBurst.subtract.burstSize) ↔
        a.physAddr + k * l.burstData < 2 ^ 32 ∧
          k * l.burstData + 16 * beats (if l.burstData ≤ l.dataRemaining - k * l.burstData then
            l.burstSize else uint32 (aligned (l.dataRemaining - k * l.burstData)) / 16) ≤
              a.size) := by
    intro k hk
    rw [lastBurst_psNext, lastBurst_burstSize (lt_of_le_of_lt (Nat.sub_le _ _) hl)]
    change Inside a (uint32 (l.psNext + _)) _ ↔ _
    rw [hp, inside_iff ha (by omega)]
    rfl
  constructor
  · intro h k hlt
    exact (hk k hlt).mp (h _ (programs_of_iteration k hl (hp ▸ ha) hlt))
  · intro h l' hl'
    obtain ⟨k, hlt, rfl⟩ := exists_iteration hl' hl (hp ▸ ha)
    exact (hk k hlt).mpr (h k hlt)

/-! ## The call -/

/-- The call programs the burst in its first loop. -/
def ProgramsTx (addrList : List Allocation) (readable : Nat → Bool) (trans : Transaction)
    (b : Burst) : Prop :=
  txReadable readable trans = true ∧ ∃ l, (psddrPlddrStart (transfer addrList trans)).Programs l ∧
    b = mm2sPsDataS2mmPl l.psNext l.plNext l.burstSize

/-- The second loop runs when the first one has ended, and its wait left some time. -/
def ProgramsRx (addrList : List Allocation) (readable : Nat → Bool) (trans : Transaction)
    (timeRemain₁ : Nat) (b : Burst) : Prop :=
  txReadable readable trans = true ∧
    (∃ fuel, (psddrPlddr fuel (transfer addrList trans)).isSome) ∧ timeRemain₁ ≠ 0 ∧
    ∃ l, (plddrPsddrStart (transfer addrList trans)).Programs l ∧
      b = s2mmPsDataMm2sPl l.psNext l.plNext l.burstSize

/-- The call returns an error. -/
def Fails (addrList : List Allocation) (readable : Nat → Bool) (trans : Transaction)
    (timeRemain₁ timeRemain₂ : Nat) : Prop :=
  ∀ m, ∃ fuel rc m', rc < 0 ∧
    psddrPlddrLoopback fuel addrList readable trans timeRemain₁ timeRemain₂ m =
      .ok (some (rc, m'))

/-- The newest entry of `addr_list` for a user address. -/
def Listed (addrList : List Allocation) (userAddr : Nat) (a : Allocation) : Prop :=
  addrList.find? (fun b => b.userAddr = userAddr) = some a

/-- The call fails and programs nothing, or both pointers are listed and every burst reads,
or writes, inside the buffer of its pointer. -/
def Contained (addrList : List Allocation) (readable : Nat → Bool) (trans : Transaction)
    (timeRemain₁ timeRemain₂ : Nat) : Prop :=
  (Fails addrList readable trans timeRemain₁ timeRemain₂ ∧
      (∀ b, ¬ ProgramsTx addrList readable trans b) ∧
      ∀ b, ¬ ProgramsRx addrList readable trans timeRemain₁ b) ∨
    ∃ tx rx, Listed addrList trans.txDataPsPtr tx ∧ Listed addrList trans.rxDataPsPtr rx ∧
      (∀ b, ProgramsTx addrList readable trans b →
        Inside tx b.mm2sAddr (16 * (b.mm2sSize + 1))) ∧
      ∀ b, ProgramsRx addrList readable trans timeRemain₁ b →
        Inside rx b.s2mmAddr (16 * (b.s2mmSize + 1))

section

variable {addrList : List Allocation} {readable : Nat → Bool} {trans : Transaction}
  {timeRemain₁ timeRemain₂ : Nat}

theorem programsTx_of_pos (addrList : List Allocation) (hread : txReadable readable trans = true)
    (h : 0 < uint32 trans.txDataSize) : ∃ b, ProgramsTx addrList readable trans b :=
  ⟨_, hread, _, .now h, rfl⟩

/-- A call that faults returns nothing. -/
theorem Fails.txReadable (h : Fails addrList readable trans timeRemain₁ timeRemain₂) :
    txReadable readable trans = true := by
  by_contra hread
  obtain ⟨fuel, rc, m', -, hret⟩ := h sampleBoard
  rw [psddrPlddrLoopback_of_not_readable (Bool.eq_false_of_not_eq_true hread)] at hret
  cases hret

/-- A call that has nothing to program fails when one of its waits does. -/
theorem fails_iff (hread : txReadable readable trans = true) (h0 : uint32 trans.txDataSize = 0) :
    Fails addrList readable trans timeRemain₁ timeRemain₂ ↔
      timeRemain₁ = 0 ∨ timeRemain₂ = 0 := by
  have hrun : ∀ fuel m,
      psddrPlddrLoopback fuel addrList readable trans timeRemain₁ timeRemain₂ m =
        .ok (some (if timeRemain₁ = 0 ∨ timeRemain₂ = 0 then -ETIME else 0, m)) := by
    intro fuel m
    have h₁ : psddrPlddr fuel (transfer addrList trans) = some [] := bursts_of_zero _ fuel h0
    have h₂ : plddrPsddr fuel (transfer addrList trans) = some [] := bursts_of_zero _ fuel h0
    rw [psddrPlddrLoopback_of_readable hread, runLoops]
    simp only [h₁, h₂, Option.bind_eq_bind, Option.bind_some, List.foldl_nil]
    by_cases ht₁ : timeRemain₁ = 0
    · rw [if_pos ht₁, if_pos (.inl ht₁)]
      rfl
    · rw [if_neg ht₁]
      by_cases ht₂ : timeRemain₂ = 0
      · rw [if_pos ht₂, if_pos (.inr ht₂)]
        rfl
      · rw [if_neg ht₂, if_neg (not_or.mpr ⟨ht₁, ht₂⟩)]
        rfl
  constructor
  · intro h
    obtain ⟨fuel, rc, m', hrc, hret⟩ := h sampleBoard
    rw [hrun] at hret
    by_contra hne
    rw [if_neg hne] at hret
    obtain ⟨rfl, -⟩ := Prod.mk.inj (Option.some.inj (Except.ok.inj hret))
    exact absurd hrc (by decide)
  · intro h m
    refine ⟨0, -ETIME, m, by decide, ?_⟩
    rw [hrun, if_pos h]

theorem programsTx_inside_iff (readable : Nat → Bool) (trans : Transaction) {tx : Allocation}
    (h : Listed addrList trans.txDataPsPtr tx)
    (h32 : tx.physAddr < 2 ^ 32) :
    (∀ b, ProgramsTx addrList readable trans b →
        Inside tx b.mm2sAddr (16 * (b.mm2sSize + 1))) ↔
      (txReadable readable trans = true →
        Fits (uint32 trans.txDataSize) (uint32 trans.burstSize) (uint32 trans.burstData) tx) := by
  have hp : (psddrPlddrStart (transfer addrList trans)).psNext = tx.physAddr :=
    uservirtToPhys_of_find? h
  have hfits := programs_inside_iff (l := psddrPlddrStart (transfer addrList trans))
    (uint32_lt _) hp h32
  constructor
  · intro hb hread
    exact hfits.mp fun l hl => hb _ ⟨hread, l, hl, rfl⟩
  · rintro hF b ⟨hread, l, hl, rfl⟩
    exact hfits.mpr (hF hread) l hl

theorem programsRx_inside_iff (readable : Nat → Bool) (trans : Transaction) (timeRemain₁ : Nat)
    {rx : Allocation} (h : Listed addrList trans.rxDataPsPtr rx)
    (h32 : rx.physAddr < 2 ^ 32) :
    (∀ b, ProgramsRx addrList readable trans timeRemain₁ b →
        Inside rx b.s2mmAddr (16 * (b.s2mmSize + 1))) ↔
      (txReadable readable trans = true → uint32 trans.burstData ≠ 0 → timeRemain₁ ≠ 0 →
        Fits (uint32 trans.txDataSize) (uint32 trans.burstSize) (uint32 trans.burstData) rx) := by
  have hp : (plddrPsddrStart (transfer addrList trans)).psNext = rx.physAddr :=
    uservirtToPhys_of_find? h
  have hfits := programs_inside_iff (l := plddrPsddrStart (transfer addrList trans))
    (uint32_lt _) hp h32
  have hends := ends_iff (l := psddrPlddrStart (transfer addrList trans)) mm2sPsDataS2mmPl
    (uint32_lt _)
  constructor
  · intro hb hread hD ht
    exact hfits.mp fun l hl => hb _ ⟨hread, hends.mpr (.inl hD), ht, l, hl, rfl⟩
  · rintro hF b ⟨hread, he, ht, l, hl, rfl⟩
    rcases hends.mp he with hD | h0
    · exact hfits.mpr (hF hread hD ht) l hl
    · exact absurd hl (not_programs h0)

/-- **Containment.**  No size is compared with that of a buffer, and the length of the
receive buffer is not used: the calls that keep to their buffers are those whose argument
happens to fit, and those that fault in front of the loops. -/
theorem contained_iff (h32 : ∀ a ∈ addrList, a.physAddr < 2 ^ 32) :
    Contained addrList readable trans timeRemain₁ timeRemain₂ ↔
      (txReadable readable trans = true ∧ uint32 trans.txDataSize = 0 ∧
          (timeRemain₁ = 0 ∨ timeRemain₂ = 0)) ∨
        ∃ tx rx, Listed addrList trans.txDataPsPtr tx ∧ Listed addrList trans.rxDataPsPtr rx ∧
          (txReadable readable trans = true →
            Fits (uint32 trans.txDataSize) (uint32 trans.burstSize) (uint32 trans.burstData) tx ∧
            (uint32 trans.burstData ≠ 0 → timeRemain₁ ≠ 0 →
              Fits (uint32 trans.txDataSize) (uint32 trans.burstSize) (uint32 trans.burstData)
                rx)) := by
  have hreach : ∀ {p a}, Listed addrList p a → a.physAddr < 2 ^ 32 := fun h =>
    h32 _ (List.mem_of_find?_eq_some h)
  refine or_congr ?_ (exists₂_congr fun tx rx => ?_)
  · constructor
    · rintro ⟨hf, hnone, -⟩
      have hread := hf.txReadable
      have h0 : uint32 trans.txDataSize = 0 := by
        by_contra hne
        obtain ⟨b, hb⟩ := programsTx_of_pos addrList hread (Nat.pos_of_ne_zero hne)
        exact hnone b hb
      exact ⟨hread, h0, (fails_iff hread h0).mp hf⟩
    · rintro ⟨hread, h0, ht⟩
      exact ⟨(fails_iff hread h0).mpr ht, fun b ⟨_, l, hl, _⟩ => not_programs h0 hl,
        fun b ⟨_, _, _, l, hl, _⟩ => not_programs h0 hl⟩
  · refine and_congr_right fun htx => and_congr_right fun hrx => ?_
    rw [programsTx_inside_iff readable trans htx (hreach htx),
      programsRx_inside_iff readable trans timeRemain₁ hrx (hreach hrx)]
    exact imp_and.symm

end

theorem contained_iff_sample :
    let trans := dataInit sampleTransaction 16 16 0x10000000 0x11000000
    let S := uint32 trans.txDataSize
    let B := uint32 trans.burstSize
    let D := uint32 trans.burstData
    Contained [sampleTx, sampleRx] sampleReadable trans 1 1 ↔
      (txReadable sampleReadable trans = true ∧ S = 0 ∧ (1 = 0 ∨ 1 = 0)) ∨
        ∃ tx rx, Listed [sampleTx, sampleRx] trans.txDataPsPtr tx ∧
          Listed [sampleTx, sampleRx] trans.rxDataPsPtr rx ∧
          (txReadable sampleReadable trans = true →
            Fits S B D tx ∧ (D ≠ 0 → 1 ≠ 0 → Fits S B D rx)) :=
  contained_iff (by decide)

/-- A receive buffer of one page. -/
def pageRx : Allocation := ⟨0x1000, 0x11000000, 0x30000000⟩

/-- Two pages are sent, one is to be received: the second loop, too, runs over two. -/
theorem pageRx_not_contained :
    Listed [sampleTx, pageRx] 0x10000000 sampleTx ∧ Listed [sampleTx, pageRx] 0x11000000 pageRx ∧
      0x2000 ≤ sampleTx.size ∧ 0x1000 ≤ pageRx.size ∧
      ¬ Contained [sampleTx, pageRx] sampleReadable
        (dataInit sampleTransaction 0x2000 0x1000 0x10000000 0x11000000) 1 1 := by
  have hrx : Listed [sampleTx, pageRx] 0x11000000 pageRx := rfl
  have hread : txReadable sampleReadable
      (dataInit sampleTransaction 0x2000 0x1000 0x10000000 0x11000000) = true := by decide
  refine ⟨rfl, hrx, by decide, by decide, ?_⟩
  rintro (⟨-, hnone, -⟩ | ⟨tx, rx, -, hrx', -, hin⟩)
  · obtain ⟨b, hb⟩ := programsTx_of_pos [sampleTx, pageRx] hread (by decide)
    exact hnone b hb
  · obtain rfl : rx = pageRx := Option.some.inj (hrx'.symm.trans hrx)
    have hfits := (programsRx_inside_iff _ _ _ hrx (by decide)).mp hin hread (by decide)
      (by decide)
    have h0 := hfits 0 (by decide)
    revert h0
    decide

/-! ## The arguments that the library makes -/

theorem beats_eq {n : Nat} (h1 : 1 ≤ n) (h : n < 2 ^ 32) : beats n = n := by
  unfold beats uint32
  omega

/-- The bytes of burst `k`, when bursts are whole beats. -/
theorem length_eq {S B k : Nat} (hB : 1 ≤ B) (hD : 16 * B < 2 ^ 32) (hS : aligned S < 2 ^ 32)
    (hk : k * (16 * B) < S) :
    16 * beats (if 16 * B ≤ S - k * (16 * B) then B
        else uint32 (aligned (S - k * (16 * B))) / 16) =
      if 16 * B ≤ S - k * (16 * B) then 16 * B else aligned (S - k * (16 * B)) := by
  split
  · rw [beats_eq hB (by omega)]
  · generalize k * (16 * B) = o at hk
    have hr : aligned (S - o) < 2 ^ 32 := by
      unfold aligned at hS ⊢
      omega
    rw [uint32_of_lt hr, beats_eq (by unfold aligned; omega) (by omega)]
    unfold aligned
    omega

/-- With bursts of whole beats, a buffer within 32 bits fits iff it has room for the bytes,
rounded up to 16. -/
theorem fits_iff {S B : Nat} {a : Allocation} (hB : 1 ≤ B) (hD : 16 * B < 2 ^ 32)
    (hS : 0 < S) (hS32 : aligned S < 2 ^ 32) (ha : a.physAddr + a.size ≤ 2 ^ 32) :
    Fits S B (16 * B) a ↔ aligned S ≤ a.size := by
  have hoff : ∀ k, k * (16 * B) = 16 * (k * B) := fun k => Nat.mul_left_comm k 16 B
  constructor
  · intro h
    have hdiv : (S - 1) / (16 * B) * (16 * B) + (S - 1) % (16 * B) = S - 1 := Nat.div_add_mod' _ _
    have hmod : (S - 1) % (16 * B) < 16 * B := Nat.mod_lt _ (by omega)
    have hlast : (S - 1) / (16 * B) * (16 * B) < S := by omega
    obtain ⟨-, hle⟩ := h _ hlast
    rw [length_eq hB hD hS32 hlast] at hle
    have := hoff ((S - 1) / (16 * B))
    unfold aligned at hle ⊢
    split at hle <;> omega
  · intro h k hk
    rw [length_eq hB hD hS32 hk]
    have := hoff k
    unfold aligned at h ⊢
    split <;> omega

/-- **The calls of the library**: each buffer needs room for the bytes to send. -/
theorem contained_dataInit_iff {txBuf rxBuf : Nat} {tx rx : Allocation} (dev : Transaction)
    {S : Nat} (rxSize timeRemain₂ : Nat) {timeRemain₁ : Nat}
    (htx : Registered addrList readable txBuf tx) (hrx : Registered addrList readable rxBuf rx)
    (h32 : ∀ a ∈ addrList, a.physAddr < 2 ^ 32) (htx0 : 0 < tx.size) (hS : 0 < S)
    (hS32 : aligned S < 2 ^ 32) (ht : timeRemain₁ ≠ 0) :
    Contained addrList readable (dataInit dev S rxSize txBuf rxBuf) timeRemain₁ timeRemain₂ ↔
      aligned S ≤ tx.size ∧ aligned S ≤ rx.size := by
  have hSt : uint32 S = S := uint32_of_lt (by unfold aligned at hS32; omega)
  have hB : uint32 BURST_SIZE = BURST_SIZE := uint32_of_lt (by decide)
  have hD : uint32 (BURST_SIZE * 16) = 16 * BURST_SIZE := uint32_of_lt (by decide)
  have hread : txReadable readable (dataInit dev S rxSize txBuf rxBuf) = true :=
    Registered.txReadable htx htx0
  have hfits : ∀ {u a}, Registered addrList readable u a →
      (Fits (uint32 S) (uint32 BURST_SIZE) (uint32 (BURST_SIZE * 16)) a ↔ aligned S ≤ a.size) := by
    intro u a ha
    rw [hSt, hB, hD]
    exact fits_iff (by decide) (by decide) hS hS32 ha.reach
  have hreach : ∀ {u a}, Registered addrList readable u a → a.physAddr < 2 ^ 32 := fun ha =>
    h32 _ (List.mem_of_find?_eq_some ha.found)
  have hT := programsTx_inside_iff readable (dataInit dev S rxSize txBuf rxBuf) htx.found
    (hreach htx)
  have hR := programsRx_inside_iff readable (dataInit dev S rxSize txBuf rxBuf) timeRemain₁
    hrx.found (hreach hrx)
  have hD0 : uint32 (BURST_SIZE * 16) ≠ 0 := by decide
  constructor
  · rintro (⟨-, hnone, -⟩ | ⟨tx', rx', htx', hrx', htin, hrin⟩)
    · obtain ⟨b, hb⟩ := programsTx_of_pos addrList hread (hS.trans_eq hSt.symm)
      exact absurd hb (hnone b)
    · obtain rfl : tx' = tx := Option.some.inj (htx'.symm.trans htx.found)
      obtain rfl : rx' = rx := Option.some.inj (hrx'.symm.trans hrx.found)
      exact ⟨(hfits htx).mp (hT.mp htin hread), (hfits hrx).mp (hR.mp hrin hread hD0 ht)⟩
  · rintro ⟨hle, hle'⟩
    exact .inr ⟨tx, rx, htx.found, hrx.found, hT.mpr fun _ => (hfits htx).mpr hle,
      hR.mpr fun _ _ _ => (hfits hrx).mpr hle'⟩

end DeepSpace.AxiTangxi
