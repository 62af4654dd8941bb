import DeepSpace.BurstSchedule

/-!
# The words of a NoC packet

The fields of `NOC_DATA_PKG_ADDR` are or-ed together, the address with all its bits.

* `addrWord_eq`: below 1 MB they lie side by side;
* `chip_node_iff`: where chip and node arrive all the same;
* `words_carry_iff`: the packets whose words carry their fields.
-/

namespace DeepSpace.AxiTangxi

/-! ## Calls and words -/

/-- The arguments of `mm2s_ps_data_tangxi`. -/
structure NocCall where
  txDataPsAddr : Nat
  rxDataPlAddr : Nat
  burstSize : Nat
  chipPosition : Nat
  node : UInt8
  deriving DecidableEq

def NocCall.run (c : NocCall) : NocBurst :=
  mm2sPsDataTangxi c.txDataPsAddr c.rxDataPlAddr c.burstSize c.chipPosition c.node

/-- The ranges of the comment, with bursts that fit the field of their size. -/
structure NocCall.Documented (c : NocCall) : Prop where
  chip : c.chipPosition ≤ 2
  address : c.rxDataPlAddr < 2 ^ 31
  burst : 1 ≤ c.burstSize ∧ c.burstSize ≤ 65536

/-- `w[hi:lo]` -/
def bits (w hi lo : Nat) : Nat := w / 2 ^ lo % 2 ^ (hi + 1 - lo)

/-- **The words** as the comments lay them out: nothing of the address is outside its field. -/
structure NocCall.Carries (c : NocCall) : Prop where
  chip : bits c.run.nocDataPkgAddr 29 28 = c.chipPosition
  node : bits c.run.nocDataPkgAddr 27 20 = c.node.toNat
  address : bits c.run.nocDataPkgAddr 19 0 = c.rxDataPlAddr
  unused : bits c.run.nocDataPkgAddr 31 30 = 0
  size : bits c.run.nocDataPkgCtl 25 10 = c.burstSize - 1
  type : bits c.run.nocDataPkgCtl 9 8 = 0
  cmd : bits c.run.nocDataPkgCtl 7 0 = 0b00000010

/-- Where the packet goes. -/
def NocCall.target (c : NocCall) : Nat × UInt8 × Nat := (c.chipPosition, c.node, c.rxDataPlAddr)

/-- The calls of `batch_mm2s_ps_data_tangxi`, whether it ends or not. -/
def BatchCall (t : Transfer) (c : NocCall) : Prop :=
  ∃ l, (batchMm2sPsDataTangxiStart t).Programs l ∧ c = ⟨l.psNext, l.plNext, l.burstSize, 0, 3⟩

/-! ## One call -/

variable {c : NocCall}

theorem upper_eq (hchip : c.chipPosition ≤ 2) :
    uint32 (c.chipPosition <<< 28) ||| c.node.toNat <<< 20 =
      c.chipPosition * 2 ^ 28 + c.node.toNat * 2 ^ 20 := by
  have hnode := c.node.toNat_lt
  rw [Nat.shiftLeft_eq, Nat.shiftLeft_eq, uint32_of_lt (by omega), Nat.mul_comm _ (2 ^ 28),
    ← Nat.two_pow_add_eq_or_of_lt (by omega)]

/-- **Side by side**: an address that fits its field. -/
theorem addrWord_eq (hchip : c.chipPosition ≤ 2) (haddr : c.rxDataPlAddr < 2 ^ 20) :
    c.run.nocDataPkgAddr =
      c.chipPosition * 2 ^ 28 + c.node.toNat * 2 ^ 20 + c.rxDataPlAddr := by
  have h : c.chipPosition * 2 ^ 28 + c.node.toNat * 2 ^ 20 =
    2 ^ 20 * (c.chipPosition * 2 ^ 8 + c.node.toNat) := by omega
  change uint32 (c.chipPosition <<< 28) ||| c.node.toNat <<< 20 ||| c.rxDataPlAddr = _
  rw [upper_eq hchip, h, Nat.two_pow_add_eq_or_of_lt haddr]

theorem ctlWord_eq (hb : 1 ≤ c.burstSize) (hb' : c.burstSize ≤ 65536) :
    c.run.nocDataPkgCtl = (c.burstSize - 1) * 2 ^ 10 + 2 := by
  have hsize : uint32 (c.burstSize + 2 ^ 32 - 1) = c.burstSize - 1 := by
    unfold uint32
    omega
  change uint32 (uint32 (c.burstSize + 2 ^ 32 - 1) <<< 10) ||| 2 = _
  rw [hsize, Nat.shiftLeft_eq, uint32_of_lt (by omega), Nat.mul_comm _ (2 ^ 10),
    ← Nat.two_pow_add_eq_or_of_lt (by decide)]

/-- Chip and node arrive where the bits of the address above its field are bits of theirs. -/
theorem chip_node_iff (hchip : c.chipPosition ≤ 2) :
    c.run.nocDataPkgAddr / 2 ^ 20 = c.chipPosition * 2 ^ 8 + c.node.toNat ↔
      c.chipPosition * 2 ^ 8 + c.node.toNat ||| c.rxDataPlAddr / 2 ^ 20 =
        c.chipPosition * 2 ^ 8 + c.node.toNat := by
  have h : (c.chipPosition * 2 ^ 28 + c.node.toNat * 2 ^ 20) / 2 ^ 20 =
    c.chipPosition * 2 ^ 8 + c.node.toNat := by omega
  change (uint32 (c.chipPosition <<< 28) ||| c.node.toNat <<< 20 ||| c.rxDataPlAddr) / 2 ^ 20 = _ ↔
    _
  rw [upper_eq hchip, ← Nat.shiftRight_eq_div_pow, Nat.shiftRight_or_distrib,
    Nat.shiftRight_eq_div_pow, Nat.shiftRight_eq_div_pow, h]

theorem carries_iff (hc : c.Documented) : c.Carries ↔ c.rxDataPlAddr < 2 ^ 20 := by
  obtain ⟨hchip, -, hb, hb'⟩ := hc
  have hnode := c.node.toNat_lt
  constructor
  · intro h
    rw [← h.address]
    exact Nat.mod_lt _ (Nat.two_pow_pos 20)
  · intro haddr
    have hw := addrWord_eq hchip haddr
    have hctl := ctlWord_eq hb hb'
    constructor
    all_goals
      unfold bits
      omega

/-- **Distinct targets** have distinct words. -/
theorem target_eq {c' : NocCall} (h : c.Carries) (h' : c'.Carries)
    (hw : c.run.nocDataPkgAddr = c'.run.nocDataPkgAddr) : c.target = c'.target := by
  have hchip : c.chipPosition = c'.chipPosition := by rw [← h.chip, hw, h'.chip]
  have hnode : c.node = c'.node := UInt8.toNat_inj.mp (by rw [← h.node, hw, h'.node])
  have haddr : c.rxDataPlAddr = c'.rxDataPlAddr := by rw [← h.address, hw, h'.address]
  rw [NocCall.target, NocCall.target, hchip, hnode, haddr]

/-! ## A transfer -/

/-- The packets of a loop that ends. -/
theorem mem_batch_iff {fuel : Nat} {t : Transfer} {bs : List NocBurst}
    (h : batchMm2sPsDataTangxi fuel t = some bs) (b : NocBurst) :
    b ∈ bs ↔ ∃ c, BatchCall t c ∧ b = c.run := by
  rw [mem_run_iff batchMm2sPsDataTangxi_visits h b]
  constructor
  · rintro ⟨l, hl, rfl⟩
    exact ⟨_, ⟨l, hl, rfl⟩, rfl⟩
  · rintro ⟨_, ⟨l, hl, rfl⟩, rfl⟩
    exact ⟨l, hl, rfl⟩

theorem lastBurst_plNext (l : Loop) : l.lastBurst.plNext = l.plNext := by
  unfold Loop.lastBurst
  split <;> rfl

theorem advance_plNext (l : Loop) : l.advance.plNext = l.plNext := by
  cases l
  rfl

/-- The address on the chip does not move. -/
theorem Loop.Programs.plNext {l l' : Loop} (h : l.Programs l') : l'.plNext = l.plNext := by
  induction h with
  | @now l _ => rw [subtract_plNext, lastBurst_plNext]
  | @later l l' _ _ ih =>
    rw [ih, advance_plNext, subtract_plNext, lastBurst_plNext]

theorem BatchCall.address {t : Transfer} (h : BatchCall t c) : c.rxDataPlAddr = t.rxDataPlPtr := by
  obtain ⟨l, hl, rfl⟩ := h
  exact hl.plNext

/-- **The words of a packet** carry their fields exactly if the address fits its own: in any call,
and in those of a transfer; and then distinct targets have distinct words. -/
theorem words_carry_iff (hc : c.Documented) :
    (c.Carries ↔ c.rxDataPlAddr < 2 ^ 20) ∧
      (c.rxDataPlAddr < 2 ^ 20 → ∀ c' : NocCall, c'.Documented → c'.rxDataPlAddr < 2 ^ 20 →
        c.run.nocDataPkgAddr = c'.run.nocDataPkgAddr → c.target = c'.target) ∧
      ∀ t, BatchCall t c → (c.Carries ↔ t.rxDataPlPtr < 2 ^ 20) := by
  refine ⟨carries_iff hc, fun h c' hc' h' hw => ?_, fun t ht => ?_⟩
  · exact target_eq ((carries_iff hc).mpr h) ((carries_iff hc').mpr h') hw
  · rw [carries_iff hc, ht.address]

/-! ## An address of 256 MB -/

def farCall : NocCall := ⟨0, 0x10000000, 1, 0, 3⟩

theorem farCall_documented : farCall.Documented := ⟨by decide, by decide, by decide⟩

theorem words_carry_iff_farCall :
    (farCall.Carries ↔ farCall.rxDataPlAddr < 2 ^ 20) ∧
      (farCall.rxDataPlAddr < 2 ^ 20 → ∀ c' : NocCall, c'.Documented → c'.rxDataPlAddr < 2 ^ 20 →
        farCall.run.nocDataPkgAddr = c'.run.nocDataPkgAddr → farCall.target = c'.target) ∧
      ∀ t, BatchCall t farCall → (farCall.Carries ↔ t.rxDataPlPtr < 2 ^ 20) :=
  words_carry_iff farCall_documented

/-- **The packet** for chip 0 has the word of one for chip 1, in a call and in a transfer. -/
theorem farCall_strays :
    farCall.Documented ∧ ¬ farCall.Carries ∧
      bits farCall.run.nocDataPkgAddr 29 28 = 1 ∧
      farCall.run.nocDataPkgAddr = (⟨0, 0, 1, 1, 3⟩ : NocCall).run.nocDataPkgAddr ∧
      BatchCall { sampleTransfer with
        txDataSize := 16, txDataPsPtr := 0, rxDataPlPtr := 0x10000000 } farCall := by
  refine ⟨farCall_documented, fun h => ?_, by decide, by decide, _, .now (by decide), by decide⟩
  exact absurd ((carries_iff farCall_documented).mp h) (by decide)

end DeepSpace.AxiTangxi
