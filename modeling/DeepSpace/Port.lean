import DeepSpace.Decodability
import DeepSpace.ReferenceCoder

/-!
# The C++ encoder against its reference

The reference splits a range of `m_high - m_low + 1` points, the port one of
`m_high - m_low`.

* `narrowed_eq_iff`: from one state, both narrow to the same interval iff the
  remainders leave room (`SameSlot`);
* `step_lockstep`: then they are in the same state after the step;
* `port_agrees`: a run of such steps ends with the same bytes.
-/

namespace DeepSpace.Reference

open DeepSpace.Bitwise DeepSpace.Renormalisation DeepSpace.ArithmeticCoding

/-! ## The bit stream -/

/-- The stream of the port in the same state. -/
def BitOutputStream.toPort (s : BitOutputStream) : ArithmeticCoding.BitOutputStream :=
  ⟨s.output, UInt8.ofNat s.currentbyte, s.numbitsfilled, s.numbitsfilled_lt⟩

theorem currentbyte_lt (s : BitOutputStream) : s.currentbyte < 128 :=
  s.currentbyte_lt.trans_le (Nat.pow_le_pow_right (n := 2) (by decide)
    (Nat.le_of_lt_succ s.numbitsfilled_lt) : 2 ^ s.numbitsfilled ≤ 2 ^ 7)

/-- **The streams are in step.** -/
theorem write_toPort (s : BitOutputStream) (b : Bool) :
    ∃ s', s.write b.toInt = .ok s' ∧ s.toPort.write (bitChar b) = .ok s'.toPort := by
  have hb : ¬ ¬ (b.toInt = 0 ∨ b.toInt = 1) := not_not.mpr (toInt_bit b)
  have hbc : ¬ (bitChar b ≠ 0 ∧ bitChar b ≠ 1) := by cases b <;> decide
  have hc := currentbyte_lt s
  have hbt : b.toInt.toNat = b.toNat := by cases b <;> rfl
  have hor : s.currentbyte <<< 1 ||| b.toInt.toNat = 2 * s.currentbyte + b.toNat := by
    have h := Nat.two_pow_add_eq_or_of_lt (i := 1) (b := b.toNat) (by cases b <;> decide)
      s.currentbyte
    rw [hbt, Nat.shiftLeft_eq, Nat.mul_comm, ← h]
  have hlt : 2 * s.currentbyte + b.toNat < 256 := by
    have : b.toNat ≤ 1 := by cases b <;> decide
    omega
  have hcb : UInt8.ofNat s.currentbyte <<< 1 ||| bitChar b =
      UInt8.ofNat (s.currentbyte <<< 1 ||| b.toInt.toNat) := by
    apply UInt8.toNat_inj.mp
    rw [toNat_shift_or, hor, UInt8.toNat_ofNat', UInt8.toNat_ofNat']
    omega
  rw [BitOutputStream.write, dif_neg hb, ArithmeticCoding.BitOutputStream.write_eq, if_neg hbc]
  by_cases h : s.numbitsfilled + 1 = 8
  · refine ⟨_, dif_pos h, (dif_pos h).trans ?_⟩
    simp only [BitOutputStream.toPort, hcb, UInt8.ofNatLT_eq_ofNat]
    rfl
  · refine ⟨_, dif_neg h, (dif_neg h).trans ?_⟩
    simp only [BitOutputStream.toPort, hcb]

theorem closeLoop_toPort (n : Nat) (s : BitOutputStream) :
    ∃ s', s.closeLoop n = .ok s' ∧ s.toPort.closeLoop n = .ok s'.toPort := by
  induction n generalizing s with
  | zero => exact ⟨s, rfl, rfl⟩
  | succ n ih =>
    by_cases h0 : s.numbitsfilled = 0
    · exact ⟨s, if_neg (not_not.mpr h0), if_neg (not_not.mpr h0)⟩
    · obtain ⟨s₁, hw, hw'⟩ := write_toPort s false
      obtain ⟨s', hrun, hrun'⟩ := ih s₁
      refine ⟨s', ?_, ?_⟩
      · rw [BitOutputStream.closeLoop, if_pos h0]
        change (s.write false.toInt).andThen _ = _
        rw [hw, andThen_ok, hrun]
      · rw [ArithmeticCoding.BitOutputStream.closeLoop,
          ArithmeticCoding.BitOutputStream.closeCharLoop]
        rw [if_pos (show s.toPort.numbitsfilled ≠ 0 from h0)]
        change (s.toPort.write (bitChar false)).andThen _ = _
        rw [hw', andThen_ok]
        exact hrun'

/-! ## The encoder -/

def EncoderMembers.out (m : EncoderMembers) : Output :=
  ⟨m.output.bitOut.toPort.bits, m.numUnderflow⟩

theorem counting_write (s : CountingBitOutputStream) (b : Bool) :
    ∃ s', s.write b.toInt = .ok s' ∧
      s'.bitOut.toPort.bits = s.bitOut.toPort.bits ++ [b] := by
  obtain ⟨t, hw, hw'⟩ := write_toPort s.bitOut b
  obtain ⟨t', hp, hb, -⟩ := write_bits s.bitOut.toPort b
  rw [hw'] at hp
  obtain rfl := Result.ok.inj hp
  exact ⟨_, by rw [CountingBitOutputStream.write, hw, within_ok], hb⟩

theorem counting_close (s : CountingBitOutputStream) :
    ∃ s' p, s.close = .ok s' ∧ p < 8 ∧
      fileBits s'.bitOut.output = s.bitOut.toPort.bits ++ List.replicate p false := by
  obtain ⟨t, hc, hc'⟩ := closeLoop_toPort 8 s.bitOut
  obtain ⟨t', p, hp, hlt, hbits⟩ := close_bits s.bitOut.toPort
  obtain rfl : t.toPort = t' := Result.ok.inj (hc'.symm.trans hp)
  exact ⟨_, p, by rw [CountingBitOutputStream.close, BitOutputStream.close, hc, within_ok], hlt,
    hbits⟩

theorem writeTimes_bits (n : Nat) (s : CountingBitOutputStream) (b : Bool) :
    ∃ s', ArithmeticEncoder.writeTimes b.toInt n s = .ok s' ∧
      s'.bitOut.toPort.bits = s.bitOut.toPort.bits ++ List.replicate n b := by
  induction n generalizing s with
  | zero => exact ⟨s, rfl, (List.append_nil _).symm⟩
  | succ n ih =>
    obtain ⟨t, hw, hb⟩ := counting_write s b
    obtain ⟨s', hrun, hbits⟩ := ih t
    refine ⟨s', by rw [ArithmeticEncoder.writeTimes, hw, andThen_ok, hrun], ?_⟩
    rw [hbits, hb, List.replicate_succ, List.append_assoc]
    rfl

/-- The reference follows the output that the port follows. -/
theorem encoder_follows :
    ArithmeticEncoder.virtual.Follows (fun m O => m.out = O) Output.apply Unbounded where
  room_of_rel _ := trivial
  room_of_act _ := trivial
  shift := by
    rintro c _ b hI hb rfl
    obtain ⟨s₁, hw₁, hb₁⟩ := counting_write c.sub.output b
    obtain ⟨s₂, hw₂, hb₂⟩ := writeTimes_bits c.sub.numUnderflow s₁ (!b)
    have hbit : c.low >>> (STATE_SIZE - 1) = b.toInt := top_bit_toInt hI hb
    have hnot : b.toInt.xor 1 = (!b).toInt := by cases b <;> rfl
    refine .of_ok ⟨⟨s₂, 0⟩, ?_, ?_⟩
    · simp only [ArithmeticEncoder.virtual, ArithmeticEncoder.shift, hbit, hnot, hw₁, andThen_ok,
        hw₂, within_ok]
    · rw [EncoderMembers.out, hb₂, hb₁, List.append_assoc]
      rfl
  underflow := by
    rintro c _ rfl
    exact .of_ok ⟨_, rfl, rfl⟩

/-! ## Tables -/

/-- The symbol is in the table, with a frequency above zero. -/
def Coded (t : FrequencyTable) (symbol : Nat) : Prop :=
  ∃ f, t.frequencies[symbol]? = some f ∧ 0 < f

instance (t : FrequencyTable) (symbol : Nat) : Decidable (Coded t symbol) :=
  decidable_of_iff (0 < t.frequencies[symbol]?.getD 0) (by
    unfold Coded
    cases t.frequencies[symbol]? <;> simp)

/-- The arguments of the port for a symbol of a table. -/
def FrequencyTable.call (t : FrequencyTable) (symbol : Nat) : Call :=
  ⟨t.getTotal, t.getLow symbol, t.getHigh symbol⟩

def calls (steps : List (FrequencyTable × Nat)) : List Call :=
  steps.map fun step => step.1.call step.2

theorem sum_take_le (xs : List Nat) (n : Nat) : (xs.take n).sum ≤ xs.sum := by
  have h := congrArg List.sum (List.take_append_drop n xs)
  rw [List.sum_append] at h
  omega

theorem getHigh_eq {t : FrequencyTable} {symbol f : Nat}
    (h : t.frequencies[symbol]? = some f) : t.getHigh symbol = t.getLow symbol + f := by
  rw [FrequencyTable.getHigh, FrequencyTable.getLow, List.take_add_one, h, List.sum_append]
  simp

theorem call_valid {t : FrequencyTable} {symbol : Nat} (h : Coded t symbol) :
    (t.call symbol).Valid := by
  obtain ⟨f, hf, hpos⟩ := h
  have hh := getHigh_eq hf
  refine ⟨Int.natCast_nonneg _, ?_, Int.ofNat_le.mpr (sum_take_le _ _)⟩
  change t.getLow symbol < t.getHigh symbol
  omega

/-! ## One step -/

/-- The remainders leave room for the missing point of the range. -/
def SameSlot {δ : Type} (c : Coder δ) (a : Call) : Prop :=
  a.symlow * c.range % a.total + a.symlow < a.total ∧
    a.symhigh * c.range % a.total + a.symhigh < a.total

instance {δ : Type} (c : Coder δ) (a : Call) : Decidable (SameSlot c a) :=
  inferInstanceAs (Decidable (_ ∧ _))

/-- **The two updates** narrow one interval alike exactly then. -/
theorem narrowed_eq_iff {δ : Type} {c : Coder δ} {t : FrequencyTable} {symbol : Nat}
    (ha : (t.call symbol).Valid) (hI : c.interval.Inside (2 ^ 30)) :
    newlow t symbol c = c.newlow (t.call symbol) ∧
        newhigh t symbol c = c.newhigh (t.call symbol) ↔ SameSlot c (t.call symbol) := by
  have hpos : 0 < t.getTotal := ha.total_pos
  have hl : newlow t symbol c = c.low + slot (c.range + 1) t.getTotal (t.getLow symbol) := by
    rw [newlow, Int.fdiv_eq_ediv_of_nonneg _ hpos.le]
    rfl
  have hh : newhigh t symbol c =
      c.low + slot (c.range + 1) t.getTotal (t.getHigh symbol) - 1 := by
    rw [newhigh, Int.fdiv_eq_ediv_of_nonneg _ hpos.le]
    rfl
  have h1 := slot_succ_eq_iff (r := c.range) ha.total_pos ha.symlow_nonneg
  have h2 := slot_succ_eq_iff (r := c.range) ha.total_pos (ha.symlow_nonneg.trans ha.symlow_lt.le)
  rw [SameSlot, ← h1, ← h2, hl, hh, newlow_eq ha hI, newhigh_eq ha hI]
  simp only [FrequencyTable.call]
  constructor <;> rintro ⟨e1, e2⟩ <;> constructor <;> omega

theorem not_boundary_of_sameSlot {e : ArithmeticCoding.ArithmeticEncoder} {a : Call}
    (h : SameSlot e a) : ¬ Boundary e a := by
  rintro ⟨ht, -, hh, hr⟩
  have h2 := h.2
  rw [ht, hh, hr, MAX_TOTAL_eq] at h2
  revert h2
  decide

/-- The coders are in the same state, streams included. -/
structure InStep (e : ArithmeticCoding.ArithmeticEncoder) (p : ArithmeticEncoder) : Prop where
  interval : p.interval = e.interval
  output : p.sub.out = e.sub.output

/-- What the guard of the reference admits. -/
def Admitted (step : FrequencyTable × Nat) : Prop :=
  Coded step.1 step.2 ∧ step.1.getTotal ≤ MAX_TOTAL

instance (step : FrequencyTable × Nat) : Decidable (Admitted step) :=
  inferInstanceAs (Decidable (_ ∧ _))

theorem Admitted.accepted {t : FrequencyTable} {symbol : Nat} (h : Admitted (t, symbol)) :
    Accepted (t.call symbol) := ⟨call_valid h.1, h.2⟩

/-- **One step**, if that of the port ends. -/
theorem step_lockstep {e e' : ArithmeticCoding.ArithmeticEncoder} {p : ArithmeticEncoder}
    {t : FrequencyTable} {symbol : Nat} (h : Admitted (t, symbol)) (he : Kept e)
    (hin : InStep e p) (hsame : SameSlot e (t.call symbol))
    (hw : e.write (t.call symbol) = .ok e') :
    ∃ p', p.write t symbol = .ok p' ∧ InStep e' p' := by
  obtain ⟨ha, ht⟩ := h.accepted
  have hI := he.settled.inside
  have hlt := slot_lt_of_not_boundary ha ht he.settled (not_boundary_of_sameSlot hsame)
  obtain ⟨pl, ph, ps⟩ := p
  obtain ⟨hint, hout⟩ := hin
  obtain ⟨rfl, rfl⟩ := Interval.mk.inj hint
  obtain ⟨el, eh⟩ := (narrowed_eq_iff ha hI).mpr hsame
  rw [ArithmeticCoding.ArithmeticEncoder.write, update_eq _ ha hI ht] at hw
  obtain ⟨ms, p', hp', hsc, -, hint', hout'⟩ := renormalise_lockstep
    ArithmeticCoding.encoder_follows encoder_follows (narrowed_inside ha hI hlt)
    (d := ⟨newlow t symbol e, newhigh t symbol e, ps⟩)
    (by rw [Coder.interval, el, eh]; rfl) he.holds hout hw
  refine ⟨p', ?_, hint', hout'.trans hsc.sub.output.symm⟩
  rw [ArithmeticEncoder.write, update, if_neg (not_lt.mpr h.2),
    if_neg (show t.getTotal ≠ 0 from ha.total_pos.ne')]
  exact hp'

/-! ## Runs -/

theorem writes_concat (steps : List (FrequencyTable × Nat)) (t : FrequencyTable) (symbol : Nat)
    {p p₁ : ArithmeticEncoder} (h : writes steps p = .ok p₁) :
    writes (steps ++ [(t, symbol)]) p = p₁.write t symbol := by
  induction steps generalizing p with
  | nil =>
    obtain rfl := Result.ok.inj h
    change (p.write t symbol).andThen (fun p => .ok p) = p.write t symbol
    cases p.write t symbol <;> rfl
  | cons step steps ih =>
    change (p.write step.1 step.2).andThen (writes steps) = _ at h
    change (p.write step.1 step.2).andThen (writes (steps ++ [(t, symbol)])) = _
    cases hb : p.write step.1 step.2 with
    | ok p₂ => exact ih (by rw [hb] at h; exact h)
    | threw message p₂ => rw [hb] at h; cases h
    | undefined => rw [hb] at h; cases h

theorem calls_accepted {steps : List (FrequencyTable × Nat)} (h : ∀ step ∈ steps, Admitted step) :
    ∀ a ∈ calls steps, Accepted a := by
  intro a hm
  obtain ⟨step, hstep, rfl⟩ := List.mem_map.mp hm
  exact (h step hstep).accepted

theorem not_boundary_of_everyCall {as : List Call} (h : EveryCall as SameSlot) :
    EveryCall as fun e a => ¬ Boundary e a := fun pre a post e he hrun =>
  not_boundary_of_sameSlot (h pre a post e he hrun)

/-- **Every run** of such steps, as far as the port gets. -/
theorem writes_lockstep (steps : List (FrequencyTable × Nat)) (h : ∀ step ∈ steps, Admitted step)
    (hsame : EveryCall (calls steps) SameSlot) {e : ArithmeticCoding.ArithmeticEncoder}
    (hrun : ArithmeticCoding.writes (calls steps) .fresh = .ok e) :
    ∃ p, writes steps .fresh = .ok p ∧ InStep e p := by
  induction steps using List.reverseRecOn generalizing e with
  | nil =>
    obtain rfl := Result.ok.inj hrun
    exact ⟨_, rfl, rfl, rfl⟩
  | append_singleton steps step ih =>
    obtain ⟨t, symbol⟩ := step
    have hcalls : calls (steps ++ [(t, symbol)]) = calls steps ++ [t.call symbol] := List.map_append
    rw [hcalls] at hsame hrun
    have hsteps : ∀ step ∈ steps, Admitted step := fun s hm => h s (List.mem_append_left _ hm)
    obtain ⟨e₀, hrun₀, hw⟩ := updates_concat_eq_ok hrun
    have hkept := writes_kept _ (calls_accepted hsteps) (not_boundary_of_everyCall hsame.of_append)
      hrun₀
    obtain ⟨p, hp, hin⟩ := ih hsteps hsame.of_append hrun₀
    obtain ⟨p', hp', hin'⟩ := step_lockstep
      (h _ (List.mem_append_right _ (List.mem_singleton_self _))) hkept hin (hsame.last hrun₀) hw
    exact ⟨p', (writes_concat _ _ _ hp).trans hp', hin'⟩

theorem finish_close (p : ArithmeticEncoder) :
    ∃ p' n, (p.finish).andThen ArithmeticEncoder.close = .ok p' ∧ n < 8 ∧
      fileBits p'.file = (p.sub.out.bits ++ [true]) ++ List.replicate n false := by
  obtain ⟨s₁, hw, hb⟩ := counting_write p.sub.output true
  obtain ⟨s₂, n, hc, hlt, hbits⟩ := counting_close s₁
  have hfin : p.finish = .ok { p with sub := { p.sub with output := s₁ } } := by
    change (p.sub.output.write true.toInt).within _ = _
    rw [hw, within_ok]
  refine ⟨{ p with sub := { p.sub with output := s₂ } }, n, ?_, hlt, ?_⟩
  · rw [hfin, andThen_ok, ArithmeticEncoder.close, hc, within_ok]
  · rw [hb] at hbits
    exact hbits

/-- **The port.**  In a run whose steps all leave room, and in which no counter of the
port overflows, port and reference are in the same state after every symbol, and write
the same file. -/
theorem port_agrees (steps : List (FrequencyTable × Nat)) (h : ∀ step ∈ steps, Admitted step)
    (hsame : EveryCall (calls steps) SameSlot) (hno : NoOverflow (calls steps)) :
    (∀ pre post, steps = pre ++ post →
      ∃ e p, ArithmeticCoding.writes (calls pre) .fresh = .ok e ∧ writes pre .fresh = .ok p ∧
        p.low = e.low ∧ p.high = e.high ∧ p.sub.numUnderflow = e.sub.numUnderflow) ∧
    ∃ e p, ArithmeticCoding.encode (calls steps) = .ok e ∧ encode steps = .ok p ∧
      p.file = e.file := by
  constructor
  · rintro pre post rfl
    have hcalls : calls (pre ++ post) = calls pre ++ calls post := List.map_append
    rw [hcalls] at hsame hno
    have hpre : ∀ step ∈ pre, Admitted step := fun s hm => h s (List.mem_append_left _ hm)
    obtain ⟨e, he⟩ := (writes_ok_iff _ (calls_accepted hpre)
      (not_boundary_of_everyCall hsame.of_append)).mpr hno.calls.of_append
    obtain ⟨p, hp, hint, hout⟩ := writes_lockstep pre hpre hsame.of_append he
    obtain ⟨hl, hh⟩ := Interval.mk.inj hint
    exact ⟨e, p, he, hp, hl, hh, congrArg Output.pending hout⟩
  · have hacc := calls_accepted h
    have hb := not_boundary_of_everyCall hsame
    obtain ⟨e', henc⟩ := (encode_ok_iff _ hacc hb).mpr hno
    obtain ⟨e, he, -⟩ := encode_eq_ok henc
    obtain ⟨p, hp, -, hout⟩ := writes_lockstep steps h hsame he
    obtain ⟨m, hm, hbits⟩ := file_of_encode (writes_kept _ hacc hb he) he henc
    obtain ⟨p', n, hend', hn, hbits'⟩ := finish_close p
    rw [hout] at hbits'
    refine ⟨e', p', henc, ?_, file_eq_of_bits hn hm hbits' hbits⟩
    rw [encode, hp, andThen_ok]
    exact hend'

/-- Four bits are pending and then settled in this run, and five are pending at its end. -/
def pendingSteps : List (FrequencyTable × Nat) :=
  [0, 2, 0, 1, 1, 2, 0].map fun symbol => (⟨[1, 2, 1, 1]⟩, symbol)

theorem pendingSteps_sameSlot : EveryCall (calls pendingSteps) SameSlot :=
  everyCall_of_everyFrom (by decide +kernel)

theorem port_agrees_pendingSteps :
    (∀ pre post, pendingSteps = pre ++ post →
      ∃ e p, ArithmeticCoding.writes (calls pre) .fresh = .ok e ∧ writes pre .fresh = .ok p ∧
        p.low = e.low ∧ p.high = e.high ∧ p.sub.numUnderflow = e.sub.numUnderflow) ∧
    ∃ e p, ArithmeticCoding.encode (calls pendingSteps) = .ok e ∧
      encode pendingSteps = .ok p ∧ p.file = e.file := by
  have hadm : ∀ step ∈ pendingSteps, Admitted step := by decide
  exact port_agrees pendingSteps hadm pendingSteps_sameSlot (noOverflow_of_length _
    (calls_accepted hadm) (not_boundary_of_everyCall pendingSteps_sameSlot) (by decide))

/-- Two symbols of one frequency: the ends differ after the first one. -/
theorem port_differs : Admitted (⟨[1, 1]⟩, 0) ∧
    ¬ ∃ e p, ArithmeticCoding.writes (calls [(⟨[1, 1]⟩, 0)]) .fresh = .ok e ∧
      writes [(⟨[1, 1]⟩, 0)] .fresh = .ok p ∧ p.low = e.low ∧ p.high = e.high ∧
      p.sub.numUnderflow = e.sub.numUnderflow := by
  refine ⟨⟨⟨1, rfl, by decide⟩, by decide⟩, ?_⟩
  rintro ⟨e, p, he, hp, -, hh, -⟩
  have h₁ : (ArithmeticCoding.writes (calls [(⟨[1, 1]⟩, 0)]) .fresh).object?.map Coder.high =
      some 0xFFFFFFFD := by decide +kernel
  have h₂ : (writes [(⟨[1, 1]⟩, 0)] .fresh).object?.map Coder.high = some 0xFFFFFFFF := by
    decide +kernel
  rw [he] at h₁
  rw [hp] at h₂
  have e₁ : e.high = 0xFFFFFFFD := Option.some.inj h₁
  have e₂ : p.high = 0xFFFFFFFF := Option.some.inj h₂
  rw [e₁, e₂] at hh
  exact absurd hh (by decide)

end DeepSpace.Reference
