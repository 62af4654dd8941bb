import DeepSpace.Uart
import DeepSpace.Slot

/-!
# The two wired together, and `uart.v`

* `link_received`: a transmitter wired to a receiver loses nothing;
* `uart_simulates`: the top module is a place to wait before a transmitter that is busy for a clock
  more than a character;
* `echo_lossless_iff`: so it echoes a sequence of characters exactly if that leaves it this clock.
-/

namespace DeepSpace.Link

open DeepSpace.Events DeepSpace.SerialLine DeepSpace.Uart

variable {C : Nat}

/-! ## `tx_pin` wired to `rx_pin` -/

def link (CYCLES : Nat) (input : Nat → TxInput) (t : Nat) : Bool := (uartTx CYCLES input t).txReg

/-- The bytes in `tx_data_latch` up to cycle `t`. -/
def latched (CYCLES : Nat) (input : Nat → TxInput) (t : Nat) : List (BitVec 8) :=
  before (latches CYCLES input) t

/-- `rx_data` in the cycles up to `t` where `rx_data_valid` rises. -/
def received (CYCLES : Nat) (input : Nat → TxInput) (t : Nat) : List (BitVec 8) :=
  before (rises CYCLES (link CYCLES input)) (t + 1)

/-- **Received** is what was latched so many cycles ago. -/
theorem received_eq (hC : 4 ≤ C) (hC' : C ≤ 65536) (input : Nat → TxInput) (t : Nat) :
    received C input t = latched C input (t - (9 * C + C / 2 + 3)) := by
  have hspaced : Spaced (10 * C) (delay 2 (latches C input)) := by
    refine spaced_delay_iff.mpr fun s s' hlt hs hs' => ?_
    have := latches_spaced hC hC' input s s' hlt hs hs'
    omega
  have hrises := rises_eq hC hC' hspaced (delay_of_lt _ (by decide)) (txPin_eq hC hC' input)
  unfold received link
  rw [hrises, delay_delay, before_delay, latched]
  congr 1
  omega

/-- **Nothing is lost** on the line: at most one byte is on its way, and it arrives. -/
theorem link_received (hC : 4 ≤ C) (hC' : C ≤ 65536) (input : Nat → TxInput) (t : Nat) :
    received C input t <+: latched C input t ∧
      (latched C input t).length ≤ (received C input t).length + 1 ∧
      received C input (t + (9 * C + C / 2 + 3)) = latched C input t := by
  refine ⟨?_, ?_, ?_⟩
  · rw [received_eq hC hC']
    exact before_mono (Nat.sub_le _ _)
  · rw [received_eq hC hC']
    exact before_length_le (latches_spaced hC hC' input) (by omega)
  · rw [received_eq hC hC', Nat.add_sub_cancel]

theorem link_received_example :
    received 1736 (fun t => ⟨BitVec.ofNat 8 t, true⟩) 40000 <+:
        latched 1736 (fun t => ⟨BitVec.ofNat 8 t, true⟩) 40000 ∧
      (latched 1736 (fun t => ⟨BitVec.ofNat 8 t, true⟩) 40000).length ≤
        (received 1736 (fun t => ⟨BitVec.ofNat 8 t, true⟩) 40000).length + 1 ∧
      received 1736 (fun t => ⟨BitVec.ofNat 8 t, true⟩)
          (40000 + (9 * 1736 + 1736 / 2 + 3)) =
        latched 1736 (fun t => ⟨BitVec.ofNat 8 t, true⟩) 40000 :=
  link_received (by decide) (by decide) _ _

/-! ## The top module -/

/-- The instances and registers of `uart`. -/
structure Uart where
  uartRxInst : UartRx
  uartTxInst : UartTx
  txData : BitVec 8
  txDataValid : Bool
  deriving DecidableEq, Repr

def Uart.reset : Uart := ⟨.reset, .reset, 0, false⟩

/-- A positive edge of `sys_clk`; `rx_data_ready` is assigned 1. -/
def Uart.clock (CYCLES : Nat) (s : Uart) (pin : Bool) : Uart where
  uartRxInst := s.uartRxInst.clock CYCLES true pin
  uartTxInst := s.uartTxInst.clock CYCLES s.txData s.txDataValid
  txData := if s.uartRxInst.rxDataValid then s.uartRxInst.rxData else s.txData
  txDataValid :=
    if s.uartRxInst.rxDataValid then true
    else if s.txDataValid ∧ s.uartTxInst.txDataReady then false
    else s.txDataValid

/-- The module in cycle `t` after the reset, with `pin` on `uart_rx`. -/
def uart (CYCLES : Nat) (pin : Nat → Bool) : Nat → Uart
  | 0 => .reset
  | t + 1 => (uart CYCLES pin t).clock CYCLES (pin t)

/-- `rx_data` in the cycles with `rx_data_valid`. -/
def Uart.arrival (s : Uart) : Option (BitVec 8) :=
  if s.uartRxInst.rxDataValid then some s.uartRxInst.rxData else none

/-- `tx_data` in the cycles with `tx_data_valid`. -/
def Uart.waiting (s : Uart) : Option (BitVec 8) := if s.txDataValid then some s.txData else none

/-- What `uart_tx` latches at the end of the cycle. -/
def Uart.departure (s : Uart) : Option (BitVec 8) :=
  if s.uartTxInst.state = .idle then s.waiting else none

/-- The line, for characters with their start edges at the ends of the cycles of `edges`. -/
def line (CYCLES : Nat) (edges : Trace (BitVec 8)) (t : Nat) : Bool :=
  level cells CYCLES (place (10 * CYCLES) (delay 1 edges) t)

/-- **An echo that loses nothing**: every byte received waits until it is latched, is latched before
another character could pass, and is on the line. -/
structure LosslessEcho (CYCLES : Nat) (pin : Nat → Bool) : Prop where
  waits : ∀ t, before (fun t => (uart CYCLES pin t).arrival) t =
    before (fun t => (uart CYCLES pin t).departure) t ++ (uart CYCLES pin t).waiting.toList
  latched_soon : ∀ t, before (fun t => (uart CYCLES pin t).arrival) t <+:
    before (fun t => (uart CYCLES pin t).departure) (t + (10 * CYCLES + 1))
  sent : ∀ t, (uart CYCLES pin t).uartTxInst.txReg =
    level cells CYCLES (place (10 * CYCLES)
      (delay 2 fun t => (uart CYCLES pin t).departure) t)

/-! ## The instances -/

section

variable (C : Nat) (pin : Nat → Bool)

/-- The inputs of `uart_tx_inst`. -/
def txInput (t : Nat) : TxInput := ⟨(uart C pin t).txData, (uart C pin t).txDataValid⟩

def arrivals : Trace (BitVec 8) := fun t => (uart C pin t).arrival

theorem uartRxInst_eq (t : Nat) : (uart C pin t).uartRxInst = uartRx C pin t := by
  induction t with
  | zero => rfl
  | succ t ih =>
    change (uart C pin t).uartRxInst.clock C true (pin t) = _
    rw [ih]
    rfl

theorem uartTxInst_eq (t : Nat) : (uart C pin t).uartTxInst = uartTx C (txInput C pin) t := by
  induction t with
  | zero => rfl
  | succ t ih =>
    change (uart C pin t).uartTxInst.clock C _ _ = _
    rw [ih]
    rfl

theorem departure_eq : (fun t => (uart C pin t).departure) = latches C (txInput C pin) := by
  funext t
  unfold Uart.departure Uart.waiting latches
  rw [uartTxInst_eq, ← ite_and]
  rfl

end

/-- The transmitter is ready when it is idle, from its first clock on. -/
theorem ready_iff {s : UartTx} (h : s.txDataReady → s.state = .idle) (d : BitVec 8) (v : Bool) :
    (s.clock C d v).txDataReady ↔ (s.clock C d v).state = .idle := by
  cases hs : s.state with
  | idle => cases v <;> simp [UartTx.clock, UartTx.nextState, hs]
  | start =>
    have hr : s.txDataReady = false := by simpa [hs] using h
    by_cases hc : s.cycleCnt = C - 1 <;> simp [UartTx.clock, UartTx.nextState, hs, hr, hc]
  | sendByte =>
    have hr : s.txDataReady = false := by simpa [hs] using h
    by_cases hc : s.cycleCnt = C - 1 ∧ s.bitCnt = BITS - 1 <;>
      simp [UartTx.clock, UartTx.nextState, hs, hr, hc]
  | stop =>
    have hr : s.txDataReady = false := by simpa [hs] using h
    by_cases hc : s.cycleCnt = C - 1 <;> simp [UartTx.clock, UartTx.nextState, hs, hr, hc]

theorem uart_ready (pin : Nat → Bool) (t : Nat) :
    ((uart C pin t).uartTxInst.txDataReady → (uart C pin t).uartTxInst.state = .idle) ∧
      ((uart C pin t).txDataValid → (uart C pin t).uartTxInst.state = .idle →
        (uart C pin t).uartTxInst.txDataReady) := by
  induction t with
  | zero => exact ⟨nofun, nofun⟩
  | succ t ih =>
    have h := ready_iff (C := C) ih.1 (uart C pin t).txData (uart C pin t).txDataValid
    exact ⟨h.mp, fun _ => h.mpr⟩

/-- What waits is replaced by what arrives, and leaves when the transmitter is idle. -/
theorem waiting_succ (pin : Nat → Bool) (t : Nat) :
    (uart C pin (t + 1)).waiting =
      match (uart C pin t).arrival with
      | some a => some a
      | none =>
        if (uart C pin t).uartTxInst.state = .idle then none else (uart C pin t).waiting := by
  obtain ⟨hidle, hready⟩ := uart_ready (C := C) pin t
  unfold Uart.arrival
  cases hr : (uart C pin t).uartRxInst.rxDataValid with
  | true => simp [uart, Uart.clock, Uart.waiting, hr]
  | false =>
    cases hv : (uart C pin t).txDataValid with
    | false => simp [uart, Uart.clock, Uart.waiting, hr, hv]
    | true =>
      by_cases hs : (uart C pin t).uartTxInst.state = .idle
      · simp [uart, Uart.clock, Uart.waiting, hr, hs, hready hv hs]
      · have hn : (uart C pin t).uartTxInst.txDataReady = false := by simpa [hs] using hidle
        simp [uart, Uart.clock, Uart.waiting, hr, hv, hs, hn]

/-! ## A place to wait -/

/-- The clocks until the transmitter is idle. -/
def remaining (C : Nat) (p : Option (Place (BitVec 8))) : Nat := p.elim 0 (10 * C - ·.age)

theorem remaining_next (q : Place (BitVec 8)) :
    remaining C (q.next (10 * C)) = remaining C (some q) - 1 := by
  unfold Place.next
  split
  · exact (Nat.sub_sub _ _ _).symm
  · change 0 = 10 * C - q.age - 1
    omega

section

variable (hC : 4 ≤ C) (hC' : C ≤ 65536) (pin : Nat → Bool)

include hC hC'

/-- **The top module** is a place to wait before a transmitter that is busy for `10 * C + 1`
clocks. -/
theorem uart_simulates (t : Nat) :
    Slot.run (10 * C + 1) (arrivals C pin) t =
      ⟨(uart C pin t).waiting,
        remaining C (place (10 * C) (delay 1 (latches C (txInput C pin))) t)⟩ := by
  induction t with
  | zero => rw [place_zero (delay_of_lt _ (by decide))]; rfl
  | succ t ih =>
    have h1 : delay 1 (latches C (txInput C pin)) (t + 1) = (uart C pin t).departure := by
      rw [delay_add, ← departure_eq]
    have hat := uartTx_at hC hC' (txInput C pin) t
    rw [← uartTxInst_eq] at hat
    have hw := waiting_succ (C := C) pin t
    rw [Slot.run, ih, show arrivals C pin t = (uart C pin t).arrival from rfl]
    change Slot.State.mk _ _ = _
    by_cases hs : (uart C pin t).uartTxInst.state = .idle
    · have hp := hat.idle_iff.mp hs
      have hd : (uart C pin t).departure = (uart C pin t).waiting := if_pos hs
      rw [if_pos hs] at hw
      rw [hp, hw]
      refine congrArg₂ Slot.State.mk (by cases (uart C pin t).arrival <;> rfl) ?_
      cases hwait : (uart C pin t).waiting with
      | none => rw [place_succ ((h1.trans hd).trans hwait), hp]; rfl
      | some b => rw [place_of_start ((h1.trans hd).trans hwait)]; rfl
    · obtain ⟨q, hq⟩ := Option.ne_none_iff_exists'.mp (mt hat.idle_iff.mpr hs)
      have hd : (uart C pin t).departure = none := if_neg hs
      have hage := age_lt (show 0 < 10 * C by omega) hq
      have hb : remaining C (some q) ≠ 0 := Nat.sub_ne_zero_of_lt hage
      rw [if_neg hs] at hw
      rw [place_succ (h1.trans hd), hq, Option.bind_some, remaining_next, hw, if_neg hb, if_neg hb]
      cases (uart C pin t).arrival <;> rfl

theorem takes_eq : Slot.takes (10 * C + 1) (arrivals C pin) = latches C (txInput C pin) := by
  funext t
  have hat := uartTx_at hC hC' (txInput C pin) t
  rw [← uartTxInst_eq] at hat
  rw [← departure_eq, Slot.takes, uart_simulates hC hC', Slot.State.taken]
  refine if_congr ?_ rfl rfl
  rw [hat.idle_iff]
  cases hq : place (10 * C) (delay 1 (latches C (txInput C pin))) t with
  | none => exact iff_of_true rfl rfl
  | some q =>
    have hage := age_lt (show 0 < 10 * C by omega) hq
    exact iff_of_false (Nat.sub_ne_zero_of_lt hage) (Option.some_ne_none q)

end

/-! ## The echo -/

section

variable {edges : Trace (BitVec 8)}

/-- **Every character is received**, in the middle of its stop bit. -/
theorem arrivals_eq (hC : 4 ≤ C) (hC' : C ≤ 65536) (hs : Spaced (10 * C) edges) :
    arrivals C (line C edges) = delay (9 * C + C / 2 + 3) edges := by
  have hs1 : Spaced (10 * C) (delay 1 edges) := spaced_delay_iff.mpr hs
  have hpin : ∀ t, line C edges t = level cells C (place (10 * C) (delay 1 edges) t) := fun _ => rfl
  have hv := valid_eq hC hC' hs1 (delay_of_lt _ (by decide)) hpin
  funext t
  rw [arrivals, Uart.arrival, uartRxInst_eq, hv, delay_delay]

/-- A bit longer than the 16 bits of `cycle_cnt`: the receiver stays in the first one. -/
theorem uartRx_of_long (hC : 65536 < C) (pin : Nat → Bool) (t : Nat) :
    ((uartRx C pin t).state = .idle ∨ (uartRx C pin t).state = .start) ∧
      (uartRx C pin t).cycleCnt < 65536 ∧ (uartRx C pin t).rxDataValid = false := by
  induction t with
  | zero => exact ⟨.inl rfl, show 0 < 65536 by decide, rfl⟩
  | succ t ih =>
    obtain ⟨hs, hc, hv⟩ := ih
    have hcnt : (uartRx C pin t).cycleCnt ≠ C - 1 := by omega
    have hmod := Nat.mod_lt ((uartRx C pin t).cycleCnt + 1) (show 0 < 65536 by decide)
    rw [uartRx]
    refine ⟨?_, ?_, ?_⟩
    · rcases hs with hs | hs
      · cases he : (uartRx C pin t).rxNegedge <;> simp [UartRx.clock, UartRx.nextState, hs, he]
      · simp [UartRx.clock, UartRx.nextState, hs, hcnt]
    · simp only [UartRx.clock]
      split
      · decide
      · exact hmod
    · rcases hs with hs | hs <;> simp [UartRx.clock, hs, hv]

theorem uart_of_long (hC : 65536 < C) (pin : Nat → Bool) (t : Nat) :
    (uart C pin t).arrival = none ∧ (uart C pin t).waiting = none ∧
      (uart C pin t).uartTxInst.state = .idle ∧ (uart C pin t).uartTxInst.txReg = true := by
  have hr : ∀ t, (uart C pin t).uartRxInst.rxDataValid = false := fun t => by
    rw [uartRxInst_eq]
    exact (uartRx_of_long hC pin t).2.2
  refine ⟨if_neg (by rw [hr t]; decide), ?_⟩
  induction t with
  | zero => exact ⟨rfl, rfl, rfl⟩
  | succ t ih =>
    obtain ⟨hw, hs, -⟩ := ih
    have hv : (uart C pin t).txDataValid = false := by
      cases hv : (uart C pin t).txDataValid with
      | false => rfl
      | true => rw [Uart.waiting, hv] at hw; cases hw
    refine ⟨?_, ?_, ?_⟩
    · simp [uart, Uart.clock, Uart.waiting, hr t, hv]
    · simp [uart, Uart.clock, UartTx.clock, UartTx.nextState, hs, hv]
    · simp [uart, Uart.clock, UartTx.clock, hs]

/-- **When no byte is overwritten** before it is latched. -/
theorem waits_iff (hC : 4 ≤ C) (hC' : C ≤ 65536) (hs : Spaced (10 * C) edges) :
    Slot.Lossless (10 * C + 1) (arrivals C (line C edges)) ↔ Slot.Roomy (10 * C + 1) edges := by
  rw [Slot.lossless_iff (Nat.succ_pos _), arrivals_eq hC hC' hs, Slot.roomy_delay_iff]

theorem losslessEcho_iff (hC : 4 ≤ C) (hC' : C ≤ 65536) (pin : Nat → Bool) :
    LosslessEcho C pin ↔ Slot.Lossless (10 * C + 1) (arrivals C pin) := by
  have htakes := takes_eq hC hC' pin
  have hwait : ∀ t, (Slot.run (10 * C + 1) (arrivals C pin) t).slot = (uart C pin t).waiting :=
    fun t => by rw [uart_simulates hC hC']
  constructor
  · intro h t
    rw [htakes, hwait, ← departure_eq]
    exact h.waits t
  · intro h
    refine ⟨fun t => ?_, fun t => ?_, fun t => ?_⟩
    · have := h t
      rwa [htakes, hwait, ← departure_eq] at this
    · have := Slot.taken_soon (Nat.succ_pos _) h t
      rwa [htakes, ← departure_eq] at this
    · rw [uartTxInst_eq, departure_eq]
      exact txPin_eq hC hC' _ t

theorem losslessEcho_of_long (hC : 65536 < C) (pin : Nat → Bool) : LosslessEcho C pin := by
  have hlong := uart_of_long hC pin
  have hdep : (fun t => (uart C pin t).departure) = fun _ => none := by
    funext t
    unfold Uart.departure
    rw [(hlong t).2.1, ite_self]
  have harr : ∀ t, before (fun t => (uart C pin t).arrival) t = [] := fun t =>
    before_of_none (Nat.zero_le t) fun r _ _ => (hlong r).1
  refine ⟨fun t => ?_, fun t => ?_, fun t => ?_⟩
  · have hdep' : before (fun t => (uart C pin t).departure) t = [] :=
      before_of_none (Nat.zero_le t) fun r _ _ => congrFun hdep r
    rw [harr, hdep', (hlong t).2.1]
    rfl
  · rw [harr]
    exact List.nil_prefix
  · have hd : delay 2 (fun t => (uart C pin t).departure) = delay (t + 1) fun _ => none := by
      rw [hdep]
      funext r
      unfold delay
      rw [ite_self, ite_self]
    rw [(hlong t).2.2.2, hd, place_delay_of_lt (Nat.lt_succ_self t)]
    rfl

/-- **The echo** loses nothing exactly if the characters leave it a clock each, in any stretch of
them. -/
theorem echo_lossless_iff (hC : 4 ≤ C) (hs : Spaced (10 * C) edges) :
    LosslessEcho C (line C edges) ↔ 65536 < C ∨ Slot.Roomy (10 * C + 1) edges := by
  by_cases hC' : C ≤ 65536
  · rw [losslessEcho_iff hC hC', waits_iff hC hC' hs]
    exact (or_iff_right (not_lt.mpr hC')).symm
  · exact iff_of_true (losslessEcho_of_long (not_le.mp hC') _) (.inl (not_le.mp hC'))

end

/-! ## Characters back to back -/

def backToBack (CYCLES : Nat) : Trace (BitVec 8) := fun t =>
  if t % (10 * CYCLES) = 0 then some (BitVec.ofNat 8 (t / (10 * CYCLES))) else none

theorem backToBack_mod {t : Nat} (h : (backToBack C t).isSome) : t % (10 * C) = 0 := by
  by_contra hne
  rw [backToBack, if_neg hne] at h
  cases h

theorem backToBack_spaced : Spaced (10 * C) (backToBack C) := by
  intro s s' hlt hs hs'
  obtain ⟨k, rfl⟩ := Nat.dvd_of_mod_eq_zero (backToBack_mod hs)
  obtain ⟨k', rfl⟩ := Nat.dvd_of_mod_eq_zero (backToBack_mod hs')
  have hk : k + 1 ≤ k' := Nat.lt_of_mul_lt_mul_left hlt
  have := Nat.mul_le_mul_left (10 * C) hk
  rwa [Nat.mul_succ] at this

theorem backToBack_isSome (n : Nat) : (backToBack C (10 * C * n)).isSome := by
  rw [backToBack, if_pos (Nat.mul_mod_right _ _)]
  rfl

theorem length_backToBack (hC : 0 < C) (n : Nat) :
    (before (backToBack C) (10 * C * n)).length = n := by
  induction n with
  | zero => rfl
  | succ n ih =>
    have hnone : ∀ r, 10 * C * n + 1 ≤ r → r < 10 * C * (n + 1) → backToBack C r = none := by
      intro r hr hrt
      refine if_neg fun hmod => ?_
      obtain ⟨k, rfl⟩ := Nat.dvd_of_mod_eq_zero hmod
      have h1 : n < k := Nat.lt_of_mul_lt_mul_left (show 10 * C * n < 10 * C * k from hr)
      have h2 : k < n + 1 := Nat.lt_of_mul_lt_mul_left hrt
      omega
    have hle : 10 * C * n + 1 ≤ 10 * C * (n + 1) := by rw [Nat.mul_succ]; omega
    rw [before_of_none hle hnone, length_before_succ, ih, if_pos (backToBack_isSome n)]

/-- A run of more characters than a character has clocks leaves no time. -/
theorem not_roomy_backToBack (hC : 0 < C) : ¬ Slot.Roomy (10 * C + 1) (backToBack C) := by
  intro h
  have h0 := backToBack_isSome (C := C) 0
  have hlast := backToBack_isSome (C := C) (10 * C + 1)
  have := h _ _ (by rw [Nat.mul_zero, Nat.mul_succ]; omega) h0 hlast
  rw [length_backToBack hC, length_backToBack hC, Nat.mul_zero, Nat.sub_zero, Nat.add_sub_cancel,
    Nat.zero_add] at this
  exact lt_irrefl _ this

theorem echo_lossless_iff_example :
    LosslessEcho 4 (line 4 (backToBack 4)) ↔ 65536 < 4 ∨ Slot.Roomy 41 (backToBack 4) :=
  echo_lossless_iff (by decide) backToBack_spaced

theorem echo_loses :
    ¬ ∀ C edges, 4 ≤ C → Spaced (10 * C) edges → LosslessEcho C (line C edges) := by
  intro h
  have hl := h 4 (backToBack 4) (by decide) backToBack_spaced
  rw [losslessEcho_iff (by decide) (by decide),
    waits_iff (by decide) (by decide) backToBack_spaced] at hl
  exact not_roomy_backToBack (by decide) hl

end DeepSpace.Link
