import DeepSpace.SerialLine

/-!
# `uart_tx.v`, `uart_rx.v`

The two clocked modules behind their reset, for any number `CYCLES` of clocks to a bit.

* `uartTx_at`: what the transmitter is doing in each cycle, from the bytes it has latched;
* `latches_spaced`, `txPin_eq`: so its pin shows these bytes, a clock more than a character apart;
* `uartRx_at`, `rises_eq`: the receiver reports every character on its pin once, after as many
  clocks.
-/

namespace DeepSpace.Uart

open DeepSpace.Events DeepSpace.SerialLine

/-! ## The transmitter -/

def BITS : Nat := 8

inductive TxState where
  | idle
  | start
  | sendByte
  | stop
  deriving DecidableEq, Repr

/-- The registers of `uart_tx`; `cycle_cnt` has 16 bits and `bit_cnt` 3. -/
structure UartTx where
  state : TxState
  cycleCnt : Nat
  bitCnt : Nat
  txDataLatch : BitVec 8
  txReg : Bool
  txDataReady : Bool
  deriving DecidableEq, Repr

def UartTx.reset : UartTx := ⟨.idle, 0, 0, 0, true, false⟩

section

variable (CYCLES : Nat)

def UartTx.nextState (s : UartTx) (txDataValid : Bool) : TxState :=
  match s.state with
  | .idle => if txDataValid then .start else s.state
  | .start => if s.cycleCnt = CYCLES - 1 then .sendByte else s.state
  | .sendByte => if s.cycleCnt = CYCLES - 1 ∧ s.bitCnt = BITS - 1 then .stop else s.state
  | .stop => if s.cycleCnt = CYCLES - 1 then .idle else s.state

/-- A positive edge of the clock. -/
def UartTx.clock (s : UartTx) (txData : BitVec 8) (txDataValid : Bool) : UartTx where
  state := s.nextState CYCLES txDataValid
  cycleCnt :=
    if s.nextState CYCLES txDataValid ≠ s.state ∨
      s.state = .sendByte ∧ s.cycleCnt = CYCLES - 1 then 0
    else (s.cycleCnt + 1) % 2 ^ 16
  bitCnt :=
    if s.state ≠ .sendByte then 0
    else if s.cycleCnt = CYCLES - 1 then (s.bitCnt + 1) % 2 ^ 3
    else s.bitCnt
  txDataReady :=
    if s.state = .idle ∧ txDataValid then false
    else if s.state = .stop ∧ s.cycleCnt = CYCLES - 1 ∨ s.state = .idle ∧ ¬ txDataValid then true
    else s.txDataReady
  txDataLatch := if s.state = .idle ∧ txDataValid then txData else s.txDataLatch
  txReg :=
    match s.state with
    | .start => false
    | .sendByte => s.txDataLatch.getLsbD s.bitCnt
    | _ => true

/-- `tx_data` and `tx_data_valid` in a cycle. -/
structure TxInput where
  txData : BitVec 8
  txDataValid : Bool

/-- The transmitter in cycle `t` after the reset. -/
def uartTx (input : Nat → TxInput) : Nat → UartTx
  | 0 => .reset
  | t + 1 => (uartTx input t).clock CYCLES (input t).txData (input t).txDataValid

/-- The bytes that go into `tx_data_latch`. -/
def latches (input : Nat → TxInput) : Trace (BitVec 8) := fun t =>
  if (uartTx CYCLES input t).state = .idle ∧ (input t).txDataValid then some (input t).txData
  else none

end

/-! ## The receiver -/

inductive RxState where
  | idle
  | start
  | recByte
  | stop
  | data
  deriving DecidableEq, Repr

/-- The registers of `uart_rx`. -/
structure UartRx where
  state : RxState
  cycleCnt : Nat
  bitCnt : Nat
  rxD0 : Bool
  rxD1 : Bool
  rxData : BitVec 8
  rxDataValid : Bool
  deriving DecidableEq, Repr

def UartRx.reset : UartRx := ⟨.idle, 0, 0, false, false, 0, false⟩

/-- `v[i] <= b` -/
def setBit (v : BitVec 8) (i : Nat) (b : Bool) : BitVec 8 :=
  if b then v ||| BitVec.twoPow 8 i else v &&& ~~~BitVec.twoPow 8 i

def UartRx.rxNegedge (s : UartRx) : Bool := s.rxD1 && !s.rxD0

section

variable (CYCLES : Nat)

def UartRx.nextState (s : UartRx) (rxDataReady : Bool) : RxState :=
  match s.state with
  | .idle => if s.rxNegedge then .start else s.state
  | .start => if s.cycleCnt = CYCLES - 1 then .recByte else s.state
  | .recByte => if s.cycleCnt = CYCLES - 1 ∧ s.bitCnt = BITS - 1 then .stop else s.state
  | .stop => if s.cycleCnt = CYCLES / 2 - 1 then .data else s.state
  | .data => if rxDataReady then .idle else s.state

def UartRx.clock (s : UartRx) (rxDataReady rxPin : Bool) : UartRx where
  state := s.nextState CYCLES rxDataReady
  cycleCnt :=
    if s.nextState CYCLES rxDataReady ≠ s.state ∨
      s.state = .recByte ∧ s.cycleCnt = CYCLES - 1 then 0
    else (s.cycleCnt + 1) % 2 ^ 16
  bitCnt :=
    if s.state ≠ .recByte then 0
    else if s.cycleCnt = CYCLES - 1 then (s.bitCnt + 1) % 2 ^ 3
    else s.bitCnt
  rxD0 := rxPin
  rxD1 := s.rxD0
  rxData :=
    if s.state = .recByte ∧ s.cycleCnt = CYCLES / 2 - 1 then setBit s.rxData s.bitCnt rxPin
    else s.rxData
  rxDataValid :=
    if s.state = .data ∧ rxDataReady then false
    else if s.state = .stop ∧ s.nextState CYCLES rxDataReady ≠ s.state then true
    else s.rxDataValid

/-- The receiver in cycle `t` after the reset, while `rx_data_ready` is held 1. -/
def uartRx (rxPin : Nat → Bool) : Nat → UartRx
  | 0 => .reset
  | t + 1 => (uartRx rxPin t).clock CYCLES true (rxPin t)

/-- `rx_data` in the cycles where `rx_data_valid` rises. -/
def rises (rxPin : Nat → Bool) : Trace (BitVec 8)
  | 0 => none
  | t + 1 =>
    if (uartRx CYCLES rxPin (t + 1)).rxDataValid ∧ ¬ (uartRx CYCLES rxPin t).rxDataValid then
      some (uartRx CYCLES rxPin (t + 1)).rxData
    else none

end

/-! ## Characters -/

/-- A start bit, the bits of the byte from the lowest one on, a stop bit. -/
def cells (b : BitVec 8) (i : Nat) : Bool :=
  if i = 0 then false else if i ≤ BITS then b.getLsbD (i - 1) else true

theorem cells_zero (b : BitVec 8) : cells b 0 = false := rfl

theorem cells_succ (b : BitVec 8) {i : Nat} (hi : i < 8) : cells b (i + 1) = b.getLsbD i := by
  rw [cells, if_neg (Nat.succ_ne_zero i), if_pos (show i + 1 ≤ BITS from hi), Nat.add_sub_cancel]

theorem cells_nine (b : BitVec 8) : cells b 9 = true := rfl

variable {C : Nat}

theorem level_start {b : BitVec 8} {j : Nat} (hj : j < C) :
    level cells C (some ⟨b, j⟩) = false := by
  rw [level, Nat.div_eq_of_lt hj, cells_zero]

theorem level_bit {b : BitVec 8} {i j : Nat} (hi : i < 8) (hj : j < C) :
    level cells C (some ⟨b, (i + 1) * C + j⟩) = b.getLsbD i := by
  rw [level, cell_eq hj, cells_succ b hi]

theorem level_stop {b : BitVec 8} {j : Nat} (hj : j < C) :
    level cells C (some ⟨b, 9 * C + j⟩) = true := by
  rw [level, cell_eq hj, cells_nine]

/-! ## The transmitter, cycle by cycle -/

/-- What the transmitter is doing: resting, or in cycle `j` of a bit of the byte it has latched. -/
inductive TxAt (C : Nat) : Option (Place (BitVec 8)) → UartTx → Prop
  | idle {s : UartTx} : s.state = .idle → TxAt C none s
  | start {s : UartTx} {b : BitVec 8} {j : Nat} :
      s.txDataLatch = b → j < C → s.state = .start → s.cycleCnt = j → TxAt C (some ⟨b, j⟩) s
  | bit {s : UartTx} {b : BitVec 8} {i j k : Nat} :
      s.txDataLatch = b → i < 8 → j < C → k = (i + 1) * C + j → s.state = .sendByte →
      s.cycleCnt = j → s.bitCnt = i → TxAt C (some ⟨b, k⟩) s
  | stop {s : UartTx} {b : BitVec 8} {j k : Nat} :
      s.txDataLatch = b → j < C → k = 9 * C + j → s.state = .stop → s.cycleCnt = j →
      TxAt C (some ⟨b, k⟩) s

theorem TxAt.idle_iff {p : Option (Place (BitVec 8))} {s : UartTx} (h : TxAt C p s) :
    s.state = .idle ↔ p = none := by
  cases h with
  | idle hs => exact iff_of_true hs rfl
  | start _ _ hs _ => exact iff_of_false (by rw [hs]; decide) nofun
  | bit _ _ _ _ hs _ _ => exact iff_of_false (by rw [hs]; decide) nofun
  | stop _ _ _ hs _ => exact iff_of_false (by rw [hs]; decide) nofun

/-- The pin, one cycle later. -/
theorem TxAt.txReg {p : Option (Place (BitVec 8))} {s : UartTx} (h : TxAt C p s) (d : BitVec 8)
    (v : Bool) : (s.clock C d v).txReg = level cells C p := by
  cases h with
  | idle hs =>
    simp only [UartTx.clock, hs]
    rfl
  | start _ hj hs _ =>
    simp only [UartTx.clock, hs]
    exact (level_start hj).symm
  | bit hl hi hj hk hs _ hb =>
    simp only [UartTx.clock, hs, hb, hl, hk]
    exact (level_bit hi hj).symm
  | stop _ hj hk hs _ =>
    simp only [UartTx.clock, hs, hk]
    exact (level_stop hj).symm

/-- The counters do not wrap within a bit. -/
theorem cycleCnt_succ {j : Nat} (hC : C ≤ 65536) (h : j < C) (he : j ≠ C - 1) :
    (j + 1) % 65536 = j + 1 := Nat.mod_eq_of_lt (by omega)

theorem bitCnt_succ {i : Nat} (h : i < 8) (hi : i ≠ 7) : (i + 1) % 8 = i + 1 :=
  Nat.mod_eq_of_lt (by omega)

theorem next_of_lt {len : Nat} {b : BitVec 8} {k : Nat} (h : k + 1 < len) :
    Place.next len ⟨b, k⟩ = some ⟨b, k + 1⟩ := if_pos h

theorem next_of_end {len : Nat} {b : BitVec 8} {k : Nat} (h : len ≤ k + 1) :
    Place.next len ⟨b, k⟩ = none := if_neg (by exact not_lt.mpr h)

/-- **A resting transmitter** latches, or goes on resting. -/
theorem TxAt.of_idle (hC : 0 < C) {s : UartTx} (h : s.state = .idle) (d : BitVec 8) (v : Bool) :
    TxAt C (if v then some ⟨d, 0⟩ else none) (s.clock C d v) := by
  cases v with
  | false =>
    refine .idle ?_
    simp [UartTx.clock, UartTx.nextState, h]
  | true =>
    refine .start ?_ hC ?_ ?_
    all_goals simp [UartTx.clock, UartTx.nextState, h]

/-- **A busy transmitter** goes on to the next cycle of its character. -/
theorem TxAt.next (hC : C ≤ 65536) {p : Place (BitVec 8)} {s : UartTx} (h : TxAt C (some p) s)
    (d : BitVec 8) (v : Bool) : TxAt C (p.next (10 * C)) (s.clock C d v) := by
  cases h with
  | @start _ b j hl hj hs hc =>
    have hl' : (s.clock C d v).txDataLatch = b := by simp [UartTx.clock, hs, hl]
    rw [next_of_lt (by omega)]
    by_cases he : j = C - 1
    · refine .bit hl' (i := 0) (j := 0) (by decide) (by omega) (by omega) ?_ ?_ ?_
      all_goals simp [UartTx.clock, UartTx.nextState, hs, hc, he]
    · refine .start hl' (by omega) ?_ ?_
      all_goals simp [UartTx.clock, UartTx.nextState, hs, hc, he, cycleCnt_succ hC hj he]
  | @bit _ b i j k hl hi hj hk hs hc hb =>
    have hl' : (s.clock C d v).txDataLatch = b := by simp [UartTx.clock, hs, hl]
    have hle : (i + 1) * C ≤ 8 * C := Nat.mul_le_mul_right C (by omega)
    rw [next_of_lt (by omega)]
    by_cases he : j = C - 1
    · by_cases hi' : i = 7
      · refine .stop hl' (j := 0) (by omega) (by rw [hk, hi']; omega) ?_ ?_
        all_goals simp [UartTx.clock, UartTx.nextState, hs, hc, he, hb, hi', BITS]
      · refine .bit hl' (i := i + 1) (j := 0) (by omega) (by omega)
          (by rw [hk, Nat.succ_mul (i + 1)]; omega) ?_ ?_ ?_
        all_goals simp [UartTx.clock, UartTx.nextState, hs, hc, he, hb, hi', BITS,
          bitCnt_succ hi hi']
    · refine .bit hl' hi (j := j + 1) (by omega) (by rw [hk]; rfl) ?_ ?_ ?_
      all_goals simp [UartTx.clock, UartTx.nextState, hs, hc, he, hb, cycleCnt_succ hC hj he]
  | @stop _ b j k hl hj hk hs hc =>
    have hl' : (s.clock C d v).txDataLatch = b := by simp [UartTx.clock, hs, hl]
    by_cases he : j = C - 1
    · rw [next_of_end (by omega)]
      refine .idle ?_
      simp [UartTx.clock, UartTx.nextState, hs, hc, he]
    · rw [next_of_lt (by omega)]
      refine .stop hl' (j := j + 1) (by omega) (by rw [hk]; rfl) ?_ ?_
      all_goals simp [UartTx.clock, UartTx.nextState, hs, hc, he, cycleCnt_succ hC hj he]

section

variable (hC : 4 ≤ C) (hC' : C ≤ 65536) (input : Nat → TxInput)

include hC hC'

/-- **The transmitter** in each cycle. -/
theorem uartTx_at (t : Nat) :
    TxAt C (place (10 * C) (delay 1 (latches C input)) t) (uartTx C input t) := by
  have h1 : ∀ t, delay 1 (latches C input) (t + 1) = latches C input t := delay_add 1 _
  induction t with
  | zero =>
    rw [place_zero (delay_of_lt _ (by decide))]
    exact .idle rfl
  | succ t ih =>
    by_cases hs : (uartTx C input t).state = .idle
    · have hp := ih.idle_iff.mp hs
      have h := TxAt.of_idle (C := C) (by omega) hs (input t).txData (input t).txDataValid
      cases hv : (input t).txDataValid with
      | true =>
        rw [hv, if_pos rfl] at h
        rw [place_of_start ((h1 t).trans (if_pos ⟨hs, hv⟩)), uartTx, hv]
        exact h
      | false =>
        have hn : latches C input t = none := if_neg fun h => absurd (hv.symm.trans h.2) (by decide)
        rw [hv, if_neg (by decide)] at h
        rw [place_succ ((h1 t).trans hn), hp, uartTx, hv]
        exact h
    · have hn : latches C input t = none := if_neg fun h => hs h.1
      obtain ⟨q, hq⟩ := Option.ne_none_iff_exists'.mp (mt ih.idle_iff.mpr hs)
      rw [hq] at ih
      rw [place_succ ((h1 t).trans hn), hq]
      exact ih.next hC' _ _

/-- **The pin** shows the bytes that were latched, two cycles later. -/
theorem txPin_eq (t : Nat) :
    (uartTx C input t).txReg = level cells C (place (10 * C) (delay 2 (latches C input)) t) := by
  cases t with
  | zero => rw [place_zero (delay_of_lt _ (by decide))]; rfl
  | succ t =>
    have hd : delay 2 (latches C input) = delay 1 (delay 1 (latches C input)) := by
      rw [delay_delay]
    rw [hd, place_delay]
    exact (uartTx_at hC hC' input t).txReg _ _

/-- **Bytes are latched** a clock more than a character apart. -/
theorem latches_spaced : Spaced (10 * C + 1) (latches C input) := by
  refine (spaced_delay_iff (k := 1)).mp (spaced_of_idle fun t ht => ?_)
  rw [delay_add] at ht
  unfold latches at ht
  split at ht
  · next h => exact (uartTx_at hC hC' input t).idle_iff.mp h.1
  · cases ht

end

/-! ## The receiver, cycle by cycle -/

theorem getLsbD_setBit (v : BitVec 8) {i m : Nat} (hi : i < 8) (b : Bool) :
    (setBit v i b).getLsbD m = if m = i then b else v.getLsbD m := by
  by_cases h8 : m < 8
  · unfold setBit
    by_cases hm : m = i
    · subst hm
      cases b <;> simp [hi]
    · cases b
      · simp [hm, h8]
      · simp [hm, Ne.symm hm]
  · rw [if_neg (by omega), BitVec.getLsbD_of_ge _ _ (not_lt.mp h8),
      BitVec.getLsbD_of_ge _ _ (not_lt.mp h8)]

/-- What the receiver is doing, two cycles behind its pin. -/
inductive RxAt (C : Nat) : Option (Place (BitVec 8)) → UartRx → Prop
  | idle {s : UartRx} : s.state = .idle → s.rxDataValid = false → RxAt C none s
  | start {s : UartRx} {b : BitVec 8} {j : Nat} :
      j < C → s.state = .start → s.cycleCnt = j → s.rxDataValid = false → RxAt C (some ⟨b, j⟩) s
  | bit {s : UartRx} {b : BitVec 8} {i j k : Nat} :
      i < 8 → j < C → k = (i + 1) * C + j → s.state = .recByte → s.cycleCnt = j → s.bitCnt = i →
      s.rxDataValid = false → (∀ m < i, s.rxData.getLsbD m = b.getLsbD m) →
      (C / 2 ≤ j → s.rxData.getLsbD i = b.getLsbD i) → RxAt C (some ⟨b, k⟩) s
  | stop {s : UartRx} {b : BitVec 8} {j k : Nat} :
      j < C / 2 → k = 9 * C + j → s.state = .stop → s.cycleCnt = j → s.rxDataValid = false →
      s.rxData = b → RxAt C (some ⟨b, k⟩) s
  | data {s : UartRx} {b : BitVec 8} {k : Nat} :
      k = 9 * C + C / 2 → s.state = .data → s.rxDataValid = true → s.rxData = b →
      RxAt C (some ⟨b, k⟩) s
  | rest {s : UartRx} {b : BitVec 8} {j k : Nat} :
      C / 2 < j → j < C → k = 9 * C + j → s.state = .idle → s.rxDataValid = false →
      RxAt C (some ⟨b, k⟩) s

/-- The receiver waits for the next character: between two of them, or behind the middle of a stop
bit. -/
def Resting (C : Nat) (p : Option (Place (BitVec 8))) : Prop :=
  ∀ q, p = some q → 9 * C + C / 2 < q.age

theorem RxAt.of_resting {p : Option (Place (BitVec 8))} {s : UartRx} (h : RxAt C p s)
    (hp : Resting C p) : s.state = .idle ∧ s.rxDataValid = false ∧ level cells C p = true := by
  cases h with
  | idle hs hv => exact ⟨hs, hv, rfl⟩
  | start hj _ _ _ => exact absurd (hp _ rfl) (by simp only; omega)
  | bit hi hj hk _ _ _ _ _ _ =>
    have hle := Nat.mul_le_mul_right C (show _ + 1 ≤ 8 from hi)
    exact absurd (hp _ rfl) (by simp only; omega)
  | stop hj hk _ _ _ _ => exact absurd (hp _ rfl) (by simp only; omega)
  | data hk _ _ _ => exact absurd (hp _ rfl) (by simp only; omega)
  | rest _ hj hk hs hv => exact ⟨hs, hv, by rw [hk, level_stop hj]⟩

/-- `rx_data_valid` is up in the middle of the stop bit. -/
theorem RxAt.valid {p : Option (Place (BitVec 8))} {s : UartRx} (h : RxAt C p s) :
    (if s.rxDataValid then some s.rxData else none) =
      p.bind fun q => if q.age = 9 * C + C / 2 then some q.char else none := by
  cases h with
  | idle _ hv => simp [hv]
  | @start _ b j hj _ _ hv =>
    have hne : j ≠ 9 * C + C / 2 := by omega
    simp [hv, hne]
  | @bit _ b i j k hi hj hk _ _ _ hv _ _ =>
    have hle : (i + 1) * C ≤ 8 * C := Nat.mul_le_mul_right C (by omega)
    have hne : k ≠ 9 * C + C / 2 := by omega
    simp [hv, hne]
  | @stop _ b j k hj hk _ _ hv _ =>
    have hne : k ≠ 9 * C + C / 2 := by omega
    simp [hv, hne]
  | data hk _ hv hd => simp [hv, hd, hk]
  | @rest _ b j k hj _ hk _ hv =>
    have hne : k ≠ 9 * C + C / 2 := by omega
    simp [hv, hne]

/-- **A resting receiver** looks for an edge. -/
theorem RxAt.of_idle (hC : 0 < C) {s : UartRx} (h : s.state = .idle) (hv : s.rxDataValid = false)
    (hn : s.rxNegedge) (b : BitVec 8) (pin : Bool) : RxAt C (some ⟨b, 0⟩) (s.clock C true pin) := by
  refine .start hC ?_ ?_ ?_
  all_goals simp [UartRx.clock, UartRx.nextState, h, hn, hv]

theorem RxAt.idle_next {p : Option (Place (BitVec 8))} {s : UartRx} (h : RxAt C p s)
    (hp : Resting C p) (hn : s.rxNegedge = false) (pin : Bool) :
    RxAt C (p.bind (Place.next (10 * C))) (s.clock C true pin) := by
  obtain ⟨hs, hv, -⟩ := h.of_resting hp
  have hs' : (s.clock C true pin).state = .idle := by
    simp [UartRx.clock, UartRx.nextState, hs, hn]
  have hv' : (s.clock C true pin).rxDataValid = false := by simp [UartRx.clock, hs, hv]
  cases p with
  | none => exact .idle hs' hv'
  | some q =>
    have hq := hp q rfl
    rw [Option.bind_some, Place.next]
    split
    · exact .rest (j := q.age + 1 - 9 * C) (by omega) (by omega) (by omega) hs' hv'
    · exact .idle hs' hv'

/-- **A busy receiver**: a bit is sampled where the line is two cycles further. -/
theorem RxAt.next (hC : 4 ≤ C) (hC' : C ≤ 65536) {q : Place (BitVec 8)} {s : UartRx}
    (h : RxAt C (some q) s) (hq : q.age ≤ 9 * C + C / 2) {pin : Bool}
    (hpin : q.age + 2 < 10 * C → pin = level cells C (some ⟨q.char, q.age + 2⟩)) :
    RxAt C (q.next (10 * C)) (s.clock C true pin) := by
  rw [show Place.next (10 * C) q = some ⟨q.char, q.age + 1⟩ from next_of_lt (by omega)]
  cases h with
  | @start _ b j hj hs hc hv =>
    by_cases he : j = C - 1
    · refine .bit (i := 0) (j := 0) (by decide) (by omega) (by simp only; omega) ?_ ?_ ?_ ?_ nofun
        fun h => by omega
      all_goals simp [UartRx.clock, UartRx.nextState, hs, hc, he, hv]
    · refine .start (by simp only; omega) ?_ ?_ ?_
      all_goals simp [UartRx.clock, UartRx.nextState, hs, hc, he, hv, cycleCnt_succ hC' hj he]
  | @bit _ b i j k hi hj hk hs hc hb hv hlow hbit =>
    have hle : (i + 1) * C ≤ 8 * C := Nat.mul_le_mul_right C (by omega)
    have hdata : ∀ m, (s.clock C true pin).rxData.getLsbD m =
        if j = C / 2 - 1 ∧ m = i then b.getLsbD i else s.rxData.getLsbD m := by
      intro m
      have hd : (s.clock C true pin).rxData =
          if j = C / 2 - 1 then setBit s.rxData i pin else s.rxData := by
        simp [UartRx.clock, hs, hc, hb]
      rw [hd]
      by_cases hsample : j = C / 2 - 1
      · have hp : pin = b.getLsbD i := by
          rw [hpin (by simp only; omega)]
          simp only
          rw [hk, Nat.add_assoc]
          exact level_bit hi (by omega)
        rw [if_pos hsample, getLsbD_setBit _ hi, hp]
        exact if_congr (and_iff_right hsample).symm rfl rfl
      · rw [if_neg hsample, if_neg fun h => hsample h.1]
    have hlow' : ∀ m < i, (s.clock C true pin).rxData.getLsbD m = b.getLsbD m := by
      intro m hm
      rw [hdata, if_neg (by omega), hlow m hm]
    have hbit' : C / 2 ≤ j + 1 → (s.clock C true pin).rxData.getLsbD i = b.getLsbD i := by
      intro h
      rw [hdata]
      by_cases hsample : j = C / 2 - 1
      · rw [if_pos ⟨hsample, rfl⟩]
      · rw [if_neg fun h => hsample h.1, hbit (by omega)]
    have hv' : (s.clock C true pin).rxDataValid = false := by simp [UartRx.clock, hs, hv]
    by_cases he : j = C - 1
    · have hall : ∀ m < i + 1, (s.clock C true pin).rxData.getLsbD m = b.getLsbD m := by
        intro m hm
        rcases Nat.lt_succ_iff_lt_or_eq.mp hm with hlt | rfl
        · exact hlow' m hlt
        · exact hbit' (by omega)
      by_cases hi' : i = 7
      · refine .stop (j := 0) (by omega) (by simp only; rw [hk, hi']; omega) ?_ ?_ hv' ?_
        · simp [UartRx.clock, UartRx.nextState, hs, hc, he, hb, hi', BITS]
        · simp [UartRx.clock, UartRx.nextState, hs, hc, he, hb, hi', BITS]
        · exact BitVec.eq_of_getLsbD_eq fun m hm => hall m (by omega)
      · refine .bit (i := i + 1) (j := 0) (by omega) (by omega)
          (by simp only; rw [hk, Nat.succ_mul (i + 1)]; omega) ?_ ?_ ?_ hv' hall fun h => by omega
        all_goals simp [UartRx.clock, UartRx.nextState, hs, hc, he, hb, hi', BITS,
          bitCnt_succ hi hi']
    · refine .bit hi (j := j + 1) (by omega) (by simp only; rw [hk]; rfl) ?_ ?_ ?_ hv' hlow' hbit'
      all_goals simp [UartRx.clock, UartRx.nextState, hs, hc, he, hb, cycleCnt_succ hC' hj he]
  | @stop _ b j k hj hk hs hc hv hd =>
    by_cases he : j = C / 2 - 1
    · refine .data (by simp only; omega) ?_ ?_ ?_
      all_goals simp [UartRx.clock, UartRx.nextState, hs, hc, he, hd]
    · have hcnt := cycleCnt_succ hC' (show j < C by omega) (by omega)
      refine .stop (j := j + 1) (by omega) (by simp only; omega) ?_ ?_ ?_ ?_
      all_goals simp [UartRx.clock, UartRx.nextState, hs, hc, he, hv, hd, hcnt]
  | @data _ b k hk hs hv hd =>
    refine .rest (j := C / 2 + 1) (by omega) (by omega) (by simp only; omega) ?_ ?_
    all_goals simp [UartRx.clock, UartRx.nextState, hs]
  | rest hj _ hk _ _ => exact absurd hq (by simp only; omega)

section

variable {starts : Trace (BitVec 8)} {pin : Nat → Bool} (hC : 4 ≤ C) (hC' : C ≤ 65536)
  (hs : Spaced (10 * C) starts) (h0 : starts 0 = none)
  (hpin : ∀ t, pin t = level cells C (place (10 * C) starts t))

include hC h0 hpin in
/-- A resting receiver sees an edge where a character started. -/
theorem rxNegedge_eq {t : Nat} (hp : Resting C (place (10 * C) (delay 2 starts) t))
    (hat : RxAt C (place (10 * C) (delay 2 starts) t) (uartRx C pin t)) :
    (uartRx C pin t).rxNegedge = (delay 2 starts (t + 1)).isSome := by
  match t with
  | 0 =>
    rw [delay_of_lt _ (by decide)]
    rfl
  | 1 =>
    have hd : delay 2 starts (1 + 1) = starts 0 := delay_add 2 starts 0
    rw [hd, h0]
    rfl
  | t + 2 =>
    have hd : delay 2 starts (t + 2 + 1) = starts (t + 1) := by
      rw [Nat.add_right_comm, delay_add]
    have h1 : (uartRx C pin (t + 2)).rxD1 = true := by
      change pin t = true
      rw [hpin, ← place_delay 2]
      exact (hat.of_resting hp).2.2
    have h2 : (uartRx C pin (t + 2)).rxD0 = level cells C (place (10 * C) starts (t + 1)) :=
      hpin (t + 1)
    rw [UartRx.rxNegedge, h1, h2, hd, Bool.true_and]
    rw [place_delay] at hp
    cases ha : starts (t + 1) with
    | some a => rw [place_of_start ha, level_start (by omega)]; rfl
    | none =>
      rw [place_succ ha]
      cases hq : place (10 * C) starts t with
      | none => rfl
      | some q =>
        have hage := hp q hq
        rw [Option.bind_some, Place.next]
        split
        · have he : q.age + 1 = 9 * C + (q.age + 1 - 9 * C) := by omega
          rw [he, level_stop (by omega)]
          rfl
        · rfl

include hC hC' hs h0 hpin

/-- **The receiver** in each cycle. -/
theorem uartRx_at (t : Nat) :
    RxAt C (place (10 * C) (delay 2 starts) t) (uartRx C pin t) := by
  have hs2 := (spaced_delay_iff (k := 2)).mpr hs
  induction t with
  | zero =>
    rw [place_zero (delay_of_lt _ (by decide))]
    exact .idle rfl rfl
  | succ t ih =>
    by_cases hp : Resting C (place (10 * C) (delay 2 starts) t)
    · have hedge := rxNegedge_eq hC h0 hpin hp ih
      cases ha : delay 2 starts (t + 1) with
      | some a =>
        rw [ha, Option.isSome_some] at hedge
        obtain ⟨hi, hv, -⟩ := ih.of_resting hp
        rw [place_of_start ha]
        exact .of_idle (by omega) hi hv hedge a _
      | none =>
        rw [ha, Option.isSome_none] at hedge
        rw [place_succ ha]
        exact ih.idle_next hp hedge _
    · obtain ⟨q, hq, hage⟩ : ∃ q, place (10 * C) (delay 2 starts) t = some q ∧
          q.age ≤ 9 * C + C / 2 := by
        unfold Resting at hp
        push Not at hp
        exact hp
      obtain ⟨r, ht, ha⟩ := exists_start hq
      rw [place_succ (starts_eq_none hs2 hq (by omega)), hq, Option.bind_some]
      rw [hq] at ih
      refine ih.next hC hC' hage fun hlt => ?_
      -- the line is two cycles further
      obtain ⟨r', rfl, -⟩ := delay_isSome (Option.isSome_of_eq_some ha)
      rw [delay_add] at ha
      rw [hpin, ht, Nat.add_right_comm, Nat.add_assoc, place_add hs ha hlt]

theorem valid_eq (t : Nat) :
    (if (uartRx C pin t).rxDataValid then some (uartRx C pin t).rxData else none) =
      delay (9 * C + C / 2 + 2) starts t := by
  have hs2 := (spaced_delay_iff (k := 2)).mpr hs
  rw [(uartRx_at hC hC' hs h0 hpin t).valid, place_bind_eq hs2 (by omega), delay_delay]

/-- **What is received**: every character, in the middle of its stop bit. -/
theorem rises_eq : rises C pin = delay (9 * C + C / 2 + 2) starts := by
  have hv := valid_eq hC hC' hs h0 hpin
  have hsd := (spaced_delay_iff (k := 9 * C + C / 2 + 2)).mpr hs
  funext t
  cases t with
  | zero => rw [delay_of_lt _ (by omega), rises]
  | succ t =>
    have hv1 := hv (t + 1)
    rw [rises]
    by_cases h1 : (uartRx C pin (t + 1)).rxDataValid
    · rw [if_pos h1] at hv1
      have h0 : ¬ (uartRx C pin t).rxDataValid := by
        -- two in a row would be too close
        intro h
        have hv0 := hv t
        rw [if_pos h] at hv0
        have := hsd t (t + 1) (Nat.lt_succ_self t) (Option.isSome_of_eq_some hv0.symm)
          (Option.isSome_of_eq_some hv1.symm)
        omega
      rw [← hv1, if_pos ⟨h1, h0⟩]
    · rw [if_neg h1] at hv1
      rw [if_neg fun h => h1 h.1, hv1]

end

end DeepSpace.Uart
