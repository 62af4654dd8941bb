import DeepSpace.Uart
import Mathlib.Tactic.IntervalCases

/-!
# `uart_rx.v` on any line

The receiver without an assumption about its pin, and with any `rx_data_ready`.

* `run_from_edge`: behind an edge that it sees, it samples the pin at fixed times;
* `receives`: it reports what it sampled so many clocks later, keeps it until it is taken, and sees
  the next edge from then on;
* `reports_eq_iff`: characters are received, also those of a sender with another clock, exactly if
  each of them is taken before the next one starts.
-/

namespace DeepSpace.Receiver

open DeepSpace.Events DeepSpace.SerialLine DeepSpace.Uart

/-! ## What happens -/

section

variable (CYCLES : Nat) (rxDataReady rxPin : Nat → Bool)

/-- The receiver in cycle `t` after the reset. -/
def rx : Nat → UartRx
  | 0 => .reset
  | t + 1 => (rx t).clock CYCLES (rxDataReady t) (rxPin t)

/-- The byte that is sampled behind an edge seen in cycle `e`. -/
def sampled (e : Nat) : BitVec 8 :=
  (List.range BITS).foldl (fun v i => setBit v i (rxPin (e + ((i + 1) * CYCLES + CYCLES / 2)))) 0

/-- The edges that are seen, with what will be sampled behind them. -/
def edges : Trace (BitVec 8) := fun t =>
  if (rx CYCLES rxDataReady rxPin t).state = .idle ∧ (rx CYCLES rxDataReady rxPin t).rxNegedge then
    some (sampled CYCLES rxPin t)
  else none

/-- `rx_data` in the cycles where `rx_data_valid` rises. -/
def reports : Trace (BitVec 8)
  | 0 => none
  | t + 1 =>
    if (rx CYCLES rxDataReady rxPin (t + 1)).rxDataValid ∧
        ¬ (rx CYCLES rxDataReady rxPin t).rxDataValid then
      some (rx CYCLES rxDataReady rxPin (t + 1)).rxData
    else none

/-- `rx_data`, while `rx_data_valid` is up. -/
def offered (t : Nat) : Option (BitVec 8) :=
  if (rx CYCLES rxDataReady rxPin t).rxDataValid then
    some (rx CYCLES rxDataReady rxPin t).rxData
  else none

/-- What is taken, with `rx_data_ready`. -/
def taken : Trace (BitVec 8) := fun t =>
  if rxDataReady t then offered CYCLES rxDataReady rxPin t else none

end

theorem rx_eq_uartRx (C : Nat) (pin : Nat → Bool) (t : Nat) :
    rx C (fun _ => true) pin t = uartRx C pin t := by
  induction t with
  | zero => rfl
  | succ t ih => rw [rx, ih, uartRx]

theorem reports_eq_rises (C : Nat) (pin : Nat → Bool) :
    reports C (fun _ => true) pin = rises C pin := by
  funext t
  cases t with
  | zero => rfl
  | succ t => rw [reports, rx_eq_uartRx, rx_eq_uartRx, rises]

/-! ## Sampling -/

variable {C : Nat}

theorem getLsbD_foldl_setBit (f : Nat → Bool) {n m : Nat} (hn : n ≤ 8) :
    ((List.range n).foldl (fun v i => setBit v i (f i)) 0).getLsbD m =
      (decide (m < n) && f m) := by
  induction n with
  | zero => simp
  | succ n ih =>
    rw [List.range_succ, List.foldl_append, List.foldl_cons, List.foldl_nil,
      getLsbD_setBit _ (by omega), ih (by omega)]
    by_cases hm : m = n
    · subst hm
      simp
    · rw [if_neg hm]
      have hiff : m < n + 1 ↔ m < n := by omega
      simp only [hiff]

theorem getLsbD_sampled (pin : Nat → Bool) (e : Nat) {i : Nat} (hi : i < 8) :
    (sampled C pin e).getLsbD i = pin (e + ((i + 1) * C + C / 2)) := by
  rw [sampled, getLsbD_foldl_setBit _ (show BITS ≤ 8 by decide)]
  simp [BITS, hi]

/-- Only in `S_DATA` does `rx_data_ready` matter. -/
theorem clock_ready {s : UartRx} (h : s.state ≠ .data) (ready pin : Bool) :
    s.clock C ready pin = s.clock C true pin := by
  have hn : s.nextState C ready = s.nextState C true := by
    unfold UartRx.nextState
    cases hs : s.state <;> first | rfl | exact absurd hs h
  unfold UartRx.clock
  rw [hn]
  simp [h]

/-- What the receiver is doing does not show in the two registers behind its pin. -/
theorem rxAt_congr {p : Option (Place (BitVec 8))} {s s' : UartRx} (h : RxAt C p s)
    (hs : s'.state = s.state) (hc : s'.cycleCnt = s.cycleCnt) (hb : s'.bitCnt = s.bitCnt)
    (hd : s'.rxData = s.rxData) (hv : s'.rxDataValid = s.rxDataValid) : RxAt C p s' := by
  cases h with
  | idle h1 h2 => exact .idle (hs.trans h1) (hv.trans h2)
  | start h1 h2 h3 h4 => exact .start h1 (hs.trans h2) (hc.trans h3) (hv.trans h4)
  | bit h1 h2 h3 h4 h5 h6 h7 h8 h9 =>
    exact .bit h1 h2 h3 (hs.trans h4) (hc.trans h5) (hb.trans h6) (hv.trans h7)
      (by rwa [hd]) (by rwa [hd])
  | stop h1 h2 h3 h4 h5 h6 =>
    exact .stop h1 h2 (hs.trans h3) (hc.trans h4) (hv.trans h5) (hd.trans h6)
  | data h1 h2 h3 h4 => exact .data h1 (hs.trans h2) (hv.trans h3) (hd.trans h4)
  | rest h1 h2 h3 h4 h5 => exact .rest h1 h2 h3 (hs.trans h4) (hv.trans h5)

theorem busy_state {b : BitVec 8} {k : Nat} {s : UartRx} (h : RxAt C (some ⟨b, k⟩) s)
    (hk : k < 9 * C + C / 2) : s.state ≠ .idle ∧ s.state ≠ .data := by
  cases h with
  | start _ hs _ _ => rw [hs]; decide
  | bit _ _ _ hs _ _ _ _ _ => rw [hs]; decide
  | stop _ _ hs _ _ _ => rw [hs]; decide
  | data hk' _ _ _ => exact absurd hk (by omega)
  | rest hj _ hk' _ _ => exact absurd hk (by omega)

theorem data_state (hC : 4 ≤ C) {b : BitVec 8} {s : UartRx}
    (h : RxAt C (some ⟨b, 9 * C + C / 2⟩) s) : s.state = .data ∧ s.rxData = b := by
  cases h with
  | start hj _ _ _ => exact absurd hj (by omega)
  | @bit _ _ i j _ hi hj hk _ _ _ _ _ _ =>
    have hle : (i + 1) * C ≤ 8 * C := Nat.mul_le_mul_right C (by omega)
    exact absurd hk (by omega)
  | stop hj hk _ _ _ _ => exact absurd hk (by omega)
  | data _ hs _ hd => exact ⟨hs, hd⟩
  | rest hj _ hk _ _ => exact absurd hk (by omega)

/-- **A busy receiver** looks at its pin in the middle of a bit only. -/
theorem rxAt_next (hC : 4 ≤ C) (hC' : C ≤ 65536) {b : BitVec 8} {k : Nat} {s : UartRx}
    (h : RxAt C (some ⟨b, k⟩) s) (hk : k < 9 * C + C / 2) {ready pin : Bool}
    (hpin : ∀ i < 8, k + 1 = (i + 1) * C + C / 2 → pin = b.getLsbD i) :
    RxAt C (some ⟨b, k + 1⟩) (s.clock C ready pin) := by
  have hline : RxAt C (Place.next (10 * C) ⟨b, k⟩)
      (s.clock C true (level cells C (some ⟨b, k + 2⟩))) := h.next hC hC' hk.le fun _ => rfl
  rw [show Place.next (10 * C) ⟨b, k⟩ = some ⟨b, k + 1⟩ from next_of_lt (by omega)] at hline
  rw [clock_ready (busy_state h hk).2]
  refine rxAt_congr hline rfl rfl rfl ?_ rfl
  -- the pin goes into `rx_data` where the bit is sampled
  change (if _ then _ else _) = if _ then _ else _
  by_cases hsample : s.state = .recByte ∧ s.cycleCnt = C / 2 - 1
  · rw [if_pos hsample, if_pos hsample]
    cases h with
    | @bit _ _ i j _ hi hj hk' _ hc _ _ _ _ =>
      have hj' : j = C / 2 - 1 := hc.symm.trans hsample.2
      rw [hpin i hi (by omega), hk', Nat.add_assoc, level_bit hi (by omega)]
    | start _ hs _ _ => exact absurd (hs.symm.trans hsample.1) (by decide)
    | stop _ _ hs _ _ _ => exact absurd (hs.symm.trans hsample.1) (by decide)
    | data _ hs _ _ => exact absurd (hs.symm.trans hsample.1) (by decide)
    | rest _ _ _ hs _ => exact absurd (hs.symm.trans hsample.1) (by decide)
  · rw [if_neg hsample, if_neg hsample]

/-- `rx_data_valid` is up in `S_DATA`. -/
theorem valid_iff (ready pin : Nat → Bool) (t : Nat) :
    (rx C ready pin t).rxDataValid ↔ (rx C ready pin t).state = .data := by
  induction t with
  | zero => exact iff_of_false nofun nofun
  | succ t ih =>
    rw [rx]
    generalize rx C ready pin t = s at ih
    unfold UartRx.clock UartRx.nextState
    cases hs : s.state with
    | idle =>
      have hv : s.rxDataValid = false := by simpa [hs] using ih
      cases s.rxNegedge <;> simp [hv]
    | start =>
      have hv : s.rxDataValid = false := by simpa [hs] using ih
      by_cases hc : s.cycleCnt = C - 1 <;> simp [hv, hc]
    | recByte =>
      have hv : s.rxDataValid = false := by simpa [hs] using ih
      by_cases hc : s.cycleCnt = C - 1 ∧ s.bitCnt = BITS - 1 <;> simp [hv, hc]
    | stop =>
      have hv : s.rxDataValid = false := by simpa [hs] using ih
      by_cases hc : s.cycleCnt = C / 2 - 1 <;> simp [hv, hc]
    | data =>
      have hv : s.rxDataValid = true := ih.mpr hs
      cases ready t <;> simp [hv]

theorem offered_of_data {ready pin : Nat → Bool} {t : Nat}
    (h : (rx C ready pin t).state = .data) :
    offered C ready pin t = some (rx C ready pin t).rxData := if_pos ((valid_iff ready pin t).mpr h)

theorem offered_of_not_data {ready pin : Nat → Bool} {t : Nat}
    (h : (rx C ready pin t).state ≠ .data) : offered C ready pin t = none :=
  if_neg (mt (valid_iff ready pin t).mp h)

theorem reports_succ (ready pin : Nat → Bool) (t : Nat) : reports C ready pin (t + 1) =
    if (rx C ready pin (t + 1)).state = .data ∧ (rx C ready pin t).state ≠ .data then
      some (rx C ready pin (t + 1)).rxData
    else none :=
  if_congr (and_congr (valid_iff ready pin _) (not_congr (valid_iff ready pin t))) rfl rfl

/-- A word that is not taken stays. -/
theorem offered_succ (ready pin : Nat → Bool) {t : Nat} (h : (rx C ready pin t).state = .data) :
    if ready t then (rx C ready pin (t + 1)).state = .idle
    else (rx C ready pin (t + 1)).state = .data ∧
      (rx C ready pin (t + 1)).rxData = (rx C ready pin t).rxData := by
  rw [rx]
  unfold UartRx.clock UartRx.nextState
  rw [h]
  cases ready t <;> simp

/-- **What is reported** is offered until it is taken. -/
theorem kept (ready pin : Nat → Bool) (t : Nat) : before (reports C ready pin) (t + 1) =
    before (taken C ready pin) t ++ (offered C ready pin t).toList := by
  induction t with
  | zero => rfl
  | succ t ih =>
    rw [before_succ, ih, before_succ (taken C ready pin), List.append_assoc, List.append_assoc]
    congr 1
    by_cases hs : (rx C ready pin t).state = .data
    · have hreports : reports C ready pin (t + 1) = none := by
        rw [reports_succ, if_neg fun h => h.2 hs]
      have hnext := offered_succ (C := C) ready pin hs
      rw [hreports]
      by_cases hr : ready t
      · rw [if_pos hr] at hnext
        have hnone : offered C ready pin (t + 1) = none :=
          offered_of_not_data (by rw [hnext]; decide)
        rw [taken, if_pos hr, hnone, Option.toList_none, List.append_nil]
      · rw [if_neg hr] at hnext
        rw [taken, if_neg hr, offered_of_data hs, offered_of_data hnext.1, hnext.2]
        rfl
    · have htaken : taken C ready pin t = none := by
        rw [taken, offered_of_not_data hs, ite_self]
      rw [offered_of_not_data hs, htaken, reports_succ]
      by_cases hs' : (rx C ready pin (t + 1)).state = .data
      · rw [if_pos ⟨hs', hs⟩, offered_of_data hs']
      · rw [if_neg fun h => hs' h.1, offered_of_not_data hs']

/-! ## Any line -/

section

variable (hC : 4 ≤ C) (hC' : C ≤ 65536) (ready pin : Nat → Bool)

include hC hC'

/-- **Behind an edge**: it samples its pin, up to the middle of the stop bit. -/
theorem run_from_edge {e : Nat} {b : BitVec 8} (he : edges C ready pin e = some b) {k : Nat}
    (hk : k ≤ 9 * C + C / 2) : RxAt C (some ⟨b, k⟩) (rx C ready pin (e + 1 + k)) := by
  unfold edges at he
  split at he
  · next hedge =>
    obtain rfl := Option.some.inj he
    induction k with
    | zero =>
      have hv : (rx C ready pin e).rxDataValid = false := by
        simpa [hedge.1] using valid_iff (C := C) ready pin e
      rw [Nat.add_zero, rx, clock_ready (by rw [hedge.1]; decide)]
      exact .of_idle (by omega) hedge.1 hv hedge.2 _ _
    | succ k ih =>
      rw [← Nat.add_assoc, rx]
      refine rxAt_next hC hC' (ih (by omega)) (by omega) fun i hi hki => ?_
      rw [getLsbD_sampled pin e hi, ← hki]
      congr 1
      omega
  · cases he

/-- What the receiver is doing in cycle `t`, and how many of the edges were not taken yet. -/
inductive Status (C : Nat) (ready pin : Nat → Bool) (t : Nat) : Prop
  | idle : (rx C ready pin t).state = .idle →
      (before (edges C ready pin) t).length = (before (taken C ready pin) t).length →
      Status C ready pin t
  | busy {e k : Nat} {b : BitVec 8} : edges C ready pin e = some b → t = e + 1 + k →
      k < 9 * C + C / 2 →
      (before (edges C ready pin) t).length = (before (taken C ready pin) t).length + 1 →
      Status C ready pin t
  | holding {e : Nat} {b : BitVec 8} : edges C ready pin e = some b →
      e + 1 + (9 * C + C / 2) ≤ t →
      (∀ r, e + 1 + (9 * C + C / 2) ≤ r → r < t → ready r = false) →
      (rx C ready pin t).state = .data → (rx C ready pin t).rxData = b →
      (before (edges C ready pin) t).length = (before (taken C ready pin) t).length + 1 →
      Status C ready pin t

theorem status_of_idle {t : Nat} (hs : (rx C ready pin t).state = .idle)
    (hcount : (before (edges C ready pin) t).length = (before (taken C ready pin) t).length) :
    Status C ready pin (t + 1) := by
  have hedges := length_before_succ (edges C ready pin) t
  have htaken := length_before_succ (taken C ready pin) t
  have ht : taken C ready pin t = none := by
    unfold taken
    rw [offered_of_not_data (by rw [hs]; decide), ite_self]
  rw [ht] at htaken
  by_cases hn : (rx C ready pin t).rxNegedge
  · have he : edges C ready pin t = some (sampled C pin t) := if_pos ⟨hs, hn⟩
    rw [he] at hedges
    refine .busy he (k := 0) rfl (by omega) ?_
    rw [hedges, htaken, hcount]
    rfl
  · have he : edges C ready pin t = none := if_neg fun h => hn h.2
    rw [he] at hedges
    refine .idle ?_ ?_
    · rw [rx, UartRx.clock, UartRx.nextState, hs]
      simp [hn]
    · rw [hedges, htaken, hcount]

theorem status_of_busy {t e k : Nat} {b : BitVec 8} (he : edges C ready pin e = some b)
    (hte : t = e + 1 + k) (hk : k < 9 * C + C / 2)
    (hcount : (before (edges C ready pin) t).length =
      (before (taken C ready pin) t).length + 1) : Status C ready pin (t + 1) := by
  have hedges := length_before_succ (edges C ready pin) t
  have htaken := length_before_succ (taken C ready pin) t
  have hat := run_from_edge hC hC' ready pin he hk.le
  rw [← hte] at hat
  obtain ⟨hidle, hdata⟩ := busy_state hat hk
  have hn : edges C ready pin t = none := if_neg fun h => hidle h.1
  have ht : taken C ready pin t = none := by
    unfold taken
    rw [offered_of_not_data hdata, ite_self]
  rw [hn] at hedges
  rw [ht] at htaken
  have hcount' : (before (edges C ready pin) (t + 1)).length =
      (before (taken C ready pin) (t + 1)).length + 1 := by
    rw [hedges, htaken, hcount]
    rfl
  by_cases hlast : k + 1 = 9 * C + C / 2
  · have hat' := run_from_edge hC hC' ready pin he hlast.le
    rw [hlast] at hat'
    obtain ⟨hs, hd⟩ := data_state hC hat'
    have hte' : t + 1 = e + 1 + (9 * C + C / 2) := by omega
    rw [← hte'] at hs hd
    exact .holding he hte'.ge (fun r hr hrt => by omega) hs hd hcount'
  · exact .busy (k := k + 1) he (by omega) (by omega) hcount'

omit hC hC' in
theorem status_of_holding {t e : Nat} {b : BitVec 8} (he : edges C ready pin e = some b)
    (hle : e + 1 + (9 * C + C / 2) ≤ t)
    (hwait : ∀ r, e + 1 + (9 * C + C / 2) ≤ r → r < t → ready r = false)
    (hs : (rx C ready pin t).state = .data) (hd : (rx C ready pin t).rxData = b)
    (hcount : (before (edges C ready pin) t).length =
      (before (taken C ready pin) t).length + 1) : Status C ready pin (t + 1) := by
  have hedges := length_before_succ (edges C ready pin) t
  have htaken := length_before_succ (taken C ready pin) t
  have hn : edges C ready pin t = none := if_neg fun h => by rw [hs] at h; cases h.1
  rw [hn] at hedges
  have hnext := offered_succ (C := C) ready pin hs
  by_cases hr : ready t
  · have ht : (taken C ready pin t).isSome := by
      rw [taken, if_pos hr, offered_of_data hs]
      rfl
    rw [if_pos ht] at htaken
    rw [if_pos hr] at hnext
    refine .idle hnext ?_
    rw [hedges, htaken, hcount]
    rfl
  · have ht : taken C ready pin t = none := if_neg hr
    rw [ht] at htaken
    rw [if_neg hr] at hnext
    refine .holding he (by omega) (fun r hr0 hrt => ?_) hnext.1 (hnext.2.trans hd) ?_
    · rcases Nat.lt_succ_iff_lt_or_eq.mp hrt with hlt | rfl
      · exact hwait r hr0 hlt
      · exact Bool.eq_false_iff.mpr hr
    · rw [hedges, htaken, hcount]
      rfl

theorem status (t : Nat) : Status C ready pin t := by
  induction t with
  | zero => exact .idle rfl rfl
  | succ t ih =>
    cases ih with
    | idle hs hcount => exact status_of_idle hC hC' ready pin hs hcount
    | busy he hte hk hcount => exact status_of_busy hC hC' ready pin he hte hk hcount
    | holding he hle hwait hs hd hcount =>
      exact status_of_holding ready pin he hle hwait hs hd hcount

theorem idle_iff (t : Nat) : (rx C ready pin t).state = .idle ↔
    (before (edges C ready pin) t).length = (before (taken C ready pin) t).length := by
  cases status hC hC' ready pin t with
  | idle hs hcount => exact iff_of_true hs hcount
  | busy he hte hk hcount =>
    have hat := run_from_edge hC hC' ready pin he hk.le
    rw [← hte] at hat
    exact iff_of_false (busy_state hat hk).1 (by omega)
  | holding _ _ _ hs _ hcount => exact iff_of_false (by rw [hs]; decide) (by omega)

theorem data_of_edge {e : Nat} {b : BitVec 8} (he : edges C ready pin e = some b) :
    (rx C ready pin (e + 1 + (9 * C + C / 2))).state = .data ∧
      (rx C ready pin (e + 1 + (9 * C + C / 2))).rxData = b :=
  data_state hC (run_from_edge hC hC' ready pin he le_rfl)

/-- No other edge is seen until the word is offered. -/
theorem edges_spaced : Spaced (9 * C + C / 2 + 2) (edges C ready pin) := by
  intro e e' hlt he he'
  obtain ⟨b, hb⟩ := Option.isSome_iff_exists.mp he
  by_contra hfar
  obtain ⟨k, rfl⟩ : ∃ k, e' = e + 1 + k := ⟨e' - e - 1, by omega⟩
  have hidle : (rx C ready pin (e + 1 + k)).state = .idle := by
    unfold edges at he'
    split at he'
    · next h => exact h.1
    · cases he'
  rcases Nat.lt_or_ge k (9 * C + C / 2) with hk | hk
  · exact (busy_state (run_from_edge hC hC' ready pin hb hk.le) hk).1 hidle
  · obtain rfl : k = 9 * C + C / 2 := by omega
    rw [(data_of_edge hC hC' ready pin hb).1] at hidle
    cases hidle

theorem reports_of_edge {e : Nat} {b : BitVec 8} (he : edges C ready pin e = some b) :
    reports C ready pin (e + (9 * C + C / 2 + 1)) = some b := by
  obtain ⟨hs, hd⟩ := data_of_edge hC hC' ready pin he
  have hk : 9 * C + C / 2 - 1 < 9 * C + C / 2 := by omega
  have hbusy := (busy_state (run_from_edge hC hC' ready pin he hk.le) hk).2
  rw [show e + 1 + (9 * C + C / 2 - 1) = e + (9 * C + C / 2) by omega] at hbusy
  rw [show e + 1 + (9 * C + C / 2) = e + (9 * C + C / 2) + 1 by omega] at hs hd
  rw [← Nat.add_assoc e, reports_succ, if_pos ⟨hs, hbusy⟩, hd]

theorem edge_of_reports {t : Nat} (h : (reports C ready pin t).isSome) :
    ∃ e, t = e + (9 * C + C / 2 + 1) ∧ (edges C ready pin e).isSome := by
  cases t with
  | zero => cases h
  | succ t =>
    rw [reports_succ] at h
    split at h
    · next hrise =>
      cases status hC hC' ready pin t with
      | idle hs _ =>
        have hnot : (rx C ready pin (t + 1)).state ≠ .data := by
          rw [rx, UartRx.clock, UartRx.nextState, hs]
          cases (rx C ready pin t).rxNegedge <;> simp
        exact absurd hrise.1 hnot
      | @busy e k b he hte hk _ =>
        refine ⟨e, ?_, by rw [he]; rfl⟩
        by_contra hlast
        have hk' : k + 1 < 9 * C + C / 2 := by omega
        have hat := run_from_edge hC hC' ready pin he hk'.le
        rw [← Nat.add_assoc, ← hte] at hat
        exact (busy_state hat hk').2 hrise.1
      | holding _ _ _ hs _ _ => exact absurd hs hrise.2
    · cases h

omit hC hC' in
/-- Two cycles after the reset the pin has been seen in both registers. -/
theorem edges_of_lt_two {t : Nat} (h : t < 2) : edges C ready pin t = none := by
  refine if_neg fun hedge => ?_
  match t, h with
  | 0, _ => cases hedge.2
  | 1, _ =>
    rw [rx] at hedge
    simp [UartRx.rxNegedge, UartRx.clock, rx, UartRx.reset] at hedge

/-- **Which edges are seen**: those of the pin, while no other one is waiting. -/
theorem edges_add_two (t : Nat) : edges C ready pin (t + 2) =
    if pin t ∧ ¬ pin (t + 1) ∧ (before (edges C ready pin) (t + 2)).length =
        (before (taken C ready pin) (t + 2)).length then
      some (sampled C pin (t + 2))
    else none := by
  have hneg : (rx C ready pin (t + 2)).rxNegedge ↔ pin t ∧ ¬ pin (t + 1) := by
    rw [rx, rx]
    simp [UartRx.rxNegedge, UartRx.clock]
  refine if_congr ?_ rfl rfl
  rw [hneg, idle_iff hC hC']
  tauto

/-- **What is reported**, and when. -/
theorem reports_eq_delay :
    reports C ready pin = delay (9 * C + C / 2 + 1) (edges C ready pin) := by
  funext t
  by_cases h : (reports C ready pin t).isSome
  · obtain ⟨e, rfl, he⟩ := edge_of_reports hC hC' ready pin h
    obtain ⟨b, hb⟩ := Option.isSome_iff_exists.mp he
    rw [reports_of_edge hC hC' ready pin hb, delay_add, hb]
  · have hn : ¬ (delay (9 * C + C / 2 + 1) (edges C ready pin) t).isSome := fun h' => by
      obtain ⟨e, rfl, he⟩ := delay_isSome h'
      obtain ⟨b, hb⟩ := Option.isSome_iff_exists.mp he
      rw [reports_of_edge hC hC' ready pin hb] at h
      exact h rfl
    rw [Option.not_isSome_iff_eq_none.mp h, Option.not_isSome_iff_eq_none.mp hn]

/-- The first time that the line falls. -/
theorem first_edge {t : Nat} (hhigh : ∀ r ≤ t, pin r = true) (hlow : pin (t + 1) = false) :
    edges C ready pin (t + 2) = some (sampled C pin (t + 2)) ∧
      ∀ e < t + 2, edges C ready pin e = none := by
  have hnone : ∀ e < t + 2, edges C ready pin e = none := by
    intro e he
    match e with
    | 0 => exact edges_of_lt_two ready pin Nat.two_pos
    | 1 => exact edges_of_lt_two ready pin Nat.one_lt_two
    | e + 2 => rw [edges_add_two hC hC', if_neg fun h => h.2.1 (hhigh (e + 1) (by omega))]
  refine ⟨?_, hnone⟩
  have hseen : before (edges C ready pin) (t + 2) = [] :=
    before_of_none (Nat.zero_le _) fun r _ hr => hnone r hr
  have htaken : (before (taken C ready pin) (t + 2)).length ≤
      (before (edges C ready pin) (t + 2)).length := by
    cases status hC hC' ready pin (t + 2) <;> omega
  rw [hseen] at htaken
  refine (edges_add_two hC hC' ready pin t).trans
    (if_pos ⟨hhigh t le_rfl, by rw [hlow]; decide, ?_⟩)
  rw [hseen]
  exact (Nat.le_zero.mp htaken).symm

/-- The receiver: which edges it sees, what it reports, and until when it offers that. -/
structure Receives (CYCLES : Nat) (ready pin : Nat → Bool) : Prop where
  first : edges CYCLES ready pin 0 = none ∧ edges CYCLES ready pin 1 = none
  seen : ∀ t, edges CYCLES ready pin (t + 2) =
    if pin t ∧ ¬ pin (t + 1) ∧ (before (edges CYCLES ready pin) (t + 2)).length =
        (before (taken CYCLES ready pin) (t + 2)).length then
      some (sampled CYCLES pin (t + 2))
    else none
  reported : reports CYCLES ready pin = delay (9 * CYCLES + CYCLES / 2 + 1)
    (edges CYCLES ready pin)
  kept : ∀ t, before (reports CYCLES ready pin) (t + 1) =
    before (taken CYCLES ready pin) t ++ (offered CYCLES ready pin t).toList

/-- **On any line**: every edge that is seen is reported once, in order, and kept until taken. -/
theorem receives : Receives C ready pin :=
  ⟨⟨edges_of_lt_two ready pin Nat.two_pos, edges_of_lt_two ready pin Nat.one_lt_two⟩,
    edges_add_two hC hC' ready pin, reports_eq_delay hC hC' ready pin, kept ready pin⟩

end

/-- A break, with nobody there to take the character for a long time. -/
theorem receives_break : Receives 4 (fun t => t = 300) (fun t => t < 7 ∨ 90 < t) :=
  receives (by decide) (by decide) _ _

/-! ## Characters of another rate -/

/-- The receiver's samples, `D` cycles apart, fall into the eight bits. -/
def Samples (C D : Nat) : Prop := 8 * C ≤ 8 * D + D / 2 + 1 ∧ 8 * D + D / 2 + 1 < 9 * C

instance (C D : Nat) : Decidable (Samples C D) := inferInstanceAs (Decidable (_ ∧ _))

theorem Samples.cell {D : Nat} (h : Samples C D) {i : Nat} (hi : i < 8) :
    ∃ j < C, (i + 1) * D + D / 2 + 1 = (i + 1) * C + j := by
  obtain ⟨hlo, hhi⟩ := h
  have hC : 3 ≤ C := by
    by_contra hlt
    interval_cases C <;> omega
  have hD : D / 2 + 1 < C := by omega
  refine ⟨(i + 1) * D + D / 2 + 1 - (i + 1) * C, ?_, ?_⟩ <;> interval_cases i <;> omega

/-- The level of a character falls at the start of a cell only, and not behind the last bit. -/
theorem fall_le (hC : 0 < C) {b : BitVec 8} {k : Nat} (h : level cells C (some ⟨b, k⟩) = true)
    (h' : level cells C (some ⟨b, k + 1⟩) = false) : k + 1 ≤ 8 * C := by
  change cells b (k / C) = true at h
  change cells b ((k + 1) / C) = false at h'
  by_contra hk
  rcases Nat.lt_or_ge (k + 1) (9 * C) with hlt | hge
  · have hcell : (k + 1) / C = 8 := Nat.div_eq_of_lt_le (by omega) (by omega)
    have hcell' : k / C = 8 := Nat.div_eq_of_lt_le (by omega) (by omega)
    rw [hcell] at h'
    rw [hcell', h'] at h
    cases h
  · have hcell : 9 ≤ (k + 1) / C := (Nat.le_div_iff_mul_le hC).mpr hge
    rw [cells, if_neg (by omega), if_neg (by simp only [BITS]; omega)] at h'
    cases h'

section

variable (hC : 0 < C) {D : Nat} (hD : 4 ≤ D) (hD' : D ≤ 65536) {starts : Trace (BitVec 8)}
  (hs : Spaced (10 * C) starts) (h0 : starts 0 = none) {ready pin : Nat → Bool}
  (hpin : ∀ t, pin t = level cells C (place (10 * C) starts t))

/-- Every character has been taken when the next one starts. -/
def InTime (D : Nat) (starts : Trace (BitVec 8)) (ready : Nat → Bool) : Prop :=
  ∀ s s', s < s' → (starts s).isSome → (starts s').isSome →
    ∃ r, s + 2 + (9 * D + D / 2) ≤ r ∧ r ≤ s' ∧ ready r

include hs hpin in
theorem sampled_char (hsamples : Samples C D) {s : Nat} {b : BitVec 8} (h : starts s = some b) :
    sampled D pin (s + 1) = b := by
  refine BitVec.eq_of_getLsbD_eq fun i hi => ?_
  obtain ⟨j, hj, hcell⟩ := hsamples.cell hi
  have hlt : (i + 1) * C + j < 10 * C := by
    have hle : (i + 1) * C ≤ 8 * C := Nat.mul_le_mul_right C (by omega)
    omega
  rw [getLsbD_sampled pin _ hi, hpin,
    show s + 1 + ((i + 1) * D + D / 2) = s + ((i + 1) * C + j) by omega,
    place_add hs h hlt, level_bit hi hj]

include hC hs hpin in
/-- The line rests before a character. -/
theorem high_before {t : Nat} (h : (starts (t + 1)).isSome) : pin t = true := by
  rw [hpin]
  cases hp : place (10 * C) starts t with
  | none => rfl
  | some p =>
    have hlt := age_lt (by omega) hp
    have hlast : p.age = 9 * C + (C - 1) := by
      by_contra hne
      rw [starts_eq_none hs hp (by omega)] at h
      cases h
    have hstop : p = ⟨p.char, 9 * C + (C - 1)⟩ := by rw [← hlast]
    rw [hstop, level_stop (by omega)]

include hC hpin in
theorem low_at {t : Nat} (h : (starts t).isSome) : pin t = false := by
  obtain ⟨b, hb⟩ := Option.isSome_iff_exists.mp h
  rw [hpin, place_of_start hb, level_start hC]

include hC hpin in
/-- **A fall** is the start of a character, or within its bits. -/
theorem fall_cases {t : Nat} (h : pin t = true) (h' : pin (t + 1) = false) :
    (starts (t + 1)).isSome ∨
      ∃ s k, t + 1 = s + k ∧ 0 < k ∧ k ≤ 8 * C ∧ (starts s).isSome := by
  rw [hpin] at h h'
  cases hp' : place (10 * C) starts (t + 1) with
  | none => rw [hp'] at h'; cases h'
  | some p' =>
    rcases place_cases hp' with ⟨hstart, -⟩ | ⟨t', ht', k, hage, -, hp⟩
    · exact .inl (by rw [hstart]; rfl)
    · obtain rfl : t = t' := by omega
      obtain ⟨s, hsum, hstart⟩ := exists_start hp'
      rw [hp] at h
      rw [hp', show p' = ⟨p'.char, k + 1⟩ by rw [← hage]] at h'
      exact .inr ⟨s, k + 1, by omega, by omega, fall_le hC h h', by rw [hstart]; rfl⟩

include hC hD hD' hs h0 hpin

/-- A character whose predecessors were taken in time makes an edge. -/
theorem edge_of_start (hsamples : Samples C D) (htime : InTime D starts ready) {t : Nat}
    (ih : ∀ e ≤ t, edges D ready pin e = delay 1 starts e) {b : BitVec 8}
    (hb : starts t = some b) : edges D ready pin (t + 1) = some b := by
  have ht : (starts t).isSome := by rw [hb]; rfl
  have hstart : ∀ {e : Nat} {b : BitVec 8}, e ≤ t → edges D ready pin e = some b →
      ∃ s, e = s + 1 ∧ (starts s).isSome := fun hle he => by
    rw [ih _ hle] at he
    obtain ⟨s, hs', hsome⟩ := delay_isSome (by rw [he]; rfl)
    exact ⟨s, hs', hsome⟩
  obtain ⟨t', rfl⟩ : ∃ t', t = t' + 1 := Nat.exists_eq_succ_of_ne_zero fun hz => by
    rw [hz, h0] at ht
    cases ht
  have hneg : (rx D ready pin (t' + 2)).rxNegedge = true := by
    rw [rx, rx]
    simp [UartRx.rxNegedge, UartRx.clock, high_before hC hs hpin ht, low_at hC hpin ht]
  have hidle : (rx D ready pin (t' + 2)).state = .idle := by
    cases status hD hD' ready pin (t' + 2) with
    | idle hidle _ => exact hidle
    | busy he hte hk _ =>
      obtain ⟨s, rfl, hs'⟩ := hstart (by omega) he
      obtain ⟨r, hr, hr', _⟩ := htime s (t' + 1) (by omega) hs' ht
      omega
    | holding he hle hwait _ _ _ =>
      obtain ⟨s, rfl, hs'⟩ := hstart (by omega) he
      obtain ⟨r, hr, hr', hready⟩ := htime s (t' + 1) (by omega) hs' ht
      rw [hwait r (by omega) (by omega)] at hready
      cases hready
  rw [edges, if_pos ⟨hidle, hneg⟩, sampled_char hs hpin hsamples hb]

omit hs h0 in
/-- Within a character the receiver is busy. -/
theorem no_edge_of_none (hsamples : Samples C D) {t : Nat}
    (ih : ∀ e ≤ t, edges D ready pin e = delay 1 starts e) (ht : starts t = none) :
    edges D ready pin (t + 1) = none := by
  refine if_neg fun hedge => ?_
  have hneg := hedge.2
  obtain ⟨t', rfl⟩ : ∃ t', t = t' + 1 := Nat.exists_eq_succ_of_ne_zero fun hz => by
    subst hz
    rw [rx, rx] at hneg
    cases hneg
  have hfall : pin t' = true ∧ pin (t' + 1) = false := by
    rw [rx, rx] at hneg
    simpa [UartRx.rxNegedge, UartRx.clock] using hneg
  rcases fall_cases hC hpin hfall.1 hfall.2 with hs' | ⟨s, k, hsk, hk, hk', hs'⟩
  · rw [ht] at hs'
    cases hs'
  · obtain ⟨b, hb⟩ := Option.isSome_iff_exists.mp hs'
    have he : edges D ready pin (s + 1) = some b := by
      rw [ih _ (by omega), delay_add, hb]
    have hlong := hsamples.1
    have hat := run_from_edge hD hD' ready pin he (k := k - 1) (by omega)
    rw [show s + 1 + 1 + (k - 1) = t' + 1 + 1 by omega] at hat
    exact (busy_state hat (by omega)).1 hedge.1

/-- The edges up to a cycle, where every character before was taken in time. -/
theorem edges_eq_of_lt (hsamples : Samples C D) (htime : InTime D starts ready) {t : Nat}
    (ih : ∀ e ≤ t, edges D ready pin e = delay 1 starts e) :
    edges D ready pin (t + 1) = starts t := by
  cases ht : starts t with
  | some b => exact edge_of_start hC hD hD' hs h0 hpin hsamples htime ih ht
  | none => exact no_edge_of_none hC hD hD' hpin hsamples ih ht

theorem edges_eq_iff (hsamples : Samples C D) :
    edges D ready pin = delay 1 starts ↔ InTime D starts ready := by
  refine ⟨fun h s s' hlt hs' hs'' => ?_, fun htime => ?_⟩
  · have hedge : ∀ {u : Nat}, (starts u).isSome → (edges D ready pin (u + 1)).isSome :=
      fun hu => by rwa [h, delay_add]
    obtain ⟨b, hb⟩ := Option.isSome_iff_exists.mp (hedge hs')
    by_contra hnever
    push Not at hnever
    have hfar := edges_spaced hD hD' ready pin (s + 1) (s' + 1) (by omega) (hedge hs') (hedge hs'')
    -- the word is still offered when the next character starts
    have hdata : ∀ n, s + 2 + (9 * D + D / 2) + n ≤ s' + 1 →
        (rx D ready pin (s + 2 + (9 * D + D / 2) + n)).state = .data := by
      intro n
      induction n with
      | zero => exact fun _ => (data_of_edge hD hD' ready pin hb).1
      | succ n ih =>
        intro hle
        have hnext := offered_succ (C := D) ready pin (ih (by omega))
        rw [if_neg (hnever _ (by omega) (by omega))] at hnext
        exact hnext.1
    have hlast := hdata (s' + 1 - (s + 2 + (9 * D + D / 2))) (by omega)
    rw [Nat.add_sub_cancel' (by omega)] at hlast
    have hedge' := hedge hs''
    rw [edges, if_neg fun hidle => by rw [hlast] at hidle; cases hidle.1] at hedge'
    cases hedge'
  · funext t
    induction t using Nat.strong_induction_on with
    | _ t ih =>
      cases t with
      | zero => rw [edges_of_lt_two ready pin Nat.two_pos, delay_of_lt _ one_pos]
      | succ t =>
        rw [delay_add]
        exact edges_eq_of_lt hC hD hD' hs h0 hpin hsamples htime fun e he => ih e (by omega)

/-- **Characters of another rate** are received exactly if each is taken before the next one. -/
theorem reports_eq_iff (hsamples : Samples C D) :
    reports D ready pin = delay (9 * D + D / 2 + 2) starts ↔ InTime D starts ready := by
  rw [← edges_eq_iff hC hD hD' hs h0 hpin hsamples, reports_eq_delay hD hD' ready pin,
    ← delay_delay (9 * D + D / 2 + 1) 1]
  refine ⟨fun h => ?_, fun h => by rw [h]⟩
  funext t
  have ht := congrFun h (t + (9 * D + D / 2 + 1))
  rwa [delay_add, delay_add] at ht

end

/-- A receiver of 17 cycles to a bit behind a sender of 18. -/
theorem reports_eq_iff_slow_sender :
    reports 17 (fun _ => true) (fun t => level cells 18 (place (10 * 18) (fun s =>
        if s = 5 then some 0x41#8 else none) t)) =
      delay (9 * 17 + 17 / 2 + 2) (fun s => if s = 5 then some 0x41#8 else none) ↔
    InTime 17 (fun s => if s = 5 then some 0x41#8 else none) (fun _ => true) :=
  reports_eq_iff (by decide) (by decide) (by decide) (fun s s' h hs hs' => by
    obtain rfl : s = 5 := by
      by_contra hne
      rw [if_neg hne] at hs
      cases hs
    rw [if_neg (by omega)] at hs'
    cases hs') rfl (fun _ => rfl) (by decide)

end DeepSpace.Receiver
