import DeepSpace.Link
import DeepSpace.Receiver

/-!
# Two bit rates

A `uart_tx` of `C` clocks to a bit wired to modules of `D` clocks to a bit.

* `received_iff`: to a `uart_rx`: how far the two may differ;
* `echoed_iff`: through the `uart` of a board, and back into a `uart_rx` of `C` clocks to a bit.
-/

namespace DeepSpace.BitRate

open DeepSpace.Events DeepSpace.SerialLine DeepSpace.Uart DeepSpace.Link DeepSpace.Receiver

/-- `rx_data` in the cycles up to `t` where `rx_data_valid` rises. -/
def received (C D : Nat) (input : Nat → TxInput) (t : Nat) : List (BitVec 8) :=
  before (rises D (link C input)) (t + 1)

/-- `uart_tx` of the board. -/
def echo (C D : Nat) (input : Nat → TxInput) (t : Nat) : Bool :=
  (uart D (link C input) t).uartTxInst.txReg

/-- `rx_data` behind the board. -/
def echoed (C D : Nat) (input : Nat → TxInput) (t : Nat) : List (BitVec 8) :=
  before (rises C (echo C D input)) (t + 1)

variable {C D : Nat}

theorem cells_of_le (b : BitVec 8) {i : Nat} (hi : 9 ≤ i) : cells b i = true := by
  rw [cells, if_neg (by omega), if_neg (by simp only [BITS]; omega)]

/-! ## A receiver that is always ready -/

section

variable (hD : 4 ≤ D) (hD' : D ≤ 65536) {pin : Nat → Bool}

/-- What `rx_data_valid` shows in one cycle is all that it shows. -/
theorem arrivals_eq_reports (pin : Nat → Bool) :
    arrivals D pin = reports D (fun _ => true) pin := by
  funext t
  have hoffered : arrivals D pin t = offered D (fun _ => true) pin t := by
    rw [arrivals, Uart.arrival, uartRxInst_eq, ← rx_eq_uartRx, offered]
  rw [hoffered]
  cases t with
  | zero => rfl
  | succ t =>
    rw [reports_succ]
    by_cases hs : (rx D (fun _ => true) pin (t + 1)).state = .data
    · have hnot : (rx D (fun _ => true) pin t).state ≠ .data := fun hs' => by
        have hidle : (rx D (fun _ => true) pin (t + 1)).state = .idle := offered_succ _ pin hs'
        exact absurd (hs.symm.trans hidle) (by decide)
      rw [offered_of_data hs, if_pos ⟨hs, hnot⟩]
    · rw [offered_of_not_data hs, if_neg fun h => hs h.1]

/-- **What is reported** once each, a fixed number of cycles late. -/
theorem rises_eq_delay_of_received {latch : Trace (BitVec 8)} {K : Nat}
    (h : ∀ t, before (rises D pin) (t + 1) = before latch (t - K)) :
    rises D pin = delay (K + 1) latch := by
  refine eq_of_before fun t => ?_
  cases t with
  | zero => rfl
  | succ t => rw [h, before_delay, Nat.add_sub_add_right]

include hD hD'

theorem arrivals_eq_delay : arrivals D pin =
    delay (9 * D + D / 2 + 1) (edges D (fun _ => true) pin) := by
  rw [arrivals_eq_reports, reports_eq_delay hD hD' _ pin]

theorem rises_eq_delay : rises D pin =
    delay (9 * D + D / 2 + 1) (edges D (fun _ => true) pin) := by
  rw [← reports_eq_rises, reports_eq_delay hD hD' _ pin]

end

/-! ## What is sent -/

/-- One byte, in the first cycle. -/
def once (b : BitVec 8) : Nat → TxInput
  | 0 => ⟨b, true⟩
  | _ + 1 => ⟨0, false⟩

/-- The same byte, in every cycle. -/
def steady (b : BitVec 8) : Nat → TxInput := fun _ => ⟨b, true⟩

def single {α : Type} (s : Nat) (a : α) : Trace α := fun t => if t = s then some a else none

theorem single_self {α : Type} (s : Nat) (a : α) : single s a s = some a := if_pos rfl

theorem single_isSome {α : Type} {s t : Nat} {a : α} (h : (single s a t).isSome) : t = s := by
  by_contra hne
  rw [single, if_neg hne] at h
  cases h

theorem delay_single {α : Type} (d s : Nat) (a : α) : delay d (single s a) = single (s + d) a := by
  funext t
  unfold delay single
  by_cases ht : t < d
  · rw [if_pos ht, if_neg (by omega)]
  · rw [if_neg ht]
    exact if_congr (by omega) rfl rfl

theorem spaced_single {α : Type} {a : α} {s d : Nat} : Spaced d (single s a) := by
  intro r r' hlt hr hr'
  obtain rfl := single_isSome hr
  exact absurd (single_isSome hr') (by omega)

theorem latches_once (b : BitVec 8) : latches C (once b) = single 0 b := by
  funext t
  cases t with
  | zero => rfl
  | succ t => exact if_neg fun h => by cases h.2

theorem latches_steady_zero (b : BitVec 8) : latches C (steady b) 0 = some b := rfl

section

variable (hC : 4 ≤ C) (hC' : C ≤ 65536)

include hC hC'

theorem link_eq (input : Nat → TxInput) (t : Nat) :
    link C input t = level cells C (place (10 * C) (delay 2 (latches C input)) t) :=
  txPin_eq hC hC' input t

theorem starts_spaced (input : Nat → TxInput) : Spaced (10 * C) (delay 2 (latches C input)) :=
  spaced_delay_iff.mpr fun s s' h hs hs' =>
    (Nat.le_succ _).trans (latches_spaced hC hC' input s s' h hs hs')

/-- `uart_tx` latches again when the character is over. -/
theorem latches_steady (b : BitVec 8) : latches C (steady b) (10 * C + 1) = some b := by
  have hnone : latches C (steady b) (10 * C) = none := by
    by_contra hne
    have := latches_spaced hC hC' (steady b) 0 (10 * C) (by omega) rfl
      (Option.isSome_iff_ne_none.mpr hne)
    omega
  have hsp : Spaced (10 * C) (delay 1 (latches C (steady b))) :=
    spaced_delay_iff.mpr (spaced_delay_iff.mp (starts_spaced hC hC' (steady b)))
  have hlast := place_add hsp (s := 1) (k := 10 * C - 1) (a := b) rfl (by omega)
  rw [Nat.add_sub_cancel' (by omega)] at hlast
  have hplace : place (10 * C) (delay 1 (latches C (steady b))) (10 * C + 1) = none := by
    rw [place_succ (by rw [delay_add, hnone]), hlast, Option.bind_some,
      next_of_end (by omega)]
  exact if_pos ⟨(uartTx_at hC hC' (steady b) (10 * C + 1)).idle_iff.mpr hplace, rfl⟩

end

/-- **A line with one character** rests behind it. -/
theorem level_single (hC : 0 < C) (s k : Nat) (b : BitVec 8) :
    level cells C (place (10 * C) (single s b) (s + k)) = cells b (k / C) := by
  rcases Nat.lt_or_ge k (10 * C) with hk | hk
  · rw [place_add spaced_single (single_self s b) hk]
    rfl
  · cases hp : place (10 * C) (single s b) (s + k) with
    | none => rw [cells_of_le b ((Nat.le_div_iff_mul_le hC).mpr (by omega))]; rfl
    | some p =>
      obtain ⟨s', hs', hstart⟩ := exists_start hp
      obtain rfl := single_isSome (t := s') (by rw [hstart]; rfl)
      have := age_lt (by omega) hp
      omega

/-- The line rests before its first character. -/
theorem level_before {starts : Trace (BitVec 8)} {t : Nat} (h : ∀ r ≤ t, starts r = none) :
    level cells C (place (10 * C) starts t) = true := by
  cases hp : place (10 * C) starts t with
  | none => rfl
  | some p =>
    obtain ⟨s, rfl, hstart⟩ := exists_start hp
    rw [h s (by omega)] at hstart
    cases hstart

theorem link_once (hC : 4 ≤ C) (hC' : C ≤ 65536) (b : BitVec 8) (k : Nat) :
    link C (once b) (2 + k) = cells b (k / C) := by
  rw [link_eq hC hC', latches_once, delay_single, level_single (by omega)]

/-! ## To a receiver -/

section

variable (hC : 4 ≤ C) (hC' : C ≤ 65536) (hD : 4 ≤ D) (hD' : D ≤ 65536)

include hC hC' hD hD'

/-- The edges that a `uart_rx` sees behind `uart_tx`, where it has the time. -/
theorem edges_link (hsamples : Samples C D) (htime : 9 * D + D / 2 + 1 ≤ 10 * C)
    (input : Nat → TxInput) :
    edges D (fun _ => true) (link C input) = delay 3 (latches C input) := by
  have hstarts : Spaced (10 * C + 1) (delay 2 (latches C input)) :=
    spaced_delay_iff.mpr (latches_spaced hC hC' input)
  have h : edges D (fun _ => true) (link C input) = delay 1 (delay 2 (latches C input)) :=
    (edges_eq_iff (by omega) hD hD' (starts_spaced hC hC' input) rfl (link_eq hC hC' input)
      hsamples).mpr fun s s' hlt hs hs' => by
        have := hstarts s s' hlt hs hs'
        exact ⟨s', by omega, le_rfl, rfl⟩
  rw [h, delay_delay]

/-- **The first character** on the line, whatever follows it. -/
theorem first_sampled {starts : Trace (BitVec 8)} {pin : Nat → Bool}
    (hpin : ∀ t, pin t = level cells C (place (10 * C) starts t)) {s : Nat} {b : BitVec 8}
    (hs : starts (s + 1) = some b) (hfirst : ∀ r ≤ s, starts r = none) :
    edges D (fun _ => true) pin (s + 2) = some (sampled D pin (s + 2)) ∧
      ∀ e < s + 2, edges D (fun _ => true) pin e = none := by
  refine first_edge hD hD' _ pin (fun r hr => ?_) ?_
  · rw [hpin, level_before fun r' hr' => hfirst r' (by omega)]
  · rw [hpin, place_of_start hs, level_start (by omega)]

theorem link_first (input : Nat → TxInput) {b : BitVec 8} (hb : latches C input 0 = some b) :
    edges D (fun _ => true) (link C input) 3 = some (sampled D (link C input) 3) ∧
      ∀ e < 3, edges D (fun _ => true) (link C input) e = none :=
  first_sampled hC hC' hD hD' (link_eq hC hC' input) (s := 1) hb
    fun r hr => delay_of_lt _ (by omega)

/-- **To a receiver** of another rate. -/
theorem received_iff : (∃ K, ∀ input t, received C D input t = latched C input (t - K)) ↔
    8 * C ≤ 8 * D + D / 2 + 1 ∧ 9 * D + D / 2 + 1 ≤ 10 * C := by
  constructor
  · rintro ⟨K, hK⟩
    have hrises : ∀ input, delay (9 * D + D / 2 + 1) (edges D (fun _ => true) (link C input)) =
        delay (K + 1) (latches C input) := fun input => by
      rw [← rises_eq_delay hD hD', rises_eq_delay_of_received (hK input)]
    refine ⟨?_, ?_⟩
    · -- the highest bit alone is sampled too early
      by_contra hearly
      obtain ⟨hedge, -⟩ := link_first hC hC' hD hD' (once 0x80#8) (by rw [latches_once]; rfl)
      have hreport := congrFun (hrises (once 0x80#8)) (3 + (9 * D + D / 2 + 1))
      rw [delay_add, hedge, latches_once, delay_single] at hreport
      have hsome := single_isSome (a := 0x80#8) (by rw [← hreport]; rfl)
      rw [hsome, single_self, Option.some_inj] at hreport
      have hbit := getLsbD_sampled (C := D) (link C (once 0x80#8)) 3 (i := 7) (by decide)
      have hcell : (1 + (8 * D + D / 2)) / C < 8 :=
        (Nat.div_lt_iff_lt_mul (by omega)).mpr (by omega)
      rw [hreport, show 3 + ((7 + 1) * D + D / 2) = 2 + (1 + (8 * D + D / 2)) by omega,
        link_once hC hC'] at hbit
      generalize (1 + (8 * D + D / 2)) / C = i at hcell hbit
      revert i
      decide
    · -- the second of two characters starts too early
      have hlater : ∀ t, (latches C (steady 0xFF#8) t).isSome →
          ∃ e, t + (K + 1) = e + (9 * D + D / 2 + 1) ∧
            (edges D (fun _ => true) (link C (steady 0xFF#8)) e).isSome := fun t ht => by
        have hreport := congrFun (hrises (steady 0xFF#8)) (t + (K + 1))
        rw [delay_add] at hreport
        rw [← hreport] at ht
        exact delay_isSome ht
      obtain ⟨e, he, hedge⟩ := hlater 0 rfl
      obtain ⟨e', he', hedge'⟩ := hlater (10 * C + 1) (by rw [latches_steady hC hC']; rfl)
      have := edges_spaced hD hD' _ _ e e' (by omega) hedge hedge'
      omega
  · rintro ⟨hlo, hhi⟩
    refine ⟨9 * D + D / 2 + 3, fun input t => ?_⟩
    rw [received, rises_eq_delay hD hD',
      edges_link hC hC' hD hD' ⟨hlo, by omega⟩ (by omega), delay_delay, before_delay, latched]
    congr 1
    omega

end

/-! ## Through the board -/

/-- The bytes that the board latches. -/
def departures (C D : Nat) (input : Nat → TxInput) : Trace (BitVec 8) :=
  latches D (txInput D (link C input))

section

variable (hC : 4 ≤ C) (hC' : C ≤ 65536) (hD : 4 ≤ D) (hD' : D ≤ 65536)

include hD hD'

theorem echo_eq (input : Nat → TxInput) (t : Nat) :
    echo C D input t = level cells D (place (10 * D) (delay 2 (departures C D input)) t) := by
  rw [echo, uartTxInst_eq]
  exact txPin_eq hD hD' _ t

theorem departures_eq (input : Nat → TxInput) : departures C D input =
    Slot.takes (10 * D + 1)
      (delay (9 * D + D / 2 + 1) (edges D (fun _ => true) (link C input))) := by
  rw [departures, ← takes_eq hD hD', arrivals_eq_delay hD hD']

theorem departures_spaced (input : Nat → TxInput) :
    Spaced (10 * D + 1) (delay 2 (departures C D input)) :=
  spaced_delay_iff.mpr (latches_spaced hD hD' _)

theorem echo_starts_spaced (input : Nat → TxInput) :
    Spaced (10 * D) (delay 2 (departures C D input)) := fun s s' h hs hs' =>
  (Nat.le_succ _).trans (departures_spaced hD hD' input s s' h hs hs')

include hC hC'

/-- **What the host reports**, where both keep up. -/
theorem rises_echo (hDC : D ≤ C) (hsamples : 8 * C + C / 2 + 1 < 9 * D) (input : Nat → TxInput) :
    rises C (echo C D input) =
      delay (9 * C + C / 2 + (9 * D + D / 2) + 9) (latches C input) := by
  have hlatches : Spaced (10 * C + 1) (latches C input) := latches_spaced hC hC' input
  have hdep : delay 2 (departures C D input) = delay (9 * D + D / 2 + 7) (latches C input) := by
    rw [departures_eq hD hD', edges_link hC hC' hD hD' ⟨by omega, by omega⟩ (by omega),
      delay_delay, Slot.takes_eq_delay (spaced_delay_iff.mpr fun s s' h hs hs' => by
        have := hlatches s s' h hs hs'
        omega), delay_delay, delay_delay]
    congr 1
    omega
  have hedges : edges C (fun _ => true) (echo C D input) =
      delay 1 (delay 2 (departures C D input)) :=
    (edges_eq_iff (by omega) hC hC' (echo_starts_spaced hD hD' input) rfl (echo_eq hD hD' input)
      ⟨by omega, by omega⟩).mpr fun s s' hlt hs hs' => by
        rw [hdep] at hs hs'
        have := spaced_delay_iff.mpr hlatches s s' hlt hs hs'
        exact ⟨s', by omega, le_rfl, rfl⟩
  rw [rises_eq_delay hC hC', hedges, hdep, delay_delay, delay_delay]
  congr 1
  omega

/-- The first byte that the board sends, as it was sampled. -/
theorem departures_first (input : Nat → TxInput) {b : BitVec 8}
    (hb : latches C input 0 = some b) :
    departures C D input (9 * D + D / 2 + 5) = some (sampled D (link C input) 3) ∧
      ∀ r < 9 * D + D / 2 + 5, departures C D input r = none := by
  obtain ⟨hedge, hnone⟩ := link_first hC hC' hD hD' input hb
  have hnone' : ∀ r < 3 + (9 * D + D / 2 + 1),
      delay (9 * D + D / 2 + 1) (edges D (fun _ => true) (link C input)) r = none := by
    intro r hr
    unfold delay
    split
    · rfl
    · exact hnone _ (by omega)
  have hfirst := Slot.takes_first (P := 10 * D + 1) hnone' ((delay_add _ _ 3).trans hedge)
  rw [departures_eq hD hD']
  refine ⟨?_, fun r hr => hfirst.2 r (by omega)⟩
  rw [show 9 * D + D / 2 + 5 = 3 + (9 * D + D / 2 + 1) + 1 by omega]
  exact hfirst.1

/-- **The first edge** that the host sees. -/
theorem echo_first (input : Nat → TxInput) {b : BitVec 8} (hb : latches C input 0 = some b) :
    edges C (fun _ => true) (echo C D input) (9 * D + D / 2 + 8) =
        some (sampled C (echo C D input) (9 * D + D / 2 + 8)) ∧
      ∀ e < 9 * D + D / 2 + 8, edges C (fun _ => true) (echo C D input) e = none := by
  obtain ⟨hdep, hnone⟩ := departures_first hC hC' hD hD' input hb
  refine first_sampled hD hD' hC hC' (echo_eq hD hD' input) (s := 9 * D + D / 2 + 6)
    (b := sampled D (link C input) 3) ?_ fun r hr => ?_
  · rw [show 9 * D + D / 2 + 6 + 1 = 9 * D + D / 2 + 5 + 2 by omega, delay_add, hdep]
  · unfold delay
    split
    · rfl
    · exact hnone _ (by omega)

/-- **The level behind the board**, while it sends the first byte. -/
theorem echo_level (input : Nat → TxInput) {b : BitVec 8} (hb : latches C input 0 = some b)
    {k : Nat} (hk : k < 10 * D) : echo C D input (9 * D + D / 2 + 7 + k) =
      cells (sampled D (link C input) 3) (k / D) := by
  obtain ⟨hdep, -⟩ := departures_first hC hC' hD hD' input hb
  rw [echo_eq hD hD', place_add (echo_starts_spaced hD hD' input) (a := sampled D (link C input) 3)
    (by rw [show 9 * D + D / 2 + 7 = 9 * D + D / 2 + 5 + 2 by omega, delay_add, hdep]) hk]
  rfl

/-- **Where every byte comes back**: the first edge is that of the first byte, and samples it. -/
theorem echo_of_echoed {K : Nat} {input : Nat → TxInput}
    (h : ∀ t, echoed C D input t = latched C input (t - K)) {b : BitVec 8}
    (hb : latches C input 0 = some b) :
    sampled C (echo C D input) (9 * D + D / 2 + 8) = b ∧
      ∀ t, (latches C input t).isSome →
        (edges C (fun _ => true) (echo C D input) (t + (9 * D + D / 2 + 8))).isSome := by
  have hrises : delay (9 * C + C / 2 + 1) (edges C (fun _ => true) (echo C D input)) =
      delay (K + 1) (latches C input) := by
    rw [← rises_eq_delay hC hC', rises_eq_delay_of_received h]
  obtain ⟨hedge, hnone⟩ := echo_first hC hC' hD hD' input hb
  have hK : K + 1 = 9 * D + D / 2 + 8 + (9 * C + C / 2 + 1) := by
    have h0 := congrFun hrises (0 + (K + 1))
    rw [delay_add, hb, Nat.zero_add] at h0
    obtain ⟨e, he, hsome⟩ := delay_isSome (by rw [h0]; rfl)
    have hle : 9 * D + D / 2 + 8 ≤ e := by
      by_contra hlt
      rw [hnone e (by omega)] at hsome
      cases hsome
    have h1 := congrFun hrises (9 * D + D / 2 + 8 + (9 * C + C / 2 + 1))
    rw [delay_add, hedge] at h1
    obtain ⟨t, ht, -⟩ := delay_isSome (by rw [← h1]; rfl)
    omega
  have hall : ∀ t, edges C (fun _ => true) (echo C D input) (t + (9 * D + D / 2 + 8)) =
      latches C input t := fun t => by
    have ht := congrFun hrises (t + (K + 1))
    rwa [delay_add, hK, ← Nat.add_assoc, delay_add] at ht
  refine ⟨?_, fun t ht => by rwa [hall]⟩
  have h0 := hall 0
  rw [Nat.zero_add, hedge, hb] at h0
  exact Option.some_inj.mp h0

/-- A bit that the host samples, of the byte that the board has sampled. -/
theorem getLsbD_echo (input : Nat → TxInput) {b : BitVec 8} (hb : latches C input 0 = some b)
    {j : Nat} (hj : j < 8) (hk : 1 + ((j + 1) * C + C / 2) < 10 * D) :
    (sampled C (echo C D input) (9 * D + D / 2 + 8)).getLsbD j =
      cells (sampled D (link C input) 3) ((1 + ((j + 1) * C + C / 2)) / D) := by
  rw [getLsbD_sampled _ _ hj, ← echo_level hC hC' hD hD' input hb hk]
  congr 1
  omega

omit hC hC' hD hD' in
/-- In `0x55` no two neighbours among the bits are equal. -/
theorem alternating {j : Nat} (hj : j < 7) :
    (0x55#8).getLsbD j ≠ (0x55#8).getLsbD (j + 1) := by
  revert j
  decide

/-- A board that is slow, and samples the stop bit for the last one. -/
theorem not_echoed_of_late (hCD : C < D) (hlate : 9 * C ≤ 8 * D + D / 2 + 1) :
    sampled C (echo C D (once 0x55#8)) (9 * D + D / 2 + 8) ≠ 0x55#8 := by
  intro h
  have hb : latches C (once 0x55#8) 0 = some 0x55#8 := by rw [latches_once]; rfl
  have hle : ∀ {j : Nat}, j < 8 → (j + 1) * C ≤ 8 * C := fun hj => Nat.mul_le_mul_right C (by omega)
  have hbit : ∀ j < 8, (0x55#8).getLsbD j =
      cells (sampled D (link C (once 0x55#8)) 3) ((1 + ((j + 1) * C + C / 2)) / D) := by
    intro j hj
    have := hle hj
    rw [← getLsbD_echo hC hC' hD hD' _ hb hj (by omega), h]
  -- so the samples of the host fall into different cells of the board
  have hcell : ∀ j < 8, j + 1 ≤ (1 + ((j + 1) * C + C / 2)) / D := by
    intro j
    induction j with
    | zero =>
      intro hj
      by_contra hzero
      have h0 := hbit 0 hj
      rw [Nat.lt_one_iff.mp (not_le.mp hzero), cells_zero] at h0
      revert h0
      decide
    | succ j ih =>
      intro hj
      have hmono : (1 + ((j + 1) * C + C / 2)) / D ≤ (1 + ((j + 1 + 1) * C + C / 2)) / D :=
        Nat.div_le_div_right (by rw [Nat.succ_mul (j + 1)]; omega)
      have hne : (1 + ((j + 1) * C + C / 2)) / D ≠ (1 + ((j + 1 + 1) * C + C / 2)) / D := by
        intro heq
        refine alternating (j := j) (by omega) ?_
        rw [hbit j (by omega), hbit (j + 1) hj, heq]
      have := ih (by omega)
      omega
  have hlast : (1 + ((7 + 1) * C + C / 2)) / D = 8 := by
    have h7 := hcell 7 (by decide)
    have h8 : (1 + ((7 + 1) * C + C / 2)) / D < 9 :=
      (Nat.div_lt_iff_lt_mul (by omega)).mpr (by omega)
    omega
  have h7 := hbit 7 (by decide)
  rw [hlast, cells_succ _ (by decide), getLsbD_sampled _ _ (by decide),
    show 3 + ((7 + 1) * D + D / 2) = 2 + (1 + (8 * D + D / 2)) by omega, link_once hC hC',
    cells_of_le _ ((Nat.le_div_iff_mul_le (by omega)).mpr (by omega))] at h7
  revert h7
  decide

/-- A board that is slow and samples well: it is still sending when the next edge is due. -/
theorem not_echoed_of_slow (hCD : C < D) (hsamples : 8 * D + D / 2 + 1 < 9 * C) :
    ¬ (edges C (fun _ => true) (echo C D (steady 0xFF#8))
      (10 * C + 1 + (9 * D + D / 2 + 8))).isSome := by
  intro hedge
  have hcells : ∀ {i : Nat}, 0 < i → cells 0xFF#8 i = true := fun {i} hi => by
    rcases Nat.lt_or_ge i 9 with h9 | h9
    · exact (by decide : ∀ i < 9, 0 < i → cells 0xFF#8 i = true) i h9 hi
    · exact cells_of_le _ h9
  have hall : sampled D (link C (steady 0xFF#8)) 3 = 0xFF#8 := by
    refine BitVec.eq_of_getLsbD_eq fun i hi => ?_
    obtain ⟨j, hj, hcell⟩ := Samples.cell ⟨by omega, hsamples⟩ hi
    have hle : (i + 1) * C ≤ 8 * C := Nat.mul_le_mul_right C (by omega)
    rw [getLsbD_sampled _ _ hi,
      show 3 + ((i + 1) * D + D / 2) = 2 + ((i + 1) * C + j) by omega, link_eq hC hC',
      place_add (starts_spaced hC hC' _) (a := 0xFF#8) rfl (by omega), level_bit hi hj]
  have hlow : echo C D (steady 0xFF#8) (9 * D + D / 2 + 7 + (10 * C + 1)) = false := by
    have hseen := edges_add_two hC hC' (fun _ => true) (echo C D (steady 0xFF#8))
      (10 * C + 1 + (9 * D + D / 2 + 6))
    rw [show 10 * C + 1 + (9 * D + D / 2 + 8) = 10 * C + 1 + (9 * D + D / 2 + 6) + 2 by omega,
      hseen] at hedge
    split at hedge
    · next h =>
      rw [show 9 * D + D / 2 + 7 + (10 * C + 1) = 10 * C + 1 + (9 * D + D / 2 + 6) + 1 by omega]
      exact Bool.eq_false_iff.mpr h.2.1
    · cases hedge
  rw [echo_level hC hC' hD hD' _ (latches_steady_zero _) (by omega), hall,
    hcells (Nat.div_pos (by omega) (by omega))] at hlow
  cases hlow

/-- A board that is fast: the host samples its stop bit for the last one. -/
theorem not_echoed_of_fast (hearly : 9 * D ≤ 8 * C + C / 2 + 1) :
    sampled C (echo C D (once 0#8)) (9 * D + D / 2 + 8) ≠ 0#8 := by
  intro h
  have hb : latches C (once 0#8) 0 = some 0#8 := by rw [latches_once]; rfl
  have hcells : ∀ {i : Nat}, i < 9 → cells 0#8 i = false := fun {i} hi =>
    (by decide : ∀ i < 9, cells 0#8 i = false) i hi
  have hzero : sampled D (link C (once 0#8)) 3 = 0#8 := by
    refine BitVec.eq_of_getLsbD_eq fun i hi => ?_
    have hle : (i + 1) * D ≤ 8 * D := Nat.mul_le_mul_right D (by omega)
    rw [getLsbD_sampled _ _ hi,
      show 3 + ((i + 1) * D + D / 2) = 2 + (1 + ((i + 1) * D + D / 2)) by omega, link_once hC hC',
      hcells ((Nat.div_lt_iff_lt_mul (by omega)).mpr (by omega))]
    exact BitVec.getLsbD_zero.symm
  -- the line falls once
  have hedges : edges D (fun _ => true) (link C (once 0#8)) = single 3 0#8 := by
    obtain ⟨hedge, hnone⟩ := link_first hC hC' hD hD' (once 0#8) hb
    funext e
    rcases Nat.lt_trichotomy e 3 with hlt | rfl | hgt
    · rw [hnone e hlt, single, if_neg (by omega)]
    · rw [hedge, hzero, single_self]
    · obtain ⟨k, rfl⟩ : ∃ k, e = 2 + k + 2 := ⟨e - 4, by omega⟩
      rw [edges_add_two hD hD', single, if_neg (show ¬ 2 + k + 2 = 3 by omega)]
      refine if_neg fun hfall => hfall.2.1 ?_
      have hhigh := hfall.1
      rw [link_once hC hC'] at hhigh
      rw [Nat.add_assoc, link_once hC hC']
      refine cells_of_le _ (le_trans ?_ (Nat.div_le_div_right (Nat.le_succ k)))
      by_contra hlow
      rw [hcells (not_le.mp hlow)] at hhigh
      cases hhigh
  have hdep : departures C D (once 0#8) = single (9 * D + D / 2 + 5) 0#8 := by
    rw [departures_eq hD hD', hedges, delay_single, Slot.takes_eq_delay spaced_single,
      delay_single]
    congr 1
    omega
  have hlast := getLsbD_sampled (C := C) (echo C D (once 0#8)) (9 * D + D / 2 + 8) (i := 7)
    (by decide)
  rw [h, show 9 * D + D / 2 + 8 + ((7 + 1) * C + C / 2) =
    9 * D + D / 2 + 5 + 2 + (1 + (8 * C + C / 2)) by omega, echo_eq hD hD', hdep, delay_single,
    level_single (by omega),
    cells_of_le _ ((Nat.le_div_iff_mul_le (by omega)).mpr (by omega))] at hlast
  cases hlast

/-- **Through the board and back**: every byte once, in order and a fixed number of cycles late,
exactly if the board is not slower and not too fast. -/
theorem echoed_iff : (∃ K, ∀ input t, echoed C D input t = latched C input (t - K)) ↔
    D ≤ C ∧ 8 * C + C / 2 + 1 < 9 * D := by
  constructor
  · rintro ⟨K, hK⟩
    have honce : ∀ b, sampled C (echo C D (once b)) (9 * D + D / 2 + 8) = b := fun b =>
      (echo_of_echoed hC hC' hD hD' (hK (once b)) (by rw [latches_once]; rfl)).1
    have hDC : D ≤ C := by
      by_contra hslow
      rcases Nat.lt_or_ge (8 * D + D / 2 + 1) (9 * C) with hsamples | hlate
      · refine not_echoed_of_slow hC hC' hD hD' (not_le.mp hslow) hsamples ?_
        exact (echo_of_echoed hC hC' hD hD' (hK (steady 0xFF#8)) (latches_steady_zero _)).2
          (10 * C + 1) (by rw [latches_steady hC hC']; rfl)
      · exact not_echoed_of_late hC hC' hD hD' (not_le.mp hslow) hlate (honce 0x55#8)
    refine ⟨hDC, ?_⟩
    by_contra hfast
    exact not_echoed_of_fast hC hC' hD hD' (by omega) (honce 0#8)
  · rintro ⟨hDC, hsamples⟩
    refine ⟨9 * C + C / 2 + (9 * D + D / 2) + 8, fun input t => ?_⟩
    rw [echoed, rises_echo hC hC' hD hD' hDC hsamples, before_delay, latched]
    congr 1
    omega

end

theorem received_iff_example :
    (∃ K, ∀ input t, received 1736 1700 input t = latched 1736 input (t - K)) ↔
      8 * 1736 ≤ 8 * 1700 + 1700 / 2 + 1 ∧ 9 * 1700 + 1700 / 2 + 1 ≤ 10 * 1736 :=
  received_iff (by decide) (by decide) (by decide) (by decide)

theorem echoed_iff_example :
    (∃ K, ∀ input t, echoed 1736 1700 input t = latched 1736 input (t - K)) ↔
      1700 ≤ 1736 ∧ 8 * 1736 + 1736 / 2 + 1 < 9 * 1700 :=
  echoed_iff (by decide) (by decide) (by decide) (by decide)

end DeepSpace.BitRate
