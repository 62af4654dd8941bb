import Mathlib.Tactic.Linarith
import Mathlib.Tactic.Positivity
import Mathlib.Tactic.Ring

/-!
# Renormalisation of an interval coder

An interval of `k + 2`-bit numbers is scaled up until its ends lie in different
halves of the word and not both in the two middle quarters; `q = 2 ^ k` is a
quarter.  Every scaling is a `Move`: a bit that is settled, or one that stays
pending until the next settled bit.  Proved here, for every width:

* `Moves.functional`: an interval determines its moves and where they end;
* `Interval.Inside.exists_emits`, `Interval.Inside.exists_pends`: they end, settled bits first;
* `Interval.Settled.range`: a settled interval is longer than a quarter;
* `Reaches.of_moves`: if the code lies in the interval after the moves then it
  lay in the interval before them, pending bits included;
* `Reaches.moves`: if it lay in the interval before them, then it lies in the one after them;
* `register_move`: the word a decoder has read moves on with the interval;
* `slot_lt_slot_iff`: where the sub-interval of a symbol is not empty;
* `Cost.trans`: what the output costs adds up along a run;
* `Reaches.before`: codes in two intervals, one below the other, are in that order.
-/

namespace DeepSpace.Renormalisation

/-! ## Intervals and moves -/

structure Interval where
  low : Int
  high : Int
  deriving DecidableEq, Repr

inductive Move where
  | emit (bit : Bool)
  | pend
  deriving DecidableEq, Repr

/-- The scaling that is due, if any. -/
def Interval.next (q : Int) (I : Interval) : Option Move :=
  if I.high < 2 * q then some (.emit false)
  else if 2 * q ≤ I.low then some (.emit true)
  else if q ≤ I.low ∧ I.high < 3 * q then some .pend
  else none

def Interval.scale (q : Int) (I : Interval) : Move → Interval
  | .emit b => ⟨2 * I.low - b.toInt * (4 * q), 2 * I.high + 1 - b.toInt * (4 * q)⟩
  | .pend => ⟨2 * I.low - 2 * q, 2 * I.high + 1 - 2 * q⟩

/-- Not empty, and within the word. -/
structure Interval.Inside (q : Int) (I : Interval) : Prop where
  low_nonneg : 0 ≤ I.low
  low_le_high : I.low ≤ I.high
  high_lt : I.high < 4 * q

/-- In different halves, and not both in the middle quarters. -/
structure Interval.Settled (q : Int) (I : Interval) : Prop where
  low_nonneg : 0 ≤ I.low
  low_lt : I.low < 2 * q
  le_high : 2 * q ≤ I.high
  high_lt : I.high < 4 * q
  apart : I.low < q ∨ 3 * q ≤ I.high

theorem Interval.Settled.inside {q : Int} {I : Interval} (h : I.Settled q) : I.Inside q :=
  ⟨h.low_nonneg, h.low_lt.le.trans h.le_high, h.high_lt⟩

/-- The code space left to the next symbol. -/
theorem Interval.Settled.range {q : Int} {I : Interval} (h : I.Settled q) :
    q + 1 ≤ I.high - I.low := by
  obtain ⟨h0, h1, h2, h3, h4⟩ := h
  omega

theorem Interval.Settled.next {q : Int} {I : Interval} (h : I.Settled q) : I.next q = none := by
  obtain ⟨h0, h1, h2, h3, h4⟩ := h
  rw [Interval.next, if_neg (by omega), if_neg (by omega), if_neg (by omega)]

theorem Interval.next_emit {q : Int} {I : Interval} {b : Bool} (hI : I.Inside q)
    (h : I.next q = some (.emit b)) :
    b.toInt * (2 * q) ≤ I.low ∧ I.high < (b.toInt + 1) * (2 * q) := by
  obtain ⟨h0, h1, h2⟩ := hI
  unfold Interval.next at h
  split at h
  · cases h
    simp only [Bool.toInt_false]
    omega
  split at h
  · cases h
    simp only [Bool.toInt_true]
    omega
  split at h
  · cases h
  · cases h

theorem Interval.next_pend {q : Int} {I : Interval} (h : I.next q = some .pend) :
    q ≤ I.low ∧ I.low < 2 * q ∧ 2 * q ≤ I.high ∧ I.high < 3 * q := by
  unfold Interval.next at h
  split at h
  · cases h
  split at h
  · cases h
  split at h
  · next h1 h2 h3 => exact ⟨h3.1, not_le.mp h2, not_lt.mp h1, h3.2⟩
  · cases h

theorem Interval.next_of_middle {q : Int} {I : Interval} (h0 : q ≤ I.low) (h1 : I.low < 2 * q)
    (h2 : 2 * q ≤ I.high) (h3 : I.high < 3 * q) : I.next q = some .pend := by
  rw [Interval.next, if_neg (by omega), if_neg (by omega), if_pos ⟨h0, h3⟩]

/-- A scaling that is due stays within the word. -/
theorem Interval.Inside.scale {q : Int} {I : Interval} {m : Move} (hI : I.Inside q)
    (h : I.next q = some m) : (I.scale q m).Inside q := by
  obtain ⟨h0, h1, h2⟩ := hI
  cases m with
  | emit b =>
    have hb := Interval.next_emit ⟨h0, h1, h2⟩ h
    cases b
    · simp only [Bool.toInt_false] at hb
      constructor <;> simp only [Interval.scale, Bool.toInt_false] <;> omega
    · simp only [Bool.toInt_true] at hb
      constructor <;> simp only [Interval.scale, Bool.toInt_true] <;> omega
  | pend =>
    have hp := Interval.next_pend h
    constructor <;> simp only [Interval.scale] <;> omega

/-- Every scaling doubles the number of points. -/
theorem Interval.scale_width (q : Int) (I : Interval) (m : Move) :
    (I.scale q m).high - (I.scale q m).low + 1 = 2 * (I.high - I.low + 1) := by
  cases m <;> simp only [Interval.scale] <;> ring

/-- A run of scalings that were all due. -/
inductive Moves (q : Int) : Interval → List Move → Interval → Prop
  | nil (I : Interval) : Moves q I [] I
  | cons {I I' : Interval} {m : Move} {ms : List Move} :
      I.next q = some m → Moves q (I.scale q m) ms I' → Moves q I (m :: ms) I'

theorem Moves.inside {q : Int} {I I' : Interval} {ms : List Move} (h : Moves q I ms I')
    (hI : I.Inside q) : I'.Inside q := by
  induction h with
  | nil => exact hI
  | cons hm _ ih => exact ih (hI.scale hm)

theorem Moves.append {q : Int} {I J K : Interval} {ms ns : List Move} (h : Moves q I ms J)
    (h' : Moves q J ns K) : Moves q I (ms ++ ns) K := by
  induction h with
  | nil => exact h'
  | cons hm _ ih => exact .cons hm (ih h')

/-- **Renormalisation is a function of the interval.** -/
theorem Moves.functional {q : Int} {I J K : Interval} {ms ns : List Move} (h : Moves q I ms J)
    (hJ : J.next q = none) (h' : Moves q I ns K) (hK : K.next q = none) : ms = ns ∧ J = K := by
  induction h generalizing ns with
  | nil I =>
    cases h' with
    | nil => exact ⟨rfl, rfl⟩
    | cons hm _ => rw [hJ] at hm; cases hm
  | cons hm _ ih =>
    cases h' with
    | nil => rw [hK] at hm; cases hm
    | cons hm' h' =>
      rw [hm] at hm'
      cases hm'
      obtain ⟨rfl, rfl⟩ := ih hJ h'
      exact ⟨rfl, rfl⟩

theorem width_mul_pow_succ (w : Int) (n : Nat) : w * 2 ^ (n + 1) = 2 * w * 2 ^ n := by ring

/-- The bits that are due are settled one after the other. -/
theorem Interval.Inside.exists_emits {q : Int} (n : Nat) {I : Interval} (hI : I.Inside q)
    (hn : 4 * q ≤ (I.high - I.low + 1) * 2 ^ n) :
    ∃ (bs : List Bool) (J : Interval), Moves q I (bs.map .emit) J ∧ J.low < 2 * q ∧
      2 * q ≤ J.high := by
  induction n generalizing I with
  | zero =>
    obtain ⟨h0, h1, h2⟩ := hI
    exact ⟨[], I, .nil I, by omega, by omega⟩
  | succ n ih =>
    by_cases hsplit : I.low < 2 * q ∧ 2 * q ≤ I.high
    · exact ⟨[], I, .nil I, hsplit⟩
    · obtain ⟨b, hb⟩ : ∃ b, I.next q = some (.emit b) := by
        by_cases hh : I.high < 2 * q
        · exact ⟨false, if_pos hh⟩
        · exact ⟨true, (if_neg hh).trans (if_pos (by omega))⟩
      obtain ⟨bs, J, hmoves, hJ⟩ := ih (hI.scale hb) (by
        rw [Interval.scale_width, ← width_mul_pow_succ]
        exact hn)
      exact ⟨b :: bs, J, .cons hb hmoves, hJ⟩

/-- Then the ends are moved out of the middle quarters. -/
theorem Interval.Inside.exists_pends {q : Int} (n : Nat) {I : Interval} (hI : I.Inside q)
    (hlow : I.low < 2 * q) (hhigh : 2 * q ≤ I.high) (hn : 4 * q ≤ (I.high - I.low + 1) * 2 ^ n) :
    ∃ (k : Nat) (J : Interval), Moves q I (List.replicate k .pend) J ∧ J.Settled q := by
  induction n generalizing I with
  | zero =>
    have := hI.low_nonneg
    exact ⟨0, I, .nil I, hI.low_nonneg, hlow, hhigh, hI.high_lt, by omega⟩
  | succ n ih =>
    by_cases hapart : I.low < q ∨ 3 * q ≤ I.high
    · exact ⟨0, I, .nil I, hI.low_nonneg, hlow, hhigh, hI.high_lt, hapart⟩
    · have hb : I.next q = some .pend :=
        Interval.next_of_middle (by omega) hlow hhigh (by omega)
      obtain ⟨k, J, hmoves, hJ⟩ := ih (hI.scale hb)
        (show 2 * I.low - 2 * q < 2 * q by omega)
        (show 2 * q ≤ 2 * I.high + 1 - 2 * q by omega) (by
          rw [Interval.scale_width, ← width_mul_pow_succ]
          exact hn)
      exact ⟨k + 1, J, .cons hb hmoves, hJ⟩

/-! ## Output -/

/-- Settled bits, and how many bits are pending behind them. -/
structure Output where
  bits : List Bool
  pending : Nat
  deriving DecidableEq, Repr

/-- A settled bit settles the pending ones, which are its complement. -/
def Output.apply (O : Output) : Move → Output
  | .emit b => ⟨O.bits ++ b :: List.replicate O.pending (!b), 0⟩
  | .pend => ⟨O.bits, O.pending + 1⟩

/-! ## Windows of a bit sequence -/

/-- The `n` bits from position `p`, as a number. -/
def window (β : Nat → Bool) (p : Nat) : Nat → Int
  | 0 => 0
  | n + 1 => 2 * window β p n + (β (p + n)).toInt

theorem toInt_nonneg (b : Bool) : 0 ≤ b.toInt := by cases b <;> decide

theorem toInt_le_one (b : Bool) : b.toInt ≤ 1 := by cases b <;> decide

theorem window_nonneg (β : Nat → Bool) (p n : Nat) : 0 ≤ window β p n := by
  induction n with
  | zero => exact le_refl _
  | succ n ih =>
    have := toInt_nonneg (β (p + n))
    simp only [window]
    omega

theorem window_lt (β : Nat → Bool) (p n : Nat) : window β p n < 2 ^ n := by
  induction n with
  | zero => exact Int.one_pos
  | succ n ih =>
    have := toInt_le_one (β (p + n))
    simp only [window, pow_succ]
    omega

/-- The leading bit of a window. -/
theorem window_head (β : Nat → Bool) (p n : Nat) :
    window β p (n + 1) = (β p).toInt * 2 ^ n + window β (p + 1) n := by
  induction n with
  | zero => simp [window]
  | succ n ih =>
    have hp : p + (n + 1) = p + 1 + n := by omega
    rw [window, ih, window, hp]
    ring

theorem window_zero {β : Nat → Bool} {p : Nat} (h : ∀ i, p ≤ i → β i = false) (n : Nat) :
    window β p n = 0 := by
  induction n with
  | zero => rfl
  | succ n ih => rw [window, ih, h _ (by omega)]; rfl

/-! ## The code against the interval -/

variable (k : Nat) (β : Nat → Bool)

/-- The word of the decoder that has followed the moves so far: one bit, then, past
the pending ones, `k + 1` more. -/
def register (O : Output) : Int :=
  (β O.bits.length).toInt * (2 * 2 ^ k) + window β (O.bits.length + 1 + O.pending) (k + 1)

/-- Bits the decoder has read. -/
def Output.read (O : Output) : Nat := O.bits.length + O.pending + (k + 2)

/-- `β` starts with the settled bits, and the pending bits are the complement of the
next one. -/
structure Agrees (O : Output) : Prop where
  settled : ∀ i (h : i < O.bits.length), β i = O.bits[i]
  pending : ∀ i < O.pending, β (O.bits.length + 1 + i) = !β O.bits.length

/-- The code `β` lies in the interval. -/
structure Reaches (I : Interval) (O : Output) : Prop extends Agrees β O where
  low_le : I.low ≤ register k β O
  le_high : register k β O ≤ I.high

variable {k β}

theorem Reaches.mono {I J : Interval} {O : Output} (h : Reaches k β J O) (hl : I.low ≤ J.low)
    (hh : J.high ≤ I.high) : Reaches k β I O :=
  ⟨h.toAgrees, hl.trans h.low_le, h.le_high.trans hh⟩

theorem register_fresh : register k β ⟨[], 0⟩ = window β 0 (k + 2) := by
  have h := window_head β 0 (k + 1)
  have hp : (2 : Int) ^ (k + 1) = 2 * 2 ^ k := by ring
  rw [hp] at h
  exact h.symm

/-- The word after a settled bit. -/
theorem register_emit (O : Output) (b : Bool) :
    register k β (O.apply (.emit b)) =
      2 * window β (O.bits.length + 1 + O.pending) (k + 1) + (β (O.read k)).toInt := by
  have hlen : (O.apply (.emit b)).bits.length = O.bits.length + 1 + O.pending := by
    simp only [Output.apply, List.length_append, List.length_cons, List.length_replicate]
    omega
  have h := window_head β (O.bits.length + 1 + O.pending) (k + 1)
  have hp : (2 : Int) ^ (k + 1) = 2 * 2 ^ k := by ring
  have hr : O.bits.length + 1 + O.pending + (k + 1) = O.read k := by unfold Output.read; omega
  rw [hp, window, hr] at h
  rw [register, hlen]
  exact h.symm

/-- The word before and after a pending bit. -/
theorem register_pend (O : Output) :
    register k β O = (β O.bits.length).toInt * (2 * 2 ^ k) +
        ((β (O.bits.length + 1 + O.pending)).toInt * 2 ^ k +
          window β (O.bits.length + 2 + O.pending) k) ∧
      register k β (O.apply .pend) = (β O.bits.length).toInt * (2 * 2 ^ k) +
        (2 * window β (O.bits.length + 2 + O.pending) k + (β (O.read k)).toInt) := by
  have h1 : O.bits.length + 1 + O.pending + 1 = O.bits.length + 2 + O.pending := by omega
  have h2 : O.bits.length + 1 + (O.pending + 1) = O.bits.length + 2 + O.pending := by omega
  have hr : O.bits.length + 2 + O.pending + k = O.read k := by unfold Output.read; omega
  constructor
  · rw [register, window_head, h1]
  · rw [register]
    simp only [Output.apply]
    rw [h2, window, hr]

/-- **One move back**, whether or not it was due. -/
theorem Reaches.of_scale {I : Interval} {O : Output} {m : Move}
    (h : Reaches k β (I.scale (2 ^ k) m) (O.apply m)) : Reaches k β I O := by
  obtain ⟨⟨hs, hp⟩, hl, hh⟩ := h
  cases m with
  | emit b =>
    -- the bits of `O` are a prefix, then `b`, then the bits that were pending
    have hpre : ∀ i (hi : i < O.bits.length), β i = O.bits[i] := by
      intro i hi
      rw [hs i (by simp only [Output.apply, List.length_append]; omega)]
      exact List.getElem_append_left hi
    have hb : β O.bits.length = b := by
      rw [hs O.bits.length (by simp [Output.apply])]
      simp [Output.apply]
    have hc : ∀ i < O.pending, β (O.bits.length + 1 + i) = !b := by
      intro i hi
      rw [hs _ (by simp only [Output.apply, List.length_append, List.length_cons,
        List.length_replicate]; omega)]
      have e : O.bits.length + 1 + i - O.bits.length = i + 1 := by omega
      simp only [Output.apply]
      rw [List.getElem_append_right (by omega)]
      simp only [e, List.getElem_cons_succ, List.getElem_replicate]
    rw [register_emit] at hl hh
    have h0 := toInt_nonneg (β (O.read k))
    have h1 := toInt_le_one (β (O.read k))
    refine ⟨⟨hpre, fun i hi => by rw [hc i hi, hb]⟩, ?_, ?_⟩
    all_goals
      rw [register, hb]
      generalize (2 : Int) ^ k = q, (β (O.read k)).toInt = c at *
      cases b <;> simp only [Interval.scale, Bool.toInt_false, Bool.toInt_true] at hl hh ⊢ <;> omega
  | pend =>
    have hc : β (O.bits.length + 1 + O.pending) = !β O.bits.length := hp _ (Nat.lt_succ_self _)
    obtain ⟨e, e'⟩ := register_pend (k := k) (β := β) O
    rw [e'] at hl hh
    have h0 := toInt_nonneg (β (O.read k))
    have h1 := toInt_le_one (β (O.read k))
    refine ⟨⟨hs, fun i hi => hp i (Nat.lt_succ_of_lt hi)⟩, ?_, ?_⟩
    all_goals
      rw [e, hc]
      clear e e' hs hp hc
      generalize (2 : Int) ^ k = q, (β (O.read k)).toInt = c, β O.bits.length = b at *
      cases b <;>
        simp only [Interval.scale, Bool.not_false, Bool.not_true, Bool.toInt_false,
          Bool.toInt_true] at hl hh ⊢ <;> omega

/-- **Moves back.** -/
theorem Reaches.of_moves {I I' : Interval} {ms : List Move} (h : Moves (2 ^ k) I ms I')
    {O : Output} (hr : Reaches k β I' (ms.foldl Output.apply O)) : Reaches k β I O := by
  induction h generalizing O with
  | nil => exact hr
  | cons _ _ ih => exact (ih hr).of_scale

theorem register_finish {O : Output} (h1 : β O.bits.length = true)
    (h0 : ∀ i, O.bits.length < i → β i = false) : register k β O = 2 * 2 ^ k := by
  rw [register, h1, window_zero (fun i hi => h0 i (by omega)), Bool.toInt_true]
  ring

/-- **The end of the code.**  A one and zeros for ever lie in every settled interval,
whatever is pending. -/
theorem Reaches.of_finish {I : Interval} {O : Output} (hI : I.Settled (2 ^ k))
    (hs : ∀ i (h : i < O.bits.length), β i = O.bits[i]) (h1 : β O.bits.length = true)
    (h0 : ∀ i, O.bits.length < i → β i = false) : Reaches k β I O := by
  have hr := register_finish (k := k) h1 h0
  refine ⟨⟨hs, fun i _ => ?_⟩, ?_, ?_⟩
  · rw [h1, h0 _ (by omega)]
    rfl
  · rw [hr]
    exact hI.low_lt.le
  · rw [hr]
    exact hI.le_high

/-! ## The code, forwards -/

/-- **One move on**, if it was due. -/
theorem Reaches.scale {I : Interval} {O : Output} {m : Move} (h : Reaches k β I O)
    (hI : I.Inside (2 ^ k)) (hm : I.next (2 ^ k) = some m) :
    Reaches k β (I.scale (2 ^ k) m) (O.apply m) := by
  obtain ⟨⟨hs, hp⟩, hl, hh⟩ := h
  have h0 := toInt_nonneg (β (O.read k))
  have h1 := toInt_le_one (β (O.read k))
  cases m with
  | emit b =>
    have hnext := Interval.next_emit hI hm
    have hw0 := window_nonneg β (O.bits.length + 1 + O.pending) (k + 1)
    have hw1 := window_lt β (O.bits.length + 1 + O.pending) (k + 1)
    rw [pow_succ] at hw1
    rw [register] at hl hh
    -- the leading bit is that of the half
    have hb : β O.bits.length = b := by
      generalize (2 : Int) ^ k = q, β O.bits.length = c at *
      cases b <;> cases c <;>
        simp only [Bool.toInt_false, Bool.toInt_true, reduceCtorEq] at hnext hl hh ⊢ <;> omega
    refine ⟨⟨fun i hi => ?_, fun i hi => absurd hi (Nat.not_lt_zero i)⟩, ?_, ?_⟩
    · simp only [Output.apply, List.length_append, List.length_cons, List.length_replicate] at hi
      rcases Nat.lt_trichotomy i O.bits.length with hlt | rfl | hgt
      · simp only [Output.apply, List.getElem_append_left hlt]
        exact hs i hlt
      · simp [Output.apply, hb]
      · obtain ⟨j, rfl⟩ : ∃ j, i = O.bits.length + 1 + j := ⟨i - O.bits.length - 1, by omega⟩
        have e : O.bits.length + 1 + j - O.bits.length = j + 1 := by omega
        rw [hp j (by omega), hb]
        simp only [Output.apply]
        rw [List.getElem_append_right (by omega)]
        simp only [e, List.getElem_cons_succ, List.getElem_replicate]
    all_goals
      rw [register_emit]
      rw [hb] at hl hh
      simp only [Interval.scale]
      linarith
  | pend =>
    have hnext := Interval.next_pend hm
    have hv0 := window_nonneg β (O.bits.length + 2 + O.pending) k
    have hv1 := window_lt β (O.bits.length + 2 + O.pending) k
    obtain ⟨e, e'⟩ := register_pend (k := k) (β := β) O
    rw [e] at hl hh
    have hc : β (O.bits.length + 1 + O.pending) = !β O.bits.length := by
      generalize (2 : Int) ^ k = q, β O.bits.length = b,
        β (O.bits.length + 1 + O.pending) = c at *
      cases b <;> cases c <;>
        simp only [Bool.toInt_false, Bool.toInt_true, Bool.not_false, Bool.not_true,
          reduceCtorEq] at hl hh ⊢ <;> omega
    refine ⟨⟨hs, fun i hi => ?_⟩, ?_, ?_⟩
    · rcases Nat.lt_succ_iff_lt_or_eq.mp hi with hlt | rfl
      · exact hp i hlt
      · exact hc
    all_goals
      rw [e']
      rw [hc] at hl hh
      clear e e' hc hs hp
      generalize (2 : Int) ^ k = q, β O.bits.length = b at *
      cases b <;>
        simp only [Interval.scale, Bool.not_false, Bool.not_true, Bool.toInt_false,
          Bool.toInt_true] at hl hh ⊢ <;> omega

/-- **Moves on.** -/
theorem Reaches.moves {I I' : Interval} {ms : List Move} (h : Moves (2 ^ k) I ms I')
    (hI : I.Inside (2 ^ k)) {O : Output} (hr : Reaches k β I O) :
    Reaches k β I' (ms.foldl Output.apply O) := by
  induction h generalizing O with
  | nil => exact hr
  | cons hm _ ih => exact ih (hI.scale hm) (hr.scale hI hm)

/-! ## The decoder's word -/

/-- The word and the number of bits read. -/
structure Word where
  code : Int
  read : Nat
  deriving DecidableEq, Repr

/-- A settled bit leaves at the top; a pending one is taken out behind the top. -/
def Word.apply (k : Nat) (β : Nat → Bool) (w : Word) : Move → Word
  | .emit _ => ⟨2 * w.code % (4 * 2 ^ k) + (β w.read).toInt, w.read + 1⟩
  | .pend => ⟨w.code / (2 * 2 ^ k) % 2 * (2 * 2 ^ k) + 2 * w.code % (2 * 2 ^ k) +
      (β w.read).toInt, w.read + 1⟩

/-- **One move forward.** -/
theorem register_move (O : Output) (m : Move) :
    (⟨register k β O, O.read k⟩ : Word).apply k β m =
      ⟨register k β (O.apply m), (O.apply m).read k⟩ := by
  have hq : (0 : Int) < 2 ^ k := by positivity
  have hw0 := window_nonneg β (O.bits.length + 1 + O.pending) (k + 1)
  have hw1 := window_lt β (O.bits.length + 1 + O.pending) (k + 1)
  have hv0 := window_nonneg β (O.bits.length + 2 + O.pending) k
  have hv1 := window_lt β (O.bits.length + 2 + O.pending) k
  rw [pow_succ] at hw1
  cases m with
  | emit b =>
    have hread : O.read k + 1 = (O.apply (.emit b)).read k := by
      simp only [Output.read, Output.apply, List.length_append, List.length_cons,
        List.length_replicate]
      omega
    have hcode : 2 * register k β O % (4 * 2 ^ k) + (β (O.read k)).toInt =
        register k β (O.apply (.emit b)) := by
      rw [register_emit, register]
      generalize window β (O.bits.length + 1 + O.pending) (k + 1) = w at *
      have e : 2 * ((β O.bits.length).toInt * (2 * 2 ^ k) + w) =
          2 * w + (4 * 2 ^ k) * (β O.bits.length).toInt := by ring
      rw [e, Int.add_mul_emod_self_left, Int.emod_eq_of_lt (by omega) (by omega)]
    simp only [Word.apply, hread, hcode]
  | pend =>
    have hread : O.read k + 1 = (O.apply .pend).read k := by
      simp only [Output.read, Output.apply]
      omega
    obtain ⟨e, e'⟩ := register_pend (k := k) (β := β) O
    have htop : register k β O / (2 * 2 ^ k) % 2 = (β O.bits.length).toInt := by
      have hd : register k β O / (2 * 2 ^ k) = (β O.bits.length).toInt := by
        rw [register, Int.add_comm, Int.add_mul_ediv_right _ _ (by omega),
          Int.ediv_eq_zero_of_lt hw0 (by omega), Int.zero_add]
      rw [hd]
      cases β O.bits.length <;> rfl
    have hlow : 2 * register k β O % (2 * 2 ^ k) =
        2 * window β (O.bits.length + 2 + O.pending) k := by
      rw [e]
      generalize window β (O.bits.length + 2 + O.pending) k = v at *
      have e2 : 2 * ((β O.bits.length).toInt * (2 * 2 ^ k) +
          ((β (O.bits.length + 1 + O.pending)).toInt * 2 ^ k + v)) =
          2 * v + (2 * 2 ^ k) * (2 * (β O.bits.length).toInt +
            (β (O.bits.length + 1 + O.pending)).toInt) := by ring
      rw [e2, Int.add_mul_emod_self_left, Int.emod_eq_of_lt (by omega) (by omega)]
    simp only [Word.apply, hread, htop, hlow, e']
    rw [Int.add_assoc]

/-! ## Slots -/

/-- Where the cumulative frequency `s` of `total` falls in a range of `r` points. -/
def slot (r total s : Int) : Int := s * r / total

theorem slot_nonneg {r total s : Int} (hr : 0 ≤ r) (ht : 0 < total) (hs : 0 ≤ s) :
    0 ≤ slot r total s := Int.ediv_nonneg (Int.mul_nonneg hs hr) ht.le

theorem slot_mono {r total s t : Int} (hr : 0 ≤ r) (ht : 0 < total) (h : s ≤ t) :
    slot r total s ≤ slot r total t :=
  Int.ediv_le_ediv ht (Int.mul_le_mul_of_nonneg_right h hr)

theorem slot_total {r total : Int} (ht : 0 < total) : slot r total total = r :=
  Int.mul_ediv_cancel_left r ht.ne'

theorem slot_le {r total s : Int} (hr : 0 ≤ r) (ht : 0 < total) (hs : s ≤ total) :
    slot r total s ≤ r := (slot_mono hr ht hs).trans_eq (slot_total ht)

/-- In a range of at least `total` points every symbol has a slot of its own. -/
theorem slot_lt_slot {r total s t : Int} (ht : 0 < total) (hr : total ≤ r) (h : s < t) :
    slot r total s < slot r total t := by
  have h1 : slot r total s + 1 = (s * r + 1 * total) / total := by
    rw [slot, Int.add_mul_ediv_right _ _ ht.ne']
  have h2 : s * r + 1 * total ≤ t * r := by nlinarith
  have h3 : slot r total s + 1 ≤ slot r total t := by
    rw [h1]
    exact Int.ediv_le_ediv ht h2
  omega

/-- One point too few: exactly the first unit of frequency has no slot. -/
theorem slot_lt_slot_iff {r s t : Int} (hr : 0 < r) (hs : 0 ≤ s) (h : s < t) (ht : t ≤ r + 1) :
    slot r (r + 1) s < slot r (r + 1) t ↔ ¬ (s = 0 ∧ t = 1) := by
  have hpos : ∀ x, 0 < x → x ≤ r + 1 → slot r (r + 1) x = x - 1 := by
    intro x h0 h1
    have e : x * r = (r + 1 - x) + (r + 1) * (x - 1) := by ring
    rw [slot, e, Int.add_mul_ediv_left _ _ (by omega), Int.ediv_eq_zero_of_lt (by omega) (by omega),
      Int.zero_add]
  rw [hpos t (by omega) ht]
  by_cases h0 : s = 0
  · subst h0
    rw [slot, Int.zero_mul, Int.zero_ediv]
    omega
  · rw [hpos s (by omega) (by omega)]
    omega

/-- One point more moves the end of a slot unless the remainder leaves room. -/
theorem slot_succ_eq_iff {r total s : Int} (ht : 0 < total) (hs : 0 ≤ s) :
    slot (r + 1) total s = slot r total s ↔ s * r % total + s < total := by
  have hm0 := Int.emod_nonneg (s * r) ht.ne'
  have hm1 := Int.emod_lt_of_pos (s * r) ht
  have e : s * (r + 1) = (s * r % total + s) + total * (s * r / total) := by
    have := Int.emod_add_mul_ediv (s * r) total
    linarith
  rw [slot, slot, e, Int.add_mul_ediv_left _ _ ht.ne']
  constructor
  · intro hz
    have hq : (s * r % total + s) / total = 0 := by omega
    by_contra hge
    have := Int.le_ediv_of_mul_le ht (show 1 * total ≤ s * r % total + s by omega)
    omega
  · intro hlt
    rw [Int.ediv_eq_zero_of_lt (by omega) hlt, Int.zero_add]

/-- The slot that holds the offset `o` is found from the frequency scale. -/
theorem slot_le_iff {r total s o : Int} (hr : 0 < r) (ht : 0 < total) :
    slot r total s ≤ o ↔ s ≤ ((o + 1) * total - 1) / r := by
  rw [Int.le_ediv_iff_mul_le hr, slot]
  constructor
  · intro h
    have := Int.lt_ediv_add_one_mul_self (s * r) ht
    nlinarith
  · intro h
    exact Int.lt_add_one_iff.mp (Int.ediv_lt_of_lt_mul ht (by linarith))

/-- A slot is not shorter than its share of the range, but for the rounding. -/
theorem lt_slot_sub_slot {r total s t : Int} (ht : 0 < total) :
    (t - s) * r - total < (slot r total t - slot r total s) * total := by
  have hlow := Int.ediv_mul_le (s * r) ht.ne'
  have hhigh := Int.lt_ediv_add_one_mul_self (t * r) ht
  rw [slot, slot]
  linarith

/-! ## How long the output gets -/

/-- The points of an interval. -/
def Interval.width (I : Interval) : Int := I.high - I.low + 1

/-- The bits written, and those that are owed. -/
def Output.size (O : Output) : Nat := O.bits.length + O.pending

theorem Output.size_apply (O : Output) (m : Move) : (O.apply m).size = O.size + 1 := by
  cases m with
  | emit b =>
    simp only [Output.apply, Output.size, List.length_append, List.length_cons,
      List.length_replicate]
    omega
  | pend => rfl

theorem Output.size_foldl (O : Output) (ms : List Move) :
    (ms.foldl Output.apply O).size = O.size + ms.length := by
  induction ms generalizing O with
  | nil => rfl
  | cons m ms ih =>
    rw [List.foldl_cons, ih, Output.size_apply, List.length_cons]
    omega

/-- Every bit doubles the number of points. -/
theorem Moves.width {q : Int} {I I' : Interval} {ms : List Move} (h : Moves q I ms I') :
    I'.width = 2 ^ ms.length * I.width := by
  induction h with
  | nil => simp
  | @cons I _ m ms _ _ ih =>
    rw [ih, List.length_cons, pow_succ, mul_assoc]
    exact congrArg _ (Interval.scale_width q I m)

/-- From the first state to the second, the bits cost at most the points that were given up: a
share of `f` in `t` of them. -/
def Cost (f t : Int) (I : Interval) (O : Output) (I' : Interval) (O' : Output) : Prop :=
  2 ^ O'.size * f * I.width ≤ 2 ^ O.size * t * I'.width

theorem Cost.refl (I : Interval) (O : Output) : Cost 1 1 I O I O := le_refl _

/-- A narrowing to that share, and moves. -/
theorem Cost.of_moves {f t q : Int} {I J I' : Interval} {O : Output} {ms : List Move}
    (hnarrow : f * I.width ≤ t * J.width) (h : Moves q J ms I') :
    Cost f t I O I' (ms.foldl Output.apply O) := by
  have hpow : (0 : Int) ≤ 2 ^ O.size * 2 ^ ms.length := by positivity
  have := mul_le_mul_of_nonneg_left hnarrow hpow
  rw [Cost, Output.size_foldl, h.width, pow_add]
  linarith

/-- **Costs add up** along a run. -/
theorem Cost.trans {f t f' t' : Int} {I I' I'' : Interval} {O O' O'' : Output}
    (h : Cost f t I O I' O') (h' : Cost f' t' I' O' I'' O'') (hf : 0 ≤ f') (ht : 0 ≤ t) :
    Cost (f * f') (t * t') I O I'' O'' := by
  have h1 := mul_le_mul_of_nonneg_left h (show 0 ≤ 2 ^ O''.size * f' by positivity)
  have h2 := mul_le_mul_of_nonneg_left h' (show 0 ≤ 2 ^ O.size * t by positivity)
  refine le_of_mul_le_mul_left (a := 2 ^ O'.size) ?_ (by positivity)
  linarith

/-! ## Above the low end -/

variable {γ : Nat → Bool}

/-- `β` comes before `γ`: it has a zero where they differ first. -/
def Before (β γ : Nat → Bool) : Prop := ∃ i, (∀ j < i, β j = γ j) ∧ β i = false ∧ γ i = true

theorem window_ext {p n : Nat} (h : window β p n = window γ p n) :
    ∀ j < n, β (p + j) = γ (p + j) := by
  induction n with
  | zero => exact fun j hj => absurd hj (Nat.not_lt_zero j)
  | succ n ih =>
    intro j hj
    simp only [window] at h
    have hlast : β (p + n) = γ (p + n) := by
      revert h
      cases β (p + n) <;> cases γ (p + n) <;> simp <;> omega
    rcases Nat.lt_succ_iff_lt_or_eq.mp hj with hlt | rfl
    · exact ih (by rw [hlast] at h; omega) j hlt
    · exact hlast

/-- Windows compare as their bits do. -/
theorem before_of_window {p n : Nat} (hpre : ∀ j < p, β j = γ j)
    (h : window β p n < window γ p n) : Before β γ := by
  induction n with
  | zero => exact absurd h (lt_irrefl _)
  | succ n ih =>
    simp only [window] at h
    have hβ := toInt_nonneg (β (p + n))
    have hγ := toInt_le_one (γ (p + n))
    rcases lt_or_eq_of_le (show window β p n ≤ window γ p n by omega) with hlt | heq
    · exact ih hlt
    · refine ⟨p + n, fun j hj => ?_, ?_⟩
      · rcases Nat.lt_or_ge j p with hjp | hjp
        · exact hpre j hjp
        · have := window_ext heq (j - p) (by omega)
          rwa [Nat.add_sub_cancel' hjp] at this
      · rw [heq] at h
        revert h
        cases β (p + n) <;> cases γ (p + n) <;> simp

/-- **Order.**  Codes that lie in two intervals, one below the other, are in that order. -/
theorem Reaches.before {I J : Interval} {O : Output} (hβ : Reaches k β I O)
    (hγ : Reaches k γ J O) (h : I.high < J.low) : Before β γ := by
  have hlt : register k β O < register k γ O := (hβ.le_high.trans_lt h).trans_le hγ.low_le
  have hpre : ∀ j < O.bits.length, β j = γ j := fun j hj =>
    (hβ.settled j hj).trans (hγ.settled j hj).symm
  have hw0 := window_nonneg γ (O.bits.length + 1 + O.pending) (k + 1)
  have hw1 := window_lt γ (O.bits.length + 1 + O.pending) (k + 1)
  have hv0 := window_nonneg β (O.bits.length + 1 + O.pending) (k + 1)
  rw [pow_succ] at hw1
  unfold register at hlt
  by_cases hb : β O.bits.length = γ O.bits.length
  · -- the pending bits are the same as well
    refine before_of_window (p := O.bits.length + 1 + O.pending) (n := k + 1) (fun j hj => ?_) ?_
    · rcases Nat.lt_trichotomy j O.bits.length with hjl | rfl | hjl
      · exact hpre j hjl
      · exact hb
      · have hβj := hβ.pending (j - O.bits.length - 1) (by omega)
        have hγj := hγ.pending (j - O.bits.length - 1) (by omega)
        rw [show O.bits.length + 1 + (j - O.bits.length - 1) = j by omega] at hβj hγj
        rw [hβj, hγj, hb]
    · rw [hb] at hlt
      omega
  · refine ⟨O.bits.length, hpre, ?_⟩
    revert hlt hb
    cases β O.bits.length <;> cases γ O.bits.length <;> simp
    omega

end DeepSpace.Renormalisation
