import DeepSpace.CoderInvariant
import DeepSpace.WhileLoop

/-!
# The loops of `update`

How often they turn, from any `m_low` and `m_high`, also from an interval that is empty or
inverted.

* `shiftLoop_runs`: the first loop ends after at most 32 rounds, since it shifts zeros into
  `m_low` and ones into `m_high`;
* `underflowLoop_runs`: the second one after at most 31;
* `ShiftRuns.le`, `UnderflowRuns.le`: and there is no other way for them to run;
* `renormalise_ok`: what they leave.
-/

namespace DeepSpace.ArithmeticCoding

open DeepSpace.WhileLoop

variable {δ : Type} (v : Virtual δ)

/-! ## The loops as the source has them -/

def ShiftGuard (c : Coder δ) : Prop := (c.low.xor c.high).land TOP_MASK = 0

instance (c : Coder δ) : Decidable (ShiftGuard c) := inferInstanceAs (Decidable (_ = _))

def UnderflowGuard (c : Coder δ) : Prop := (c.low.land (~~~c.high)).land SECOND_MASK ≠ 0

instance (c : Coder δ) : Decidable (UnderflowGuard c) := inferInstanceAs (Decidable (_ ≠ _))

def shiftBody (c : Coder δ) : Result (Coder δ) :=
  (v.shift c).andThen fun c => .ok { c with
    low := (c.low <<< (1 : Nat)).land MASK
    high := ((c.high <<< (1 : Nat)).land MASK).lor 1 }

def underflowBody (c : Coder δ) : Result (Coder δ) :=
  (v.underflow c).andThen fun c => .ok { c with
    low := (c.low <<< (1 : Nat)).land (MASK >>> (1 : Nat))
    high := (((c.high <<< (1 : Nat)).land (MASK >>> (1 : Nat))).lor TOP_MASK).lor 1 }

/-- Anything but `ok` leaves a loop. -/
def Result.toExcept {σ : Type} : Result σ → Except (Result σ) σ
  | .ok s => .ok s
  | r => .error r

/-- The first loop, from `c`. -/
def ShiftRuns (n : Nat) (c : Coder δ) (r : Except (Result (Coder δ)) (Coder δ)) : Prop :=
  Runs ShiftGuard (fun c => (shiftBody v c).toExcept) n c r

/-- The second loop, from `c`. -/
def UnderflowRuns (n : Nat) (c : Coder δ) (r : Except (Result (Coder δ)) (Coder δ)) : Prop :=
  Runs UnderflowGuard (fun c => (underflowBody v c).toExcept) n c r

/-- The virtual methods leave `m_low` and `m_high` alone. -/
structure Virtual.Keeps (v : Virtual δ) : Prop where
  shift : ∀ c c', v.shift c = .ok c' → c'.low = c.low ∧ c'.high = c.high
  underflow : ∀ c c', v.underflow c = .ok c' → c'.low = c.low ∧ c'.high = c.high

/-! ## One round -/

theorem toExcept_eq_ok {σ : Type} {r : Result σ} {s : σ} : r.toExcept = .ok s ↔ r = .ok s := by
  cases r with
  | ok t => exact ⟨fun h => by cases h; rfl, fun h => by cases h; rfl⟩
  | threw message t => exact ⟨fun h => (by cases h), fun h => (by cases h)⟩
  | undefined => exact ⟨fun h => (by cases h), fun h => (by cases h)⟩

theorem encoder_keeps : ArithmeticEncoder.virtual.Keeps where
  shift c c' h := by
    obtain ⟨e, he, h⟩ := andThen_eq_ok h
    obtain ⟨s, -, rfl⟩ := within_eq_ok he
    cases h
    exact ⟨rfl, rfl⟩
  underflow c c' h := by
    rw [virtual_underflow, ArithmeticEncoder.underflow] at h
    split at h
    · cases h
      exact ⟨rfl, rfl⟩
    · cases h

variable {v}

theorem shiftBody_ok (hv : v.Keeps) {c c' : Coder δ} (h : shiftBody v c = .ok c') :
    c'.low = 2 * c.low % 2 ^ 32 ∧ c'.high = 2 * c.high % 2 ^ 32 + 1 := by
  obtain ⟨c₁, hs, h⟩ := andThen_eq_ok h
  obtain ⟨hl, hh⟩ := hv.shift c c₁ hs
  cases h
  exact ⟨by rw [shift_low, hl], by rw [shift_high, hh]⟩

theorem underflowBody_ok (hv : v.Keeps) {c c' : Coder δ} (h : underflowBody v c = .ok c') :
    c'.low = 2 * c.low % 2 ^ 31 ∧ c'.high = 2 * c.high % 2 ^ 31 + 2 ^ 31 + 1 := by
  obtain ⟨c₁, hs, h⟩ := andThen_eq_ok h
  obtain ⟨hl, hh⟩ := hv.underflow c c₁ hs
  cases h
  exact ⟨by rw [underflow_low, hl], by rw [underflow_high, hh]⟩

theorem shiftLoop_succ (n : Nat) (c : Coder δ) : shiftLoop v (n + 1) c =
    if ShiftGuard c then (shiftBody v c).andThen (shiftLoop v n) else .ok c := by
  rw [shiftLoop, shiftBody]
  cases v.shift c <;> rfl

theorem underflowLoop_succ (n : Nat) (c : Coder δ) : underflowLoop v (n + 1) c =
    if UnderflowGuard c then (underflowBody v c).andThen (underflowLoop v n) else .ok c := by
  rw [underflowLoop, underflowBody]
  cases v.underflow c <;> rfl

/-- A recursion that counts the rounds down is the loop. -/
theorem toExcept_eq_rounds {σ : Type} {guard : σ → Prop} [DecidablePred guard]
    {body : σ → Result σ} {loop : Nat → σ → Result σ} (hzero : ∀ s, loop 0 s = .ok s)
    (hsucc : ∀ n s, loop (n + 1) s = if guard s then (body s).andThen (loop n) else .ok s)
    (n : Nat) (s : σ) :
    (loop n s).toExcept = rounds guard (fun s => (body s).toExcept) n s := by
  induction n generalizing s with
  | zero =>
    rw [hzero]
    rfl
  | succ n ih =>
    rw [hsucc, rounds]
    by_cases hg : guard s
    · rw [if_pos hg, if_pos hg]
      cases body s with
      | ok t => exact ih t
      | threw message t => rfl
      | undefined => rfl
    · rw [if_neg hg, if_neg hg]
      rfl

theorem shiftLoop_toExcept (n : Nat) (c : Coder δ) :
    (shiftLoop v n c).toExcept = rounds ShiftGuard (fun c => (shiftBody v c).toExcept) n c :=
  toExcept_eq_rounds (fun _ => rfl) shiftLoop_succ n c

theorem underflowLoop_toExcept (n : Nat) (c : Coder δ) :
    (underflowLoop v n c).toExcept =
      rounds UnderflowGuard (fun c => (underflowBody v c).toExcept) n c :=
  toExcept_eq_rounds (fun _ => rfl) underflowLoop_succ n c

/-! ## How many rounds -/

theorem dvd_emod_add {m n x y : Int} (hm : m ∣ n) (h : m ∣ x + y) : m ∣ x % n + y := by
  have e : x % n + y = x + y - n * (x / n) := by
    rw [Int.emod_def]
    ring
  rw [e]
  exact Int.dvd_sub h (hm.mul_right _)

theorem two_pow_succ_dvd {j : Nat} {x : Int} (h : (2 : Int) ^ j ∣ x) :
    (2 : Int) ^ (j + 1) ∣ 2 * x := by
  rw [pow_succ, mul_comm]
  exact mul_dvd_mul_left 2 h

/-- `k` more rounds at most: `m_low` ends in `32 - k` zeros, and `m_high` in as many ones. -/
def ShiftsLeft (k : Nat) (c : Coder δ) : Prop :=
  k ≤ 32 ∧ (2 : Int) ^ (32 - k) ∣ c.low ∧ (2 : Int) ^ (32 - k) ∣ c.high + 1

/-- `k` more rounds at most: `m_low` ends in `31 - k` zeros. -/
def UnderflowsLeft (k : Nat) (c : Coder δ) : Prop := k ≤ 31 ∧ (2 : Int) ^ (31 - k) ∣ c.low

theorem ShiftsLeft.not_guard {c : Coder δ} (h : ShiftsLeft 0 c) : ¬ ShiftGuard c := by
  obtain ⟨-, hl, hh⟩ := h
  rw [ShiftGuard, top_eq_zero_iff]
  omega

theorem ShiftsLeft.next (hv : v.Keeps) {k : Nat} {c c' : Coder δ} (h : ShiftsLeft (k + 1) c)
    (hb : shiftBody v c = .ok c') : ShiftsLeft k c' := by
  obtain ⟨hk, hl, hh⟩ := h
  obtain ⟨hl', hh'⟩ := shiftBody_ok hv hb
  have e : 32 - k = 32 - (k + 1) + 1 := by omega
  have hw : (2 : Int) ^ (32 - (k + 1) + 1) ∣ 2 ^ 32 := pow_dvd_pow 2 (by omega)
  refine ⟨by omega, ?_, ?_⟩
  · rw [hl', e, ← Int.add_zero (_ % _)]
    exact dvd_emod_add hw (by rw [Int.add_zero]; exact two_pow_succ_dvd hl)
  · rw [hh', e, Int.add_assoc]
    refine dvd_emod_add hw ?_
    rw [show 2 * c.high + (1 + 1) = 2 * (c.high + 1) by ring]
    exact two_pow_succ_dvd hh

theorem shiftsLeft (c : Coder δ) : ShiftsLeft 32 c := ⟨le_rfl, one_dvd _, one_dvd _⟩

theorem UnderflowsLeft.not_guard {c : Coder δ} (h : UnderflowsLeft 0 c) : ¬ UnderflowGuard c := by
  obtain ⟨-, hl⟩ := h
  rw [UnderflowGuard, second_ne_zero_iff]
  omega

theorem UnderflowsLeft.next (hv : v.Keeps) {k : Nat} {c c' : Coder δ}
    (h : UnderflowsLeft (k + 1) c) (hb : underflowBody v c = .ok c') : UnderflowsLeft k c' := by
  obtain ⟨hk, hl⟩ := h
  obtain ⟨hl', -⟩ := underflowBody_ok hv hb
  have e : 31 - k = 31 - (k + 1) + 1 := by omega
  refine ⟨by omega, ?_⟩
  rw [hl', e, ← Int.add_zero (_ % _)]
  exact dvd_emod_add (pow_dvd_pow 2 (by omega)) (by rw [Int.add_zero]; exact two_pow_succ_dvd hl)

theorem underflowsLeft (c : Coder δ) : UnderflowsLeft 31 c := ⟨le_rfl, one_dvd _⟩

/-- **The first loop**, from any interval. -/
theorem shiftLoop_runs (hv : v.Keeps) (c : Coder δ) :
    ∃ n ≤ 32, ShiftRuns v n c (shiftLoop v STATE_SIZE c).toExcept := by
  obtain ⟨n, hn, r, hr⟩ := exists_runs (fun _ h => ShiftsLeft.not_guard h)
    (fun _ _ _ h _ hb => ShiftsLeft.next hv h (toExcept_eq_ok.mp hb)) 32 c (shiftsLeft c)
  refine ⟨n, hn, ?_⟩
  rw [shiftLoop_toExcept, hr.rounds_eq (show n ≤ STATE_SIZE from hn)]
  exact hr

/-- **The second loop**, from any interval. -/
theorem underflowLoop_runs (hv : v.Keeps) (c : Coder δ) :
    ∃ n ≤ 31, UnderflowRuns v n c (underflowLoop v STATE_SIZE c).toExcept := by
  obtain ⟨n, hn, r, hr⟩ := exists_runs (fun _ h => UnderflowsLeft.not_guard h)
    (fun _ _ _ h _ hb => UnderflowsLeft.next hv h (toExcept_eq_ok.mp hb)) 31 c (underflowsLeft c)
  refine ⟨n, hn, ?_⟩
  rw [underflowLoop_toExcept, hr.rounds_eq (show n ≤ STATE_SIZE from hn.trans (by decide))]
  exact hr

/-- However the first loop ends, it turned at most 32 times. -/
theorem ShiftRuns.le (hv : v.Keeps) {n : Nat} {c : Coder δ}
    {r : Except (Result (Coder δ)) (Coder δ)} (h : ShiftRuns v n c r) : n ≤ 32 := by
  obtain ⟨m, hm, hr⟩ := shiftLoop_runs hv c
  obtain ⟨rfl, -⟩ := Runs.functional h hr
  exact hm

theorem UnderflowRuns.le (hv : v.Keeps) {n : Nat} {c : Coder δ}
    {r : Except (Result (Coder δ)) (Coder δ)} (h : UnderflowRuns v n c r) : n ≤ 31 := by
  obtain ⟨m, hm, hr⟩ := underflowLoop_runs hv c
  obtain ⟨rfl, -⟩ := Runs.functional h hr
  exact hm

/-! ## What the loops leave -/

/-- In different halves of the word, also where they stand outside it. -/
def Split (c : Coder δ) : Prop := c.low / 2 ^ 31 % 2 ≠ c.high / 2 ^ 31 % 2

/-- Both ends are 32-bit numbers. -/
structure InWord (c : Coder δ) : Prop where
  low_nonneg : 0 ≤ c.low
  low_lt : c.low < 2 ^ 32
  high_nonneg : 0 ≤ c.high
  high_lt : c.high < 2 ^ 32

/-- **Renormalisation** leaves an interval alone or brings it into the word. -/
theorem renormalise_ok (hv : v.Keeps) {c c' : Coder δ} (h : renormalise v c = .ok c') :
    Split c' ∧ (c'.low = c.low ∧ c'.high = c.high ∨ InWord c') := by
  obtain ⟨c₁, hs, hu⟩ := andThen_eq_ok h
  obtain ⟨n, -, hn⟩ := shiftLoop_runs hv c
  obtain ⟨m, -, hm⟩ := underflowLoop_runs hv c₁
  rw [hs] at hn
  rw [hu] at hm
  -- the invariant of the first loop
  obtain ⟨h₁, hg⟩ := Runs.invariant
    (P := fun c₁ => c₁.low = c.low ∧ c₁.high = c.high ∨ InWord c₁) (fun s t _ hb _ => by
      obtain ⟨hl, hh⟩ := shiftBody_ok hv (toExcept_eq_ok.mp hb)
      exact .inr ⟨by omega, by omega, by omega, by omega⟩) hn (.inl ⟨rfl, rfl⟩)
  rw [ShiftGuard, top_eq_zero_iff] at hg
  -- and of the second
  obtain ⟨h₂, -⟩ := Runs.invariant
    (P := fun c' => Split c' ∧ (c'.low = c.low ∧ c'.high = c.high ∨ InWord c'))
    (fun s t _ hb _ => by
      obtain ⟨hl, hh⟩ := underflowBody_ok hv (toExcept_eq_ok.mp hb)
      have hword : InWord t := ⟨by omega, by omega, by omega, by omega⟩
      refine ⟨?_, .inr hword⟩
      unfold Split
      omega) hm ⟨hg, h₁⟩
  exact h₂

end DeepSpace.ArithmeticCoding
