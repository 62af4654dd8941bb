import Mathlib.Data.Int.Bitwise
import Mathlib.Data.Nat.Bitwise
import Mathlib.Data.Nat.Size
import Mathlib.Tactic.Positivity
import Mathlib.Tactic.Ring

/-!
# Masks on integers

What the bit operators do to an integer, as arithmetic:

* `testBit_eq`: a bit is the parity of a quotient, also below zero;
* `land_two_pow`, `land_mask`: a one-bit mask and a mask of ones;
* `lor_two_pow`, `lor_bit`: setting a bit that is clear.
-/

namespace DeepSpace.Bitwise

/-! ## Bits -/

theorem negSucc_ediv_two_pow (m k : Nat) :
    (Int.negSucc m) / (2 : Int) ^ k = Int.negSucc (m / 2 ^ k) := by
  obtain ⟨b, hb⟩ := Nat.exists_eq_succ_of_ne_zero (pow_ne_zero k two_ne_zero : 2 ^ k ≠ 0)
  have h : (2 : Int) ^ k = ((b + 1 : Nat) : Int) := by rw [← Nat.succ_eq_add_one, ← hb]; norm_num
  rw [h, hb]
  exact Int.negSucc_ediv_ofNat_succ

/-- A bit is the parity of a quotient. -/
theorem testBit_eq (x : Int) (k : Nat) : x.testBit k = decide (x / 2 ^ k % 2 = 1) := by
  cases x with
  | ofNat m =>
    have h : (Int.ofNat m / 2 ^ k % 2 = 1) ↔ m / 2 ^ k % 2 = 1 := by
      have e : Int.ofNat m / 2 ^ k % 2 = ((m / 2 ^ k % 2 : Nat) : Int) := by simp
      rw [e]
      omega
    rw [decide_eq_decide.mpr h]
    exact Nat.testBit_eq_decide_div_mod_eq
  | negSucc m =>
    have h : (Int.negSucc m / 2 ^ k % 2 = 1) ↔ ¬ m / 2 ^ k % 2 = 1 := by
      rw [negSucc_ediv_two_pow]
      omega
    rw [decide_eq_decide.mpr h, decide_not]
    exact congrArg Bool.not Nat.testBit_eq_decide_div_mod_eq

theorem eq_of_testBit_eq {x y : Int} (h : ∀ k, x.testBit k = y.testBit k) : x = y := by
  -- a natural number and a negative one differ in every high bit
  have mixed : ∀ m n : Nat, ¬ ∀ k, m.testBit k = !n.testBit k := by
    intro m n hk
    have hm := Nat.testBit_lt_two_pow (m.lt_two_pow_self.trans_le
      (Nat.pow_le_pow_right (by decide) (Nat.le_add_right m n)))
    have hn := Nat.testBit_lt_two_pow (n.lt_two_pow_self.trans_le
      (Nat.pow_le_pow_right (by decide) (Nat.le_add_left n m)))
    have := hk (m + n)
    rw [hm, hn] at this
    exact Bool.noConfusion this
  cases x with
  | ofNat m =>
    cases y with
    | ofNat n => exact congrArg Int.ofNat (Nat.eq_of_testBit_eq h)
    | negSucc n => exact absurd h (mixed m n)
  | negSucc m =>
    cases y with
    | ofNat n => exact absurd (fun k => (h k).symm) (mixed n m)
    | negSucc n =>
      exact congrArg Int.negSucc (Nat.eq_of_testBit_eq fun k => Bool.not_inj (h k))

theorem zero_testBit (k : Nat) : (0 : Int).testBit k = false := Nat.zero_testBit k

theorem testBit_two_pow (i k : Nat) : ((2 : Int) ^ i).testBit k = decide (i = k) := by
  have h : (2 : Int) ^ i = ((2 ^ i : Nat) : Int) := by norm_num
  rw [h]
  exact Nat.testBit_two_pow

/-! ## And -/

theorem land_two_pow (x : Int) (i : Nat) :
    x.land (2 ^ i) = if x.testBit i then 2 ^ i else 0 := by
  apply eq_of_testBit_eq
  intro k
  rw [Int.testBit_land, testBit_two_pow]
  by_cases hk : i = k
  · subst hk
    cases h : x.testBit i
    · simp [zero_testBit]
    · simp [testBit_two_pow]
  · cases x.testBit i
    · simp [hk, zero_testBit]
    · simp [hk, testBit_two_pow]

theorem land_two_pow_eq_zero (x : Int) (i : Nat) : x.land (2 ^ i) = 0 ↔ x / 2 ^ i % 2 = 0 := by
  rw [land_two_pow, testBit_eq]
  have hp : (2 : Int) ^ i ≠ 0 := by positivity
  have h2 := Int.emod_two_eq_zero_or_one (x / 2 ^ i)
  rcases h2 with h | h <;> simp [h, hp]

/-- A mask of `i` ones keeps the remainder. -/
theorem land_mask (x : Int) (i : Nat) : x.land (2 ^ i - 1) = x % 2 ^ i := by
  apply eq_of_testBit_eq
  intro k
  have hm : ((2 : Int) ^ i - 1).testBit k = decide (k < i) := by
    have e : (2 : Int) ^ i - 1 = ((2 ^ i - 1 : Nat) : Int) := by
      rw [Nat.cast_sub Nat.one_le_two_pow]; norm_num
    rw [e]
    exact Nat.testBit_two_pow_sub_one i k
  rw [Int.testBit_land, hm, testBit_eq, testBit_eq]
  by_cases hk : k < i
  · -- bit `k` of the remainder
    obtain ⟨j, rfl⟩ := Nat.exists_eq_add_of_lt hk
    have hd : (x % 2 ^ (k + j + 1)) / 2 ^ k % 2 = x / 2 ^ k % 2 := by
      have hpow : (2 : Int) ^ (k + j + 1) = 2 ^ k * (2 * 2 ^ j) := by ring
      have hx : x % 2 ^ (k + j + 1) = x + 2 ^ k * (2 * (-(2 ^ j * (x / 2 ^ (k + j + 1))))) := by
        rw [Int.emod_def, hpow]; ring
      rw [hx, Int.add_mul_ediv_left _ _ (by positivity), Int.add_mul_emod_self_left]
    rw [hd]
    simp [hk]
  · have hz : x % 2 ^ i / 2 ^ k = 0 := by
      refine Int.ediv_eq_zero_of_lt (Int.emod_nonneg _ (by positivity)) ?_
      exact (Int.emod_lt_of_pos _ (by positivity)).trans_le
        (pow_le_pow_right₀ (by decide) (not_lt.mp hk))
    rw [hz]
    simp [hk]

/-! ## Or -/

theorem lor_comm (x y : Int) : x.lor y = y.lor x := by
  apply eq_of_testBit_eq
  intro k
  rw [Int.testBit_lor, Int.testBit_lor, Bool.or_comm]

/-- Setting bit `i` of a number below it. -/
theorem lor_two_pow {x : Int} (i : Nat) (hx : 0 ≤ x) (h : x < 2 ^ i) :
    x.lor (2 ^ i) = x + 2 ^ i := by
  obtain ⟨m, rfl⟩ := Int.eq_ofNat_of_zero_le hx
  have hm : m < 2 ^ i := by exact_mod_cast h
  have hor := Nat.two_pow_add_eq_or_of_lt hm 1
  rw [Nat.mul_one, Nat.or_comm, Nat.add_comm] at hor
  have e : (2 : Int) ^ i = ((2 ^ i : Nat) : Int) := by norm_num
  rw [e]
  exact congrArg Int.ofNat hor.symm

/-- Setting bit 0 of an even number. -/
theorem lor_bit {x b : Int} (hx : 0 ≤ x) (he : x % 2 = 0) (hb : b = 0 ∨ b = 1) :
    x.lor b = x + b := by
  obtain ⟨m, rfl⟩ := Int.eq_ofNat_of_zero_le hx
  obtain ⟨a, rfl⟩ : ∃ a, m = 2 ^ 1 * a := ⟨m / 2, by omega⟩
  rcases hb with rfl | rfl
  · exact congrArg Int.ofNat (Nat.two_pow_add_eq_or_of_lt (i := 1) (by decide) a).symm
  · exact congrArg Int.ofNat (Nat.two_pow_add_eq_or_of_lt (i := 1) (by decide) a).symm

end DeepSpace.Bitwise
