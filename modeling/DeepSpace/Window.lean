import Mathlib.Algebra.GroupWithZero.Nat
import Mathlib.Tactic.TypeStar

/-!
# A buffer through a window

`R` cells of one memory are copied to another one, in chunks of `D` cells, the last
one shorter.  All chunks go to, or come from, the same window of `D` cells:

* `fill_window`, `fill_frame`: the window holds what was copied to it last;
* `fill_lastWriter`: which cell of the buffer that is, for each cell of the window;
* `drain_place`, `drain_frame`: chunks taken from one window repeat it;
* `agree_iff`: so a buffer survives both iff its cells repeat every `D`.
-/

namespace DeepSpace.Window

variable {α : Type*}

/-! ## One copy -/

/-- `len` cells of `src` from `start` on, written to `dst` from `into` on. -/
def copy (src : Nat → α) (start into len : Nat) (dst : Nat → α) : Nat → α :=
  fun a => if into ≤ a ∧ a < into + len then src (start + (a - into)) else dst a

theorem copy_inside (src dst : Nat → α) (start into : Nat) {len i : Nat} (h : i < len) :
    copy src start into len dst (into + i) = src (start + i) := by
  have hin : into ≤ into + i ∧ into + i < into + len := by omega
  rw [copy, if_pos hin, Nat.add_sub_cancel_left]

theorem copy_outside (src dst : Nat → α) (start : Nat) {into len a : Nat}
    (h : a < into ∨ into + len ≤ a) : copy src start into len dst a = dst a :=
  if_neg (by omega)

/-! ## Chunks -/

/-- The length of chunk `k`. -/
def chunk (D R k : Nat) : Nat := min D (R - D * k)

/-- Chunks lie one behind the other. -/
theorem sum_chunk (D R n : Nat) : ((List.range n).map (chunk D R)).sum = min (D * n) R := by
  induction n with
  | zero => exact (Nat.zero_min R).symm
  | succ n ih =>
    rw [List.range_succ, List.map_append, List.sum_append, ih, Nat.mul_succ]
    simp only [List.map_cons, List.map_nil, List.sum_cons, List.sum_nil, chunk]
    omega

variable (D R : Nat) (src : Nat → α) (start win out : Nat) (dst : Nat → α)

/-- `m` chunks of the buffer at `start`, all written to the window. -/
def fill : Nat → Nat → α
  | 0 => dst
  | m + 1 => copy src (start + D * m) win (chunk D R m) (fill m)

/-- `m` chunks, all read from the window, and written one behind the other. -/
def drain : Nat → Nat → α
  | 0 => dst
  | m + 1 => copy src win (out + D * m) (chunk D R m) (drain m)

variable {D R}

theorem mul_add_mod_of_lt {m i : Nat} (hi : i < D) : (D * m + i) % D = i := by
  rw [Nat.mul_add_mod, Nat.mod_eq_of_lt hi]

/-- **The last writer.**  A cell that no later chunk reaches is in the window. -/
theorem fill_window (m j : Nat) (hj : j < min (D * m) R) (hlast : min (D * m) R ≤ j + D) :
    fill D R src start win dst m (win + j % D) = src (start + j) := by
  induction m with
  | zero => omega
  | succ m ih =>
    rw [Nat.mul_succ] at hj hlast
    rw [fill]
    by_cases hm : D * m ≤ j
    · -- the chunk that was copied just now
      obtain ⟨i, rfl⟩ := Nat.exists_eq_add_of_le hm
      have hi : i < chunk D R m := by unfold chunk; omega
      rw [mul_add_mod_of_lt (by omega), copy_inside src _ _ win hi, Nat.add_assoc]
    · -- an earlier one, behind the end of a short chunk
      obtain _ | k := m
      · omega
      have hk : D * (k + 1) = D * k + D := Nat.mul_succ D k
      rw [copy_outside, ih (by omega) (by omega)]
      right
      unfold chunk
      by_cases hR : R ≤ D * (k + 1)
      · omega
      · obtain ⟨i, rfl⟩ := Nat.exists_eq_add_of_le (show D * k ≤ j by omega)
        rw [mul_add_mod_of_lt (by omega)]
        omega

theorem drain_place (m j : Nat) (hj : j < min (D * m) R) :
    drain D R src win out dst m (out + j) = src (win + j % D) := by
  induction m with
  | zero => omega
  | succ m ih =>
    rw [Nat.mul_succ] at hj
    rw [drain]
    by_cases hm : D * m ≤ j
    · obtain ⟨i, rfl⟩ := Nat.exists_eq_add_of_le hm
      have hi : i < chunk D R m := by unfold chunk; omega
      rw [mul_add_mod_of_lt (by omega), ← Nat.add_assoc, copy_inside src _ _ _ hi]
    · rw [copy_outside _ _ _ (by omega), ih (by omega)]

theorem drain_frame (m a : Nat) (ha : a < out ∨ out + R ≤ a) :
    drain D R src win out dst m a = dst a := by
  induction m with
  | zero => rfl
  | succ m ih =>
    rw [drain, copy_outside, ih]
    unfold chunk
    omega

/-- The window is all that is written. -/
theorem fill_frame (m a : Nat) (ha : a < win ∨ win + min D R ≤ a) :
    fill D R src start win dst m a = dst a := by
  induction m with
  | zero => rfl
  | succ m ih =>
    rw [fill, copy_outside, ih]
    unfold chunk
    omega

/-! ## The last writer -/

/-- The last cell of the buffer that goes through the same cell of the window as cell `j`. -/
def lastWriter (D R j : Nat) : Nat := j % D + D * ((R - 1 - j % D) / D)

theorem mod_lt_of_lt (D : Nat) {j : Nat} (hj : j < R) : j % D < R :=
  Nat.lt_of_le_of_lt (Nat.mod_le j D) hj

theorem lastWriter_mod (j : Nat) : lastWriter D R j % D = j % D := by
  rw [lastWriter, Nat.add_mul_mod_self_left, Nat.mod_mod]

theorem lastWriter_lt (D : Nat) {j : Nat} (hj : j < R) : lastWriter D R j < R := by
  have hmod := mod_lt_of_lt D hj
  have hle := Nat.mul_div_le (R - 1 - j % D) D
  rw [lastWriter]
  omega

/-- No cell behind it is of the same place. -/
theorem lastWriter_last (hD : 0 < D) {j : Nat} (hj : j < R) : R ≤ lastWriter D R j + D := by
  have hmod := mod_lt_of_lt D hj
  have hlt := Nat.lt_mul_div_succ (R - 1 - j % D) hD
  rw [Nat.mul_succ] at hlt
  rw [lastWriter]
  omega

theorem lastWriter_eq_self_iff (hD : 0 < D) {j : Nat} (hj : j < R) :
    lastWriter D R j = j ↔ R ≤ j + D := by
  constructor
  · intro h
    have hlast := lastWriter_last hD hj
    rwa [h] at hlast
  · intro h
    have hdiv := Nat.mod_add_div j D
    have hsub : R - 1 - j % D = D * (j / D) + (R - 1 - j) := by omega
    have hlt : R - 1 - j < D := by omega
    rw [lastWriter, hsub, Nat.mul_add_div hD, Nat.div_eq_of_lt hlt, Nat.add_zero, hdiv]

/-- Cells of `k` bytes each. -/
theorem lastWriter_mul {k i b : Nat} (hb : b < k) (hi : i < R) :
    lastWriter (k * D) (k * R) (k * i + b) = k * lastWriter D R i + b := by
  have hk : 0 < k := by omega
  have hmod : (k * i + b) % (k * D) = k * (i % D) + b := by
    rw [Nat.mod_mul, Nat.mul_add_mod, Nat.mod_eq_of_lt hb, Nat.mul_add_div hk,
      Nat.div_eq_of_lt hb, Nat.add_zero, Nat.add_comm]
  have hsub : k * R - 1 - (k * (i % D) + b) = k * (R - 1 - i % D) + (k - 1 - b) := by
    obtain ⟨r, hr⟩ := Nat.exists_eq_add_of_lt (mod_lt_of_lt D hi)
    have hr' : R - 1 - i % D = r := by omega
    have hkR : k * R = k * (i % D) + k * r + k := by
      rw [hr, Nat.mul_add, Nat.mul_add, Nat.mul_one]
    rw [hr', hkR]
    omega
  have hlt : k - 1 - b < k := by omega
  rw [lastWriter, hmod, hsub, ← Nat.div_div_eq_div_mul, Nat.mul_add_div hk, Nat.div_eq_of_lt hlt,
    Nat.add_zero, lastWriter, Nat.mul_add, Nat.mul_assoc, Nat.add_right_comm]

/-- **The window**, behind a whole buffer. -/
theorem fill_lastWriter (hD : 0 < D) (m : Nat) (hm : R ≤ D * m) {j : Nat} (hj : j < R) :
    fill D R src start win dst m (win + j % D) = src (start + lastWriter D R j) := by
  have hmin : min (D * m) R = R := Nat.min_eq_right hm
  rw [← lastWriter_mod (R := R) j]
  exact fill_window src start win dst m _ (by rw [hmin]; exact lastWriter_lt D hj)
    (by rw [hmin]; exact lastWriter_last hD hj)

/-! ## Both ways -/

/-- Let `y` be the window and `x` the buffer.  The first `S` cells of the buffer are
found in the window iff every cell is equal to the one a window further. -/
theorem agree_iff {S : Nat} (x y : Nat → α) (hSR : S ≤ R) (hRS : R ≤ S + D) (hD : 0 < D)
    (hlast : ∀ j < R, R ≤ j + D → y (j % D) = x j) :
    (∀ j < S, y (j % D) = x j) ↔ ∀ i, i + D < R → x i = x (i + D) := by
  constructor
  · intro h i hi
    have hy : y ((i + D) % D) = x (i + D) := by
      by_cases hS : i + D < S
      · exact h (i + D) hS
      · exact hlast (i + D) hi (by omega)
    rw [← h i (by omega), ← hy, Nat.add_mod_right]
  · intro h
    have key : ∀ n j, R - j = n → j < R → y (j % D) = x j := by
      intro n
      induction n using Nat.strongRecOn with
      | _ n ih =>
        intro j hn hj
        by_cases hl : R ≤ j + D
        · exact hlast j hj hl
        · have hjD : j + D < R := by omega
          rw [h j hjD, ← Nat.add_mod_right]
          exact ih (R - (j + D)) (by omega) (j + D) rfl hjD
    exact fun j hj => key _ j rfl (by omega)

end DeepSpace.Window
