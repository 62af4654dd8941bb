import DeepSpace.Termination

/-!
# Empty and inverted intervals

A symbol without a frequency leaves `m_high` below `m_low`, and the calls behind it may move both
down, past 0.

* `drift_step`: one unit for each call, the two ends staying in neighbouring halves;
* `safe_of_length`: so nothing overflows in the first `2 ^ 63` calls;
* `spiral_not_safe`: and in the next one something does.
-/

namespace DeepSpace.ArithmeticCoding

/-! ## What `update` is given -/

/-- `0 <= symlow <= symhigh <= total` and `1 <= total`. -/
structure Call.Ordered (a : Call) : Prop where
  symlow_nonneg : 0 ≤ a.symlow
  symlow_le : a.symlow ≤ a.symhigh
  symhigh_le : a.symhigh ≤ a.total
  total_pos : 1 ≤ a.total

/-- The arguments that `update` does not reject. -/
def Admitted (a : Call) : Prop := a.Ordered ∧ a.total ≤ MAX_TOTAL

/-- Nothing overflows in the call, and its loops end within 32 and 31 rounds. -/
structure Safe (e : ArithmeticEncoder) (a : Call) : Prop where
  terms : ∀ x ∈ e.terms a, FitsInt64 x
  shift : ∃ n ≤ 32, ∃ r, ShiftRuns ArithmeticEncoder.virtual n (e.narrowed a) r
  underflow : ∀ n c, ShiftRuns ArithmeticEncoder.virtual n (e.narrowed a) (.ok c) →
    ∃ m ≤ 31, ∃ r, UnderflowRuns ArithmeticEncoder.virtual m c r

/-! ## One call -/

variable {δ : Type}

/-- The ends after `n` calls. -/
structure Drift (n : Nat) (c : Coder δ) : Prop where
  low_ge : -(n : Int) ≤ c.low
  high_ge : -(n : Int) ≤ c.high
  low_lt : c.low < 2 ^ 32
  high_lt : c.high < 2 ^ 32
  adjacent : c.low / 2 ^ 31 = c.high / 2 ^ 31 + 1 ∨ c.high / 2 ^ 31 = c.low / 2 ^ 31 + 1

/-- A part of the range, which may be negative. -/
theorem tdiv_between {s r t : Int} (h0 : 0 ≤ s) (hs : s ≤ t) (ht : 1 ≤ t) :
    min 0 r ≤ (s * r).tdiv t ∧ (s * r).tdiv t ≤ max 0 r := by
  have hpart : ∀ x : Int, 0 ≤ x → 0 ≤ (s * x).tdiv t ∧ (s * x).tdiv t ≤ x := by
    intro x hx
    rw [Int.tdiv_eq_ediv_of_nonneg (Int.mul_nonneg h0 hx)]
    exact ⟨Int.ediv_nonneg (Int.mul_nonneg h0 hx) (by omega),
      Int.ediv_le_of_le_mul (by omega) (by nlinarith)⟩
  rcases Int.le_total 0 r with hr | hr
  · have h := hpart r hr
    omega
  · have h := hpart (-r) (by omega)
    rw [Int.mul_neg, Int.neg_tdiv] at h
    omega

/-- Both ends are narrowed to between the ends, up to one below. -/
theorem narrowed_between {c : Coder δ} {a : Call} (ha : a.Ordered) :
    min c.low c.high ≤ c.newlow a ∧ c.newlow a ≤ max c.low c.high ∧
      min c.low c.high - 1 ≤ c.newhigh a ∧ c.newhigh a ≤ max c.low c.high - 1 := by
  obtain ⟨h0, h1, h2, h3⟩ := ha
  obtain ⟨l0, l1⟩ := tdiv_between (r := c.range) h0 (h1.trans h2) h3
  obtain ⟨u0, u1⟩ := tdiv_between (r := c.range) (h0.trans h1) h2 h3
  unfold Coder.newlow Coder.newhigh
  unfold Coder.range at *
  omega

/-- **Nothing overflows** where the ends are 64-bit numbers that are not far apart. -/
theorem terms_fit_of_range {c : Coder δ} {a : Call} (ha : Admitted a)
    (hlow : -2 ^ 63 < c.low ∧ c.low < 2 ^ 32) (hhigh : -2 ^ 63 < c.high ∧ c.high < 2 ^ 32)
    (hr : -2 ^ 32 ≤ c.range ∧ c.range ≤ 2 ^ 32) : ∀ x ∈ c.terms a, FitsInt64 x := by
  obtain ⟨⟨h0, h1, h2, h3⟩, ht⟩ := ha
  rw [MAX_TOTAL_eq] at ht
  have hprod : ∀ s, 0 ≤ s → s ≤ a.total → FitsInt64 (s * c.range) := by
    intro s hs hs'
    unfold FitsInt64
    constructor <;> nlinarith
  have p1 := hprod a.symlow h0 (h1.trans h2)
  have p2 := hprod a.symhigh (h0.trans h1) h2
  obtain ⟨l0, l1⟩ := tdiv_between (r := c.range) h0 (h1.trans h2) h3
  obtain ⟨u0, u1⟩ := tdiv_between (r := c.range) (h0.trans h1) h2 h3
  intro x hx
  simp only [Coder.terms, Coder.newlow, Coder.newhigh, List.mem_cons, List.not_mem_nil,
    or_false] at hx
  unfold Coder.range FitsInt64 at *
  rcases hx with rfl | rfl | rfl | rfl | rfl | rfl | rfl | rfl <;> first | assumption | omega

theorem Drift.terms_fit {n : Nat} {c : Coder δ} {a : Call} (hc : Drift n c) (ha : Admitted a)
    (hn : n + 1 ≤ 2 ^ 63) : ∀ x ∈ c.terms a, FitsInt64 x := by
  obtain ⟨g1, g2, g3, g4, g5⟩ := hc
  refine terms_fit_of_range ha (by omega) (by omega) ?_
  unfold Coder.range
  omega

/-- What `update` does behind its guard. -/
theorem update_eq_ok {v : Virtual δ} {c c' : Coder δ} {a : Call} (h : update v a c = .ok c') :
    renormalise v (c.narrowed a) = .ok c' := by
  unfold update at h
  split at h
  · cases h
  · split at h
    · cases h
    · exact h

/-- **One call** moves the ends down by one at most. -/
theorem drift_step {v : Virtual δ} (hv : v.Keeps) {n : Nat} {c c' : Coder δ} {a : Call}
    (ha : a.Ordered) (hc : Drift n c) (h : update v a c = .ok c') : Drift (n + 1) c' := by
  obtain ⟨b1, b2, b3, b4⟩ := narrowed_between (c := c) ha
  obtain ⟨g1, g2, g3, g4, g5⟩ := hc
  obtain ⟨hsplit, ⟨hl, hh⟩ | ⟨w1, w2, w3, w4⟩⟩ := renormalise_ok hv (update_eq_ok h)
  · -- the loops did not turn
    change c'.low = c.newlow a at hl
    change c'.high = c.newhigh a at hh
    unfold Split at hsplit
    constructor <;> omega
  · unfold Split at hsplit
    constructor <;> omega

theorem updates_drift {v : Virtual δ} (hv : v.Keeps) {as : List Call} {n : Nat} {c c' : Coder δ}
    (has : ∀ a ∈ as, a.Ordered) (hc : Drift n c) (h : updates v as c = .ok c') :
    Drift (n + as.length) c' := by
  induction as generalizing n c with
  | nil =>
    cases h
    exact hc
  | cons a as ih =>
    obtain ⟨ha, has⟩ := List.forall_mem_cons.mp has
    obtain ⟨c₁, hu, h⟩ := andThen_eq_ok h
    have h := ih has (drift_step hv ha hc hu) h
    rw [List.length_cons, show n + (as.length + 1) = n + 1 + as.length by omega]
    exact h

theorem fresh_drift : Drift 0 ArithmeticEncoder.fresh := by
  constructor <;> decide

/-! ## Runs -/

theorem safe_of_fit {e : ArithmeticEncoder} {a : Call} (h : ∀ x ∈ e.terms a, FitsInt64 x) :
    Safe e a := by
  refine ⟨h, ?_, fun n c _ => ?_⟩
  · obtain ⟨n, hn, hr⟩ := shiftLoop_runs encoder_keeps (e.narrowed a)
    exact ⟨n, hn, _, hr⟩
  · obtain ⟨m, hm, hr⟩ := underflowLoop_runs encoder_keeps c
    exact ⟨m, hm, _, hr⟩

/-- **Safety and termination** of every run of at most `2 ^ 63` calls, degenerate intervals
included. -/
theorem safe_of_length (as : List Call) (has : ∀ a ∈ as, Admitted a) (hlen : as.length ≤ 2 ^ 63) :
    EveryCall as Safe := by
  rintro pre a post e rfl hrun
  have hpre : ∀ b ∈ pre, b.Ordered := fun b hb => (has b (List.mem_append_left _ hb)).1
  have hd := updates_drift encoder_keeps hpre fresh_drift hrun
  rw [List.length_append, List.length_cons] at hlen
  exact safe_of_fit (hd.terms_fit (has a (by simp)) (by omega))

/-- A symbol without a frequency, then one call on the inverted interval. -/
theorem safe_of_length_zeroFrequency : EveryCall [⟨1, 0, 0⟩, ⟨1, 0, 1⟩] Safe := by
  refine safe_of_length _ (fun a ha => ?_) (by decide)
  simp only [List.mem_cons, List.not_mem_nil, or_false] at ha
  rcases ha with rfl | rfl <;> exact ⟨by constructor <;> decide, by decide⟩

/-! ## The longest run -/

/-- The call number `i` moves `m_high` down by one; every `2 ^ 31` calls `m_low` follows. -/
def spiralCall (i : Nat) : Call :=
  if i = 0 then ⟨1, 0, 0⟩ else if i % 2 ^ 31 = 0 then ⟨4, 3, 4⟩ else ⟨1, 0, 1⟩

def spiral (n : Nat) : List Call := (List.range n).map spiralCall

theorem spiralCall_admitted (i : Nat) : Admitted (spiralCall i) := by
  unfold spiralCall
  split
  · exact ⟨by constructor <;> decide, by decide⟩
  · split
    · exact ⟨by constructor <;> decide, by decide⟩
    · exact ⟨by constructor <;> decide, by decide⟩

theorem spiral_succ (n : Nat) : spiral (n + 1) = spiral n ++ [spiralCall n] := by
  rw [spiral, List.range_succ, List.map_append]
  rfl

/-- Where the ends are after `n + 1` calls. -/
structure Turn (n : Nat) (e : ArithmeticEncoder) : Prop where
  high : e.high = -(n + 1 : Int)
  low : e.low / 2 ^ 31 = -((n / 2 ^ 31 : Nat) : Int)
  quarter : e.low % 2 ^ 31 < 2 ^ 30

theorem Turn.renormalise {n : Nat} {e : ArithmeticEncoder} (h : Turn n e) :
    renormalise ArithmeticEncoder.virtual e = .ok e := by
  obtain ⟨h1, h2, h3⟩ := h
  exact renormalise_of_stable _ (by omega) (by omega)

theorem turn_zero : Turn 0 (ArithmeticEncoder.fresh.narrowed (spiralCall 0)) := by
  constructor <;> decide

/-- Within a half only `m_high` moves. -/
theorem Turn.within {n : Nat} {e : ArithmeticEncoder} (h : Turn n e) (hn : (n + 1) % 2 ^ 31 ≠ 0) :
    Turn (n + 1) (e.narrowed ⟨1, 0, 1⟩) := by
  obtain ⟨h1, h2, h3⟩ := h
  unfold Coder.narrowed Coder.newlow Coder.newhigh
  dsimp only
  rw [Int.zero_mul, Int.one_mul, Int.zero_tdiv, Int.tdiv_one]
  unfold Coder.range at *
  constructor <;> dsimp only <;> omega

/-- Where `m_high` leaves its half, `m_low` goes three quarters of the way. -/
theorem Turn.across {n : Nat} {e : ArithmeticEncoder} (h : Turn n e) (hn : (n + 1) % 2 ^ 31 = 0) :
    Turn (n + 1) (e.narrowed ⟨4, 3, 4⟩) := by
  obtain ⟨h1, h2, h3⟩ := h
  -- `m_high` stands at the end of its half, one word and `x` below `m_low`
  obtain ⟨q, hq⟩ : ∃ q, n + 1 = 2 ^ 31 * (q + 1) := ⟨n / 2 ^ 31, by omega⟩
  obtain ⟨x, hx⟩ : ∃ x, e.low = x - 2 ^ 31 * q := ⟨e.low + 2 ^ 31 * q, by omega⟩
  have hxr : 0 ≤ x ∧ x < 2 ^ 30 := by omega
  have hrange : e.range = -(x + 2 ^ 31) := by
    unfold Coder.range
    omega
  have h3' : (3 * e.range).tdiv 4 = -(3 * (x + 2 ^ 31) / 4) := by
    rw [hrange, ← Int.tdiv_eq_ediv_of_nonneg (by omega), ← Int.neg_tdiv]
    congr 1
    omega
  have h4' : (4 * e.range).tdiv 4 = e.range := Int.mul_tdiv_cancel_left _ (by decide)
  obtain ⟨y, hy⟩ : ∃ y, 3 * (x + 2 ^ 31) / 4 = 3 * 2 ^ 29 + x - y :=
    ⟨3 * 2 ^ 29 + x - 3 * (x + 2 ^ 31) / 4, by omega⟩
  have hyr : 0 ≤ y ∧ y ≤ 2 ^ 28 := by omega
  have hlow : e.newlow ⟨4, 3, 4⟩ = y + 2 ^ 29 - 2 ^ 31 * (q + 1) := by
    rw [Coder.newlow, h3', hx, hy]
    ring
  have hhigh : e.newhigh ⟨4, 3, 4⟩ = -(n + 2 : Int) := by
    rw [Coder.newhigh, h4', hrange, hx]
    omega
  clear h3' h4' hy
  constructor
  · exact hhigh.trans (by omega)
  · exact (congrArg (· / 2 ^ 31) hlow).trans (by omega)
  · exact (congrArg (· % 2 ^ 31) hlow).trans_lt (by omega)

/-- **The next call**, on an inverted interval. -/
theorem Turn.narrowed {n : Nat} {e : ArithmeticEncoder} (h : Turn n e) :
    Turn (n + 1) (e.narrowed (spiralCall (n + 1))) := by
  rw [spiralCall, if_neg (Nat.succ_ne_zero n)]
  by_cases hn : (n + 1) % 2 ^ 31 = 0
  · rw [if_pos hn]
    exact h.across hn
  · rw [if_neg hn]
    exact h.within hn

/-- One more call of the run. -/
theorem update_spiralCall {n : Nat} {e : ArithmeticEncoder} (hd : Drift n e) (hn : n + 1 ≤ 2 ^ 63)
    (ht : Turn n (e.narrowed (spiralCall n))) :
    update ArithmeticEncoder.virtual (spiralCall n) e = .ok (e.narrowed (spiralCall n)) := by
  obtain ⟨hord, hmax⟩ := spiralCall_admitted n
  have hpos : 0 < (spiralCall n).total := hord.total_pos
  rw [update_of_fit _ hpos hmax (hd.terms_fit (spiralCall_admitted n) hn), ht.renormalise]

theorem spiral_ordered (n : Nat) : ∀ a ∈ spiral n, a.Ordered := by
  intro a ha
  obtain ⟨i, -, rfl⟩ := List.mem_map.mp ha
  exact (spiralCall_admitted i).1

theorem spiral_length (n : Nat) : (spiral n).length = n := by
  rw [spiral, List.length_map, List.length_range]

/-- **The run** while nothing overflows. -/
theorem writes_spiral (n : Nat) (hn : n + 1 ≤ 2 ^ 63) :
    ∃ e, writes (spiral (n + 1)) .fresh = .ok e ∧ Turn n e := by
  induction n with
  | zero =>
    refine ⟨_, ?_, turn_zero⟩
    have h0 : writes (spiral 0) .fresh = .ok .fresh := rfl
    rw [spiral_succ, writes, updates_concat _ _ h0, update_spiralCall fresh_drift hn turn_zero]
  | succ n ih =>
    obtain ⟨e, hrun, hturn⟩ := ih (by omega)
    have hd := updates_drift encoder_keeps (spiral_ordered (n + 1)) fresh_drift hrun
    rw [spiral_length, Nat.zero_add] at hd
    refine ⟨_, ?_, hturn.narrowed⟩
    rw [spiral_succ, writes, updates_concat _ _ hrun, update_spiralCall hd hn hturn.narrowed]

/-- The call behind it. -/
theorem not_safe_of_turn {n : Nat} {e : ArithmeticEncoder} (h : Turn n e) (hn : n + 1 = 2 ^ 63) :
    ¬ Safe e (spiralCall (n + 1)) := by
  intro hs
  have hfit := hs.terms (e.newhigh (spiralCall (n + 1))) (by simp [Coder.terms])
  have hh : e.newhigh (spiralCall (n + 1)) = -(n + 2 : Int) := by
    have h1 := h.narrowed.high
    push_cast at h1
    exact h1.trans (by ring)
  rw [hh] at hfit
  unfold FitsInt64 at hfit
  omega

/-- **A run of `2 ^ 63 + 1` calls** ends with `newhigh` below every 64-bit number. -/
theorem spiral_not_safe :
    (∀ a ∈ spiral (2 ^ 63 + 1), Admitted a) ∧ ¬ EveryCall (spiral (2 ^ 63 + 1)) Safe := by
  constructor
  · intro a ha
    obtain ⟨i, -, rfl⟩ := List.mem_map.mp ha
    exact spiralCall_admitted i
  · generalize hn : 2 ^ 63 = n
    intro h
    obtain ⟨m, rfl⟩ := Nat.exists_eq_succ_of_ne_zero (show n ≠ 0 by omega)
    obtain ⟨e, hrun, hturn⟩ := writes_spiral m hn.ge
    rw [spiral_succ] at h
    exact not_safe_of_turn hturn hn.symm (h.last hrun)

end DeepSpace.ArithmeticCoding
