import DeepSpace.AdaptiveCoding
import Mathlib.Algebra.Order.BigOperators.GroupWithZero.List

/-!
# How long the files get

Where the totals leave a factor `K` of the shortest range, a symbol of frequency `f` of `total`
costs at most as many bits as one of probability `f / total * (K - 1) / K`.

* `encode_length_le`: for the C++ encoder, and eight bits for the whole file;
* `reference_length_le`: for the reference.
-/

namespace DeepSpace.ArithmeticCoding

open DeepSpace.Renormalisation

variable {K : Int}

/-- The share of a symbol in its table, rounding included. -/
def Call.share (K : Int) (a : Call) : Int := (a.symhigh - a.symlow) * (K - 1)

def shares (K : Int) (as : List Call) : Int := (as.map (Call.share K)).prod

def totals (K : Int) (as : List Call) : Int := (as.map fun a => a.total * K).prod

/-- The arguments of a symbol whose total leaves the factor. -/
def Roomy (K : Int) (a : Call) : Prop := a.Valid ∧ a.total * K ≤ MAX_TOTAL

instance (a : Call) : Decidable a.Valid :=
  decidable_of_iff (0 ≤ a.symlow ∧ a.symlow < a.symhigh ∧ a.symhigh ≤ a.total)
    ⟨fun ⟨h1, h2, h3⟩ => ⟨h1, h2, h3⟩, fun ⟨h1, h2, h3⟩ => ⟨h1, h2, h3⟩⟩

instance (K : Int) (a : Call) : Decidable (Roomy K a) := inferInstanceAs (Decidable (_ ∧ _))

theorem share_nonneg (hK : 2 ≤ K) {a : Call} (ha : a.Valid) : 0 ≤ a.share K :=
  Int.mul_nonneg (Int.sub_nonneg.mpr ha.symlow_lt.le) (by omega)

theorem shares_nonneg (hK : 2 ≤ K) {as : List Call} (h : ∀ a ∈ as, Roomy K a) :
    0 ≤ shares K as := by
  refine List.prod_nonneg fun x hx => ?_
  obtain ⟨a, ha, rfl⟩ := List.mem_map.mp hx
  exact share_nonneg hK (h a ha).1

theorem totals_nonneg (hK : 2 ≤ K) {as : List Call} (h : ∀ a ∈ as, Roomy K a) :
    0 ≤ totals K as := by
  refine List.prod_nonneg fun x hx => ?_
  obtain ⟨a, ha, rfl⟩ := List.mem_map.mp hx
  exact mul_nonneg (h a ha).1.total_pos.le (by omega)

theorem Roomy.accepted (hK : 2 ≤ K) {a : Call} (h : Roomy K a) : Accepted a := by
  have hpos := h.1.total_pos
  have := mul_le_mul_of_nonneg_left hK hpos.le
  exact ⟨h.1, by have := h.2; omega⟩

/-- The largest total is not reached. -/
theorem Roomy.not_boundary (hK : 2 ≤ K) {e : ArithmeticEncoder} {a : Call} (h : Roomy K a) :
    ¬ Boundary e a := by
  intro hb
  have := mul_le_mul_of_nonneg_left hK h.1.total_pos.le
  have := h.2
  have := hb.1
  rw [MAX_TOTAL_eq] at *
  omega

/-- A part of `w` points of `W` keeps the share of its frequency, whether the range is counted
with its last point or without. -/
theorem share_mul_le {f T W r w : Int} (hK : 2 ≤ K) (hf : 1 ≤ f) (hfT : f ≤ T) (hW : T * K ≤ W)
    (hr : W - 1 ≤ r) (hw : f * r - T < w * T) : f * (K - 1) * W ≤ T * K * w := by
  have hround : f + T - 1 ≤ f * T := by nlinarith
  have hroom : K * (f * T) ≤ f * W := by nlinarith
  have hlost : K * (f + T - 1) ≤ f * W :=
    (mul_le_mul_of_nonneg_left hround (by omega)).trans hroom
  have hleft : f * W - (f + T - 1) ≤ w * T := by nlinarith
  have := mul_le_mul_of_nonneg_left hleft (show 0 ≤ K by omega)
  linarith

theorem Roomy.width_le {a : Call} (h : Roomy K a) {I : Interval} (hI : I.Settled (2 ^ 30)) :
    a.total * K ≤ I.width := by
  have h1 := h.2
  have h2 := hI.range
  rw [MAX_TOTAL_eq] at h1
  unfold Interval.width
  omega

theorem frequency_le {a : Call} (ha : a.Valid) :
    1 ≤ a.symhigh - a.symlow ∧ a.symhigh - a.symlow ≤ a.total := by
  have := ha.symlow_nonneg
  have := ha.symlow_lt
  have := ha.symhigh_le
  omega

/-- A file of the bits of an output, a one, and the fewest zeros. -/
theorem file_length_le {file : List UInt8} {O : Output} {p : Nat} (hp : p < 8)
    (h : fileBits file = (O.bits ++ [true]) ++ List.replicate p false) :
    8 * file.length ≤ O.size + 8 := by
  have hlen := congrArg List.length h
  rw [fileBits_length, List.length_append, List.length_append, List.length_singleton,
    List.length_replicate] at hlen
  unfold Output.size
  omega

/-- What a whole run costs, from the fresh interval on. -/
theorem two_pow_mul_le {f t : Int} (hf : 0 ≤ f) (ht : 0 ≤ t) {I : Interval} {O : Output} {n : Nat}
    (hI : I.Settled (2 ^ 30)) (hn : n ≤ O.size + 8) (h : Cost f t ⟨0, MASK⟩ ⟨[], 0⟩ I O) :
    2 ^ n * f ≤ 2 ^ 8 * t := by
  have hpow : (2 : Int) ^ n ≤ 2 ^ (O.size + 8) := pow_le_pow_right₀ (by decide) hn
  have hwidth : I.width ≤ 2 ^ 32 := by
    have := hI.low_nonneg
    have := hI.high_lt
    unfold Interval.width
    omega
  have hrun : 2 ^ O.size * f * 2 ^ 32 ≤ t * 2 ^ 32 := by
    refine le_trans ?_ (mul_le_mul_of_nonneg_left hwidth ht)
    have hfresh : (⟨0, MASK⟩ : Interval).width = 2 ^ 32 := by decide
    rw [Cost, hfresh, show Output.size ⟨[], 0⟩ = 0 from rfl, pow_zero, one_mul] at h
    exact h
  have hbits : 2 ^ O.size * f ≤ t := le_of_mul_le_mul_right hrun (by decide)
  calc 2 ^ n * f ≤ 2 ^ (O.size + 8) * f := mul_le_mul_of_nonneg_right hpow hf
    _ = 2 ^ 8 * (2 ^ O.size * f) := by rw [pow_add]; ring
    _ ≤ 2 ^ 8 * t := mul_le_mul_of_nonneg_left hbits (by decide)

/-! ## The C++ encoder -/

/-- **Narrowing** leaves a symbol its share. -/
theorem share_mul_width_le (hK : 2 ≤ K) {e : ArithmeticEncoder} {a : Call} (h : Roomy K a)
    (hI : e.interval.Settled (2 ^ 30)) :
    a.share K * e.interval.width ≤ a.total * K * (e.narrowed a).interval.width := by
  have hnarrow : (e.narrowed a).interval.width =
      slot e.range a.total a.symhigh - slot e.range a.total a.symlow := by
    rw [Interval.width, Coder.interval, Coder.narrowed, newlow_eq h.1 hI.inside,
      newhigh_eq h.1 hI.inside]
    ring
  have hrange : e.interval.width - 1 ≤ e.range := (Int.add_sub_cancel e.range 1).le
  obtain ⟨hf, hfT⟩ := frequency_le h.1
  rw [hnarrow, Call.share]
  exact share_mul_le hK hf hfT (h.width_le hI) hrange (lt_slot_sub_slot h.1.total_pos)

/-- **One call.** -/
theorem write_cost (hK : 2 ≤ K) {e e' : ArithmeticEncoder} {a : Call} (h : Roomy K a)
    (he : Kept e) (hw : e.write a = .ok e') :
    Cost (a.share K) (a.total * K) e.interval e.sub.output e'.interval e'.sub.output := by
  obtain ⟨ms, hmoves, hout⟩ := moves_of_write (h.accepted hK) he (h.not_boundary hK) hw
  rw [hout]
  exact .of_moves (share_mul_width_le hK h he.settled) hmoves

/-- **A run.** -/
theorem writes_cost (hK : 2 ≤ K) (as : List Call) (h : ∀ a ∈ as, Roomy K a)
    {e e' : ArithmeticEncoder} (he : Kept e) (hrun : writes as e = .ok e') :
    Kept e' ∧
      Cost (shares K as) (totals K as) e.interval e.sub.output e'.interval e'.sub.output := by
  induction as generalizing e with
  | nil =>
    obtain rfl := Result.ok.inj hrun
    exact ⟨he, .refl _ _⟩
  | cons a as ih =>
    have ha := h a List.mem_cons_self
    have has : ∀ b ∈ as, Roomy K b := fun b hb => h b (List.mem_cons_of_mem _ hb)
    obtain ⟨e₁, hw, hrun⟩ := andThen_eq_ok hrun
    have hcost := write_cost hK ha he hw
    obtain ⟨hkept', hcost'⟩ := ih has
      (room_of_write (ha.accepted hK) he (ha.not_boundary hK) hw).2 hrun
    refine ⟨hkept', ?_⟩
    rw [shares, totals, List.map_cons, List.map_cons, List.prod_cons, List.prod_cons]
    exact hcost.trans hcost' (shares_nonneg hK has) (mul_nonneg ha.1.total_pos.le (by omega))

/-- **The length of a file**, which every run has that is not too long. -/
theorem encode_length_le (hK : 2 ≤ K) (as : List Call) (h : ∀ a ∈ as, Roomy K a) :
    (∀ e, encode as = .ok e → 2 ^ (8 * e.file.length) * shares K as ≤ 2 ^ 8 * totals K as) ∧
      (as.length < 2 ^ 26 → ∃ e, encode as = .ok e) := by
  constructor
  · intro e' henc
    obtain ⟨e, hrun, -⟩ := encode_eq_ok henc
    obtain ⟨hkept, hcost⟩ := writes_cost hK as h fresh_kept hrun
    obtain ⟨p, hp, hbits⟩ := file_of_encode hkept hrun henc
    exact two_pow_mul_le (shares_nonneg hK h) (totals_nonneg hK h) hkept.settled
      (file_length_le hp hbits) hcost
  · intro hlen
    have hacc := fun a ha => (h a ha).accepted hK
    have hb : EveryCall as fun e a => ¬ Boundary e a := by
      rintro pre a post e rfl -
      exact (h a (List.mem_append_right _ List.mem_cons_self)).not_boundary hK
    exact (encode_ok_iff as hacc hb).mpr (noOverflow_of_length as hacc hb hlen)

theorem encode_length_le_example :
    ∃ e, encode [⟨1000000, 0, 900000⟩, ⟨1000000, 900000, 999999⟩] = .ok e ∧
      2 ^ (8 * e.file.length) * shares 1000 [⟨1000000, 0, 900000⟩, ⟨1000000, 900000, 999999⟩] ≤
        2 ^ 8 * totals 1000 [⟨1000000, 0, 900000⟩, ⟨1000000, 900000, 999999⟩] := by
  obtain ⟨hlength, hshort⟩ := encode_length_le (K := 1000) (by decide)
    [⟨1000000, 0, 900000⟩, ⟨1000000, 900000, 999999⟩] (by decide)
  obtain ⟨e, he⟩ := hshort (by decide)
  exact ⟨e, he, hlength e he⟩

/-! ## The reference -/

/-- **Narrowing**, on one point more. -/
theorem reference_share_mul_width_le (hK : 2 ≤ K) {c : Reference.ArithmeticEncoder}
    {t : Reference.FrequencyTable} {symbol : Nat} (h : Roomy K (t.call symbol))
    (hI : c.interval.Settled (2 ^ 30)) :
    (t.call symbol).share K * c.interval.width ≤
      (t.call symbol).total * K * (Reference.narrowed t symbol c).interval.width := by
  have hpos : 0 < t.getTotal := h.1.total_pos
  have hnarrow : (Reference.narrowed t symbol c).interval.width =
      slot (Reference.range c) t.getTotal (t.getHigh symbol) -
        slot (Reference.range c) t.getTotal (t.getLow symbol) := by
    rw [Interval.width, Coder.interval, Reference.narrowed, Reference.newlow_eq_slot hpos,
      Reference.newhigh_eq_slot hpos]
    ring
  have hrange : c.interval.width - 1 ≤ Reference.range c := Int.sub_le_self _ (by decide)
  obtain ⟨hf, hfT⟩ := frequency_le h.1
  rw [hnarrow, Call.share]
  exact share_mul_le hK hf hfT (h.width_le hI) hrange (lt_slot_sub_slot hpos)

theorem reference_writes_cost (hK : 2 ≤ K) (steps : List (Reference.FrequencyTable × Nat))
    (h : ∀ step ∈ steps, Reference.Admitted step ∧ Roomy K (step.1.call step.2))
    {p : Reference.ArithmeticEncoder} (hI : p.interval.Settled (2 ^ 30)) :
    ∃ p', Reference.writes steps p = .ok p' ∧ p'.interval.Settled (2 ^ 30) ∧
      Cost (shares K (Reference.calls steps)) (totals K (Reference.calls steps)) p.interval
        p.sub.out p'.interval p'.sub.out := by
  induction steps generalizing p with
  | nil => exact ⟨p, rfl, hI, .refl _ _⟩
  | cons step steps ih =>
    obtain ⟨hadmitted, hroomy⟩ := h step List.mem_cons_self
    have hrest := fun s hs => h s (List.mem_cons_of_mem step hs)
    have hrest' : ∀ a ∈ Reference.calls steps, Roomy K a := fun a ha => by
      obtain ⟨s, hs, rfl⟩ := List.mem_map.mp ha
      exact (hrest s hs).2
    obtain ⟨ms, p₁, hw, hscaled, hset⟩ :=
      Reference.update_spec Reference.encoder_follows hadmitted hI rfl
    obtain ⟨p', hw', hset', hcost'⟩ := ih hrest hset
    have hcost : Cost ((step.1.call step.2).share K) ((step.1.call step.2).total * K) p.interval
        p.sub.out p₁.interval p₁.sub.out := by
      rw [show p₁.sub.out = _ from hscaled.sub]
      exact .of_moves (reference_share_mul_width_le hK hroomy hI) hscaled.moves
    refine ⟨p', ?_, hset', ?_⟩
    · change (p.write step.1 step.2).andThen (Reference.writes steps) = _
      rw [show p.write step.1 step.2 = .ok p₁ from hw, andThen_ok, hw']
    · exact hcost.trans hcost' (shares_nonneg hK hrest')
        (mul_nonneg hroomy.1.total_pos.le (by omega))

/-- **The length of a file** of the reference. -/
theorem reference_length_le (hK : 2 ≤ K) (steps : List (Reference.FrequencyTable × Nat))
    (h : ∀ step ∈ steps, Reference.Coded step.1 step.2 ∧ step.1.getTotal * K ≤ MAX_TOTAL) :
    ∃ p, Reference.encode steps = .ok p ∧ 2 ^ (8 * p.file.length) *
      shares K (Reference.calls steps) ≤ 2 ^ 8 * totals K (Reference.calls steps) := by
  have hroomy : ∀ step ∈ steps, Roomy K (step.1.call step.2) := fun step hs =>
    ⟨Reference.call_valid (h step hs).1, (h step hs).2⟩
  have hcalls : ∀ a ∈ Reference.calls steps, Roomy K a := fun a ha => by
    obtain ⟨s, hs, rfl⟩ := List.mem_map.mp ha
    exact hroomy s hs
  obtain ⟨p, hw, hset, hcost⟩ := reference_writes_cost hK steps
    (fun step hs => ⟨⟨(h step hs).1, ((hroomy step hs).accepted hK).2⟩, hroomy step hs⟩)
    Reference.fresh_interval_settled
  obtain ⟨p', n, hfin, hn, hbits⟩ := Reference.finish_close p
  exact ⟨p', by rw [Reference.encode, hw, andThen_ok, hfin],
    two_pow_mul_le (shares_nonneg hK hcalls) (totals_nonneg hK hcalls) hset
      (file_length_le hn hbits) hcost⟩

theorem reference_length_le_counting :
    ∃ p, Reference.encode (Reference.counting.steps [] [0, 0, 1]) = .ok p ∧
      2 ^ (8 * p.file.length) *
          shares 1000 (Reference.calls (Reference.counting.steps [] [0, 0, 1])) ≤
        2 ^ 8 * totals 1000 (Reference.calls (Reference.counting.steps [] [0, 0, 1])) :=
  reference_length_le (by decide) _ (by decide)

end DeepSpace.ArithmeticCoding
