import Mathlib.Data.List.Basic
import Mathlib.Data.Nat.Bits
import Mathlib.Logic.Function.Iterate

/-!
# Linear feedback shift registers

A register of `w` bits is shifted to the right; the bit that falls out feeds
the word `g` back.  Input bits are added to the low end before each shift, so
that a run over a bit string computes a cyclic redundancy check in reflected
bit order.  Proved for every width and every `g`:

* `run_xor`: a run is linear in the pair of start register and input;
* `run_eq_iterate`: at most `w` input bits may be added to the register at
  once, before the shifts;
* `iterate_shift_ne_zero`: when `g` feeds the top bit back, shifting is
  injective, so a register that is not zero never becomes zero;
* `run_odd_ne_zero`, `run_burst_ne_zero`, `run_two_ne_zero`: the error patterns
  that leave a register other than zero when they are run from zero;
* `four_le_count`: so a pattern that leaves zero has at least four set bits.
-/

namespace DeepSpace.ShiftRegister

variable {w : Nat}

/-- One shift with feedback word `g`. -/
def shift (g s : BitVec w) : BitVec w :=
  (s >>> 1) ^^^ (if s.getLsbD 0 then g else 0#w)

/-- The register that holds the bit `b` at its low end. -/
def lowBit (b : Bool) : BitVec w := if b then 1#w else 0#w

def feed (g s : BitVec w) (b : Bool) : BitVec w := shift g (s ^^^ lowBit b)

/-- The register after the bits of `bits` went in, in order. -/
def run (g s : BitVec w) (bits : List Bool) : BitVec w := bits.foldl (feed g) s

@[simp] theorem run_nil (g s : BitVec w) : run g s [] = s := rfl

@[simp] theorem run_cons (g s : BitVec w) (b : Bool) (bits : List Bool) :
    run g s (b :: bits) = run g (feed g s b) bits := rfl

theorem run_append (g s : BitVec w) (xs ys : List Bool) :
    run g s (xs ++ ys) = run g (run g s xs) ys := List.foldl_append

/-! ## Linearity -/

theorem xor_four (a b c d : BitVec w) : (a ^^^ b) ^^^ (c ^^^ d) = (a ^^^ c) ^^^ (b ^^^ d) := by
  rw [BitVec.xor_assoc, BitVec.xor_assoc, ← BitVec.xor_assoc b, BitVec.xor_comm b c,
    BitVec.xor_assoc c]

theorem shift_xor (g s t : BitVec w) : shift g (s ^^^ t) = shift g s ^^^ shift g t := by
  have hf : (if (s ^^^ t).getLsbD 0 then g else 0#w) =
      (if s.getLsbD 0 then g else 0#w) ^^^ (if t.getLsbD 0 then g else 0#w) := by
    cases hs : s.getLsbD 0 <;> cases ht : t.getLsbD 0 <;> simp [hs, ht]
  rw [shift, hf, BitVec.ushiftRight_xor_distrib, xor_four]
  rfl

@[simp] theorem shift_zero (g : BitVec w) : shift g 0#w = 0#w := by simp [shift]

theorem lowBit_xor (a b : Bool) : (lowBit (xor a b) : BitVec w) = lowBit a ^^^ lowBit b := by
  cases a <;> cases b <;> simp [lowBit]

theorem feed_xor (g s t : BitVec w) (a b : Bool) :
    feed g (s ^^^ t) (xor a b) = feed g s a ^^^ feed g t b := by
  rw [feed, lowBit_xor, xor_four, shift_xor]
  rfl

/-- **Linearity.** -/
theorem run_xor (g s t : BitVec w) (xs ys : List Bool) (h : xs.length = ys.length) :
    run g (s ^^^ t) (List.zipWith xor xs ys) = run g s xs ^^^ run g t ys := by
  induction xs generalizing s t ys with
  | nil =>
    cases ys with
    | nil => rfl
    | cons y ys => simp at h
  | cons x xs ih =>
    cases ys with
    | nil => simp at h
    | cons y ys =>
      simp only [List.zipWith_cons_cons, run_cons, feed_xor]
      exact ih _ _ ys (by simpa using h)

theorem iterate_shift_xor (g s t : BitVec w) (n : Nat) :
    (shift g)^[n] (s ^^^ t) = (shift g)^[n] s ^^^ (shift g)^[n] t := by
  induction n generalizing s t with
  | zero => rfl
  | succ n ih => rw [Function.iterate_succ_apply, shift_xor, ih]; rfl

@[simp] theorem iterate_shift_zero (g : BitVec w) (n : Nat) : (shift g)^[n] 0#w = 0#w := by
  induction n with
  | zero => rfl
  | succ n ih => rw [Function.iterate_succ_apply, shift_zero, ih]

/-- Input bits that are not set only shift the register. -/
theorem run_replicate_false (g s : BitVec w) (n : Nat) :
    run g s (List.replicate n false) = (shift g)^[n] s := by
  induction n generalizing s with
  | zero => rfl
  | succ n ih =>
    rw [List.replicate_succ, run_cons, ih, Function.iterate_succ_apply]
    simp [feed, lowBit]

/-! ## Several bits at once -/

/-- The register that holds `bits`, the first one at its low end. -/
def pack : List Bool → BitVec w
  | [] => 0#w
  | b :: bits => lowBit b ^^^ (pack bits <<< 1)

theorem getLsbD_lowBit (b : Bool) (i : Nat) (hi : i < w) :
    (lowBit b : BitVec w).getLsbD i = (decide (i = 0) && b) := by
  cases b
  · simp [lowBit]
  · simp [lowBit, BitVec.getLsbD_one, show 0 < w by omega]

theorem getLsbD_pack (bits : List Bool) (i : Nat) (hi : i < w) :
    (pack bits : BitVec w).getLsbD i = bits.getD i false := by
  induction bits generalizing i with
  | nil => simp [pack]
  | cons b bits ih =>
    rw [pack, BitVec.getLsbD_xor, getLsbD_lowBit b i hi, BitVec.getLsbD_shiftLeft]
    cases i with
    | zero => simp
    | succ i => simpa [hi] using ih i (by omega)

/-- Shifting undoes a move to the left that loses no bit. -/
theorem shift_shiftLeft_one (g s : BitVec w) (h : s.getLsbD (w - 1) = false) :
    shift g (s <<< 1) = s := by
  have h0 : (s <<< 1).getLsbD 0 = false := by simp
  simp only [shift, h0, Bool.false_eq_true, ↓reduceIte, BitVec.xor_zero]
  apply BitVec.eq_of_getLsbD_eq
  intro i hi
  rw [BitVec.getLsbD_ushiftRight, BitVec.getLsbD_shiftLeft]
  by_cases hl : 1 + i < w
  · simp [hl]
  · have hi' : i = w - 1 := by omega
    simp [hi', h]

/-- **At most `w` bits at once.**  They may be added before all the shifts. -/
theorem run_eq_iterate (g s : BitVec w) (bits : List Bool) (h : bits.length ≤ w) :
    run g s bits = (shift g)^[bits.length] (s ^^^ pack bits) := by
  induction bits generalizing s with
  | nil => simp [pack]
  | cons b bits ih =>
    have hl : bits.length + 1 ≤ w := h
    have htop : (pack bits : BitVec w).getLsbD (w - 1) = false := by
      rw [getLsbD_pack bits (w - 1) (by omega), List.getD_eq_getElem?_getD,
        List.getElem?_eq_none (by omega)]
      rfl
    rw [run_cons, ih _ (by omega), List.length_cons, Function.iterate_succ_apply, feed, pack,
      ← BitVec.xor_assoc, shift_xor g (s ^^^ lowBit b), shift_shiftLeft_one g _ htop]

/-! ## Registers that do not become zero -/

theorem shift_eq_zero (g s : BitVec w) (hg : g.getLsbD (w - 1) = true) (h : shift g s = 0#w) :
    s = 0#w := by
  have hw : 0 < w := by
    by_contra hw
    have : w = 0 := by omega
    subst this
    simp at hg
  have h0 : s.getLsbD 0 = false := by
    have ht := congrArg (fun x => x.getLsbD (w - 1)) h
    cases hs : s.getLsbD 0
    · rfl
    · have ho : s.getLsbD (1 + (w - 1)) = false := BitVec.getLsbD_of_ge _ _ (by omega)
      simp [shift, hs, hg, ho] at ht
  apply BitVec.eq_of_getLsbD_eq
  intro i hi
  cases i with
  | zero => simpa using h0
  | succ i =>
    have hb := congrArg (fun x => x.getLsbD i) h
    simpa [shift, ← BitVec.getLsbD_eq_getElem, h0, Nat.add_comm] using hb

theorem iterate_shift_ne_zero (g s : BitVec w) (hg : g.getLsbD (w - 1) = true) (hs : s ≠ 0#w)
    (n : Nat) : (shift g)^[n] s ≠ 0#w := by
  induction n generalizing s with
  | zero => exact hs
  | succ n ih =>
    rw [Function.iterate_succ_apply]
    exact ih _ (fun h => hs (shift_eq_zero g s hg h))

theorem iterate_shift_injective (g : BitVec w) (hg : g.getLsbD (w - 1) = true) (n : Nat) :
    Function.Injective (shift g)^[n] := by
  intro s t h
  have hx : (shift g)^[n] (s ^^^ t) = 0#w := by
    rw [iterate_shift_xor, h, BitVec.xor_self]
  by_contra hne
  exact iterate_shift_ne_zero g _ hg (fun h0 => hne (BitVec.xor_eq_zero_iff.mp h0)) n hx

/-! ## Error patterns -/

/-- **Bursts.**  Set bits that lie within `w` consecutive places leave a mark. -/
theorem run_burst_ne_zero (g : BitVec w) (hg : g.getLsbD (w - 1) = true) (a c : Nat)
    (burst : List Bool) (hl : burst.length ≤ w) (ht : true ∈ burst) :
    run g 0#w (List.replicate a false ++ (burst ++ List.replicate c false)) ≠ 0#w := by
  have hp : (pack burst : BitVec w) ≠ 0#w := by
    intro h
    obtain ⟨i, hi, hb⟩ := List.mem_iff_getElem.mp ht
    have := getLsbD_pack (w := w) burst i (by omega)
    simp [h, hi, hb] at this
  rw [run_append, run_append, run_replicate_false g 0#w a, iterate_shift_zero,
    run_eq_iterate g _ _ hl, BitVec.zero_xor, run_replicate_false]
  exact iterate_shift_ne_zero g _ hg (iterate_shift_ne_zero g _ hg hp _) _

/-- **Two set bits** at a distance the register's period does not divide. -/
theorem run_two_ne_zero (g : BitVec w) (hg : g.getLsbD (w - 1) = true) (a d c : Nat)
    (hd : (shift g)^[d + 1] 1#w ≠ 1#w) :
    run g 0#w (List.replicate a false ++
      (true :: (List.replicate d false ++ true :: List.replicate c false))) ≠ 0#w := by
  rw [run_append, run_replicate_false, iterate_shift_zero, run_cons, run_append,
    run_replicate_false, run_cons, run_replicate_false]
  have hf : feed g 0#w true = shift g 1#w := by simp [feed, lowBit]
  rw [hf, ← Function.iterate_succ_apply]
  refine iterate_shift_ne_zero g _ hg (fun h => hd ?_) _
  have hz := shift_eq_zero g _ hg h
  rw [lowBit, if_pos rfl] at hz
  calc (shift g)^[d + 1] 1#w
      = ((shift g)^[d + 1] 1#w ^^^ 1#w) ^^^ 1#w := by
        rw [BitVec.xor_assoc, BitVec.xor_self, BitVec.xor_zero]
    _ = 1#w := by rw [hz, BitVec.zero_xor]

theorem eq_replicate_false (bits : List Bool) (h : true ∉ bits) :
    bits = List.replicate bits.length false := by
  rw [List.eq_replicate_iff]
  refine ⟨rfl, fun b hb => ?_⟩
  cases b
  · rfl
  · exact absurd hb h

/-- Split a bit string at its first set bit. -/
theorem exists_first_true (bits : List Bool) (h : true ∈ bits) :
    ∃ a rest, bits = List.replicate a false ++ true :: rest := by
  induction bits with
  | nil => simp at h
  | cons b bits ih =>
    cases b
    · obtain ⟨a, rest, e⟩ := ih (by simpa using h)
      exact ⟨a + 1, rest, by rw [e, List.replicate_succ]; rfl⟩
    · exact ⟨0, bits, rfl⟩

/-- **Bursts**, as a property of the positions of the set bits. -/
theorem run_ne_zero_of_burst (g : BitVec w) (hg : g.getLsbD (w - 1) = true) (bits : List Bool)
    (ht : true ∈ bits) (k : Nat) (h : ∀ i, bits[i]? = some true → k ≤ i ∧ i < k + w) :
    run g 0#w bits ≠ 0#w := by
  have hpre : true ∉ bits.take k := by
    intro hm
    obtain ⟨i, hi⟩ := List.mem_iff_getElem?.mp hm
    rw [List.getElem?_take] at hi
    split at hi
    · have := h i hi; omega
    · cases hi
  have hpost : true ∉ (bits.drop k).drop w := by
    intro hm
    obtain ⟨i, hi⟩ := List.mem_iff_getElem?.mp hm
    rw [List.drop_drop, List.getElem?_drop] at hi
    have := h _ hi
    omega
  have hsplit : bits = bits.take k ++ ((bits.drop k).take w ++ (bits.drop k).drop w) := by
    rw [List.take_append_drop, List.take_append_drop]
  have hmid : true ∈ (bits.drop k).take w := by
    rw [hsplit] at ht
    rcases List.mem_append.mp ht with hm | hm
    · exact absurd hm hpre
    · exact (List.mem_append.mp hm).resolve_right hpost
  rw [hsplit, eq_replicate_false _ hpre, eq_replicate_false _ hpost]
  exact run_burst_ne_zero g hg _ _ _ (List.length_take_le ..) hmid

/-- **Two errors**, as a property of the number of set bits. -/
theorem run_ne_zero_of_two (g : BitVec w) (hg : g.getLsbD (w - 1) = true) (bits : List Bool)
    (h : bits.count true = 2) (hper : ∀ d, d + 1 < bits.length → (shift g)^[d + 1] 1#w ≠ 1#w) :
    run g 0#w bits ≠ 0#w := by
  obtain ⟨a, rest, rfl⟩ := exists_first_true bits (List.count_pos_iff.mp (by omega))
  have h1 : rest.count true = 1 := by simpa [List.count_replicate] using h
  obtain ⟨d, rest, rfl⟩ := exists_first_true rest (List.count_pos_iff.mp (by omega))
  have h0 : rest.count true = 0 := by simpa [List.count_replicate] using h1
  rw [eq_replicate_false rest (List.count_eq_zero.mp h0)]
  refine run_two_ne_zero g hg a d _ (hper d ?_)
  simp only [List.length_append, List.length_replicate, List.length_cons]
  omega

/-! ## Parity -/

def parityBits (bits : List Bool) : Bool := bits.foldr xor false

def parity (s : BitVec w) : Bool := parityBits ((List.range w).map s.getLsbD)

theorem parityBits_map_xor {α : Type} (xs : List α) (f h : α → Bool) :
    parityBits (xs.map fun i => xor (f i) (h i)) =
      xor (parityBits (xs.map f)) (parityBits (xs.map h)) := by
  induction xs with
  | nil => rfl
  | cons x xs ih =>
    have e : ∀ (y : α) (k : α → Bool), parityBits ((y :: xs).map k) =
        xor (k y) (parityBits (xs.map k)) := fun _ _ => rfl
    rw [e, e, e, ih]
    cases f x <;> cases h x <;> cases parityBits (xs.map f) <;> simp

theorem parityBits_append (xs ys : List Bool) :
    parityBits (xs ++ ys) = xor (parityBits xs) (parityBits ys) := by
  induction xs with
  | nil => simp [parityBits]
  | cons x xs ih =>
    have e : ∀ zs : List Bool, parityBits (x :: zs) = xor x (parityBits zs) := fun _ => rfl
    rw [List.cons_append, e, e, ih, Bool.xor_assoc]

theorem parityBits_eq_odd (bits : List Bool) :
    parityBits bits = decide (bits.count true % 2 = 1) := by
  induction bits with
  | nil => rfl
  | cons b bits ih =>
    have e : parityBits (b :: bits) = xor b (parityBits bits) := rfl
    rw [e, ih, List.count_cons]
    cases b
    · simp
    · by_cases h : bits.count true % 2 = 1
      · simp [h]; omega
      · simp [h]; omega

theorem parity_xor (s t : BitVec w) : parity (s ^^^ t) = xor (parity s) (parity t) := by
  rw [parity, parity, parity, ← parityBits_map_xor]
  congr 1
  exact List.map_congr_left fun i _ => BitVec.getLsbD_xor

@[simp] theorem parity_zero : parity (0#w) = false := by
  have : ∀ n, parityBits ((List.range n).map (0#w).getLsbD) = false := by
    intro n
    induction n with
    | zero => rfl
    | succ n ih => rw [List.range_succ, List.map_append, parityBits_append, ih]; simp [parityBits]
  exact this w

/-- The bit that falls out of the register is all a plain shift loses. -/
theorem parity_ushiftRight_one (s : BitVec w) :
    parity (s >>> 1) = xor (parity s) (s.getLsbD 0) := by
  have hall : ∀ n, parityBits ((List.range (n + 1)).map s.getLsbD) =
      xor (s.getLsbD 0) (parityBits ((List.range n).map (s >>> 1).getLsbD)) := by
    intro n
    rw [List.range_succ_eq_map, List.map_cons, List.map_map]
    have hm : (List.range n).map (s.getLsbD ∘ Nat.succ) =
        (List.range n).map (s >>> 1).getLsbD := by
      apply List.map_congr_left
      intro i _
      simp [BitVec.getLsbD_ushiftRight, Nat.add_comm]
    rw [hm]
    rfl
  have hw : parityBits ((List.range (w + 1)).map s.getLsbD) = parity s := by
    rw [List.range_succ, List.map_append, parityBits_append]
    simp [parity, parityBits]
  have h := hall w
  rw [hw] at h
  rw [h]
  simp [parity, Bool.xor_comm]

/-- Feedback of an odd number of bits keeps the parity. -/
theorem parity_shift (g s : BitVec w) (hg : parity g = true) : parity (shift g s) = parity s := by
  rw [shift, parity_xor, parity_ushiftRight_one]
  cases hs : s.getLsbD 0 <;> cases parity s <;> simp [hg]

theorem parity_lowBit (b : Bool) (hw : 0 < w) : parity (lowBit b : BitVec w) = b := by
  obtain ⟨n, rfl⟩ : ∃ n, w = n + 1 := ⟨w - 1, by omega⟩
  have h := parity_ushiftRight_one (lowBit b : BitVec (n + 1))
  have hz : (lowBit b : BitVec (n + 1)) >>> 1 = 0#(n + 1) := by
    apply BitVec.eq_of_getLsbD_eq
    intro i hi
    rw [BitVec.getLsbD_ushiftRight]
    by_cases hl : 1 + i < n + 1
    · rw [getLsbD_lowBit b _ hl]; simp
    · simp [BitVec.getLsbD_of_ge _ _ (by omega : n + 1 ≤ 1 + i)]
  rw [hz, parity_zero, getLsbD_lowBit b 0 (by omega)] at h
  cases b <;> cases hp : parity (lowBit _ : BitVec (n + 1)) <;> simp_all

theorem parity_run (g s : BitVec w) (hw : 0 < w) (hg : parity g = true) (bits : List Bool) :
    parity (run g s bits) = xor (parity s) (parityBits bits) := by
  induction bits generalizing s with
  | nil => simp [parityBits]
  | cons b bits ih =>
    have e : parityBits (b :: bits) = xor b (parityBits bits) := rfl
    rw [run_cons, ih, feed, parity_shift g _ hg, parity_xor, parity_lowBit b hw, e, Bool.xor_assoc]

/-- **An odd number of set bits** leaves a mark. -/
theorem run_odd_ne_zero (g : BitVec w) (hw : 0 < w) (hg : parity g = true) (bits : List Bool)
    (hodd : bits.count true % 2 = 1) : run g 0#w bits ≠ 0#w := by
  intro h
  have hp := parity_run g 0#w hw hg bits
  rw [h, parity_zero, parityBits_eq_odd] at hp
  simp [hodd] at hp

/-! ## Distance -/

/-- Is `t` one of the `n` registers behind `s`? -/
def meets (g t : BitVec w) : Nat → BitVec w → Bool
  | 0, _ => false
  | n + 1, s => shift g s == t || meets g t n (shift g s)

theorem iterate_ne_of_meets {g t : BitVec w} {n : Nat} {s : BitVec w}
    (h : meets g t n s = false) {d : Nat} (hd : d < n) : (shift g)^[d + 1] s ≠ t := by
  induction n generalizing s d with
  | zero => omega
  | succ n ih =>
    rw [meets, Bool.or_eq_false_iff] at h
    cases d with
    | zero => exact beq_eq_false_iff_ne.mp h.1
    | succ d =>
      rw [Function.iterate_succ_apply]
      exact ih h.2 (by omega)

/-- **Distance.**  Fewer set bits than four are an odd number of them or two, and leave a mark. -/
theorem four_le_count (g : BitVec w) (hw : 0 < w) (hg : g.getLsbD (w - 1) = true)
    (hodd : parity g = true) (bits : List Bool) (ht : true ∈ bits)
    (hper : ∀ d, d + 1 < bits.length → (shift g)^[d + 1] 1#w ≠ 1#w)
    (h : run g 0#w bits = 0#w) : 4 ≤ bits.count true := by
  have hpos : 0 < bits.count true := List.count_pos_iff.mpr ht
  have heven : bits.count true % 2 ≠ 1 := fun h1 => run_odd_ne_zero g hw hodd bits h1 h
  have htwo : bits.count true ≠ 2 := fun h2 => run_ne_zero_of_two g hg bits h2 hper h
  omega

end DeepSpace.ShiftRegister
