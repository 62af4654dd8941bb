import DeepSpace.Bitwise
import DeepSpace.BitStream

/-!
# `arithmetic_coding.cpp`: the coder

The bodies follow the source.  A `long long` is an integer, and `update` and `underflow`
check that what they compute fits one.  The renormalisation loops call the virtual
methods of the subclass; 32 rounds of each suffice for a 32-bit interval.
-/

namespace DeepSpace.ArithmeticCoding

/-! ## `ArithmeticCoderBase` -/

def STATE_SIZE : Nat := 32
def MAX_RANGE : Int := 1 <<< STATE_SIZE
def MIN_RANGE : Int := (MAX_RANGE >>> (2 : Nat)) + 2
def MAX_TOTAL : Int := MIN_RANGE
def MASK : Int := MAX_RANGE - 1
def TOP_MASK : Int := MAX_RANGE >>> (1 : Nat)
def SECOND_MASK : Int := TOP_MASK >>> (1 : Nat)

/-- An object of a subclass of `ArithmeticCoderBase`, whose own members are `sub`. -/
structure Coder (δ : Type) where
  low : Int
  high : Int
  sub : δ
  deriving DecidableEq, Repr

/-- `m_low (0), m_high (MASK)`. -/
def Coder.fresh {δ : Type} (sub : δ) : Coder δ := ⟨0, MASK, sub⟩

/-- The virtual methods. -/
structure Virtual (δ : Type) where
  shift : Coder δ → Result (Coder δ)
  underflow : Coder δ → Result (Coder δ)

variable {δ : Type} (v : Virtual δ)

/-- `while (((m_low ^ m_high) & TOP_MASK) == 0)`. -/
def shiftLoop : Nat → Coder δ → Result (Coder δ)
  | 0, c => .ok c
  | n + 1, c =>
    if (c.low.xor c.high).land TOP_MASK = 0 then
      (v.shift c).andThen fun c => shiftLoop n { c with
        low := (c.low <<< (1 : Nat)).land MASK
        high := ((c.high <<< (1 : Nat)).land MASK).lor 1 }
    else .ok c

/-- `while ((m_low & ~m_high & SECOND_MASK) != 0)`. -/
def underflowLoop : Nat → Coder δ → Result (Coder δ)
  | 0, c => .ok c
  | n + 1, c =>
    if (c.low.land (~~~c.high)).land SECOND_MASK ≠ 0 then
      (v.underflow c).andThen fun c => underflowLoop n { c with
        low := (c.low <<< (1 : Nat)).land (MASK >>> (1 : Nat))
        high := (((c.high <<< (1 : Nat)).land (MASK >>> (1 : Nat))).lor TOP_MASK).lor 1 }
    else .ok c

/-- The two loops of `update`. -/
def renormalise (c : Coder δ) : Result (Coder δ) :=
  (shiftLoop v STATE_SIZE c).andThen (underflowLoop v STATE_SIZE)

/-- `x` is a `long long`. -/
def FitsInt64 (x : Int) : Prop := -2 ^ 63 ≤ x ∧ x < 2 ^ 63

instance (x : Int) : Decidable (FitsInt64 x) := inferInstanceAs (Decidable (_ ∧ _))

/-- What one call codes: the arguments of `update` that it reads. -/
structure Call where
  total : Int
  symlow : Int
  symhigh : Int
  deriving DecidableEq, Repr

def Coder.range (c : Coder δ) : Int := c.high - c.low

def Coder.newlow (c : Coder δ) (a : Call) : Int := c.low + (a.symlow * c.range).tdiv a.total

def Coder.newhigh (c : Coder δ) (a : Call) : Int :=
  c.low + (a.symhigh * c.range).tdiv a.total - 1

/-- The sums, products and quotients of `update`. -/
def Coder.terms (c : Coder δ) (a : Call) : List Int :=
  [c.range, a.symlow * c.range, (a.symlow * c.range).tdiv a.total, c.newlow a,
    a.symhigh * c.range, (a.symhigh * c.range).tdiv a.total,
    c.low + (a.symhigh * c.range).tdiv a.total, c.newhigh a]

def update (a : Call) (c : Coder δ) : Result (Coder δ) :=
  if a.total > MAX_TOTAL then .threw "Cannot code symbol because total is too large" c
  else if a.total = 0 ∨ ¬ ∀ x ∈ c.terms a, FitsInt64 x then .undefined
  else renormalise v { c with low := c.newlow a, high := c.newhigh a }

/-! ## `ArithmeticEncoder` -/

/-- The members of `ArithmeticEncoder`.  The count is a `long long`, and never negative. -/
structure EncoderMembers where
  cBitOut : CountingBitOutputStream
  numUnderflow : Nat
  deriving DecidableEq, Repr

abbrev ArithmeticEncoder := Coder EncoderMembers

def ArithmeticEncoder.fresh : ArithmeticEncoder := Coder.fresh ⟨.fresh, 0⟩

/-- `for (int i = 0; i < m_num_underflow; i++) m_c_bit_out.write (b)`, with `n` rounds to go.
`i++` has no value beyond that of an `int`. -/
def writeTimes (b : UInt8) : Nat → Int32 → CountingBitOutputStream → Result CountingBitOutputStream
  | 0, _, s => .ok s
  | n + 1, i, s => (s.write b).andThen fun s =>
    if i = Int32.maxValue then .undefined else writeTimes b n (i + 1) s

def ArithmeticEncoder.shift (e : ArithmeticEncoder) : Result ArithmeticEncoder :=
  let bit := UInt8.ofInt (e.low >>> (STATE_SIZE - 1))
  (((e.sub.cBitOut.write bit).andThen (writeTimes (bit ^^^ 1) e.sub.numUnderflow 0)).within
    fun cBitOut => { e with sub := { e.sub with cBitOut } }).andThen
    fun e => .ok { e with sub := { e.sub with numUnderflow := 0 } }

def ArithmeticEncoder.underflow (e : ArithmeticEncoder) : Result ArithmeticEncoder :=
  if FitsInt64 (e.sub.numUnderflow + 1) then
    .ok { e with sub := { e.sub with numUnderflow := e.sub.numUnderflow + 1 } }
  else .undefined

def ArithmeticEncoder.virtual : Virtual EncoderMembers :=
  ⟨ArithmeticEncoder.shift, ArithmeticEncoder.underflow⟩

/-- The source passes the symbol along, which `update` does not read. -/
def ArithmeticEncoder.write (a : Call) (e : ArithmeticEncoder) : Result ArithmeticEncoder :=
  update ArithmeticEncoder.virtual a e

def ArithmeticEncoder.finish (e : ArithmeticEncoder) : Result ArithmeticEncoder :=
  (e.sub.cBitOut.write 1).within fun cBitOut => { e with sub := { e.sub with cBitOut } }

/-! ## Runs -/

/-- One `update` after the other. -/
def updates : List Call → Coder δ → Result (Coder δ)
  | [], c => .ok c
  | a :: as, c => (update v a c).andThen (updates as)

/-- One `write` after the other. -/
abbrev writes : List Call → ArithmeticEncoder → Result ArithmeticEncoder :=
  updates ArithmeticEncoder.virtual

/-- `c_bit_out.close ()`. -/
def ArithmeticEncoder.close (e : ArithmeticEncoder) : Result ArithmeticEncoder :=
  e.sub.cBitOut.close.within fun cBitOut => { e with sub := { e.sub with cBitOut } }

/-- A fresh encoder, the calls, `finish` and `close`. -/
def encode (as : List Call) : Result ArithmeticEncoder :=
  ((writes as .fresh).andThen ArithmeticEncoder.finish).andThen ArithmeticEncoder.close

def ArithmeticEncoder.file (e : ArithmeticEncoder) : List UInt8 := e.sub.cBitOut.bitOut.bitOut

end DeepSpace.ArithmeticCoding
