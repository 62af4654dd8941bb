import DeepSpace.ArithmeticCoding

/-!
# `scripts/arithmetic_coding.py`: the reference coder

The bodies follow the source, on unbounded integers.  The renormalisation loops are
those of the C++ coder, statement by statement, and are shared with it.  A table
answers with its true prefix sums.
-/

namespace DeepSpace.Reference

open DeepSpace.ArithmeticCoding

/-! ## Frequency tables -/

structure FrequencyTable where
  frequencies : List Nat
  deriving DecidableEq, Repr

namespace FrequencyTable

def getSymbolLimit (t : FrequencyTable) : Nat := t.frequencies.length

def getTotal (t : FrequencyTable) : Int := t.frequencies.sum

def getLow (t : FrequencyTable) (symbol : Nat) : Int := (t.frequencies.take symbol).sum

def getHigh (t : FrequencyTable) (symbol : Nat) : Int := (t.frequencies.take (symbol + 1)).sum

end FrequencyTable

/-! ## `ArithmeticCoderBase.update` -/

variable {δ : Type} (v : Virtual δ)

def range (c : Coder δ) : Int := c.high - c.low + 1

def newlow (t : FrequencyTable) (symbol : Nat) (c : Coder δ) : Int :=
  c.low + (t.getLow symbol * range c).fdiv t.getTotal

def newhigh (t : FrequencyTable) (symbol : Nat) (c : Coder δ) : Int :=
  c.low + (t.getHigh symbol * range c).fdiv t.getTotal - 1

def update (t : FrequencyTable) (symbol : Nat) (c : Coder δ) : Result (Coder δ) :=
  if t.getTotal > MAX_TOTAL then .threw "Cannot code symbol because total is too large" c
  else if t.getTotal = 0 then .threw "integer division or modulo by zero" c
  else renormalise v { c with low := newlow t symbol c, high := newhigh t symbol c }

/-! ## Bit output -/

theorem shiftLeft_or_lt {x b n : Nat} (hx : x < 2 ^ n) (hb : b < 2 ^ 1) :
    x <<< 1 ||| b < 2 ^ (n + 1) := by
  rw [Nat.shiftLeft_eq, Nat.mul_comm, ← Nat.two_pow_add_eq_or_of_lt hb, pow_succ]
  omega

structure BitOutputStream where
  output : List UInt8
  currentbyte : Nat
  numbitsfilled : Nat
  currentbyte_lt : currentbyte < 2 ^ numbitsfilled
  numbitsfilled_lt : numbitsfilled < 8
  deriving Repr

namespace BitOutputStream

def fresh : BitOutputStream := ⟨[], 0, 0, by decide, eight_pos⟩

def write (b : Int) (s : BitOutputStream) : Result BitOutputStream :=
  if hb : ¬ (b = 0 ∨ b = 1) then .threw "Argument must be 0 or 1" s
  else
    let currentbyte := s.currentbyte <<< 1 ||| b.toNat
    let numbitsfilled := s.numbitsfilled + 1
    have hc : currentbyte < 2 ^ numbitsfilled := shiftLeft_or_lt s.currentbyte_lt (by omega)
    if h : numbitsfilled = 8 then
      .ok ⟨s.output ++ [UInt8.ofNatLT currentbyte (by rw [h] at hc; exact hc)], 0, 0, by decide,
        eight_pos⟩
    else .ok ⟨s.output, currentbyte, numbitsfilled, hc, by have := s.numbitsfilled_lt; omega⟩

def closeLoop : Nat → BitOutputStream → Result BitOutputStream
  | 0, s => .ok s
  | n + 1, s => if s.numbitsfilled ≠ 0 then (s.write 0).andThen (closeLoop n) else .ok s

def close (s : BitOutputStream) : Result BitOutputStream := closeLoop 8 s

end BitOutputStream

structure CountingBitOutputStream where
  numBits : Nat
  bitOut : BitOutputStream
  deriving Repr

namespace CountingBitOutputStream

def fresh : CountingBitOutputStream := ⟨0, .fresh⟩

def write (b : Int) (s : CountingBitOutputStream) : Result CountingBitOutputStream :=
  (s.bitOut.write b).within fun bitOut => ⟨s.numBits + 1, bitOut⟩

def close (s : CountingBitOutputStream) : Result CountingBitOutputStream :=
  s.bitOut.close.within fun bitOut => ⟨s.numBits + (8 - s.numBits % 8) % 8, bitOut⟩

end CountingBitOutputStream

/-! ## `ArithmeticEncoder` -/

structure EncoderMembers where
  output : CountingBitOutputStream
  numUnderflow : Nat
  deriving Repr

abbrev ArithmeticEncoder := Coder EncoderMembers

namespace ArithmeticEncoder

def fresh : ArithmeticEncoder := Coder.fresh ⟨.fresh, 0⟩

/-- `n` times `self.output.write (b)`. -/
def writeTimes (b : Int) : Nat → CountingBitOutputStream → Result CountingBitOutputStream
  | 0, s => .ok s
  | n + 1, s => (s.write b).andThen (writeTimes b n)

def shift (e : ArithmeticEncoder) : Result ArithmeticEncoder :=
  let bit := e.low >>> (STATE_SIZE - 1)
  (((e.sub.output.write bit).andThen (writeTimes (bit.xor 1) e.sub.numUnderflow)).within
    fun output => { e with sub := { e.sub with output } }).andThen
    fun e => .ok { e with sub := { e.sub with numUnderflow := 0 } }

def underflow (e : ArithmeticEncoder) : Result ArithmeticEncoder :=
  .ok { e with sub := { e.sub with numUnderflow := e.sub.numUnderflow + 1 } }

def virtual : Virtual EncoderMembers := ⟨shift, underflow⟩

def write (t : FrequencyTable) (symbol : Nat) (e : ArithmeticEncoder) : Result ArithmeticEncoder :=
  update virtual t symbol e

def finish (e : ArithmeticEncoder) : Result ArithmeticEncoder :=
  (e.sub.output.write 1).within fun output => { e with sub := { e.sub with output } }

/-- `bit_out.close ()`. -/
def close (e : ArithmeticEncoder) : Result ArithmeticEncoder :=
  e.sub.output.close.within fun output => { e with sub := { e.sub with output } }

def file (e : ArithmeticEncoder) : List UInt8 := e.sub.output.bitOut.output

end ArithmeticEncoder

/-- One `write` after the other. -/
def writes : List (FrequencyTable × Nat) → ArithmeticEncoder → Result ArithmeticEncoder
  | [], e => .ok e
  | (t, symbol) :: steps, e => (e.write t symbol).andThen (writes steps)

/-- A fresh encoder, the symbols, `finish` and `close`. -/
def encode (steps : List (FrequencyTable × Nat)) : Result ArithmeticEncoder :=
  ((writes steps .fresh).andThen ArithmeticEncoder.finish).andThen ArithmeticEncoder.close

/-! ## `BitInputStream` -/

/-- `none` is the `currentbyte` -1. -/
structure BitInputStream where
  input : List UInt8
  currentbyte : Option UInt8
  numbitsremaining : Nat
  deriving DecidableEq, Repr

namespace BitInputStream

def ofFile (file : List UInt8) : BitInputStream := ⟨file, some 0, 0⟩

/-- `(self.currentbyte >> self.numbitsremaining) & 1`, after the count went down to `n`. -/
def bit (b : UInt8) (n : Nat) : Int := ((b.toNat >>> n &&& 1 : Nat) : Int)

def read (s : BitInputStream) : Int × BitInputStream :=
  match s.currentbyte with
  | none => (-1, s)
  | some b =>
    match s.numbitsremaining with
    | 0 =>
      match s.input with
      | [] => (-1, { s with currentbyte := none })
      | b :: input => (bit b 7, ⟨input, some b, 7⟩)
    | n + 1 => (bit b n, { s with numbitsremaining := n })

end BitInputStream

/-! ## `ArithmeticDecoder` -/

structure DecoderMembers where
  input : BitInputStream
  code : Int
  deriving DecidableEq, Repr

def DecoderMembers.readCodeBit (m : DecoderMembers) : Int × DecoderMembers :=
  let (temp, input) := m.input.read
  (if temp = -1 then 0 else temp, { m with input })

abbrev ArithmeticDecoder := Coder DecoderMembers

namespace ArithmeticDecoder

/-- The loop of `__init__`. -/
def fill : Nat → DecoderMembers → DecoderMembers
  | 0, m => m
  | n + 1, m =>
    let (bit, m) := m.readCodeBit
    fill n { m with code := (m.code <<< (1 : Nat)).lor bit }

def ofFile (file : List UInt8) : ArithmeticDecoder :=
  Coder.fresh (fill STATE_SIZE ⟨.ofFile file, 0⟩)

def shift (d : ArithmeticDecoder) : Result ArithmeticDecoder :=
  let (bit, m) := d.sub.readCodeBit
  .ok { d with sub := { m with code := ((m.code <<< (1 : Nat)).land MASK).lor bit } }

def underflow (d : ArithmeticDecoder) : Result ArithmeticDecoder :=
  let (bit, m) := d.sub.readCodeBit
  .ok { d with sub := { m with
    code := ((m.code.land TOP_MASK).lor
      ((m.code <<< (1 : Nat)).land (MASK >>> (1 : Nat)))).lor bit } }

def virtual : Virtual DecoderMembers := ⟨shift, underflow⟩

/-- The search of `read`; each round shrinks `[start, stop)`. -/
def search (t : FrequencyTable) (value : Int) : Nat → Nat → Nat → Nat
  | 0, start, _ => start
  | n + 1, start, stop =>
    if stop - start > 1 then
      let middle := (start + stop) >>> 1
      if t.getLow middle > value then search t value n start middle
      else search t value n middle stop
    else start

/-- The symbol that `read` finds. -/
def symbol (t : FrequencyTable) (d : ArithmeticDecoder) : Nat :=
  let offset := d.sub.code - d.low
  let value := ((offset + 1) * t.getTotal - 1).fdiv (range d)
  search t value t.getSymbolLimit 0 t.getSymbolLimit

/-- The symbol, and the decoder after it. -/
def read (t : FrequencyTable) (d : ArithmeticDecoder) : Nat × Result ArithmeticDecoder :=
  if t.getTotal > MAX_TOTAL then
    (0, .threw "Cannot decode symbol because total is too large" d)
  else if range d = 0 then (0, .threw "integer division or modulo by zero" d)
  else (d.symbol t, update virtual t (d.symbol t) d)

/-- `n` symbols, as far as no call raises an exception. -/
def reads (t : FrequencyTable) : Nat → ArithmeticDecoder → List Nat
  | 0, _ => []
  | n + 1, d =>
    match d.read t with
    | (symbol, .ok d) => symbol :: reads t n d
    | _ => []

end ArithmeticDecoder

/-- The first `n` symbols of a file. -/
def decode (t : FrequencyTable) (file : List UInt8) (n : Nat) : List Nat :=
  (ArithmeticDecoder.ofFile file).reads t n

end DeepSpace.Reference
