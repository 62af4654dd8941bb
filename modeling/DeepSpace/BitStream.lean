import Mathlib.Data.List.Basic
import Mathlib.Data.Nat.Bitwise
import Mathlib.Tactic.Ring

/-!
# `arithmetic_coding.cpp`: the bit output streams

The two layers of the output as the language runs them: a `char` that may be signed, and an `int`
that must not overflow.

* `write_bits`: a written bit is appended to the bits of the stream;
* `close_bits`: closing pads them with zeros to whole bytes;
* `writeChar_eq`: the byte that is filled never has its top bit set before it is full, so that
  nothing depends on the sign of `char`;
* `Counts.write`, `Counts.write_full`: the counter is the number of the bits, and a bit more than
  an `int` counts is undefined;
* `codeBit`: the bits of a file, followed by zeros for ever.
-/

namespace DeepSpace.ArithmeticCoding

/-! ## Outcomes -/

/-- What a method leaves: the object, the object and an exception, or undefined
behaviour. -/
inductive Result (σ : Type) where
  | ok (s : σ)
  | threw (message : String) (s : σ)
  | undefined
  deriving DecidableEq, Repr

def Result.andThen {σ : Type} (f : σ → Result σ) : Result σ → Result σ
  | .ok s => f s
  | .threw message s => .threw message s
  | .undefined => .undefined

/-- The outcome for an object that holds the first one as a member. -/
def Result.within {σ τ : Type} (put : σ → τ) : Result σ → Result τ
  | .ok s => .ok (put s)
  | .threw message s => .threw message (put s)
  | .undefined => .undefined

/-- The object, unless the outcome is undefined. -/
def Result.object? {σ : Type} : Result σ → Option σ
  | .ok s => some s
  | .threw _ s => some s
  | .undefined => none

@[simp] theorem andThen_ok {σ : Type} (f : σ → Result σ) (s : σ) : (Result.ok s).andThen f = f s :=
  rfl

@[simp] theorem within_ok {σ τ : Type} (put : σ → τ) (s : σ) :
    (Result.ok s).within put = .ok (put s) := rfl

theorem andThen_eq_ok {σ : Type} {f : σ → Result σ} {r : Result σ} {t : σ}
    (h : r.andThen f = .ok t) : ∃ s, r = .ok s ∧ f s = .ok t := by
  cases r with
  | ok s => exact ⟨s, rfl, h⟩
  | threw message s => cases h
  | undefined => cases h

theorem within_eq_ok {σ τ : Type} {put : σ → τ} {r : Result σ} {t : τ}
    (h : r.within put = .ok t) : ∃ s, r = .ok s ∧ t = put s := by
  cases r with
  | ok s =>
    cases h
    exact ⟨s, rfl, rfl⟩
  | threw message s => cases h
  | undefined => cases h

/-! ## Streams -/

/-- `(int)temp`, for a `char` that is signed or not. -/
def charInt (signed : Bool) (temp : UInt8) : Int :=
  if signed ∧ 128 ≤ temp.toNat then temp.toNat - 256 else temp.toNat

/-- `(m_currentbyte << 1) | b`, back in a `char`; a negative `int` has no shift. -/
def shiftIn (signed : Bool) (currentbyte b : UInt8) : Option UInt8 :=
  if charInt signed currentbyte < 0 then none
  else some (UInt8.ofNat ((charInt signed currentbyte).toNat <<< 1 ||| (charInt signed b).toNat))

theorem eight_pos : 0 < 8 := by decide

/-- `BitOutputStream`; `bitOut` is what the file holds. -/
structure BitOutputStream where
  bitOut : List UInt8
  currentbyte : UInt8
  numbitsfilled : Nat
  numbitsfilled_lt : numbitsfilled < 8
  deriving DecidableEq, Repr

namespace BitOutputStream

def fresh : BitOutputStream := ⟨[], 0, 0, eight_pos⟩

theorem filled_succ (s : BitOutputStream) (h : ¬ s.numbitsfilled + 1 = 8) :
    s.numbitsfilled + 1 < 8 := Nat.lt_of_le_of_ne s.numbitsfilled_lt h

variable (signed : Bool)

def writeChar (b : UInt8) (s : BitOutputStream) : Result BitOutputStream :=
  if charInt signed b ≠ 0 ∧ charInt signed b ≠ 1 then .threw "Argument must be 0 or 1" s
  else
    match shiftIn signed s.currentbyte b with
    | none => .undefined
    | some currentbyte =>
      let numbitsfilled := s.numbitsfilled + 1
      if h : numbitsfilled = 8 then .ok ⟨s.bitOut ++ [currentbyte], 0, 0, eight_pos⟩
      else .ok ⟨s.bitOut, currentbyte, numbitsfilled, s.filled_succ h⟩

/-- The loop of `close`; a byte is full after at most eight rounds. -/
def closeCharLoop : Nat → BitOutputStream → Result BitOutputStream
  | 0, s => .ok s
  | n + 1, s =>
    if s.numbitsfilled ≠ 0 then (s.writeChar signed 0).andThen (closeCharLoop n) else .ok s

def closeChar (s : BitOutputStream) : Result BitOutputStream := closeCharLoop signed 8 s

/-- On the target, `char` is unsigned. -/
def write : UInt8 → BitOutputStream → Result BitOutputStream := writeChar false

abbrev closeLoop : Nat → BitOutputStream → Result BitOutputStream := closeCharLoop false

def close : BitOutputStream → Result BitOutputStream := closeChar false

end BitOutputStream

/-- `CountingBitOutputStream`. -/
structure CountingBitOutputStream where
  numBits : Int32
  bitOut : BitOutputStream
  deriving DecidableEq, Repr

namespace CountingBitOutputStream

def fresh : CountingBitOutputStream := ⟨0, .fresh⟩

variable (signed : Bool)

/-- `m_num_bits++` has no value beyond that of an `int`. -/
def writeChar (b : UInt8) (s : CountingBitOutputStream) : Result CountingBitOutputStream :=
  if s.numBits = Int32.maxValue then .undefined
  else (s.bitOut.writeChar signed b).within fun bitOut => ⟨s.numBits + 1, bitOut⟩

def closeChar (s : CountingBitOutputStream) : Result CountingBitOutputStream :=
  let padding := (8 - s.numBits % 8) % 8
  if 2 ^ 31 ≤ s.numBits.toInt + padding.toInt then .undefined
  else (s.bitOut.closeChar signed).within fun bitOut => ⟨s.numBits + padding, bitOut⟩

def write : UInt8 → CountingBitOutputStream → Result CountingBitOutputStream := writeChar false

def close : CountingBitOutputStream → Result CountingBitOutputStream := closeChar false

end CountingBitOutputStream

/-! ## The bits of a stream -/

/-- The `n` low bits of `x`, highest first. -/
def lowBits (x : Nat) : Nat → List Bool
  | 0 => []
  | n + 1 => x.testBit n :: lowBits x n

def fileBits (file : List UInt8) : List Bool := file.flatMap fun b => lowBits b.toNat 8

def BitOutputStream.bits (s : BitOutputStream) : List Bool :=
  fileBits s.bitOut ++ lowBits s.currentbyte.toNat s.numbitsfilled

/-- Bit `i` of a file that is followed by zeros for ever. -/
def codeBit (file : List UInt8) (i : Nat) : Bool := (fileBits file)[i]?.getD false

/-- A bit as the `char` that `write` takes. -/
def bitChar (b : Bool) : UInt8 := if b then 1 else 0

@[simp] theorem lowBits_length (x n : Nat) : (lowBits x n).length = n := by
  induction n with
  | zero => rfl
  | succ n ih => simp [lowBits, ih]

theorem lowBits_append (x n : Nat) (b : Bool) :
    lowBits (2 * x + b.toNat) (n + 1) = lowBits x n ++ [b] := by
  induction n with
  | zero =>
    cases b <;> simp [lowBits, Nat.testBit_zero]
  | succ n ih =>
    have h : (2 * x + b.toNat).testBit (n + 1) = x.testBit n := by
      rw [Nat.testBit_succ]
      congr 1
      cases b <;> simp only [Bool.toNat_false, Bool.toNat_true] <;> omega
    rw [lowBits, ih, h, lowBits, List.cons_append]

theorem lowBits_mod (x m n : Nat) (h : n ≤ m) : lowBits (x % 2 ^ m) n = lowBits x n := by
  induction n with
  | zero => rfl
  | succ n ih =>
    rw [lowBits, lowBits, ih (by omega), Nat.testBit_mod_two_pow,
      decide_eq_true (show n < m from h),
      Bool.true_and]

theorem toNat_shift_or (x : UInt8) (b : Bool) :
    (x <<< 1 ||| bitChar b).toNat = (2 * x.toNat + b.toNat) % 2 ^ 8 := by
  have hb : b.toNat < 2 := by cases b <;> decide
  have hbc : (bitChar b).toNat = b.toNat := by cases b <;> rfl
  have hs : (x <<< 1).toNat = 2 ^ 1 * (x.toNat % 128) := by
    rw [UInt8.toNat_shiftLeft, Nat.shiftLeft_eq]
    change x.toNat * 2 % 256 = 2 * (x.toNat % 128)
    omega
  have hor := Nat.two_pow_add_eq_or_of_lt (i := 1) hb (x.toNat % 128)
  rw [UInt8.toNat_or, hbc, hs, ← hor]
  omega

theorem fileBits_append (f g : List UInt8) : fileBits (f ++ g) = fileBits f ++ fileBits g :=
  List.flatMap_append

theorem fileBits_length (f : List UInt8) : (fileBits f).length = 8 * f.length := by
  induction f with
  | nil => rfl
  | cons b f ih =>
    rw [fileBits, List.flatMap_cons, List.length_append, lowBits_length, List.length_cons,
      ← fileBits,
      ih]
    omega

/-! ## Characters -/

theorem charInt_of_lt {signed : Bool} {c : UInt8} (h : c.toNat < 128) :
    charInt signed c = c.toNat := if_neg fun hc => absurd hc.2 (by omega)

theorem charInt_unsigned (c : UInt8) : charInt false c = c.toNat :=
  if_neg fun hc => absurd hc.1 (by decide)

theorem charInt_bitChar (signed : Bool) (b : Bool) : charInt signed (bitChar b) = b.toNat := by
  cases b <;> cases signed <;> decide

theorem shiftIn_unsigned (c b : UInt8) : shiftIn false c b = some (c <<< 1 ||| b) := by
  rw [shiftIn, charInt_unsigned, charInt_unsigned, if_neg (by omega)]
  refine congrArg some (UInt8.toNat_inj.mp ?_)
  rw [UInt8.toNat_ofNat', UInt8.toNat_or, UInt8.toNat_shiftLeft, Int.toNat_natCast,
    Int.toNat_natCast, Nat.or_mod_two_pow, Nat.mod_eq_of_lt b.toNat_lt]
  rfl

theorem shiftIn_eq (signed : Bool) {c : UInt8} (h : c.toNat < 128) (b : Bool) :
    shiftIn signed c (bitChar b) = some (c <<< 1 ||| bitChar b) := by
  rw [← shiftIn_unsigned, shiftIn, shiftIn, charInt_of_lt h, charInt_of_lt h, charInt_bitChar,
    charInt_bitChar]

/-- An unsigned `char` is a byte. -/
theorem BitOutputStream.write_eq (b : UInt8) (s : BitOutputStream) : s.write b =
    if b ≠ 0 ∧ b ≠ 1 then .threw "Argument must be 0 or 1" s
    else if h : s.numbitsfilled + 1 = 8 then
      .ok ⟨s.bitOut ++ [s.currentbyte <<< 1 ||| b], 0, 0, eight_pos⟩
    else .ok ⟨s.bitOut, s.currentbyte <<< 1 ||| b, s.numbitsfilled + 1, s.filled_succ h⟩ := by
  have h0 : charInt false b ≠ 0 ↔ b ≠ 0 := by
    rw [charInt_unsigned, ne_eq, ne_eq, Int.natCast_eq_zero, ← UInt8.toNat_inj]
    rfl
  have h1 : charInt false b ≠ 1 ↔ b ≠ 1 := by
    rw [charInt_unsigned, ne_eq, ne_eq, Nat.cast_eq_one, ← UInt8.toNat_inj]
    rfl
  simp only [write, writeChar, shiftIn_unsigned, h0, h1]

/-- **Writing a bit.** -/
theorem write_bits (s : BitOutputStream) (b : Bool) :
    ∃ s', s.write (bitChar b) = .ok s' ∧ s'.bits = s.bits ++ [b] ∧
      s'.numbitsfilled = (s.numbitsfilled + 1) % 8 := by
  have hb : ¬ (bitChar b ≠ 0 ∧ bitChar b ≠ 1) := by cases b <;> decide
  have hn := s.numbitsfilled_lt
  have hlow : lowBits (s.currentbyte <<< 1 ||| bitChar b).toNat (s.numbitsfilled + 1) =
      lowBits s.currentbyte.toNat s.numbitsfilled ++ [b] := by
    rw [toNat_shift_or, lowBits_mod _ _ _ (by omega), lowBits_append]
  rw [BitOutputStream.write_eq, if_neg hb]
  by_cases h : s.numbitsfilled + 1 = 8
  · refine ⟨_, dif_pos h, ?_, by rw [h]⟩
    rw [h] at hlow
    simp only [BitOutputStream.bits, fileBits_append, lowBits, List.append_nil, List.append_assoc]
    rw [← hlow]
    simp [fileBits]
  · refine ⟨_, dif_neg h, ?_, ?_⟩
    · simp only [BitOutputStream.bits, hlow, List.append_assoc]
    · exact (Nat.mod_eq_of_lt (show s.numbitsfilled + 1 < 8 by omega)).symm

theorem closeLoop_bits (n : Nat) (s : BitOutputStream)
    (h : s.numbitsfilled = 0 ∨ 8 ≤ s.numbitsfilled + n) :
    ∃ s' p, s.closeLoop n = .ok s' ∧ s'.numbitsfilled = 0 ∧ (s.numbitsfilled + p) % 8 = 0 ∧
      p < 8 ∧ s'.bits = s.bits ++ List.replicate p false := by
  have hn := s.numbitsfilled_lt
  induction n generalizing s with
  | zero => exact ⟨s, 0, rfl, by omega, by omega, by decide, (List.append_nil _).symm⟩
  | succ n ih =>
    by_cases h0 : s.numbitsfilled = 0
    · exact ⟨s, 0, if_neg (not_not.mpr h0), h0, by omega, by decide, (List.append_nil _).symm⟩
    · obtain ⟨s₁, hw, hb, hf⟩ := write_bits s false
      obtain ⟨s', p, hrun, hz, hp, hlt, hbits⟩ := ih s₁ (by omega) s₁.numbitsfilled_lt
      refine ⟨s', (8 - s.numbitsfilled) % 8, ?_, hz, by omega, by omega, ?_⟩
      · rw [BitOutputStream.closeLoop, BitOutputStream.closeCharLoop, if_pos h0]
        change (s.write (bitChar false)).andThen _ = _
        rw [hw]
        exact hrun
      · have e : (8 - s.numbitsfilled) % 8 = p + 1 := by omega
        rw [hbits, hb, e, List.replicate_succ, List.append_assoc]
        rfl

/-- **Closing.**  The file holds the bits, padded with zeros to whole bytes. -/
theorem close_bits (s : BitOutputStream) :
    ∃ s' p, s.close = .ok s' ∧ p < 8 ∧ fileBits s'.bitOut = s.bits ++ List.replicate p false := by
  obtain ⟨s', p, hrun, hz, -, hlt, hbits⟩ := closeLoop_bits 8 s (.inr (by omega))
  refine ⟨s', p, hrun, hlt, ?_⟩
  rw [← hbits, BitOutputStream.bits, hz, lowBits, List.append_nil]

/-- The bits of the current byte are those filled. -/
def BitOutputStream.Filled (s : BitOutputStream) : Prop := s.currentbyte.toNat < 2 ^ s.numbitsfilled

theorem pow_filled_le (s : BitOutputStream) : 2 ^ s.numbitsfilled ≤ 2 ^ 7 :=
  Nat.pow_le_pow_right (by decide) (Nat.le_of_lt_succ s.numbitsfilled_lt)

/-- **A bit is written** as in bytes, whether `char` is signed or not. -/
theorem writeChar_eq (signed : Bool) {s : BitOutputStream} (h : s.Filled) (b : Bool) :
    s.writeChar signed (bitChar b) = s.write (bitChar b) := by
  have hlt : s.currentbyte.toNat < 128 := lt_of_lt_of_le h (pow_filled_le s)
  rw [BitOutputStream.write, BitOutputStream.writeChar, BitOutputStream.writeChar,
    shiftIn_eq signed hlt, shiftIn_eq false hlt, charInt_bitChar, charInt_bitChar]

theorem filled_of_write {s s' : BitOutputStream} {b : Bool} (h : s.Filled)
    (hw : s.write (bitChar b) = .ok s') : s'.Filled := by
  have hb : ¬ (bitChar b ≠ 0 ∧ bitChar b ≠ 1) := by cases b <;> decide
  rw [BitOutputStream.write_eq, if_neg hb] at hw
  split at hw
  · cases hw
    exact Nat.two_pow_pos 0
  · cases hw
    have hb : b.toNat < 2 := by cases b <;> decide
    have hmod := Nat.mod_le (2 * s.currentbyte.toNat + b.toNat) (2 ^ 8)
    unfold BitOutputStream.Filled at h ⊢
    dsimp only
    rw [toNat_shift_or, Nat.pow_succ]
    omega

theorem closeCharLoop_eq (signed : Bool) (n : Nat) {s : BitOutputStream} (h : s.Filled) :
    s.closeCharLoop signed n = s.closeLoop n := by
  induction n generalizing s with
  | zero => rfl
  | succ n ih =>
    obtain ⟨s', hw, -, -⟩ := write_bits s false
    have hc : s.writeChar signed 0 = .ok s' := (writeChar_eq signed h false).trans hw
    have hw' : s.writeChar false 0 = .ok s' := hw
    rw [BitOutputStream.closeLoop, BitOutputStream.closeCharLoop, BitOutputStream.closeCharLoop, hc,
      hw']
    split
    · exact ih (filled_of_write h hw)
    · rfl

/-! ## Counting -/

/-- The count of a stream is the number of its bits. -/
structure Counts (s : CountingBitOutputStream) : Prop where
  filled : s.bitOut.Filled
  numBits : s.numBits.toInt = s.bitOut.bits.length

theorem fresh_counts : Counts .fresh := ⟨Nat.two_pow_pos 0, rfl⟩

theorem Counts.length_lt {s : CountingBitOutputStream} (h : Counts s) :
    s.bitOut.bits.length < 2 ^ 31 := by
  have := h.numBits
  have := s.numBits.toInt_lt
  omega

theorem toInt_add_of_lt {m k : Int32} (h0 : 0 ≤ m.toInt + k.toInt)
    (h : m.toInt + k.toInt < 2 ^ 31) :
    (m + k).toInt = m.toInt + k.toInt := by
  rw [Int32.toInt_add]
  exact Int.bmod_eq_of_le (by omega) (by omega)

/-- A counter that is not at its end. -/
theorem ne_max {i : Int32} (h : i.toInt < 2 ^ 31 - 1) : i ≠ Int32.maxValue := by
  rintro rfl
  exact absurd h (by decide)

theorem toInt_succ {i : Int32} (h0 : 0 ≤ i.toInt) (h : i.toInt < 2 ^ 31 - 1) :
    (i + 1).toInt = i.toInt + 1 := by
  have h1 : (1 : Int32).toInt = 1 := rfl
  rw [toInt_add_of_lt (by omega) (by omega), h1]

/-- **One more bit.** -/
theorem Counts.write (signed : Bool) {s : CountingBitOutputStream} (h : Counts s) (b : Bool)
    (hlt : s.bitOut.bits.length + 1 < 2 ^ 31) :
    ∃ s', s.writeChar signed (bitChar b) = .ok s' ∧ Counts s' ∧
      s'.bitOut.bits = s.bitOut.bits ++ [b] := by
  obtain ⟨t, hw, hb, -⟩ := write_bits s.bitOut b
  have hn := h.numBits
  refine ⟨⟨s.numBits + 1, t⟩, ?_, ⟨filled_of_write h.filled hw, ?_⟩, hb⟩
  · rw [CountingBitOutputStream.writeChar, if_neg (ne_max (by omega)),
      writeChar_eq signed h.filled, hw]
    rfl
  · dsimp only
    rw [toInt_succ (by omega) (by omega), hn, hb, List.length_append, List.length_singleton]
    rfl

/-- The bit behind the last that an `int` counts. -/
theorem Counts.write_full (signed : Bool) {s : CountingBitOutputStream} (h : Counts s) (b : UInt8)
    (hfull : ¬ s.bitOut.bits.length + 1 < 2 ^ 31) : s.writeChar signed b = .undefined := by
  have hn := h.numBits
  have hlt := s.numBits.toInt_lt
  have hmax : s.numBits = Int32.maxValue := by
    apply Int32.toInt_inj.mp
    rw [show Int32.maxValue.toInt = 2147483647 from rfl]
    omega
  exact if_pos hmax

theorem padding_toInt {m : Int32} {n : Nat} (h : m.toInt = n) :
    ((8 - m % 8) % 8).toInt = ((8 - n % 8) % 8 : Nat) := by
  have h8 : (8 : Int32).toInt = ((8 : Nat) : Int) := rfl
  rw [Int32.toInt_mod, Int32.toInt_sub, Int32.toInt_mod, h, h8, ← Int.ofNat_tmod,
    Int.bmod_eq_of_le (by omega) (by omega),
    show (((8 : Nat) : Int) - (n % 8 : Nat)) = ((8 - n % 8 : Nat) : Int) by omega, ← Int.ofNat_tmod]

/-- **Closing** counts the padding, as long as an `int` counts it. -/
theorem Counts.close (signed : Bool) {s : CountingBitOutputStream} (h : Counts s)
    (hle : s.bitOut.bits.length + 8 ≤ 2 ^ 31) :
    ∃ s' p, s.closeChar signed = .ok s' ∧ p < 8 ∧
      fileBits s'.bitOut.bitOut = s.bitOut.bits ++ List.replicate p false ∧
      s'.numBits.toInt = 8 * s'.bitOut.bitOut.length := by
  obtain ⟨t, p, hc, hp, hfile⟩ := close_bits s.bitOut
  have hn := h.numBits
  have hpad := padding_toInt hn
  have hlen := congrArg List.length hfile
  rw [fileBits_length, List.length_append, List.length_replicate] at hlen
  have hcc : s.bitOut.closeChar signed = .ok t := (closeCharLoop_eq signed 8 h.filled).trans hc
  refine ⟨⟨s.numBits + (8 - s.numBits % 8) % 8, t⟩, p, ?_, hp, hfile, ?_⟩
  · rw [CountingBitOutputStream.closeChar, if_neg (by rw [hn, hpad]; omega), hcc]
    rfl
  · dsimp only
    rw [toInt_add_of_lt (by rw [hn, hpad]; omega) (by rw [hn, hpad]; omega), hn, hpad]
    omega

theorem Counts.close_full (signed : Bool) {s : CountingBitOutputStream} (h : Counts s)
    (hfull : ¬ s.bitOut.bits.length + 8 ≤ 2 ^ 31) : s.closeChar signed = .undefined := by
  have hn := h.numBits
  have hpad := padding_toInt hn
  have hlt := h.length_lt
  exact if_pos (by rw [hn, hpad]; omega)

/-! ## Files -/

/-- The code of a closed stream: its bits, and zeros. -/
theorem codeBit_of_bits {file : List UInt8} {bits : List Bool} {p : Nat}
    (h : fileBits file = bits ++ List.replicate p false) (i : Nat) :
    codeBit file i = bits[i]?.getD false := by
  rw [codeBit, h, List.getElem?_append]
  split
  · rfl
  · next hi =>
    rw [List.getElem?_eq_none (not_lt.mp hi), List.getElem?_replicate]
    split <;> rfl

theorem lowBits_inj {x y n : Nat} (h : lowBits x n = lowBits y n) :
    ∀ i < n, x.testBit i = y.testBit i := by
  induction n with
  | zero => exact fun i hi => absurd hi (Nat.not_lt_zero i)
  | succ n ih =>
    obtain ⟨h0, h1⟩ := List.cons_eq_cons.mp h
    intro i hi
    rcases Nat.lt_succ_iff_lt_or_eq.mp hi with hlt | rfl
    · exact ih h1 i hlt
    · exact h0

theorem fileBits_inj {f g : List UInt8} (h : fileBits f = fileBits g) : f = g := by
  induction f generalizing g with
  | nil =>
    have hl := congrArg List.length h
    rw [fileBits_length, fileBits_length, List.length_nil] at hl
    exact (List.eq_nil_of_length_eq_zero (by omega)).symm
  | cons b f ih =>
    cases g with
    | nil =>
      have hl := congrArg List.length h
      rw [fileBits_length, fileBits_length, List.length_cons, List.length_nil] at hl
      omega
    | cons c g =>
      obtain ⟨hbc, hfg⟩ := List.append_inj h (by rw [lowBits_length, lowBits_length])
      have hb : b = c := by
        apply UInt8.toNat_inj.mp
        apply Nat.eq_of_testBit_eq
        intro i
        by_cases hi : i < 8
        · exact lowBits_inj hbc i hi
        · have hp : 2 ^ 8 ≤ 2 ^ i := Nat.pow_le_pow_right (by decide) (not_lt.mp hi)
          rw [Nat.testBit_lt_two_pow (b.toNat_lt.trans_le hp),
            Nat.testBit_lt_two_pow (c.toNat_lt.trans_le hp)]
      rw [hb, ih hfg]

/-- The padding is the fewest zeros, so the bits determine the file. -/
theorem file_eq_of_bits {f g : List UInt8} {bits : List Bool} {p q : Nat} (hp : p < 8) (hq : q < 8)
    (hf : fileBits f = bits ++ List.replicate p false)
    (hg : fileBits g = bits ++ List.replicate q false) : f = g := by
  have h1 := congrArg List.length hf
  have h2 := congrArg List.length hg
  rw [fileBits_length, List.length_append, List.length_replicate] at h1 h2
  obtain rfl : p = q := by omega
  exact fileBits_inj (hf.trans hg.symm)

end DeepSpace.ArithmeticCoding
