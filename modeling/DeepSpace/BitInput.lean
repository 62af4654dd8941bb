import DeepSpace.BitStream
import Mathlib.Logic.Function.Iterate
import Mathlib.Tactic.IntervalCases

/-!
# `arithmetic_coding.cpp`: the bit input stream

`read` asks for the end of the file before it reads a byte, and not after.

* `nth_start`: what the reads of any file return, up to a byte that converts to -1, or with one
  more byte behind the last, the one that was in the buffer before;
* `not_roundTrips`: so no sequence of bits is read back as it was written.
-/

namespace DeepSpace.ArithmeticCoding

/-! ## The stream -/

/-- `BitInputStream` over a file of which `bitIn` is left to read; `eof` is set by a read that
hit the end. -/
structure BitInputStream where
  bitIn : List UInt8
  eof : Bool
  currentbyte : Int
  numbitsremaining : Nat
  deriving DecidableEq, Repr

namespace BitInputStream

def start (file : List UInt8) : BitInputStream := ⟨file, false, 0, 0⟩

end BitInputStream

section

variable (signed : Bool) (stale : UInt8)

/-- The lines of `read` after the byte is there.  `x & 1` is `x % 2`, also for a negative `x`. -/
def BitInputStream.take (s : BitInputStream) : Int × BitInputStream :=
  let n := s.numbitsremaining - 1
  ((s.currentbyte >>> n) % 2, { s with numbitsremaining := n })

/-- `read`; `stale` is what the local `temp` holds before. -/
def BitInputStream.read (s : BitInputStream) : Int × BitInputStream :=
  if s.currentbyte = -1 then (-1, s)
  else if s.numbitsremaining = 0 then
    if s.eof then (-1, { s with currentbyte := -1 })
    else
      match s.bitIn with
      | [] => BitInputStream.take ⟨[], true, charInt signed stale, 8⟩
      | temp :: rest => BitInputStream.take ⟨rest, false, charInt signed temp, 8⟩
  else s.take

/-- The stream after that many reads. -/
def BitInputStream.skip (s : BitInputStream) (n : Nat) : BitInputStream :=
  (fun s => (BitInputStream.read signed stale s).2)^[n] s

/-- What read number `i` returns. -/
def BitInputStream.nth (s : BitInputStream) (i : Nat) : Int :=
  ((s.skip signed stale i).read signed stale).1

/-- The bits, and -1 on every further read. -/
def expected (bits : List Bool) (i : Nat) : Int :=
  (bits[i]?.map fun b => (b.toNat : Int)).getD (-1)

def writeAll : List Bool → BitOutputStream → Result BitOutputStream
  | [], s => .ok s
  | b :: bits, s => (s.write (bitChar b)).andThen (writeAll bits)

/-- What was written and closed is read back, then the padding to a whole byte, then the end. -/
def RoundTrips (bits : List Bool) : Prop :=
  ∃ s p, ((writeAll bits .fresh).andThen fun s => s.close) = .ok s ∧ p < 8 ∧
    (bits.length + p) % 8 = 0 ∧ ∀ i, (BitInputStream.start s.bitOut).nth signed stale i =
      expected (bits ++ List.replicate p false) i

/-- What the reads of a file give before they give -1. -/
def readBits : List UInt8 → List Bool
  | [] => if charInt signed stale = -1 then [true] else lowBits stale.toNat 8
  | b :: file => if charInt signed b = -1 then [true] else lowBits b.toNat 8 ++ readBits file

end

/-! ## One read -/

theorem shift_charInt (signed : Bool) (b : UInt8) {k : Nat} (hk : k < 8) :
    (charInt signed b >>> k) % 2 = ((b.toNat.testBit k).toNat : Int) := by
  have hb := b.toNat_lt
  rw [Nat.toNat_testBit, Int.shiftRight_eq_div_pow]
  unfold charInt
  interval_cases k <;> split <;> omega

section

variable {signed : Bool} {stale : UInt8}

theorem nth_succ (s : BitInputStream) (i : Nat) :
    s.nth signed stale (i + 1) = (s.read signed stale).2.nth signed stale i := by
  unfold BitInputStream.nth BitInputStream.skip
  rw [Function.iterate_succ_apply]

theorem nth_congr {s t : BitInputStream} (h : s.read signed stale = t.read signed stale) (i : Nat) :
    s.nth signed stale i = t.nth signed stale i := by
  cases i with
  | zero => exact congrArg Prod.fst h
  | succ i => rw [nth_succ, nth_succ, h]

/-- The marker is final. -/
theorem nth_of_marker {s : BitInputStream} (h : s.currentbyte = -1) (i : Nat) :
    s.nth signed stale i = -1 := by
  have hr : s.read signed stale = (-1, s) := if_pos h
  induction i with
  | zero => exact congrArg Prod.fst hr
  | succ i ih => rw [nth_succ, hr, ih]

theorem nth_of_eof {c : Int} (hc : c ≠ -1) (i : Nat) :
    (⟨[], true, c, 0⟩ : BitInputStream).nth signed stale i = -1 := by
  have hr : (⟨[], true, c, 0⟩ : BitInputStream).read signed stale = (-1, ⟨[], true, -1, 0⟩) := by
    rw [BitInputStream.read, if_neg hc]
    rfl
  cases i with
  | zero => exact congrArg Prod.fst hr
  | succ i => rw [nth_succ, hr, nth_of_marker rfl]

/-- The bits left in a byte, and what follows. -/
theorem nth_byte {rest : List UInt8} {eof : Bool} {b : UInt8} {bits : List Bool}
    (hb : charInt signed b ≠ -1)
    (h : ∀ i, (⟨rest, eof, charInt signed b, 0⟩ : BitInputStream).nth signed stale i =
      expected bits i) {k : Nat} (hk : k ≤ 8) (i : Nat) :
    (⟨rest, eof, charInt signed b, k⟩ : BitInputStream).nth signed stale i =
      expected (lowBits b.toNat k ++ bits) i := by
  induction k generalizing i with
  | zero => exact h i
  | succ k ih =>
    have hr : (⟨rest, eof, charInt signed b, k + 1⟩ : BitInputStream).read signed stale =
        ((charInt signed b >>> k) % 2, ⟨rest, eof, charInt signed b, k⟩) := by
      rw [BitInputStream.read, if_neg hb, if_neg (Nat.succ_ne_zero k)]
      rfl
    cases i with
    | zero => exact (congrArg Prod.fst hr).trans (shift_charInt signed b hk)
    | succ i =>
      rw [nth_succ, hr]
      exact ih (Nat.le_of_succ_le hk) i

/-- A read that has just put a byte in its buffer. -/
theorem nth_of_load {s : BitInputStream} {rest : List UInt8} {eof : Bool} {b : UInt8}
    {bits : List Bool}
    (hr : s.read signed stale = BitInputStream.take ⟨rest, eof, charInt signed b, 8⟩)
    (h : charInt signed b ≠ -1 → ∀ i,
      (⟨rest, eof, charInt signed b, 0⟩ : BitInputStream).nth signed stale i = expected bits i)
    (i : Nat) : s.nth signed stale i =
      expected (if charInt signed b = -1 then [true] else lowBits b.toNat 8 ++ bits) i := by
  by_cases hb : charInt signed b = -1
  · rw [if_pos hb]
    rw [hb] at hr
    cases i with
    | zero => exact congrArg Prod.fst hr
    | succ i =>
      rw [nth_succ, hr]
      exact nth_of_marker rfl i
  · rw [if_neg hb, ← nth_byte hb (h hb) le_rfl]
    refine nth_congr (hr.trans ?_) i
    rw [BitInputStream.read, if_neg hb]
    exact (if_neg (Nat.succ_ne_zero 7)).symm

/-! ## Whole files -/

theorem nth_file (file : List UInt8) {c : Int} (hc : c ≠ -1) (i : Nat) :
    (⟨file, false, c, 0⟩ : BitInputStream).nth signed stale i =
      expected (readBits signed stale file) i := by
  induction file generalizing c i with
  | nil =>
    have hr : (⟨[], false, c, 0⟩ : BitInputStream).read signed stale =
        BitInputStream.take ⟨[], true, charInt signed stale, 8⟩ := if_neg hc
    rw [readBits, ← List.append_nil (lowBits stale.toNat 8)]
    exact nth_of_load hr (fun hs i => nth_of_eof hs i) i
  | cons b file ih =>
    have hr : (⟨b :: file, false, c, 0⟩ : BitInputStream).read signed stale =
        BitInputStream.take ⟨file, false, charInt signed b, 8⟩ := if_neg hc
    exact nth_of_load hr (fun hb i => ih hb i) i

/-- **What is read.** -/
theorem nth_start (file : List UInt8) (i : Nat) :
    (BitInputStream.start file).nth signed stale i = expected (readBits signed stale file) i :=
  nth_file file (by decide) i

theorem expected_inj {xs ys : List Bool} (h : ∀ i, expected xs i = expected ys i) : xs = ys := by
  refine List.ext_getElem? fun i => ?_
  have hi := h i
  unfold expected at hi
  cases hx : xs[i]? with
  | none =>
    cases hy : ys[i]? with
    | none => rfl
    | some y =>
      rw [hx, hy] at hi
      cases y <;> cases hi
  | some x =>
    cases hy : ys[i]? with
    | none =>
      rw [hx, hy] at hi
      cases x <;> cases hi
    | some y =>
      rw [hx, hy] at hi
      cases x <;> cases y <;> first | rfl | cases hi

end

/-- No file is read as the bits it holds. -/
theorem readBits_ne (signed : Bool) (stale : UInt8) (file : List UInt8) :
    readBits signed stale file ≠ fileBits file := by
  induction file with
  | nil =>
    rw [readBits]
    split <;> exact List.cons_ne_nil _ _
  | cons b file ih =>
    rw [readBits, fileBits, List.flatMap_cons]
    split
    · intro h
      have hl := congrArg List.length h
      rw [List.length_append, lowBits_length, List.length_singleton] at hl
      omega
    · exact fun h => ih (List.append_cancel_left h)

/-! ## Round trips -/

theorem writeAll_bits (bits : List Bool) (s : BitOutputStream) :
    ∃ s', writeAll bits s = .ok s' ∧ s'.bits = s.bits ++ bits := by
  induction bits generalizing s with
  | nil => exact ⟨s, rfl, (List.append_nil _).symm⟩
  | cons b bits ih =>
    obtain ⟨t, hw, hb, -⟩ := write_bits s b
    obtain ⟨s', hs, hbits⟩ := ih t
    refine ⟨s', ?_, ?_⟩
    · rw [writeAll, hw]
      exact hs
    · rw [hbits, hb, List.append_assoc]
      rfl

/-- The file that was written. -/
theorem file_of_writeAll {bits : List Bool} {s : BitOutputStream} {p : Nat}
    (h : ((writeAll bits .fresh).andThen fun s => s.close) = .ok s) (hp : p < 8)
    (hmod : (bits.length + p) % 8 = 0) :
    fileBits s.bitOut = bits ++ List.replicate p false := by
  obtain ⟨t, hw, hb⟩ := writeAll_bits bits .fresh
  obtain ⟨s', q, hc, hq, hfile⟩ := close_bits t
  rw [hw] at h
  obtain rfl : s' = s := Result.ok.inj (hc.symm.trans h)
  have hl := congrArg List.length hfile
  rw [hb] at hfile hl
  rw [fileBits_length, List.length_append, List.length_replicate] at hl
  have hl : 8 * s'.bitOut.length = bits.length + q := hl
  obtain rfl : q = p := by omega
  exact hfile

/-- **The bit streams.**  Whatever was written, some read differs: at the end of the file, where
a read that failed is taken for a byte, or after a byte that looks like the end. -/
theorem not_roundTrips (signed : Bool) (stale : UInt8) (bits : List Bool) :
    ¬ RoundTrips signed stale bits := by
  rintro ⟨s, p, hs, hp, hmod, h⟩
  have hfile := file_of_writeAll hs hp hmod
  refine readBits_ne signed stale s.bitOut (expected_inj fun i => ?_)
  rw [← nth_start, h i, hfile]

/-- **No bits at all**: the first read returns a bit; and eight ones, where `char` is signed:
the second read returns -1. -/
theorem ones_not_roundTrip :
    (BitInputStream.start []).nth false 0 0 = 0 ∧ (BitInputStream.start [0xFF]).nth true 0 1 = -1 ∧
      ¬ RoundTrips false 0 [] ∧ ¬ RoundTrips true 0 (List.replicate 8 true) := by
  refine ⟨by decide, by decide, ?_, ?_⟩
  · rintro ⟨s, p, hs, hp, hmod, h⟩
    obtain rfl : s = .fresh := (Result.ok.inj hs).symm
    rw [List.length_nil] at hmod
    obtain rfl : p = 0 := by omega
    exact absurd (h 0) (by decide)
  · rintro ⟨s, p, hs, hp, hmod, h⟩
    obtain rfl : s = ⟨[0xFF], 0, 0, eight_pos⟩ := (Result.ok.inj hs).symm
    rw [List.length_replicate] at hmod
    obtain rfl : p = 0 := by omega
    exact absurd (h 1) (by decide)

end DeepSpace.ArithmeticCoding
