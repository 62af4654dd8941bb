import DeepSpace.BitInput
import DeepSpace.CrossDecoding

/-!
# The bit streams of `arithmetic_coding.py`

* `writeEach_bits`: a stream takes the bits among the values that are written to it;
* `nth_eq`: what every read of a stream returns;
* `bits_roundTrip`: so the bits are read back, also from the file that the C++ stream writes, with
  the padding behind them, and then the end for ever.
-/

namespace DeepSpace.Reference

open DeepSpace.ArithmeticCoding

/-! ## Writing -/

/-- One `write` after the other, by a caller that goes on behind a `ValueError`. -/
def BitOutputStream.writeEach : List Int → BitOutputStream → BitOutputStream
  | [], s => s
  | b :: bs, s =>
    match s.write b with
    | .ok s => writeEach bs s
    | .threw _ s => writeEach bs s
    | .undefined => writeEach bs s

/-- The bits among the values. -/
def bitsOf (bs : List Int) : List Bool :=
  bs.filterMap fun b => if b = 0 then some false else if b = 1 then some true else none

theorem bitsOf_cons (b : Int) (bs : List Int) : bitsOf (b :: bs) =
    (if b = 0 then [false] else if b = 1 then [true] else []) ++ bitsOf bs := by
  rw [bitsOf, List.filterMap_cons]
  split <;> rename_i h <;> split at h
  all_goals simp_all [bitsOf]

theorem write_bit (s : BitOutputStream) (b : Bool) :
    ∃ s', s.write b.toInt = .ok s' ∧ s'.toPort.bits = s.toPort.bits ++ [b] := by
  obtain ⟨t, hw, hw'⟩ := write_toPort s b
  obtain ⟨t', hp, hb, -⟩ := write_bits s.toPort b
  rw [hw'] at hp
  obtain rfl := Result.ok.inj hp
  exact ⟨_, hw, hb⟩

/-- Any other value leaves the stream as it is. -/
theorem write_other (s : BitOutputStream) {b : Int} (h0 : b ≠ 0) (h1 : b ≠ 1) :
    s.write b = .threw "Argument must be 0 or 1" s :=
  dif_pos fun h => h.elim h0 h1

/-- **What a stream takes.** -/
theorem writeEach_bits (bs : List Int) (s : BitOutputStream) :
    (s.writeEach bs).toPort.bits = s.toPort.bits ++ bitsOf bs := by
  induction bs generalizing s with
  | nil => simp [BitOutputStream.writeEach, bitsOf]
  | cons b bs ih =>
    have hbit : ∀ c : Bool, b = c.toInt →
        ((s.writeEach (b :: bs)).toPort.bits = s.toPort.bits ++ ([c] ++ bitsOf bs)) := by
      intro c hc
      obtain ⟨s', hw, hb⟩ := write_bit s c
      rw [BitOutputStream.writeEach, hc, hw, ih s', hb, List.append_assoc]
    rw [bitsOf_cons]
    by_cases h0 : b = 0
    · rw [if_pos h0]
      exact hbit false h0
    · rw [if_neg h0]
      by_cases h1 : b = 1
      · rw [if_pos h1]
        exact hbit true h1
      · rw [if_neg h1, BitOutputStream.writeEach, write_other s h0 h1, ih s, List.nil_append]

theorem close_file (s : BitOutputStream) :
    ∃ s' p, s.close = .ok s' ∧ p < 8 ∧
      fileBits s'.output = s.toPort.bits ++ List.replicate p false := by
  obtain ⟨t, hc, hc'⟩ := closeLoop_toPort 8 s
  obtain ⟨t', p, hp, hlt, hbits⟩ := close_bits s.toPort
  obtain rfl : t.toPort = t' := Result.ok.inj (hc'.symm.trans hp)
  exact ⟨_, p, hc, hlt, hbits⟩

/-! ## Reading -/

namespace BitInputStream

/-- `read_no_eof`; `none` is an `EOFError`. -/
def readNoEof (s : BitInputStream) : Option Int × BitInputStream :=
  let (result, s) := s.read
  if result ≠ -1 then (some result, s) else (none, s)

def close (s : BitInputStream) : BitInputStream :=
  { s with currentbyte := none, numbitsremaining := 0 }

/-- The stream after that many reads. -/
def skip (s : BitInputStream) (n : Nat) : BitInputStream := (fun s => s.read.2)^[n] s

/-- What read number `i` returns. -/
def nth (s : BitInputStream) (i : Nat) : Int := (s.skip i).read.1

end BitInputStream

theorem rest_skip (s : BitInputStream) (n : Nat) : (s.skip n).rest = s.rest.drop n := by
  induction n generalizing s with
  | zero => rfl
  | succ n ih =>
    have hskip : s.skip (n + 1) = (s.read.2).skip n := Function.iterate_succ_apply _ n s
    rw [hskip, ih, (read_spec s).2, List.drop_tail]

/-- **Every read.** -/
theorem nth_eq (s : BitInputStream) (i : Nat) : s.nth i = expected s.rest i := by
  rw [BitInputStream.nth, (read_spec _).1, rest_skip, expected]
  cases h : s.rest.drop i with
  | nil =>
    rw [List.getElem?_eq_none (List.drop_eq_nil_iff.mp h)]
    rfl
  | cons b bits =>
    have hi : s.rest[i]? = some b := by
      rw [← List.head?_drop, h, List.head?_cons]
    rw [hi]
    cases b <;> rfl

/-- `read_no_eof` raises where `read` returns -1, and both go on alike. -/
theorem readNoEof_eq (s : BitInputStream) :
    s.readNoEof = (s.rest.head?.map Bool.toInt, s.read.2) := by
  have hread := (read_spec s).1
  rw [BitInputStream.readNoEof]
  cases h : s.rest with
  | nil =>
    rw [h] at hread
    simp [hread]
  | cons b bits =>
    rw [h] at hread
    have hb : b.toInt ≠ -1 := by cases b <;> decide
    simp [hread, hb]

/-! ## Both -/

/-- A file behind a stream that has read `n` times holds these bits. -/
structure ReadsBack (file : List UInt8) (bits : List Bool) : Prop where
  read : ∀ n, (BitInputStream.ofFile file).nth n = expected bits n
  readNoEof : ∀ n, ((BitInputStream.ofFile file).skip n).readNoEof.1 = bits[n]?.map Bool.toInt
  close : ∀ n i, (((BitInputStream.ofFile file).skip n).close).nth i = -1

theorem readsBack_fileBits (file : List UInt8) : ReadsBack file (fileBits file) := by
  refine ⟨fun n => nth_eq _ n, fun n => ?_, fun n i => nth_eq _ i⟩
  rw [readNoEof_eq, rest_skip, List.head?_drop, rest_ofFile]

/-- **Round trip** of the streams, for any values written and any reader of the file. -/
theorem bits_roundTrip (bs : List Int) :
    ∃ s p, (BitOutputStream.fresh.writeEach bs).close = .ok s ∧ p < 8 ∧
      ((bitsOf bs).length + p) % 8 = 0 ∧
      ReadsBack s.output (bitsOf bs ++ List.replicate p false) ∧
      ∃ s', ((writeAll (bitsOf bs) .fresh).andThen fun s => s.close) = .ok s' ∧
        s'.bitOut = s.output := by
  obtain ⟨s, p, hs, hp, hfile⟩ := close_file (BitOutputStream.fresh.writeEach bs)
  rw [writeEach_bits] at hfile
  have hfile : fileBits s.output = bitsOf bs ++ List.replicate p false := hfile
  have hlen := congrArg List.length hfile
  rw [fileBits_length, List.length_append, List.length_replicate] at hlen
  refine ⟨s, p, hs, hp, by omega, hfile ▸ readsBack_fileBits s.output, ?_⟩
  obtain ⟨t, hw, hb⟩ := writeAll_bits (bitsOf bs) .fresh
  obtain ⟨s', q, hc, hq, hfile'⟩ := close_bits t
  rw [hb] at hfile'
  exact ⟨s', by rw [hw, andThen_ok, hc], file_eq_of_bits hq hp hfile' hfile⟩

end DeepSpace.Reference
