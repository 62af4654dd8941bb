import DeepSpace.Memory
import DeepSpace.ShiftRegister

/-!
# `crc.c` and `crc.h`

The table-driven `crc16` of the serial protocol.  Proved here, for every buffer:

* `crcStep_eq_run`: one turn of the loop is eight shifts of the 16-bit register
  with feedback word `0xA001`, so `crcLoop_eq_run`: the loop is a run of the
  register over the bits of the buffer, the lowest bit of each byte first;
* `crc16_eq_iff`: bytes `lo`, `hi` are the checksum of a message exactly when
  the register is zero after the message and these two bytes;
* `residue_xor`: an error pattern added to such a string changes the final
  register by the pattern's own run from zero.
-/

namespace DeepSpace.Crc

open DeepSpace.Memory DeepSpace.ShiftRegister

/-! ## The code -/

/-- Table of CRC values for high-order byte -/
def tableCrcHi : List UInt8 := [
    0x00, 0xC1, 0x81, 0x40, 0x01, 0xC0, 0x80, 0x41, 0x01, 0xC0, 0x80, 0x41,
    0x00, 0xC1, 0x81, 0x40, 0x01, 0xC0, 0x80, 0x41, 0x00, 0xC1, 0x81, 0x40,
    0x00, 0xC1, 0x81, 0x40, 0x01, 0xC0, 0x80, 0x41, 0x01, 0xC0, 0x80, 0x41,
    0x00, 0xC1, 0x81, 0x40, 0x00, 0xC1, 0x81, 0x40, 0x01, 0xC0, 0x80, 0x41,
    0x00, 0xC1, 0x81, 0x40, 0x01, 0xC0, 0x80, 0x41, 0x01, 0xC0, 0x80, 0x41,
    0x00, 0xC1, 0x81, 0x40, 0x01, 0xC0, 0x80, 0x41, 0x00, 0xC1, 0x81, 0x40,
    0x00, 0xC1, 0x81, 0x40, 0x01, 0xC0, 0x80, 0x41, 0x00, 0xC1, 0x81, 0x40,
    0x01, 0xC0, 0x80, 0x41, 0x01, 0xC0, 0x80, 0x41, 0x00, 0xC1, 0x81, 0x40,
    0x00, 0xC1, 0x81, 0x40, 0x01, 0xC0, 0x80, 0x41, 0x01, 0xC0, 0x80, 0x41,
    0x00, 0xC1, 0x81, 0x40, 0x01, 0xC0, 0x80, 0x41, 0x00, 0xC1, 0x81, 0x40,
    0x00, 0xC1, 0x81, 0x40, 0x01, 0xC0, 0x80, 0x41, 0x01, 0xC0, 0x80, 0x41,
    0x00, 0xC1, 0x81, 0x40, 0x00, 0xC1, 0x81, 0x40, 0x01, 0xC0, 0x80, 0x41,
    0x00, 0xC1, 0x81, 0x40, 0x01, 0xC0, 0x80, 0x41, 0x01, 0xC0, 0x80, 0x41,
    0x00, 0xC1, 0x81, 0x40, 0x00, 0xC1, 0x81, 0x40, 0x01, 0xC0, 0x80, 0x41,
    0x01, 0xC0, 0x80, 0x41, 0x00, 0xC1, 0x81, 0x40, 0x01, 0xC0, 0x80, 0x41,
    0x00, 0xC1, 0x81, 0x40, 0x00, 0xC1, 0x81, 0x40, 0x01, 0xC0, 0x80, 0x41,
    0x00, 0xC1, 0x81, 0x40, 0x01, 0xC0, 0x80, 0x41, 0x01, 0xC0, 0x80, 0x41,
    0x00, 0xC1, 0x81, 0x40, 0x01, 0xC0, 0x80, 0x41, 0x00, 0xC1, 0x81, 0x40,
    0x00, 0xC1, 0x81, 0x40, 0x01, 0xC0, 0x80, 0x41, 0x01, 0xC0, 0x80, 0x41,
    0x00, 0xC1, 0x81, 0x40, 0x00, 0xC1, 0x81, 0x40, 0x01, 0xC0, 0x80, 0x41,
    0x00, 0xC1, 0x81, 0x40, 0x01, 0xC0, 0x80, 0x41, 0x01, 0xC0, 0x80, 0x41,
    0x00, 0xC1, 0x81, 0x40]

/-- Table of CRC values for low-order byte -/
def tableCrcLo : List UInt8 := [
    0x00, 0xC0, 0xC1, 0x01, 0xC3, 0x03, 0x02, 0xC2, 0xC6, 0x06, 0x07, 0xC7,
    0x05, 0xC5, 0xC4, 0x04, 0xCC, 0x0C, 0x0D, 0xCD, 0x0F, 0xCF, 0xCE, 0x0E,
    0x0A, 0xCA, 0xCB, 0x0B, 0xC9, 0x09, 0x08, 0xC8, 0xD8, 0x18, 0x19, 0xD9,
    0x1B, 0xDB, 0xDA, 0x1A, 0x1E, 0xDE, 0xDF, 0x1F, 0xDD, 0x1D, 0x1C, 0xDC,
    0x14, 0xD4, 0xD5, 0x15, 0xD7, 0x17, 0x16, 0xD6, 0xD2, 0x12, 0x13, 0xD3,
    0x11, 0xD1, 0xD0, 0x10, 0xF0, 0x30, 0x31, 0xF1, 0x33, 0xF3, 0xF2, 0x32,
    0x36, 0xF6, 0xF7, 0x37, 0xF5, 0x35, 0x34, 0xF4, 0x3C, 0xFC, 0xFD, 0x3D,
    0xFF, 0x3F, 0x3E, 0xFE, 0xFA, 0x3A, 0x3B, 0xFB, 0x39, 0xF9, 0xF8, 0x38,
    0x28, 0xE8, 0xE9, 0x29, 0xEB, 0x2B, 0x2A, 0xEA, 0xEE, 0x2E, 0x2F, 0xEF,
    0x2D, 0xED, 0xEC, 0x2C, 0xE4, 0x24, 0x25, 0xE5, 0x27, 0xE7, 0xE6, 0x26,
    0x22, 0xE2, 0xE3, 0x23, 0xE1, 0x21, 0x20, 0xE0, 0xA0, 0x60, 0x61, 0xA1,
    0x63, 0xA3, 0xA2, 0x62, 0x66, 0xA6, 0xA7, 0x67, 0xA5, 0x65, 0x64, 0xA4,
    0x6C, 0xAC, 0xAD, 0x6D, 0xAF, 0x6F, 0x6E, 0xAE, 0xAA, 0x6A, 0x6B, 0xAB,
    0x69, 0xA9, 0xA8, 0x68, 0x78, 0xB8, 0xB9, 0x79, 0xBB, 0x7B, 0x7A, 0xBA,
    0xBE, 0x7E, 0x7F, 0xBF, 0x7D, 0xBD, 0xBC, 0x7C, 0xB4, 0x74, 0x75, 0xB5,
    0x77, 0xB7, 0xB6, 0x76, 0x72, 0xB2, 0xB3, 0x73, 0xB1, 0x71, 0x70, 0xB0,
    0x50, 0x90, 0x91, 0x51, 0x93, 0x53, 0x52, 0x92, 0x96, 0x56, 0x57, 0x97,
    0x55, 0x95, 0x94, 0x54, 0x9C, 0x5C, 0x5D, 0x9D, 0x5F, 0x9F, 0x9E, 0x5E,
    0x5A, 0x9A, 0x9B, 0x5B, 0x99, 0x59, 0x58, 0x98, 0x88, 0x48, 0x49, 0x89,
    0x4B, 0x8B, 0x8A, 0x4A, 0x4E, 0x8E, 0x8F, 0x4F, 0x8D, 0x4D, 0x4C, 0x8C,
    0x44, 0x84, 0x85, 0x45, 0x87, 0x47, 0x46, 0x86, 0x82, 0x42, 0x43, 0x83,
    0x41, 0x81, 0x80, 0x40]

/-- The two local bytes `crc_hi` and `crc_lo` of `crc16`. -/
structure CrcBytes where
  crcHi : UInt8
  crcLo : UInt8
  deriving DecidableEq, Repr

/-- The body of the loop; `i` indexes both tables. -/
def crcStep (s : CrcBytes) (byte : UInt8) : CrcBytes :=
  let i := (s.crcLo ^^^ byte).toNat
  { crcLo := s.crcHi ^^^ tableCrcHi.getD i 0, crcHi := tableCrcLo.getD i 0 }

def crcLoop (s : CrcBytes) (buffer : List UInt8) : CrcBytes := buffer.foldl crcStep s

def crcInit : CrcBytes := ⟨0xFF, 0xFF⟩

/-- `crc_hi << 8 | crc_lo` -/
def CrcBytes.value (s : CrcBytes) : UInt16 := s.crcHi.toUInt16 <<< 8 ||| s.crcLo.toUInt16

/-- The loop reads `buffer_length` bytes, which the block must have. -/
def crc16 (buffer : List UInt8) (bufferLength : UInt16) : C UInt16 := do
  let bytes ← load buffer 0 bufferLength.toNat
  return (crcLoop crcInit bytes).value

/-! ## The register -/

/-- Feedback word of the reflected polynomial `x^16 + x^15 + x^2 + 1`. -/
def feedback : BitVec 16 := 0xA001#16

def CrcBytes.register (s : CrcBytes) : BitVec 16 := s.crcHi.toBitVec ++ s.crcLo.toBitVec

/-- The bits of a byte in line order. -/
def byteBits (b : UInt8) : List Bool := (List.range 8).map b.toBitVec.getLsbD

def lineBits (bytes : List UInt8) : List Bool := bytes.flatMap byteBits

example : crc16 [0x31, 0x32, 0x33, 0x34, 0x35, 0x36, 0x37, 0x38, 0x39] 9 = .ok 0x4B37 := by
  decide +kernel

theorem table_eq_shift : ∀ i : BitVec 8,
    (tableCrcLo.getD i.toNat 0).toBitVec ++ (tableCrcHi.getD i.toNat 0).toBitVec =
      (shift feedback)^[8] (i.setWidth 16) := by
  decide +kernel

theorem high_byte_shift : ∀ h : BitVec 8,
    (shift feedback)^[8] (h ++ 0#8) = h.setWidth 16 := by
  decide +kernel

theorem xor_registers (h l h' l' : BitVec 8) : (h ++ l) ^^^ (h' ++ l') = (h ^^^ h') ++ (l ^^^ l') :=
  BitVec.xor_append

theorem registers_inj {h l h' l' : BitVec 8} (e : h ++ l = h' ++ l') : h = h' ∧ l = l' := by
  have hb : ∀ i, (h ++ l).getLsbD i = (h' ++ l').getLsbD i := fun i => by rw [e]
  constructor
  · apply BitVec.eq_of_getLsbD_eq
    intro i _
    have h8 := hb (i + 8)
    rw [BitVec.getLsbD_append, BitVec.getLsbD_append] at h8
    simpa using h8
  · apply BitVec.eq_of_getLsbD_eq
    intro i hi
    have hl := hb i
    rw [BitVec.getLsbD_append, BitVec.getLsbD_append] at hl
    simpa [hi] using hl

theorem setWidth_eq_append (x : BitVec 8) : x.setWidth 16 = 0#8 ++ x :=
  BitVec.setWidth_eq_append (by decide)

theorem byteBits_length (b : UInt8) : (byteBits b).length = 8 := by simp [byteBits]

theorem byteBits_getElem (b : UInt8) (i : Nat) (h : i < (byteBits b).length) :
    (byteBits b)[i] = b.toBitVec.getLsbD i := by
  simp [byteBits]

theorem pack_byteBits (b : UInt8) : (pack (byteBits b) : BitVec 16) = b.toBitVec.setWidth 16 := by
  apply BitVec.eq_of_getLsbD_eq
  intro i hi
  rw [getLsbD_pack _ i hi, BitVec.getLsbD_setWidth, List.getD_eq_getElem?_getD]
  by_cases h8 : i < 8
  · rw [List.getElem?_eq_getElem (by simpa [byteBits_length] using h8), byteBits_getElem]
    simp [hi]
  · rw [List.getElem?_eq_none (by rw [byteBits_length]; omega),
      BitVec.getLsbD_of_ge _ _ (by omega : 8 ≤ i)]
    simp

/-- Eight input bits are added at once, then shifted out. -/
theorem run_byteBits (s : BitVec 16) (b : UInt8) :
    run feedback s (byteBits b) = (shift feedback)^[8] (s ^^^ b.toBitVec.setWidth 16) := by
  rw [run_eq_iterate _ _ _ (by rw [byteBits_length]; decide), byteBits_length, pack_byteBits]

/-- **One turn of the loop** runs the register over one byte. -/
theorem crcStep_eq_run (s : CrcBytes) (b : UInt8) :
    (crcStep s b).register = run feedback s.register (byteBits b) := by
  have hsplit : s.register ^^^ b.toBitVec.setWidth 16 =
      (s.crcHi.toBitVec ++ 0#8) ^^^ (s.crcLo.toBitVec ^^^ b.toBitVec).setWidth 16 := by
    rw [CrcBytes.register, setWidth_eq_append, setWidth_eq_append, xor_registers, xor_registers,
      BitVec.xor_zero, BitVec.zero_xor]
  have hi : (s.crcLo ^^^ b).toNat = (s.crcLo.toBitVec ^^^ b.toBitVec).toNat := rfl
  rw [run_byteBits, hsplit, iterate_shift_xor, high_byte_shift, ← table_eq_shift,
    setWidth_eq_append, xor_registers, BitVec.zero_xor, ← hi]
  rfl

theorem crcLoop_eq_run (s : CrcBytes) (buffer : List UInt8) :
    (crcLoop s buffer).register = run feedback s.register (lineBits buffer) := by
  induction buffer generalizing s with
  | nil => rfl
  | cons b buffer ih =>
    have e : lineBits (b :: buffer) = byteBits b ++ lineBits buffer := rfl
    rw [e, run_append, ← crcStep_eq_run, ← ih]
    rfl

/-! ## The checksum of a message -/

theorem lineBits_append (xs ys : List UInt8) : lineBits (xs ++ ys) = lineBits xs ++ lineBits ys :=
  List.flatMap_append

theorem lineBits_length (bytes : List UInt8) : (lineBits bytes).length = 8 * bytes.length := by
  induction bytes with
  | nil => rfl
  | cons b bytes ih =>
    have e : lineBits (b :: bytes) = byteBits b ++ lineBits bytes := rfl
    rw [e, List.length_append, byteBits_length, ih, List.length_cons]
    omega

theorem crc16_ok (buffer : List UInt8) (n : UInt16) (h : n.toNat ≤ buffer.length) :
    crc16 buffer n = .ok (crcLoop crcInit (buffer.take n.toNat)).value := by
  rw [crc16, load_of_le _ _ _ (by omega)]
  rfl

theorem value_toNat (s : CrcBytes) : s.value.toNat = s.crcLo.toNat + 256 * s.crcHi.toNat := by
  have hh : s.crcHi.toNat < 256 := s.crcHi.toNat_lt
  have hl : s.crcLo.toNat < 2 ^ 8 := s.crcLo.toNat_lt
  have hs : s.crcHi.toNat <<< 8 % 2 ^ 16 = s.crcHi.toNat <<< 8 := by
    rw [Nat.shiftLeft_eq]; omega
  simp only [CrcBytes.value, UInt16.toNat_or, UInt16.toNat_shiftLeft, UInt8.toNat_toUInt16,
    UInt16.reduceToNat, Nat.reduceMod]
  rw [hs, ← Nat.shiftLeft_add_eq_or_of_lt hl, Nat.shiftLeft_eq]
  omega

/-- The checksum goes on the line low byte first. -/
theorem leBytes_value (s : CrcBytes) : leBytes 2 s.value.toNat = [s.crcLo, s.crcHi] := by
  have h := leBytes_leValue [s.crcLo, s.crcHi]
  have hv : leValue [s.crcLo, s.crcHi] = s.value.toNat := by
    rw [value_toNat]; simp [leValue]
  rwa [hv] at h

/-- The register after a message and two check bytes. -/
def residue (bytes : List UInt8) : BitVec 16 :=
  run feedback crcInit.register (lineBits bytes)

theorem run_two_bytes (s : BitVec 16) (lo hi : UInt8) :
    run feedback s (byteBits lo ++ byteBits hi) =
      (shift feedback)^[16] (s ^^^ (hi.toBitVec ++ lo.toBitVec)) := by
  have hsplit : hi.toBitVec ++ lo.toBitVec =
      lo.toBitVec.setWidth 16 ^^^ (hi.toBitVec ++ 0#8) := by
    rw [setWidth_eq_append, xor_registers, BitVec.zero_xor, BitVec.xor_zero]
  rw [run_append, run_byteBits, run_byteBits, hsplit, ← BitVec.xor_assoc]
  change _ = (shift feedback)^[8 + 8] _
  rw [Function.iterate_add_apply, iterate_shift_xor feedback _ (_ ++ _) 8, high_byte_shift]

theorem residue_append (msg : List UInt8) (lo hi : UInt8) :
    residue (msg ++ [lo, hi]) =
      (shift feedback)^[16] ((crcLoop crcInit msg).register ^^^ (hi.toBitVec ++ lo.toBitVec)) := by
  have e : lineBits [lo, hi] = byteBits lo ++ byteBits hi := by simp [lineBits]
  rw [residue, lineBits_append, e, run_append, ← crcLoop_eq_run, run_two_bytes]

theorem feedback_top : feedback.getLsbD (16 - 1) = true := by decide

/-- **Codewords.**  A message followed by its checksum, and no other pair of
bytes, leaves the register at zero. -/
theorem crc16_eq_iff (msg : List UInt8) (lo hi : UInt8) :
    crcLoop crcInit msg = ⟨hi, lo⟩ ↔ residue (msg ++ [lo, hi]) = 0#16 := by
  rw [residue_append]
  constructor
  · intro h
    rw [h, CrcBytes.register, BitVec.xor_self, iterate_shift_zero]
  · intro h
    by_contra hne
    refine iterate_shift_ne_zero feedback _ feedback_top (fun hx => hne ?_) 16 h
    have hr : (crcLoop crcInit msg).register = hi.toBitVec ++ lo.toBitVec :=
      BitVec.xor_eq_zero_iff.mp hx
    obtain ⟨h1, h2⟩ := registers_inj hr
    cases hc : crcLoop crcInit msg with
    | mk a b =>
      rw [hc] at h1 h2
      rw [CrcBytes.mk.injEq]
      exact ⟨UInt8.toBitVec_inj.mp h1, UInt8.toBitVec_inj.mp h2⟩

/-! ## Errors -/

theorem byteBits_xor (a b : UInt8) :
    byteBits (a ^^^ b) = List.zipWith xor (byteBits a) (byteBits b) := by
  simp only [byteBits, List.zipWith_map, UInt8.toBitVec_xor]
  rw [List.zipWith_self]
  exact List.map_congr_left fun i _ => BitVec.getLsbD_xor

theorem lineBits_xor (xs es : List UInt8) (h : xs.length = es.length) :
    lineBits (List.zipWith (· ^^^ ·) xs es) = List.zipWith xor (lineBits xs) (lineBits es) := by
  induction xs generalizing es with
  | nil => simp [lineBits]
  | cons x xs ih =>
    cases es with
    | nil => simp at h
    | cons e es =>
      have hc : ∀ (b : UInt8) (bs : List UInt8), lineBits (b :: bs) = byteBits b ++ lineBits bs :=
        fun _ _ => rfl
      rw [List.zipWith_cons_cons, hc, hc, hc, byteBits_xor, ih es (by simpa using h),
        List.zipWith_append (by rw [byteBits_length, byteBits_length])]

theorem residue_xor (xs es : List UInt8) (h : xs.length = es.length) :
    residue (List.zipWith (· ^^^ ·) xs es) = residue xs ^^^ run feedback 0#16 (lineBits es) := by
  have hr := run_xor feedback crcInit.register 0#16 (lineBits xs) (lineBits es)
    (by rw [lineBits_length, lineBits_length, h])
  rw [BitVec.xor_zero] at hr
  rw [residue, lineBits_xor xs es h, hr]
  rfl

end DeepSpace.Crc
