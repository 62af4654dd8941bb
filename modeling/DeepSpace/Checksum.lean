import DeepSpace.RoundTrip

/-!
# CRC-16/MODBUS

The checksum as its standard defines it, one bit at a time.

* `crcModbus_eq`: the two tables of `crc16` compute it;
* `checkSum_modbus`: the last two bytes of every encoded frame are that of the bytes before
  them, the low byte first.
-/

namespace DeepSpace.Crc

open DeepSpace.Memory DeepSpace.ShiftRegister

/-! ## The standard -/

/-- One bit: the register is shifted, and the bit that falls out feeds the polynomial back. -/
def modbusBit (crc : UInt16) : UInt16 :=
  if crc &&& 1 = 1 then crc >>> 1 ^^^ 0xA001 else crc >>> 1

def modbusByte (crc : UInt16) (byte : UInt8) : UInt16 := modbusBit^[8] (crc ^^^ byte.toUInt16)

/-- CRC-16/MODBUS: no bits are added at the end. -/
def crcModbus (bytes : List UInt8) : UInt16 := bytes.foldl modbusByte 0xFFFF

/-! ## The tables -/

theorem modbusBit_toBitVec (crc : UInt16) :
    (modbusBit crc).toBitVec = shift feedback crc.toBitVec := by
  have hlow : crc &&& 1 = 1 ↔ crc.toBitVec.getLsbD 0 = true := by
    rw [← UInt16.toNat_inj, UInt16.toNat_and, BitVec.getLsbD, UInt16.toNat_toBitVec,
      Nat.testBit_zero]
    change crc.toNat &&& 1 = 1 ↔ _
    rw [Nat.and_one_is_mod, decide_eq_true_iff]
  unfold modbusBit shift
  by_cases h : crc &&& 1 = 1
  · rw [if_pos h, if_pos (hlow.mp h)]
    rfl
  · rw [if_neg h, if_neg (mt hlow.mpr h), BitVec.xor_zero]
    rfl

theorem iterate_modbusBit_toBitVec (n : Nat) (crc : UInt16) :
    (modbusBit^[n] crc).toBitVec = (shift feedback)^[n] crc.toBitVec := by
  induction n generalizing crc with
  | zero => rfl
  | succ n ih =>
    rw [Function.iterate_succ_apply, Function.iterate_succ_apply, ih, modbusBit_toBitVec]

theorem modbusByte_toBitVec (crc : UInt16) (byte : UInt8) :
    (modbusByte crc byte).toBitVec = run feedback crc.toBitVec (byteBits byte) := by
  rw [modbusByte, iterate_modbusBit_toBitVec, run_byteBits]
  rfl

theorem foldl_modbusByte_toBitVec (bytes : List UInt8) (crc : UInt16) :
    (bytes.foldl modbusByte crc).toBitVec = run feedback crc.toBitVec (lineBits bytes) := by
  induction bytes generalizing crc with
  | nil => rfl
  | cons byte bytes ih =>
    have e : lineBits (byte :: bytes) = byteBits byte ++ lineBits bytes := rfl
    rw [List.foldl_cons, ih, modbusByte_toBitVec, e, run_append]

theorem value_toBitVec (s : CrcBytes) : s.value.toBitVec = s.register := by
  apply BitVec.eq_of_toNat_eq
  rw [UInt16.toNat_toBitVec, value_toNat, CrcBytes.register, BitVec.toNat_append,
    ← Nat.shiftLeft_add_eq_or_of_lt s.crcLo.toBitVec.isLt, Nat.shiftLeft_eq]
  change s.crcLo.toNat + 256 * s.crcHi.toNat = s.crcHi.toNat * 256 + s.crcLo.toNat
  omega

/-- **The tables** compute the standard. -/
theorem crcModbus_eq (bytes : List UInt8) : crcModbus bytes = (crcLoop crcInit bytes).value := by
  apply UInt16.toBitVec_inj.mp
  rw [crcModbus, foldl_modbusByte_toBitVec, value_toBitVec, crcLoop_eq_run]
  rfl

theorem crc16_eq_crcModbus (buffer : List UInt8) (n : UInt16) (h : n.toNat ≤ buffer.length) :
    crc16 buffer n = .ok (crcModbus (buffer.take n.toNat)) := by
  rw [crc16_ok buffer n h, crcModbus_eq]

example : crcModbus [0x31, 0x32, 0x33, 0x34, 0x35, 0x36, 0x37, 0x38, 0x39] = 0x4B37 := by
  decide +kernel

end DeepSpace.Crc

namespace DeepSpace.TransmissionProtocol

open DeepSpace.Memory DeepSpace.Crc

/-! ## Frames -/

theorem checkBytes_eq (msg : List UInt8) : checkBytes msg = leBytes 2 (crcModbus msg).toNat := by
  rw [crcModbus_eq, leBytes_value]
  rfl

/-- **The checksum of a frame**, and of any block whose length 16 bits hold. -/
theorem checkSum_modbus (f : Frame) (buffer : List UInt8)
    (hf : f.dataLen.toNat ≤ TP_FRAME_DATA_LEN_MAX) (hb : f.bodySize + 2 ≤ buffer.length) :
    (∃ bs, frame2bitStream f buffer = .ok (bs, f.bodySize + 2) ∧
      (bs.drop f.bodySize).take 2 = leBytes 2 (crcModbus (bs.take f.bodySize)).toNat) ∧
    ∀ bytes : List UInt8, bytes.length ≤ 65535 →
      crc16 bytes (UInt16.ofNat bytes.length) = .ok (crcModbus bytes) := by
  have hfit : f.Fits := fun _ => hf
  have hl := body_length f buffer hfit (by omega)
  refine ⟨⟨_, frame2bitStream_eq f buffer hfit hb, ?_⟩, fun bytes h => ?_⟩
  · rw [List.drop_left' hl, List.take_left' hl, List.take_left' (checkBytes_length _),
      checkBytes_eq]
  · have hn : (UInt16.ofNat bytes.length).toNat = bytes.length := uint16_ofNat_toNat (by omega)
    rw [crc16_eq_crcModbus bytes _ hn.le, hn, List.take_length]

theorem checkSum_modbus_sampleData :
    (∃ bs, frame2bitStream sampleData (List.replicate 530 1) =
        .ok (bs, sampleData.bodySize + 2) ∧
      (bs.drop sampleData.bodySize).take 2 =
        leBytes 2 (crcModbus (bs.take sampleData.bodySize)).toNat) ∧
    ∀ bytes : List UInt8, bytes.length ≤ 65535 →
      crc16 bytes (UInt16.ofNat bytes.length) = .ok (crcModbus bytes) :=
  checkSum_modbus sampleData (List.replicate 530 1) (by decide)
    (by rw [bodySize_of_eq rfl, List.length_replicate])

end DeepSpace.TransmissionProtocol
