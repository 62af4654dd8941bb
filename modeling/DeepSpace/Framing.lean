import DeepSpace.FrameLayout

/-!
# Frames on a byte line

The line is a lossless FIFO.  Proved here, for every frame of a known type:

* `sendFrame_fifo`: the sender appends the encoded frame, 16 or 530 bytes, and
  reports its size;
* `typeField_wire`: the first eight bytes tell the type.
-/

namespace DeepSpace.TransmissionProtocol

open DeepSpace.Memory DeepSpace.Crc

/-! ## The line -/

/-- A FIFO of bytes.  A read returns what is there, up to the requested count. -/
def fifo : Fd (List UInt8) where
  read line n := (some (line.take n), line.drop n)
  write line bs := (some bs.length, line ++ bs)

def Known (frameType : UInt16) : Prop :=
  frameType = TP_FRAME_TYPE_CONTROL ∨ frameType = TP_FRAME_TYPE_REQUEST_DATA ∨
    frameType = TP_FRAME_TYPE_TRANSPORT_DATA

/-- Bytes of the frame on the line. -/
def Frame.size (f : Frame) : Nat :=
  if f.frameType = TP_FRAME_TYPE_TRANSPORT_DATA then TP_FRAME_SIZE_TRANSPORT_DATA
  else TP_FRAME_SIZE_REQUEST_DATA

theorem size_eq (f : Frame) : f.size = f.bodySize + 2 := by
  unfold Frame.size Frame.bodySize
  split <;> rfl

theorem sendSize_eq (f : Frame) (h : Known f.frameType) : sendSize f.frameType = .ok f.size := by
  unfold sendSize Frame.size
  rcases h with h | h | h <;> rw [h] <;> decide

/-! ## Sender -/

/-- **The sender**, on any descriptor: it writes the encoded frame. -/
theorem sendFrame_eq {σ : Type} (fd : Fd σ) (stale : Nat → UInt8) (s : σ) (f : Frame)
    (hty : Known f.frameType) (hf : f.Fits) :
    sendFrame fd stale s f =
      (.ok (ssize (fd.write s (f.wire (malloc f.size stale))).1),
        (fd.write s (f.wire (malloc f.size stale))).2) := by
  have hs := size_eq f
  have hm : (malloc f.size stale).length = f.bodySize + 2 := by rw [malloc_length, hs]
  have hw := wire_length f (malloc f.size stale) hf (by omega)
  have henc := frame2bitStream_wire f (malloc f.size stale) hf (by omega)
  rw [List.drop_eq_nil_of_le (by omega), List.append_nil, ← hs] at henc
  rw [sendFrame, sendSize_eq f hty]
  simp only [bind, Except.bind, pure, Except.pure, henc, ne_eq, not_true_eq_false, ↓reduceIte]
  rw [List.take_of_length_le (by omega)]

theorem sendFrame_fifo (stale : Nat → UInt8) (line : List UInt8) (f : Frame)
    (hty : Known f.frameType) (hf : f.Fits) :
    sendFrame fifo stale line f = (.ok (f.size : Int), line ++ f.wire (malloc f.size stale)) := by
  have hm : (malloc f.size stale).length = f.bodySize + 2 := by rw [malloc_length, size_eq]
  have hw := wire_length f (malloc f.size stale) hf (by omega)
  rw [sendFrame_eq fifo stale line f hty hf]
  simp only [fifo, ssize, hw]
  rw [← size_eq]

/-- The type field of a sent frame. -/
theorem typeField_wire (f : Frame) (buffer rest : List UInt8) :
    typeField (f.wire buffer ++ rest) = f.frameType := by
  have hh := f.header_length
  have h : ∃ more, f.wire buffer ++ rest =
      (f.header ++ leBytes 2 f.address.toNat) ++ (leBytes 2 f.frameType.toNat ++ more) := by
    unfold Frame.wire Frame.body Frame.fields
    split <;> simp only [List.append_assoc] <;> exact ⟨_, rfl⟩
  obtain ⟨more, h⟩ := h
  rw [typeField, h, List.drop_left' (by simp [hh]), List.take_left' (by simp), uint16_leValue]

end DeepSpace.TransmissionProtocol
