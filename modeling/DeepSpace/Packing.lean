import DeepSpace.BitStream

/-!
# Packing and counting

Any bits, written through both layers and closed.

* `Counts.writeChars`: the counter of a stream that is written to is the number of its bits;
* `packed`: so the file and the count are right, for as many bits as the count can hold.
-/

namespace DeepSpace.ArithmeticCoding

def CountingBitOutputStream.writeChars (signed : Bool) :
    List Bool → CountingBitOutputStream → Result CountingBitOutputStream
  | [], s => .ok s
  | b :: bits, s => (s.writeChar signed (bitChar b)).andThen (writeChars signed bits)

/-- **Many bits.** -/
theorem Counts.writeChars (signed : Bool) (bits : List Bool) {s : CountingBitOutputStream}
    (h : Counts s) (hlt : s.bitOut.bits.length + bits.length < 2 ^ 31) :
    ∃ s', s.writeChars signed bits = .ok s' ∧ Counts s' ∧
      s'.bitOut.bits = s.bitOut.bits ++ bits := by
  induction bits generalizing s with
  | nil => exact ⟨s, rfl, h, (List.append_nil _).symm⟩
  | cons b bits ih =>
    rw [List.length_cons] at hlt
    obtain ⟨t, hw, ht, hb⟩ := h.write signed b (by omega)
    obtain ⟨s', hs, hs', hbits⟩ := ih ht (by
      rw [hb, List.length_append, List.length_singleton]
      omega)
    refine ⟨s', ?_, hs', ?_⟩
    · rw [CountingBitOutputStream.writeChars, hw]
      exact hs
    · rw [hbits, hb, List.append_assoc]
      rfl

/-- **The compressed output**: as many bytes as the bits need, the bits highest first and the fewest
zeros behind them, and the count of all of these. -/
theorem packed (signed : Bool) (bits : List Bool) (h : bits.length ≤ 2 ^ 31 - 8) :
    ∃ s p, ((CountingBitOutputStream.fresh.writeChars signed bits).andThen fun s =>
        s.closeChar signed) = .ok s ∧
      s.bitOut.bitOut.length = (bits.length + 7) / 8 ∧
      p < 8 ∧ fileBits s.bitOut.bitOut = bits ++ List.replicate p false ∧
      s.numBits.toInt = 8 * s.bitOut.bitOut.length := by
  obtain ⟨t, hw, ht, hb⟩ := fresh_counts.writeChars signed bits (by
    change 0 + bits.length < _
    omega)
  replace hb : t.bitOut.bits = bits := hb
  obtain ⟨s, p, hc, hp, hfile, hnum⟩ := ht.close signed (by rw [hb]; omega)
  rw [hb] at hfile
  have hlen := congrArg List.length hfile
  rw [fileBits_length, List.length_append, List.length_replicate] at hlen
  refine ⟨s, p, ?_, by omega, hp, hfile, hnum⟩
  rw [hw, andThen_ok, hc]

theorem packed_ones : ∃ s p, ((CountingBitOutputStream.fresh.writeChars true
        (List.replicate 9 true)).andThen fun s => s.closeChar true) = .ok s ∧
      s.bitOut.bitOut.length = ((List.replicate 9 true).length + 7) / 8 ∧
      p < 8 ∧ fileBits s.bitOut.bitOut = List.replicate 9 true ++ List.replicate p false ∧
      s.numBits.toInt = 8 * s.bitOut.bitOut.length :=
  packed true (List.replicate 9 true) (by decide)

end DeepSpace.ArithmeticCoding
