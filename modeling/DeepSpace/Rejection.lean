import DeepSpace.Drift

/-!
# What `write` rejects

Only a total that is too large.  The check for symbols without a frequency is commented out in the
coder that this one is ported from, and here it is absent.

* `write_below`: no call, whether it throws or not, moves the ends up;
* `write_rejects`: the total decides, as long as the ends are not negative;
* `zeroFrequency_not_rejected`: where they are, the stream throws.
-/

namespace DeepSpace.ArithmeticCoding

open DeepSpace.WhileLoop

/-! ## States -/

/-- `0 <= symlow <= symhigh <= total`. -/
structure Call.Given (a : Call) : Prop where
  symlow_nonneg : 0 ≤ a.symlow
  symlow_le : a.symlow ≤ a.symhigh
  symhigh_le : a.symhigh ≤ a.total

/-- After any calls, those included that threw and were caught. -/
inductive Reachable : ArithmeticEncoder → Prop
  | fresh : Reachable .fresh
  | wrote {e e' : ArithmeticEncoder} {a : Call} :
      Reachable e → a.Given → e.write a = .ok e' → Reachable e'
  | caught {e e' : ArithmeticEncoder} {a : Call} {message : String} :
      Reachable e → a.Given → e.write a = .threw message e' → Reachable e'

/-- No symbol of this kind has a slot. -/
def Call.Uncodable (a : Call) : Prop :=
  a.total = 0 ∨ a.total > MAX_TOTAL ∨ a.symlow = a.symhigh

/-- The call throws where it has to, and leaves the encoder as it was. -/
structure EncodableOrRejected (e : ArithmeticEncoder) (a : Call) : Prop where
  rejected : (∃ message e', e.write a = .threw message e') ↔ a.Uncodable
  unchanged : ∀ message e', e.write a = .threw message e' → e' = e

/-! ## Calls that throw -/

theorem Call.Given.ordered {a : Call} (ha : a.Given) (ht : a.total ≠ 0) : a.Ordered := by
  obtain ⟨h0, h1, h2⟩ := ha
  exact ⟨h0, h1, h2, by omega⟩

theorem write_of_total {a : Call} (e : ArithmeticEncoder) (ht : a.total > MAX_TOTAL) :
    e.write a = .threw "Cannot code symbol because total is too large" e := if_pos ht

theorem andThen_eq_threw {σ : Type} {f : σ → Result σ} {r : Result σ} {message : String} {t : σ}
    (h : r.andThen f = .threw message t) :
    r = .threw message t ∨ ∃ s, r = .ok s ∧ f s = .threw message t := by
  cases r with
  | ok s => exact .inr ⟨s, rfl, h⟩
  | threw message s =>
    cases h
    exact .inl rfl
  | undefined => cases h

theorem toExcept_eq_threw {σ : Type} {r : Result σ} {message : String} {s : σ} :
    r.toExcept = .error (.threw message s) ↔ r = .threw message s := by
  cases r with
  | ok t => exact ⟨fun h => (by cases h), fun h => (by cases h)⟩
  | threw message t => exact ⟨fun h => by cases h; rfl, fun h => by cases h; rfl⟩
  | undefined => exact ⟨fun h => (by cases h), fun h => (by cases h)⟩

/-! ## What no call undoes -/

/-- The object meets `P`, after an exception too. -/
def Result.Meets {σ : Type} (P : σ → Prop) (r : Result σ) : Prop := ∀ s, r.object? = some s → P s

section

variable {σ τ : Type} {P : σ → Prop}

theorem Result.Meets.of_ok {s : σ} (h : P s) : (Result.ok s).Meets P := fun t ht => by
  cases ht
  exact h

theorem Result.Meets.andThen {r : Result σ} {f : σ → Result σ} (h : r.Meets P)
    (hf : ∀ s, P s → (f s).Meets P) : (r.andThen f).Meets P := by
  cases r with
  | ok s => exact hf s (h s rfl)
  | threw message s => exact h
  | undefined => exact fun _ h => by cases h

theorem Result.Meets.within {Q : τ → Prop} {put : σ → τ} {r : Result σ} (h : r.Meets P)
    (hput : ∀ s, P s → Q (put s)) : (r.within put).Meets Q := by
  intro t ht
  cases r with
  | ok s =>
    cases ht
    exact hput s (h s rfl)
  | threw message s =>
    cases ht
    exact hput s (h s rfl)
  | undefined => cases ht

end

/-- The count of a stream is not negative. -/
def Counted (s : CountingBitOutputStream) : Prop := 0 ≤ s.numBits.toInt

theorem write_counted {s : CountingBitOutputStream} (h : Counted s) (b : UInt8) :
    (s.write b).Meets Counted := by
  intro t ht
  rw [CountingBitOutputStream.write, CountingBitOutputStream.writeChar] at ht
  split at ht
  · cases ht
  · next hmax =>
    have hlt := s.numBits.toInt_lt
    have hne : s.numBits.toInt ≠ 2 ^ 31 - 1 := fun he => hmax (Int32.toInt_inj.mp he)
    have hsucc : 0 ≤ (s.numBits + 1).toInt := by
      rw [toInt_succ h (by omega)]
      exact Int.add_nonneg h (by decide)
    cases hw : s.bitOut.writeChar false b with
    | ok u =>
      rw [hw] at ht
      cases ht
      exact hsucc
    | threw message u =>
      rw [hw] at ht
      cases ht
      exact hsucc
    | undefined =>
      rw [hw] at ht
      cases ht

theorem writeTimes_counted (b : UInt8) (n : Nat) (i : Int32) {s : CountingBitOutputStream}
    (h : Counted s) : (writeTimes b n i s).Meets Counted := by
  induction n generalizing i s with
  | zero => exact .of_ok h
  | succ n ih =>
    refine (write_counted h b).andThen fun t ht => ?_
    split
    · exact fun _ hu => by cases hu
    · exact ih (i + 1) ht

/-- The ends of the interval are not above the word, and the count is not negative. -/
structure Below (e : ArithmeticEncoder) : Prop where
  low_lt : e.low < 2 ^ 32
  high_lt : e.high < 2 ^ 32
  counted : Counted e.sub.cBitOut

theorem shift_below {e : ArithmeticEncoder} (h : Below e) : e.shift.Meets Below := by
  obtain ⟨hl, hh, hc⟩ := h
  unfold ArithmeticEncoder.shift
  refine Result.Meets.andThen (P := Below) ?_ fun e₁ h₁ => .of_ok ⟨h₁.1, h₁.2, h₁.3⟩
  exact ((write_counted hc _).andThen fun _ hs => writeTimes_counted _ _ _ hs).within
    fun _ hs => ⟨hl, hh, hs⟩

theorem underflow_below {e : ArithmeticEncoder} (h : Below e) : e.underflow.Meets Below := by
  unfold ArithmeticEncoder.underflow
  split
  · exact .of_ok ⟨h.1, h.2, h.3⟩
  · exact fun _ hu => by cases hu

theorem renormalise_below {e : ArithmeticEncoder} (h : Below e) :
    (renormalise ArithmeticEncoder.virtual e).Meets Below := by
  have hshift : ∀ n {e : ArithmeticEncoder}, Below e →
      (shiftLoop ArithmeticEncoder.virtual n e).Meets Below := by
    intro n
    induction n with
    | zero => exact .of_ok
    | succ n ih =>
      intro e h
      rw [shiftLoop]
      split
      · refine (shift_below h).andThen fun e₁ h₁ => ih ?_
        rw [shift_low, shift_high]
        exact ⟨by dsimp only; omega, by dsimp only; omega, h₁.counted⟩
      · exact .of_ok h
  have hunder : ∀ n {e : ArithmeticEncoder}, Below e →
      (underflowLoop ArithmeticEncoder.virtual n e).Meets Below := by
    intro n
    induction n with
    | zero => exact .of_ok
    | succ n ih =>
      intro e h
      rw [underflowLoop, virtual_underflow]
      split
      · refine (underflow_below h).andThen fun e₁ h₁ => ih ?_
        rw [underflow_low, underflow_high]
        exact ⟨by dsimp only; omega, by dsimp only; omega, h₁.counted⟩
      · exact .of_ok h
  exact (hshift STATE_SIZE h).andThen fun _ => hunder STATE_SIZE

/-- **No call** moves the ends up, past the word, whether it throws or not. -/
theorem write_below {e : ArithmeticEncoder} {a : Call} (ha : a.Given) (h : Below e) :
    (e.write a).Meets Below := by
  unfold ArithmeticEncoder.write update
  split
  · intro e' he'
    cases he'
    exact h
  · split
    · exact fun _ hu => by cases hu
    · next hdiv =>
      obtain ⟨-, b2, -, b4⟩ := narrowed_between (c := e) (ha.ordered fun ht => hdiv (.inl ht))
      have := h.low_lt
      have := h.high_lt
      exact renormalise_below ⟨show e.newlow a < 2 ^ 32 by omega,
        show e.newhigh a < 2 ^ 32 by omega, h.counted⟩

theorem below_of_reachable {e : ArithmeticEncoder} (he : Reachable e) : Below e := by
  induction he with
  | fresh => exact ⟨by decide, by decide, le_refl (0 : Int)⟩
  | wrote _ ha hw ih => exact write_below ha ih _ (congrArg Result.object? hw)
  | caught _ ha hw ih => exact write_below ha ih _ (congrArg Result.object? hw)

/-! ## Calls that do not throw -/

/-- The top bit of a word. -/
theorem exists_top_bit {e : ArithmeticEncoder} (h0 : 0 ≤ e.low) (h1 : e.low < 2 ^ 32) :
    ∃ b, UInt8.ofInt (e.low >>> (STATE_SIZE - 1)) = bitChar b := by
  rw [Int.shiftRight_eq_div_pow]
  change ∃ b, UInt8.ofInt (e.low / 2 ^ 31) = bitChar b
  rcases Int.lt_or_le e.low (2 ^ 31) with h | h
  · exact ⟨false, by rw [show e.low / 2 ^ 31 = 0 by omega]; rfl⟩
  · exact ⟨true, by rw [show e.low / 2 ^ 31 = 1 by omega]; rfl⟩

/-- Writing a bit counts one up, and does nothing else but overflow. -/
theorem write_bitChar (s : CountingBitOutputStream) (b : Bool) :
    s.write (bitChar b) = .undefined ∨
      ∃ t, s.write (bitChar b) = .ok t ∧ t.numBits = s.numBits + 1 := by
  obtain ⟨t, hw, -, -⟩ := write_bits s.bitOut b
  replace hw : s.bitOut.writeChar false (bitChar b) = .ok t := hw
  rw [CountingBitOutputStream.write, CountingBitOutputStream.writeChar, hw]
  split
  · exact .inl rfl
  · exact .inr ⟨_, rfl, rfl⟩

theorem write_counts {s : CountingBitOutputStream} (b : Bool) (h : Counted s)
    (hlt : s.numBits.toInt + 1 < 2 ^ 31) :
    ∃ t, s.write (bitChar b) = .ok t ∧ t.numBits.toInt = s.numBits.toInt + 1 := by
  obtain ⟨t, hw, -, -⟩ := write_bits s.bitOut b
  replace hw : s.bitOut.writeChar false (bitChar b) = .ok t := hw
  refine ⟨⟨s.numBits + 1, t⟩, ?_, toInt_succ h (by omega)⟩
  rw [CountingBitOutputStream.write, CountingBitOutputStream.writeChar, hw,
    if_neg (ne_max (by omega))]
  rfl

theorem writeTimes_counts (b : Bool) (n : Nat) {i : Int32} {s : CountingBitOutputStream}
    (h : Counted s) (hi : 0 ≤ i.toInt) (hle : i.toInt ≤ s.numBits.toInt)
    (hlt : s.numBits.toInt + n < 2 ^ 31) :
    ∃ t, writeTimes (bitChar b) n i s = .ok t ∧ t.numBits.toInt = s.numBits.toInt + n := by
  induction n generalizing i s with
  | zero => exact ⟨s, rfl, (Int.add_zero _).symm⟩
  | succ n ih =>
    obtain ⟨t, hw, ht⟩ := write_counts b h (by omega)
    have hi' := toInt_succ hi (by omega)
    obtain ⟨u, hrun, hu⟩ := ih (i := i + 1) (s := t) (by unfold Counted at *; omega) (by omega)
      (by omega) (by omega)
    refine ⟨u, ?_, by omega⟩
    rw [writeTimes, hw, andThen_ok, if_neg (ne_max (by omega)), hrun]

theorem writeTimes_not_threw (b : Bool) (n : Nat) (i : Int32) (s t : CountingBitOutputStream)
    (message : String) : writeTimes (bitChar b) n i s ≠ .threw message t := by
  induction n generalizing i s with
  | zero => exact fun h => by cases h
  | succ n ih =>
    rw [writeTimes]
    rcases write_bitChar s b with hw | ⟨u, hw, -⟩
    · rw [hw]
      exact fun h => by cases h
    · rw [hw, andThen_ok]
      split
      · exact fun h => by cases h
      · exact ih _ _

/-- A bit does not make the stream throw. -/
theorem shift_not_threw {e e' : ArithmeticEncoder} {message : String} (h0 : 0 ≤ e.low)
    (h1 : e.low < 2 ^ 32) : e.shift ≠ .threw message e' := by
  obtain ⟨b, hb⟩ := exists_top_bit h0 h1
  rw [shift_eq hb]
  rcases write_bitChar e.sub.cBitOut b with hw | ⟨s, hw, -⟩
  · rw [hw]
    exact fun h => by cases h
  · rw [hw, andThen_ok]
    cases hr : writeTimes (bitChar (!b)) e.sub.numUnderflow 0 s with
    | ok t => exact fun h => by cases h
    | threw message t => exact absurd hr (writeTimes_not_threw _ _ _ _ _ _)
    | undefined => exact fun h => by cases h

/-- The bits written and pending. -/
def EncoderMembers.count (m : EncoderMembers) : Int := m.cBitOut.numBits.toInt + m.numUnderflow

theorem shift_counts {e : ArithmeticEncoder} (h0 : 0 ≤ e.low) (h1 : e.low < 2 ^ 32)
    (hc : Counted e.sub.cBitOut) (hlt : e.sub.count + 1 < 2 ^ 31) :
    ∃ e', e.shift = .ok e' ∧ Counted e'.sub.cBitOut ∧ e'.sub.count = e.sub.count + 1 := by
  obtain ⟨b, hb⟩ := exists_top_bit h0 h1
  unfold EncoderMembers.count at hlt
  obtain ⟨s, hw, hs⟩ := write_counts b hc (by omega)
  have hcs : Counted s := by
    unfold Counted at *
    omega
  obtain ⟨t, hrun, ht⟩ := writeTimes_counts (!b) e.sub.numUnderflow (i := 0) hcs le_rfl hcs
    (by omega)
  refine ⟨⟨e.low, e.high, ⟨t, 0⟩⟩, ?_, ?_, ?_⟩
  · rw [shift_eq hb, hw, andThen_ok, hrun]
    rfl
  · unfold Counted at *
    dsimp only
    omega
  · unfold EncoderMembers.count
    dsimp only
    omega

theorem renormalise_not_threw {c c' : ArithmeticEncoder} {message : String} (h0 : 0 ≤ c.low)
    (h1 : c.low < 2 ^ 32) : renormalise ArithmeticEncoder.virtual c ≠ .threw message c' := by
  intro h
  obtain h | ⟨c₁, -, h⟩ := andThen_eq_threw h
  · obtain ⟨n, -, hn⟩ := shiftLoop_runs encoder_keeps c
    rw [h] at hn
    obtain ⟨t, ⟨ht0, ht1⟩, -, hb⟩ := Runs.fails
      (P := fun c : ArithmeticEncoder => 0 ≤ c.low ∧ c.low < 2 ^ 32) (fun s t _ hb _ => by
        obtain ⟨hl, -⟩ := shiftBody_ok encoder_keeps (toExcept_eq_ok.mp hb)
        omega) hn ⟨h0, h1⟩
    obtain hs | ⟨s, -, hs⟩ := andThen_eq_threw (toExcept_eq_threw.mp hb)
    · exact shift_not_threw ht0 ht1 hs
    · cases hs
  · -- `underflow` counts, and cannot throw
    obtain ⟨n, -, hn⟩ := underflowLoop_runs encoder_keeps c₁
    rw [h] at hn
    obtain ⟨t, -, -, hb⟩ := Runs.fails (P := fun _ => True) (fun _ _ _ _ _ => trivial) hn trivial
    obtain hs | ⟨s, -, hs⟩ := andThen_eq_threw (toExcept_eq_threw.mp hb)
    · rw [virtual_underflow, ArithmeticEncoder.underflow] at hs
      split at hs <;> cases hs
    · cases hs

/-- So many rounds of the first loop are left, and the counters have room for them. -/
structure ShiftRoom (k : Nat) (c : ArithmeticEncoder) : Prop where
  left : ShiftsLeft k c
  low_nonneg : 0 ≤ c.low
  low_lt : c.low < 2 ^ 32
  counted : Counted c.sub.cBitOut
  room : c.sub.count + k < 2 ^ 31

theorem ShiftRoom.next {k : Nat} {c : ArithmeticEncoder} (h : ShiftRoom (k + 1) c) :
    ∃ c', shiftBody ArithmeticEncoder.virtual c = .ok c' ∧ ShiftRoom k c' := by
  obtain ⟨e, he, hcounted, hcount⟩ := shift_counts h.low_nonneg h.low_lt h.counted (by
    have := h.room
    omega)
  have hbody : shiftBody ArithmeticEncoder.virtual c = .ok _ := congrArg (Result.andThen _) he
  obtain ⟨hl, -⟩ := shiftBody_ok encoder_keeps hbody
  refine ⟨_, hbody, h.left.next encoder_keeps hbody, by omega, by omega, hcounted, ?_⟩
  have := h.room
  change e.sub.count + k < 2 ^ 31
  omega

/-- So many rounds of the second loop are left. -/
structure UnderflowRoom (k : Nat) (c : ArithmeticEncoder) : Prop where
  left : UnderflowsLeft k c
  room : (c.sub.numUnderflow : Int) + k < 2 ^ 63

theorem underflow_counts {e : ArithmeticEncoder} (h : (e.sub.numUnderflow : Int) + 1 < 2 ^ 63) :
    ∃ e', e.underflow = .ok e' ∧ e'.sub.numUnderflow = e.sub.numUnderflow + 1 :=
  ⟨_, if_pos ⟨by omega, h⟩, rfl⟩

theorem UnderflowRoom.next {k : Nat} {c : ArithmeticEncoder} (h : UnderflowRoom (k + 1) c) :
    ∃ c', underflowBody ArithmeticEncoder.virtual c = .ok c' ∧ UnderflowRoom k c' := by
  have hroom := h.room
  obtain ⟨e, he, hcount⟩ := underflow_counts (e := c) (by omega)
  have hbody : underflowBody ArithmeticEncoder.virtual c = .ok _ :=
    congrArg (Result.andThen _) ((virtual_underflow c).trans he)
  refine ⟨_, hbody, h.left.next encoder_keeps hbody, ?_⟩
  dsimp only
  omega

/-- **Renormalisation ends** where the counters have room for the bits of a word. -/
theorem renormalise_succeeds {c : ArithmeticEncoder} (h0 : 0 ≤ c.low) (h1 : c.low < 2 ^ 32)
    (hc : Counted c.sub.cBitOut) (hroom : c.sub.count + 32 < 2 ^ 31) :
    ∃ c', renormalise ArithmeticEncoder.virtual c = .ok c' := by
  obtain ⟨n, -, hn⟩ := shiftLoop_runs encoder_keeps c
  obtain ⟨c₁, hc₁, k, hk⟩ := Runs.succeeds (P := fun c => ∃ k, ShiftRoom k c)
    (fun s hg ⟨k, hk⟩ => by
      cases k with
      | zero => exact absurd hg hk.left.not_guard
      | succ k =>
        obtain ⟨t, ht, hroom⟩ := hk.next
        exact ⟨t, toExcept_eq_ok.mpr ht, k, hroom⟩) hn
    ⟨32, shiftsLeft c, h0, h1, hc, hroom⟩
  have hcounted := hk.counted
  have hleft := hk.room
  unfold Counted at hcounted
  unfold EncoderMembers.count at hleft
  obtain ⟨m, -, hm⟩ := underflowLoop_runs encoder_keeps c₁
  obtain ⟨c', hc', -⟩ := Runs.succeeds (P := fun c => ∃ k, UnderflowRoom k c)
    (fun s hg ⟨k, hk⟩ => by
      cases k with
      | zero => exact absurd hg hk.left.not_guard
      | succ k =>
        obtain ⟨t, ht, hroom⟩ := hk.next
        exact ⟨t, toExcept_eq_ok.mpr ht, k, hroom⟩) hm
    ⟨31, underflowsLeft c₁, by omega⟩
  refine ⟨c', ?_⟩
  rw [renormalise, toExcept_eq_ok.mp hc₁, andThen_ok, toExcept_eq_ok.mp hc']

/-- **What is rejected**: a total that is too large, in every state, and in the states whose ends
are not negative nothing else; a symbol without a frequency is coded, into an empty interval, if
the counters have room for a word. -/
theorem write_rejects {e : ArithmeticEncoder} {a : Call} (he : Reachable e) (ha : a.Given)
    (ht : 1 ≤ a.total) :
    (a.total > MAX_TOTAL →
      e.write a = .threw "Cannot code symbol because total is too large" e) ∧
    (a.symlow = a.symhigh → e.newhigh a = e.newlow a - 1) ∧
    (0 ≤ e.low → 0 ≤ e.high → a.total ≤ MAX_TOTAL →
      (∀ message e', e.write a ≠ .threw message e') ∧
      (e.sub.count + 32 < 2 ^ 31 → ∃ e', e.write a = .ok e')) := by
  refine ⟨write_of_total e, fun h => ?_, fun hl hh hmax => ?_⟩
  · rw [Coder.newhigh, Coder.newlow, h]
  · have hord := ha.ordered (by omega)
    obtain ⟨hl', hh', hcounted⟩ := below_of_reachable he
    obtain ⟨b1, b2, -, -⟩ := narrowed_between (c := e) hord
    have hfit := terms_fit_of_range (c := e) ⟨hord, hmax⟩ ⟨by omega, hl'⟩ ⟨by omega, hh'⟩ (by
      unfold Coder.range
      omega)
    have h0 : 0 ≤ e.newlow a := by omega
    have h1 : e.newlow a < 2 ^ 32 := by omega
    rw [ArithmeticEncoder.write, update_of_fit _ (by omega) hmax hfit]
    exact ⟨fun _ _ => renormalise_not_threw h0 h1,
      renormalise_succeeds (c := e.narrowed a) h0 h1 hcounted⟩

/-- The encoder after the middle third, with a bit pending. -/
def middleThird : ArithmeticEncoder := ⟨715827882, 3579139411, ⟨.fresh, 1⟩⟩

theorem reachable_middleThird : Reachable middleThird := by
  have hw : ArithmeticEncoder.fresh.write ⟨3, 1, 2⟩ = .ok middleThird := by decide +kernel
  exact .wrote .fresh (by constructor <;> decide) hw

theorem write_rejects_middleThird :
    (Reachable middleThird ∧ Call.Given ⟨3, 1, 1⟩) ∧
      middleThird.newhigh ⟨3, 1, 1⟩ = middleThird.newlow ⟨3, 1, 1⟩ - 1 ∧
      (∀ message e', middleThird.write ⟨3, 1, 1⟩ ≠ .threw message e') ∧
      ∃ e', middleThird.write ⟨3, 1, 1⟩ = .ok e' := by
  have ha : Call.Given ⟨3, 1, 1⟩ := by constructor <;> decide
  obtain ⟨-, hempty, hcoded⟩ := write_rejects reachable_middleThird ha (by decide)
  obtain ⟨hthrow, hok⟩ := hcoded (by decide) (by decide) (by decide)
  exact ⟨⟨reachable_middleThird, ha⟩, hempty rfl, hthrow, hok (by decide)⟩

/-! ## Symbols without a frequency -/

/-- The encoder after a symbol without a frequency, and after one more. -/
def inverted (high : Int) : ArithmeticEncoder := ⟨0, high, ⟨.fresh, 0⟩⟩

theorem write_zeroFrequency : ArithmeticEncoder.fresh.write ⟨1, 0, 0⟩ = .ok (inverted (-1)) := by
  decide +kernel

theorem reachable_inverted : Reachable (inverted (-2)) := by
  have h₁ : Reachable (inverted (-1)) :=
    .wrote .fresh (by constructor <;> decide) write_zeroFrequency
  have h₂ : (inverted (-1)).write ⟨1, 0, 1⟩ = .ok (inverted (-2)) := by decide +kernel
  exact .wrote h₁ (by constructor <;> decide) h₂

/-- **A symbol without a frequency** is coded, and one with a frequency is rejected two calls
later, with other ends. -/
theorem zeroFrequency_not_rejected :
    (Reachable .fresh ∧ Call.Given ⟨1, 0, 0⟩ ∧ ¬ EncodableOrRejected .fresh ⟨1, 0, 0⟩) ∧
      Reachable (inverted (-2)) ∧ Call.Given ⟨4, 3, 4⟩ ∧ ¬ Call.Uncodable ⟨4, 3, 4⟩ ∧
      ∃ message e', (inverted (-2)).write ⟨4, 3, 4⟩ = .threw message e' ∧
        e'.low ≠ (inverted (-2)).low := by
  refine ⟨⟨.fresh, by constructor <;> decide, fun h => ?_⟩, reachable_inverted,
    by constructor <;> decide, by unfold Call.Uncodable; decide, "Argument must be 0 or 1",
    ⟨-1, -3, ⟨⟨1, .fresh⟩, 0⟩⟩, by decide +kernel, by decide⟩
  obtain ⟨message, e', he⟩ := h.rejected.mpr (.inr (.inr rfl))
  rw [write_zeroFrequency] at he
  cases he

end DeepSpace.ArithmeticCoding
