import DeepSpace.Port

/-!
# The reference decoder on the files of the C++ encoder

* `read_spec`: the bit stream of the reference hands out the bits of the file, and
  -1 behind them;
* `search_spec`: the search finds the symbol whose slot holds the code;
* `cross_decoding`: in a run whose steps leave room for the missing point of the
  range, the decoder returns the symbols of the run.
-/

namespace DeepSpace.Reference

open DeepSpace.Bitwise DeepSpace.Renormalisation DeepSpace.ArithmeticCoding

/-! ## The bit stream -/

/-- The bits still to be read. -/
def BitInputStream.rest (s : BitInputStream) : List Bool :=
  match s.currentbyte with
  | none => []
  | some b => lowBits b.toNat s.numbitsremaining ++ fileBits s.input

theorem bit_eq (b : UInt8) (n : Nat) : BitInputStream.bit b n = (b.toNat.testBit n).toInt := by
  rw [BitInputStream.bit, Nat.and_one_is_mod, Nat.shiftRight_eq_div_pow,
    Nat.testBit_eq_decide_div_mod_eq]
  rcases Nat.mod_two_eq_zero_or_one (b.toNat / 2 ^ n) with h | h <;> rw [h] <;> rfl

/-- **Reading a bit.** -/
theorem read_spec (s : BitInputStream) :
    s.read.1 = (match s.rest with
      | [] => -1
      | b :: _ => b.toInt) ∧ s.read.2.rest = s.rest.tail := by
  obtain ⟨input, _ | b, n⟩ := s
  · exact ⟨rfl, rfl⟩
  · cases n with
    | zero =>
      cases input with
      | nil => exact ⟨rfl, rfl⟩
      | cons c input => exact ⟨bit_eq c 7, rfl⟩
    | succ n => exact ⟨bit_eq b n, rfl⟩

theorem rest_ofFile (file : List UInt8) : (BitInputStream.ofFile file).rest = fileBits file := rfl

/-- The decoder's input stands at bit `n` of the file. -/
def DecoderMembers.At (m : DecoderMembers) (file : List UInt8) (n : Nat) : Prop :=
  m.input.rest = (fileBits file).drop n

/-- Behind the end of the file the code goes on with zeros. -/
theorem readCodeBit_spec {m : DecoderMembers} {file : List UInt8} {n : Nat} (h : m.At file n) :
    m.readCodeBit.1 = (codeBit file n).toInt ∧ m.readCodeBit.2.At file (n + 1) ∧
      m.readCodeBit.2.code = m.code := by
  obtain ⟨h1, h2⟩ := read_spec m.input
  rw [DecoderMembers.At] at h
  have hc : codeBit file n = m.input.rest.head?.getD false := by
    rw [codeBit, h, List.head?_drop]
  refine ⟨?_, ?_, rfl⟩
  · rw [hc]
    change (if m.input.read.1 = -1 then 0 else m.input.read.1) = _
    rw [h1]
    cases m.input.rest with
    | nil => rfl
    | cons b bits => cases b <;> rfl
  · change m.input.read.2.rest = _
    rw [h2, h, List.tail_drop]

/-- `__init__` reads the first window of the code. -/
theorem fill_spec (file : List UInt8) (n p : Nat) {m : DecoderMembers} (h : m.At file p)
    (hc : m.code = window (codeBit file) 0 p) :
    (ArithmeticDecoder.fill n m).At file (p + n) ∧
      (ArithmeticDecoder.fill n m).code = window (codeBit file) 0 (p + n) := by
  induction n generalizing p m with
  | zero => exact ⟨h, hc⟩
  | succ n ih =>
    obtain ⟨h1, h2, h3⟩ := readCodeBit_spec h
    have hw := window_nonneg (codeBit file) 0 p
    have hcode : (m.readCodeBit.2.code <<< (1 : Nat)).lor m.readCodeBit.1 =
        window (codeBit file) 0 (p + 1) := by
      rw [h3, h1, hc, shiftLeft_one, lor_bit (by omega) (by omega) (toInt_bit _), window,
        Nat.zero_add]
    have := ih (p + 1) (m := { m.readCodeBit.2 with
      code := (m.readCodeBit.2.code <<< (1 : Nat)).lor m.readCodeBit.1 }) h2 hcode
    rw [Nat.add_assoc, Nat.add_comm 1] at this
    exact this

/-! ## The register -/

/-- The decoder behind the output `O`: its code, and its place in the file. -/
def Behind (file : List UInt8) (m : DecoderMembers) (O : Output) : Prop :=
  m.code = register 30 (codeBit file) O ∧ m.At file (O.read 30)

theorem ofFile_behind (file : List UInt8) :
    Behind file (ArithmeticDecoder.fill STATE_SIZE ⟨.ofFile file, 0⟩) ⟨[], 0⟩ := by
  obtain ⟨h1, h2⟩ := fill_spec file STATE_SIZE 0 (m := ⟨.ofFile file, 0⟩) (rest_ofFile file) rfl
  refine ⟨?_, h1⟩
  rw [h2, register_fresh]
  rfl

/-- The reference decoder follows the output of the encoder. -/
theorem decoder_follows (file : List UInt8) :
    ArithmeticDecoder.virtual.Follows (Behind file) Output.apply Unbounded where
  room_of_rel _ := trivial
  room_of_act _ := trivial
  shift := by
    rintro d O b - - ⟨hc, hat⟩
    obtain ⟨h1, h2, h3⟩ := readCodeBit_spec hat
    have hm := register_move (k := 30) (β := codeBit file) O (.emit b)
    obtain ⟨e1, e2⟩ := Word.mk.inj hm
    refine .of_ok ⟨_, rfl, ?_, ?_⟩
    · change ((d.sub.readCodeBit.2.code <<< (1 : Nat)).land MASK).lor d.sub.readCodeBit.1 = _
      rw [h3, h1, hc, shift_code, ← e1]
    · rw [← e2]
      exact h2
  underflow := by
    rintro d O ⟨hc, hat⟩
    obtain ⟨h1, h2, h3⟩ := readCodeBit_spec hat
    have hm := register_move (k := 30) (β := codeBit file) O .pend
    obtain ⟨e1, e2⟩ := Word.mk.inj hm
    refine .of_ok ⟨_, rfl, ?_, ?_⟩
    · change ((d.sub.readCodeBit.2.code.land TOP_MASK).lor
        ((d.sub.readCodeBit.2.code <<< (1 : Nat)).land (MASK >>> (1 : Nat)))).lor
          d.sub.readCodeBit.1 = _
      rw [h3, h1, hc, underflow_code, ← e1]
    · rw [← e2]
      exact h2

/-! ## The search -/

theorem getLow_mono (t : FrequencyTable) {i j : Nat} (h : i ≤ j) : t.getLow i ≤ t.getLow j := by
  have e : (t.frequencies.take j).take i = t.frequencies.take i := by
    rw [List.take_take, Nat.min_eq_left h]
  have := sum_take_le (t.frequencies.take j) i
  rw [e] at this
  exact Int.ofNat_le.mpr this

/-- **The search** ends at the symbol whose cumulative frequencies enclose the value. -/
theorem search_spec (t : FrequencyTable) (value : Int) (n start stop : Nat) (hlt : start < stop)
    (hn : stop ≤ start + n + 1) (hl : t.getLow start ≤ value) (hh : value < t.getLow stop) :
    t.getLow (ArithmeticDecoder.search t value n start stop) ≤ value ∧
      value < t.getLow (ArithmeticDecoder.search t value n start stop + 1) := by
  induction n generalizing start stop with
  | zero =>
    obtain rfl : stop = start + 1 := by omega
    exact ⟨hl, hh⟩
  | succ n ih =>
    rw [ArithmeticDecoder.search]
    have hmid : (start + stop) >>> 1 = (start + stop) / 2 := Nat.shiftRight_eq_div_pow _ 1
    by_cases hgap : stop - start > 1
    · rw [if_pos hgap]
      simp only [hmid]
      by_cases hm : t.getLow ((start + stop) / 2) > value
      · rw [if_pos hm]
        exact ih start _ (by omega) (by omega) hl hm
      · rw [if_neg hm]
        exact ih _ stop (by omega) (by omega) (not_lt.mp hm) hh
    · rw [if_neg hgap]
      obtain rfl : stop = start + 1 := by omega
      exact ⟨hl, hh⟩

theorem search_eq {t : FrequencyTable} {value : Int} {symbol : Nat}
    (hl : t.getLow symbol ≤ value) (hh : value < t.getHigh symbol) :
    ArithmeticDecoder.search t value t.getSymbolLimit 0 t.getSymbolLimit = symbol := by
  have h0 : t.getLow 0 ≤ value := (getLow_mono t (Nat.zero_le symbol)).trans hl
  have hlimit : value < t.getLow t.getSymbolLimit := by
    have e : t.frequencies.take t.getSymbolLimit = t.frequencies := List.take_length
    have hs : t.getHigh symbol ≤ t.getLow t.getSymbolLimit := by
      rw [FrequencyTable.getLow, e]
      exact Int.ofNat_le.mpr (sum_take_le _ _)
    omega
  have hpos : 0 < t.getSymbolLimit := by
    by_contra h
    rw [Nat.eq_zero_of_not_pos h] at hlimit
    omega
  obtain ⟨h1, h2⟩ := search_spec t value t.getSymbolLimit 0 t.getSymbolLimit hpos (by omega) h0
    hlimit
  generalize ArithmeticDecoder.search t value t.getSymbolLimit 0 t.getSymbolLimit = found at h1 h2 ⊢
  -- two symbols that enclose one value are the same
  rcases Nat.lt_trichotomy found symbol with h | h | h
  · have := getLow_mono t (show found + 1 ≤ symbol from h)
    omega
  · exact h
  · have : t.getHigh symbol ≤ t.getLow found := getLow_mono t (show symbol + 1 ≤ found from h)
    omega

/-! ## Decoding -/

/-- Encoder and decoder at one place of a run. -/
structure Facing (file : List UInt8) (e : ArithmeticCoding.ArithmeticEncoder)
    (d : ArithmeticDecoder) : Prop where
  interval : d.interval = e.interval
  behind : Behind file d.sub e.sub.output

/-- The symbol that `read` finds, when the code lies in its slot. -/
theorem symbol_eq {file : List UInt8} {e : ArithmeticCoding.ArithmeticEncoder}
    {d : ArithmeticDecoder} {t : FrequencyTable} {symbol : Nat} (hcoded : Coded t symbol)
    (hI : e.interval.Settled (2 ^ 30)) (hf : Facing file e d)
    (hsame : SameSlot e (t.call symbol))
    (hr : Reaches 30 (codeBit file) (e.narrowed (t.call symbol)).interval e.sub.output) :
    d.symbol t = symbol := by
  have ha := call_valid hcoded
  obtain ⟨dl, dh, dm⟩ := d
  obtain ⟨hint, hcode, -⟩ := hf
  obtain ⟨rfl, rfl⟩ := Interval.mk.inj hint
  change dm.code = _ at hcode
  have hrange := range_nonneg hI.inside
  have h1 := hr.low_le
  have h2 := hr.le_high
  simp only [Coder.narrowed, Coder.interval] at h1 h2
  rw [newlow_eq ha hI.inside, ← hcode] at h1
  rw [newhigh_eq ha hI.inside, ← hcode] at h2
  rw [← (slot_succ_eq_iff ha.total_pos ha.symlow_nonneg).mpr hsame.1] at h1
  rw [← (slot_succ_eq_iff ha.total_pos (ha.symlow_nonneg.trans ha.symlow_lt.le)).mpr hsame.2] at h2
  have hpos : 0 < e.range + 1 := by omega
  have hl := (slot_le_iff (s := (t.call symbol).symlow) (o := dm.code - e.low) hpos
    ha.total_pos).mp (by omega)
  have hh := mt (slot_le_iff (s := (t.call symbol).symhigh) (o := dm.code - e.low) hpos
    ha.total_pos).mpr (by omega)
  rw [ArithmeticDecoder.symbol]
  apply search_eq
  · rw [Int.fdiv_eq_ediv_of_nonneg _ (by change 0 ≤ e.high - e.low + 1; exact hpos.le)]
    exact hl
  · rw [Int.fdiv_eq_ediv_of_nonneg _ (by change 0 ≤ e.high - e.low + 1; exact hpos.le)]
    exact not_le.mp hh

/-- **One symbol**, if the port encodes it. -/
theorem read_lockstep {file : List UInt8} {e e' : ArithmeticCoding.ArithmeticEncoder}
    {d : ArithmeticDecoder} {t : FrequencyTable} {symbol : Nat} (h : Admitted (t, symbol))
    (he : Kept e) (hf : Facing file e d) (hsame : SameSlot e (t.call symbol))
    (hr : Reaches 30 (codeBit file) (e.narrowed (t.call symbol)).interval e.sub.output)
    (hw : e.write (t.call symbol) = .ok e') :
    ∃ d', d.read t = (symbol, .ok d') ∧ Facing file e' d' := by
  have hsym := symbol_eq h.1 he.settled hf hsame hr
  obtain ⟨ha, ht⟩ := h.accepted
  have hI := he.settled.inside
  have hlt := slot_lt_of_not_boundary ha ht he.settled (not_boundary_of_sameSlot hsame)
  obtain ⟨dl, dh, dm⟩ := d
  obtain ⟨hint, hbehind⟩ := hf
  obtain ⟨rfl, rfl⟩ := Interval.mk.inj hint
  obtain ⟨el, eh⟩ := (narrowed_eq_iff ha hI).mpr hsame
  rw [ArithmeticCoding.ArithmeticEncoder.write, update_eq _ ha hI ht] at hw
  obtain ⟨ms, d', hd', hsc, -, hint', hbehind'⟩ := renormalise_lockstep
    ArithmeticCoding.encoder_follows (decoder_follows file) (narrowed_inside ha hI hlt)
    (d := ⟨newlow t symbol e, newhigh t symbol e, dm⟩)
    (by rw [Coder.interval, el, eh]; rfl) he.holds hbehind hw
  have hpos : range (⟨e.low, e.high, dm⟩ : ArithmeticDecoder) ≠ 0 := by
    have := range_nonneg hI
    change e.high - e.low + 1 ≠ 0
    unfold Coder.range at this
    omega
  refine ⟨d', ?_, hint', hsc.sub.output.symm ▸ hbehind'⟩
  rw [ArithmeticDecoder.read, if_neg (not_lt.mpr h.2), if_neg hpos, hsym, update,
    if_neg (not_lt.mpr h.2), if_neg (show t.getTotal ≠ 0 from ha.total_pos.ne')]
  exact congrArg _ hd'

/-- The arguments of the port for the symbols of a message. -/
def messageCalls (t : FrequencyTable) (symbols : List Nat) : List Call := symbols.map t.call

/-- **The rest of a message**, from any place where encoder and decoder face each other. -/
theorem reads_lockstep {file : List UInt8} {t : FrequencyTable} (pre post : List Nat)
    (hx : ∀ symbol ∈ pre ++ post, Admitted (t, symbol))
    (hsame : EveryCall (messageCalls t (pre ++ post)) SameSlot)
    (hreach : EveryCall (messageCalls t (pre ++ post)) fun e a => Kept e ∧
      Reaches 30 (codeBit file) (e.narrowed a).interval e.sub.output)
    {e e' : ArithmeticCoding.ArithmeticEncoder} {d : ArithmeticDecoder}
    (hpre : ArithmeticCoding.writes (messageCalls t pre) .fresh = .ok e)
    (hrun : ArithmeticCoding.writes (messageCalls t post) e = .ok e') (hf : Facing file e d) :
    d.reads t post.length = post := by
  induction post generalizing pre e d with
  | nil => rfl
  | cons symbol post ih =>
    have hsplit : messageCalls t (pre ++ symbol :: post) =
        messageCalls t pre ++ t.call symbol :: messageCalls t post := List.map_append
    have hnext : pre ++ symbol :: post = (pre ++ [symbol]) ++ post := by
      rw [List.append_assoc]; rfl
    obtain ⟨e₁, hw, hrun₁⟩ := andThen_eq_ok hrun
    replace hw : e.write (t.call symbol) = .ok e₁ := hw
    obtain ⟨hkept, hr⟩ := hreach _ _ _ _ hsplit hpre
    obtain ⟨d', hd, hf'⟩ := read_lockstep (hx symbol (by simp)) hkept hf
      (hsame _ _ _ _ hsplit hpre) hr hw
    have hpre₁ : ArithmeticCoding.writes (messageCalls t (pre ++ [symbol])) .fresh = .ok e₁ := by
      have hm : messageCalls t (pre ++ [symbol]) = messageCalls t pre ++ [t.call symbol] :=
        List.map_append
      rw [hm]
      exact (updates_concat _ _ hpre).trans hw
    rw [List.length_cons, ArithmeticDecoder.reads, hd]
    exact congrArg _ (ih (pre ++ [symbol]) (hnext ▸ hx) (hnext ▸ hsame) (hnext ▸ hreach) hpre₁
      hrun₁ hf')

theorem messageCalls_accepted {t : FrequencyTable} {symbols : List Nat}
    (h : ∀ symbol ∈ symbols, Admitted (t, symbol)) : ∀ a ∈ messageCalls t symbols, Accepted a := by
  intro a hm
  obtain ⟨symbol, hs, rfl⟩ := List.mem_map.mp hm
  exact (h symbol hs).accepted

/-- **Cross decoding.**  The reference decodes the file of a run of the port whose steps
all leave room for the missing point, and in which no counter overflows. -/
theorem cross_decoding (t : FrequencyTable) (symbols : List Nat)
    (hx : ∀ symbol ∈ symbols, Coded t symbol) (ht : t.getTotal ≤ 2 ^ 30 + 1)
    (hsame : EveryCall (messageCalls t symbols) SameSlot)
    (hno : NoOverflow (messageCalls t symbols)) :
    ∃ e, ArithmeticCoding.encode (messageCalls t symbols) = .ok e ∧
      decode t e.file symbols.length = symbols := by
  have hadm : ∀ symbol ∈ symbols, Admitted (t, symbol) := fun symbol hs =>
    ⟨hx symbol hs, ht.trans (by rw [MAX_TOTAL_eq]; decide)⟩
  have hacc := messageCalls_accepted hadm
  have hb := not_boundary_of_everyCall hsame
  obtain ⟨e, henc⟩ := (encode_ok_iff _ hacc hb).mpr hno
  obtain ⟨e₀, hrun, -⟩ := encode_eq_ok henc
  have hreach := encode_reaches _ hacc hb henc
  refine ⟨e, henc, ?_⟩
  exact reads_lockstep [] symbols hadm hsame
    (fun pre a post e₁ he hpre => ⟨(hreach pre a post e₁ he hpre).1,
      (hreach pre a post e₁ he hpre).2.1⟩) rfl hrun ⟨rfl, ofFile_behind e.file⟩

/-- The symbols of `pendingSteps`. -/
theorem cross_decoding_pending :
    ∃ e, ArithmeticCoding.encode (messageCalls ⟨[1, 2, 1, 1]⟩ [0, 2, 0, 1, 1, 2, 0]) = .ok e ∧
      decode ⟨[1, 2, 1, 1]⟩ e.file [0, 2, 0, 1, 1, 2, 0].length = [0, 2, 0, 1, 1, 2, 0] := by
  have hx : ∀ symbol ∈ [0, 2, 0, 1, 1, 2, 0], Coded ⟨[1, 2, 1, 1]⟩ symbol := by decide
  have ht : FrequencyTable.getTotal ⟨[1, 2, 1, 1]⟩ ≤ MAX_TOTAL := by decide
  have hsame : EveryCall (messageCalls ⟨[1, 2, 1, 1]⟩ [0, 2, 0, 1, 1, 2, 0]) SameSlot :=
    pendingSteps_sameSlot
  exact cross_decoding _ _ hx (by decide) hsame (noOverflow_of_length _
    (messageCalls_accepted fun symbol hs => ⟨hx symbol hs, ht⟩)
    (not_boundary_of_everyCall hsame) (by decide))

/-- The rare symbol twice: the second one is decoded as the other symbol. -/
theorem cross_decoding_differs :
    (∀ symbol ∈ [1, 1], Coded ⟨[100000, 1]⟩ symbol) ∧
      (⟨[100000, 1]⟩ : FrequencyTable).getTotal ≤ 2 ^ 30 + 1 ∧
      ¬ ∃ e, ArithmeticCoding.encode (messageCalls ⟨[100000, 1]⟩ [1, 1]) = .ok e ∧
        decode ⟨[100000, 1]⟩ e.file [1, 1].length = [1, 1] := by
  refine ⟨?_, by decide, ?_⟩
  · intro symbol hm
    have hs : symbol = 1 := by simpa using hm
    subst hs
    exact ⟨1, rfl, by decide⟩
  · rintro ⟨e, he, hd⟩
    have hfile : (ArithmeticCoding.encode (messageCalls ⟨[100000, 1]⟩ [1, 1])).object?.map
        ArithmeticCoding.ArithmeticEncoder.file = some [255, 255, 255, 254, 192] := by
      decide +kernel
    rw [he] at hfile
    have hf : e.file = [255, 255, 255, 254, 192] := Option.some.inj hfile
    rw [hf] at hd
    revert hd
    decide +kernel

end DeepSpace.Reference
