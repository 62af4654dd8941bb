import DeepSpace.AdaptiveCoding

/-!
# What any file means to the reference decoder

No file is special: whatever its bytes are, the decoder reads a message of any length from it.

* `read_any`: after any calls on any file, a table is rejected exactly if its total is 0 or above
  the limit, and nothing has changed then; else the assertions hold that `read` only has as
  comments;
* `readAll_any`: the message read is the one whose encoding the file continues, the interval is
  that of the encoder, and the file of that message is read in the same way;
* `encode_lt_iff`: files are in the order of their messages.
-/

namespace DeepSpace.Reference

open DeepSpace.Bitwise DeepSpace.Renormalisation DeepSpace.ArithmeticCoding

/-! ## The search, for any code in the interval -/

/-- The tables that `read` and `write` do not reject. -/
def FrequencyTable.Fits (t : FrequencyTable) : Prop := 0 < t.getTotal ∧ t.getTotal ≤ MAX_TOTAL

instance (t : FrequencyTable) : Decidable t.Fits := inferInstanceAs (Decidable (_ ∧ _))

namespace ArithmeticDecoder

def offset (d : ArithmeticDecoder) : Int := d.sub.code - d.low

def value (t : FrequencyTable) (d : ArithmeticDecoder) : Int :=
  ((d.offset + 1) * t.getTotal - 1).fdiv (range d)

/-- The assertions of `read` that are commented out, those on the value and on the slot. -/
structure Asserts (t : FrequencyTable) (symbol : Nat) (d : ArithmeticDecoder) : Prop where
  value_scaled : (d.value t * range d).fdiv t.getTotal ≤ d.offset
  value_nonneg : 0 ≤ d.value t
  value_lt : d.value t < t.getTotal
  low_le : (t.getLow symbol * range d).fdiv t.getTotal ≤ d.offset
  lt_high : d.offset < (t.getHigh symbol * range d).fdiv t.getTotal

/-- What the comment of `update` says of the state. -/
structure Invariant (d : ArithmeticDecoder) : Prop extends d.interval.Settled (2 ^ 30) where
  low_le_code : d.low ≤ d.sub.code
  code_le_high : d.sub.code ≤ d.high

end ArithmeticDecoder

theorem coded_of_getLow_lt {t : FrequencyTable} {symbol : Nat}
    (h : t.getLow symbol < t.getHigh symbol) : Coded t symbol := by
  cases hf : t.frequencies[symbol]? with
  | some f => exact ⟨f, hf, by have := getHigh_eq hf; omega⟩
  | none =>
    have hlen := List.getElem?_eq_none_iff.mp hf
    rw [FrequencyTable.getHigh, FrequencyTable.getLow, List.take_of_length_le hlen,
      List.take_of_length_le (by omega)] at h
    exact absurd h (lt_irrefl _)

theorem getLow_getSymbolLimit (t : FrequencyTable) : t.getLow t.getSymbolLimit = t.getTotal := by
  rw [FrequencyTable.getLow, FrequencyTable.getSymbolLimit, List.take_length]
  rfl

section

variable {t : FrequencyTable} {d : ArithmeticDecoder} (ht : t.Fits) (hd : d.Invariant)

include ht hd

/-- The value is the largest frequency whose place is not behind the offset. -/
theorem scaled_le_iff (s : Int) :
    (s * range d).fdiv t.getTotal ≤ d.offset ↔ s ≤ d.value t := by
  have hrange : 0 < range d := (ht.1.trans_le ht.2).trans_le (MAX_TOTAL_le_range hd.toSettled)
  rw [Int.fdiv_eq_ediv_of_nonneg _ ht.1.le, ArithmeticDecoder.value,
    Int.fdiv_eq_ediv_of_nonneg _ hrange.le]
  exact slot_le_iff hrange ht.1

theorem value_bounds : 0 ≤ d.value t ∧ d.value t < t.getTotal := by
  have hlow := hd.low_le_code
  have hhigh := hd.code_le_high
  constructor
  · refine (scaled_le_iff ht hd 0).mp ?_
    rw [Int.zero_mul, Int.zero_fdiv]
    exact Int.sub_nonneg.mpr hlow
  · refine not_le.mp fun hge => ?_
    have := (scaled_le_iff ht hd _).mpr hge
    rw [Int.fdiv_eq_ediv_of_nonneg _ ht.1.le, Int.mul_ediv_cancel_left _ ht.1.ne',
      ArithmeticDecoder.offset, range] at this
    omega

/-- **The search** ends at a symbol that is coded, and the assertions hold. -/
theorem asserts : Coded t (d.symbol t) ∧ d.Asserts t (d.symbol t) := by
  obtain ⟨h0, hlt⟩ := value_bounds ht hd
  have hlimit := getLow_getSymbolLimit t
  have hlen : 0 < t.getSymbolLimit := by
    refine Nat.pos_of_ne_zero fun hz => ?_
    rw [hz] at hlimit
    exact absurd hlimit ht.1.ne
  obtain ⟨hlow, hhigh⟩ := search_spec t (d.value t) t.getSymbolLimit 0 t.getSymbolLimit hlen
    (by omega) h0 (hlt.trans_eq hlimit.symm)
  change t.getLow (d.symbol t) ≤ d.value t at hlow
  change d.value t < t.getHigh (d.symbol t) at hhigh
  exact ⟨coded_of_getLow_lt (hlow.trans_lt hhigh), (scaled_le_iff ht hd _).mpr le_rfl, h0, hlt,
    (scaled_le_iff ht hd _).mpr hlow,
    not_le.mp fun hge => absurd ((scaled_le_iff ht hd _).mp hge) (not_le.mpr hhigh)⟩

end

/-! ## One call -/

/-- The encoder that has written the message read so far, and the file within its interval. -/
structure Mirrored (file : List UInt8) (p : ArithmeticEncoder) (d : ArithmeticDecoder) : Prop
    extends Opposite file p d where
  settled : p.interval.Settled (2 ^ 30)
  reaches : Reaches 30 (codeBit file) p.interval p.sub.out

theorem Mirrored.invariant {file : List UInt8} {p : ArithmeticEncoder} {d : ArithmeticDecoder}
    (h : Mirrored file p d) : d.Invariant := by
  have hlow := h.reaches.low_le
  have hhigh := h.reaches.le_high
  rw [← h.behind.1, ← h.interval] at hlow hhigh
  exact ⟨h.interval ▸ h.settled, hlow, hhigh⟩

/-- **A call** that is not rejected: the encoder writes the symbol that the decoder reads. -/
theorem read_mirrored {file : List UInt8} {p : ArithmeticEncoder} {d : ArithmeticDecoder}
    {t : FrequencyTable} (ht : t.Fits) (h : Mirrored file p d) :
    ∃ p' d', d.read t = (d.symbol t, .ok d') ∧ Admitted (t, d.symbol t) ∧
      p.write t (d.symbol t) = .ok p' ∧ Mirrored file p' d' := by
  obtain ⟨hcoded, hasserts⟩ := asserts ht h.invariant
  have hadm : Admitted (t, d.symbol t) := ⟨hcoded, ht.2⟩
  generalize d.symbol t = symbol at *
  obtain ⟨ms, p', hw, hscaled, hset⟩ := update_spec encoder_follows hadm h.settled rfl
  -- the code lies in the slot of the symbol, so it goes through the moves
  have hnarrow : Reaches 30 (codeBit file) (narrowed t symbol p).interval p.sub.out := by
    obtain ⟨hlow, hhigh⟩ := Interval.mk.inj h.interval
    have hrange : range d = range p := by rw [range, range, hlow, hhigh]
    have hl := hasserts.low_le
    have hh := hasserts.lt_high
    rw [hrange, ArithmeticDecoder.offset, hlow, h.behind.1] at hl hh
    refine ⟨h.reaches.toAgrees, ?_, ?_⟩
    · change p.low + _ ≤ _
      omega
    · change _ ≤ p.low + _ - 1
      omega
  have hreach : Reaches 30 (codeBit file) p'.interval p'.sub.out := by
    rw [show p'.sub.out = _ from hscaled.sub]
    exact hnarrow.moves hscaled.moves (narrowed_inside hadm h.settled)
  obtain ⟨d', hd', hop⟩ := read_of_write hadm h.settled h.toOpposite hw hreach
  exact ⟨p', d', hd', hadm, hw, hop, hset, hreach⟩

/-- The exception for any other table. -/
def FrequencyTable.rejection (t : FrequencyTable) : String :=
  if t.getTotal > MAX_TOTAL then "Cannot decode symbol because total is too large"
  else "integer division or modulo by zero"

/-- **A call** that is rejected. -/
theorem read_rejected {t : FrequencyTable} (ht : ¬ t.Fits) {d : ArithmeticDecoder}
    (hd : d.Invariant) : (d.read t).2 = .threw t.rejection d := by
  have hrange : range d ≠ 0 := by
    have := MAX_TOTAL_le_range hd.toSettled
    rw [MAX_TOTAL_eq] at this
    omega
  rw [ArithmeticDecoder.read, FrequencyTable.rejection]
  by_cases hmax : t.getTotal > MAX_TOTAL
  · rw [if_pos hmax, if_pos hmax]
  · have hzero : t.getTotal = 0 := by
      have hnonneg : 0 ≤ t.getTotal := Int.natCast_nonneg _
      exact (hnonneg.eq_or_lt.resolve_right fun hpos => ht ⟨hpos, not_lt.mp hmax⟩).symm
    rw [if_neg hmax, if_neg hmax, if_neg hrange, update, if_neg hmax, if_pos hzero]

/-! ## Any calls -/

/-- A call of `read` for each table, the exceptions caught: what was read, and the decoder. -/
def ArithmeticDecoder.readAll :
    List FrequencyTable → ArithmeticDecoder → List (FrequencyTable × Nat) × ArithmeticDecoder
  | [], d => ([], d)
  | t :: tables, d =>
    match d.read t with
    | (symbol, .ok d) => ((t, symbol) :: (readAll tables d).1, (readAll tables d).2)
    | (_, .threw _ d) => readAll tables d
    | (_, .undefined) => ([], d)

theorem readAll_cons {t : FrequencyTable} {d d' : ArithmeticDecoder} {symbol : Nat}
    (h : d.read t = (symbol, .ok d')) (tables : List FrequencyTable) :
    d.readAll (t :: tables) = ((t, symbol) :: (d'.readAll tables).1, (d'.readAll tables).2) := by
  rw [ArithmeticDecoder.readAll, h]

theorem readAll_cons_of_threw {t : FrequencyTable} {d d' : ArithmeticDecoder} {message : String}
    (h : (d.read t).2 = .threw message d') (tables : List FrequencyTable) :
    d.readAll (t :: tables) = d'.readAll tables := by
  cases hr : d.read t with
  | mk symbol r =>
    rw [hr] at h
    obtain rfl : r = .threw message d' := h
    rw [ArithmeticDecoder.readAll, hr]

/-- **A run**, from any place where the encoder mirrors the decoder. -/
theorem readAll_mirrored {file : List UInt8} (tables : List FrequencyTable)
    {p : ArithmeticEncoder} {d : ArithmeticDecoder} (h : Mirrored file p d) :
    ((d.readAll tables).1.map Prod.fst = tables.filter (·.Fits)) ∧
      (∀ step ∈ (d.readAll tables).1, Admitted step) ∧
      ∃ p', writes (d.readAll tables).1 p = .ok p' ∧ Mirrored file p' (d.readAll tables).2 := by
  induction tables generalizing p d with
  | nil => exact ⟨rfl, fun step hs => (List.not_mem_nil hs).elim, p, rfl, h⟩
  | cons t tables ih =>
    by_cases ht : t.Fits
    · obtain ⟨p₁, d₁, hread, hadm, hw, h₁⟩ := read_mirrored ht h
      obtain ⟨htables, hsteps, p', hrun, h'⟩ := ih h₁
      rw [readAll_cons hread]
      refine ⟨?_, ?_, p', ?_, h'⟩
      · rw [List.map_cons, htables, List.filter_cons_of_pos (by simpa using ht)]
      · exact List.forall_mem_cons.mpr ⟨hadm, hsteps⟩
      · rw [writes, hw, andThen_ok, hrun]
    · rw [readAll_cons_of_threw (read_rejected ht h.invariant),
        List.filter_cons_of_neg (by simpa using ht)]
      exact ih h

theorem ofFile_mirrored (file : List UInt8) :
    Mirrored file .fresh (ArithmeticDecoder.ofFile file) := by
  have hw0 := window_nonneg (codeBit file) 0 (30 + 2)
  have hw1 := window_lt (codeBit file) 0 (30 + 2)
  rw [← register_fresh] at hw0 hw1
  exact ⟨⟨rfl, ofFile_behind file⟩, fresh_interval_settled,
    ⟨fun i hi => absurd hi (Nat.not_lt_zero i), fun i hi => absurd hi (Nat.not_lt_zero i)⟩, hw0,
    Int.le_sub_one_of_lt hw1⟩

/-! ## Any file -/

/-- **The assertions**, for any file, any calls before and any table. -/
theorem read_any (file : List UInt8) (tables : List FrequencyTable) (t : FrequencyTable) :
    let d := ((ArithmeticDecoder.ofFile file).readAll tables).2
    d.Invariant ∧
      if t.Fits then ∃ d', d.read t = (d.symbol t, .ok d') ∧ Coded t (d.symbol t) ∧
        d.Asserts t (d.symbol t) ∧ d'.Invariant
      else (d.read t).2 = .threw t.rejection d := by
  obtain ⟨-, -, p, -, h⟩ := readAll_mirrored tables (ofFile_mirrored file)
  refine ⟨h.invariant, ?_⟩
  by_cases ht : t.Fits
  · rw [if_pos ht]
    obtain ⟨p', d', hread, hadm, -, h'⟩ := read_mirrored ht h
    exact ⟨d', hread, hadm.1, (asserts ht h.invariant).2, h'.invariant⟩
  · rw [if_neg ht]
    exact read_rejected ht h.invariant

/-- The steps of a run are read again from any file in its last interval. -/
theorem readAll_of_reaches {file : List UInt8} (steps : List (FrequencyTable × Nat))
    (h : ∀ step ∈ steps, Admitted step) {p p' : ArithmeticEncoder} {d : ArithmeticDecoder}
    (hI : p.interval.Settled (2 ^ 30)) (hop : Opposite file p d) (hw : writes steps p = .ok p')
    (hr : Reaches 30 (codeBit file) p'.interval p'.sub.out) :
    (d.readAll (steps.map Prod.fst)).1 = steps := by
  induction steps generalizing p d with
  | nil => rfl
  | cons step steps ih =>
    have hstep : Admitted (step.1, step.2) := h _ List.mem_cons_self
    have hrest : ∀ s ∈ steps, Admitted s := fun s hs => h s (List.mem_cons_of_mem _ hs)
    obtain ⟨ms, p₁, hp₁, -, hset⟩ := update_spec encoder_follows hstep hI rfl
    have hp₁ : p.write step.1 step.2 = .ok p₁ := hp₁
    rw [writes, hp₁, andThen_ok] at hw
    obtain ⟨q, hq, -, hback⟩ := writes_settled _ hrest hset
    obtain rfl : q = p' := Result.ok.inj (hq.symm.trans hw)
    obtain ⟨d', hd', hop'⟩ := read_of_write hstep hI hop hp₁ (hback _ hr)
    rw [List.map_cons, readAll_cons hd']
    exact congrArg _ (ih hrest hset hop' hw)

/-- The calls that are rejected leave no trace. -/
theorem readAll_filter {file : List UInt8} (tables : List FrequencyTable) {p : ArithmeticEncoder}
    {d : ArithmeticDecoder} (h : Mirrored file p d) :
    d.readAll (tables.filter (·.Fits)) = d.readAll tables := by
  induction tables generalizing p d with
  | nil => rfl
  | cons t tables ih =>
    by_cases ht : t.Fits
    · obtain ⟨p₁, d₁, hread, -, -, h₁⟩ := read_mirrored ht h
      rw [List.filter_cons_of_pos (by simpa using ht), readAll_cons hread, readAll_cons hread,
        ih h₁]
    · rw [List.filter_cons_of_neg (by simpa using ht),
        readAll_cons_of_threw (read_rejected ht h.invariant), ih h]

/-- **The message** of any file: the file continues its encoding, and its own file is read in the
same way. -/
theorem readAll_any (file : List UInt8) (tables : List FrequencyTable) :
    ∃ steps d p p', (ArithmeticDecoder.ofFile file).readAll tables = (steps, d) ∧
      steps.map Prod.fst = tables.filter (·.Fits) ∧ writes steps .fresh = .ok p ∧
      p.interval = d.interval ∧ Agrees (codeBit file) p.sub.out ∧ encode steps = .ok p' ∧
      ((ArithmeticDecoder.ofFile p'.file).readAll tables).1 = steps := by
  obtain ⟨htables, hsteps, p, hp, h⟩ := readAll_mirrored tables (ofFile_mirrored file)
  obtain ⟨q, p', hq, hp', hr⟩ := encode_spec _ hsteps
  refine ⟨_, _, p, p', rfl, htables, hp, h.interval.symm, h.reaches.toAgrees, hp', ?_⟩
  have hm := ofFile_mirrored p'.file
  rw [← readAll_filter tables hm, ← htables]
  exact readAll_of_reaches _ hsteps fresh_interval_settled hm.toOpposite hq hr

/-! ## The order of files -/

theorem lowBits_getElem? (x : Nat) {n i : Nat} (h : i < n) :
    (lowBits x n)[i]? = some (x.testBit (n - 1 - i)) := by
  induction n generalizing i with
  | zero => exact absurd h (Nat.not_lt_zero i)
  | succ n ih =>
    cases i with
    | zero => rfl
    | succ i =>
      have e : n + 1 - 1 - (i + 1) = n - 1 - i := by omega
      rw [lowBits, List.getElem?_cons_succ, ih (by omega), e]

theorem codeBit_head (b : UInt8) (file : List UInt8) {i : Nat} (h : i < 8) :
    codeBit (b :: file) i = b.toNat.testBit (7 - i) := by
  rw [codeBit, fileBits, List.flatMap_cons, List.getElem?_append_left (by simpa using h),
    lowBits_getElem? _ h, Option.getD_some]

theorem codeBit_tail (b : UInt8) (file : List UInt8) (i : Nat) :
    codeBit (b :: file) (8 + i) = codeBit file i := by
  rw [codeBit, fileBits, List.flatMap_cons, List.getElem?_append_right (by simp), lowBits_length,
    Nat.add_sub_cancel_left]
  rfl

theorem testBit_of_eight_le (b : UInt8) {j : Nat} (h : 8 ≤ j) : b.toNat.testBit j = false :=
  Nat.testBit_lt_two_pow (b.toNat_lt.trans_le (Nat.pow_le_pow_right (by decide) h))

/-- Bytes whose first `i` bits are the same. -/
theorem testBit_eq_of_prefix {b c : UInt8} {i : Nat}
    (h : ∀ j < i, b.toNat.testBit (7 - j) = c.toNat.testBit (7 - j)) {j : Nat} (hj : 8 ≤ j + i) :
    b.toNat.testBit j = c.toNat.testBit j := by
  rcases Nat.lt_or_ge j 8 with hj8 | hj8
  · have := h (7 - j) (by omega)
    rwa [show 7 - (7 - j) = j by omega] at this
  · rw [testBit_of_eight_le b hj8, testBit_of_eight_le c hj8]

/-- **Bytes compare as their bits do**, and so do files. -/
theorem lt_of_before {f g : List UInt8} (h : Before (codeBit f) (codeBit g)) : f < g := by
  induction f generalizing g with
  | nil =>
    obtain ⟨i, -, -, hi⟩ := h
    cases g with
    | nil => cases hi
    | cons c g => exact List.nil_lt_cons c g
  | cons b f ih =>
    obtain ⟨i, hpre, hf, hg⟩ := h
    cases g with
    | nil => cases hg
    | cons c g =>
      have hbits : ∀ j < min i 8, b.toNat.testBit (7 - j) = c.toNat.testBit (7 - j) := by
        intro j hj
        have := hpre j (by omega)
        rwa [codeBit_head _ _ (by omega), codeBit_head _ _ (by omega)] at this
      rcases Nat.lt_or_ge i 8 with hi | hi
      · rw [codeBit_head _ _ hi] at hf hg
        rw [Nat.min_eq_left hi.le] at hbits
        refine List.cons_lt_cons_iff.mpr (.inl (UInt8.lt_iff_toNat_lt.mpr ?_))
        exact Nat.lt_of_testBit (7 - i) hf hg fun j hj => testBit_eq_of_prefix hbits (by omega)
      · -- the first bytes are the same
        rw [Nat.min_eq_right hi] at hbits
        have hbc : b = c := UInt8.toNat_inj.mp
          (Nat.eq_of_testBit_eq fun j => testBit_eq_of_prefix hbits (by omega))
        obtain ⟨i, rfl⟩ := Nat.exists_eq_add_of_le hi
        rw [codeBit_tail] at hf hg
        refine List.cons_lt_cons_iff.mpr (.inr ⟨hbc, ih ⟨i, fun j hj => ?_, hf, hg⟩⟩)
        have := hpre (8 + j) (by omega)
        rwa [codeBit_tail, codeBit_tail] at this

theorem writes_append (steps rest : List (FrequencyTable × Nat)) (p : ArithmeticEncoder) :
    writes (steps ++ rest) p = (writes steps p).andThen (writes rest) := by
  induction steps generalizing p with
  | nil => rfl
  | cons step steps ih =>
    rw [List.cons_append, writes, writes]
    cases p.write step.1 step.2 with
    | ok p => exact ih p
    | threw message p => rfl
    | undefined => rfl

/-- The file of a message lies in the slot of each of its symbols. -/
theorem file_in_slot (model : Model) {zs us : List Nat} {x : Nat}
    (h : ∀ step ∈ model.steps [] (zs ++ x :: us), Admitted step) :
    ∃ p p₁, encode (model.steps [] (zs ++ x :: us)) = .ok p ∧
      writes (model.steps [] zs) .fresh = .ok p₁ ∧ p₁.interval.Settled (2 ^ 30) ∧
      0 < (model zs).getTotal ∧
      Reaches 30 (codeBit p.file) (narrowed (model zs) x p₁).interval p₁.sub.out := by
  obtain ⟨p', p, hw, hp, hr⟩ := encode_spec _ h
  rw [steps_append, List.nil_append] at hw h
  rw [writes_append] at hw
  obtain ⟨p₁, hp₁, hset, -⟩ := writes_settled (model.steps [] zs)
    (fun step hs => h step (List.mem_append_left _ hs)) fresh_interval_settled
  rw [hp₁, andThen_ok, Model.steps, writes] at hw
  have hstep : Admitted (model zs, x) := h _ (List.mem_append_right _ List.mem_cons_self)
  obtain ⟨ms, p₂, hp₂, -, hset₂⟩ := update_spec encoder_follows hstep hset rfl
  have hp₂ : p₁.write (model zs) x = .ok p₂ := hp₂
  rw [hp₂, andThen_ok] at hw
  obtain ⟨q, hq, -, hback⟩ := writes_settled (model.steps (zs ++ [x]) us)
    (fun step hs => h step (List.mem_append_right _ (List.mem_cons_of_mem _ hs))) hset₂
  obtain rfl : q = p' := Result.ok.inj (hq.symm.trans hw)
  exact ⟨p, p₁, hp, hp₁, hset, (call_valid hstep.1).total_pos,
    (reaches_of_step hstep hset hp₂ (hback _ hr)).2.1⟩

/-- At the first difference, the lower symbol has the lower slot. -/
theorem encode_lt (model : Model) {zs us vs : List Nat} {x y : Nat} (hxy : x < y)
    (hx : ∀ step ∈ model.steps [] (zs ++ x :: us), Admitted step)
    (hy : ∀ step ∈ model.steps [] (zs ++ y :: vs), Admitted step) :
    ∃ p q, encode (model.steps [] (zs ++ x :: us)) = .ok p ∧
      encode (model.steps [] (zs ++ y :: vs)) = .ok q ∧ p.file < q.file := by
  obtain ⟨p, p₁, hp, hp₁, hset, hpos, hr⟩ := file_in_slot model hx
  obtain ⟨q, q₁, hq, hq₁, -, -, hr'⟩ := file_in_slot model hy
  obtain rfl : p₁ = q₁ := Result.ok.inj (hp₁.symm.trans hq₁)
  refine ⟨p, q, hp, hq, lt_of_before (hr.before hr' ?_)⟩
  have hrange : 0 ≤ range p₁ := by
    have := MAX_TOTAL_le_range hset
    rw [MAX_TOTAL_eq] at this
    omega
  have hslot := slot_mono hrange hpos (getLow_mono (model zs) (show x + 1 ≤ y from hxy))
  change newhigh (model zs) x p₁ < newlow (model zs) y p₁
  rw [newhigh_eq_slot hpos, newlow_eq_slot hpos]
  change slot _ _ ((model zs).getHigh x) ≤ _ at hslot
  omega

/-- **Files are in the order of their messages.** -/
theorem encode_lt_iff (model : Model) (xs ys : List Nat) (hlen : xs.length = ys.length)
    (hx : ∀ step ∈ model.steps [] xs, Admitted step)
    (hy : ∀ step ∈ model.steps [] ys, Admitted step) :
    ∃ p q, encode (model.steps [] xs) = .ok p ∧ encode (model.steps [] ys) = .ok q ∧
      (p.file < q.file ↔ xs < ys) := by
  by_cases heq : xs = ys
  · subst heq
    obtain ⟨-, p, -, hp, -⟩ := encode_spec _ hx
    exact ⟨p, p, hp, hp, iff_of_false (List.lt_irrefl _) (List.lt_irrefl _)⟩
  · obtain ⟨zs, x, y, us, vs, hxy, rfl, rfl⟩ := exists_first_difference hlen heq
    rcases Nat.lt_or_gt_of_ne hxy with hlt | hgt
    · obtain ⟨p, q, hp, hq, h⟩ := encode_lt model hlt hx hy
      exact ⟨p, q, hp, hq, iff_of_true h (List.Lex.append_left (· < ·) (.rel hlt) zs)⟩
    · obtain ⟨q, p, hq, hp, h⟩ := encode_lt model hgt hy hx
      have hmessages : zs ++ y :: vs < zs ++ x :: us :=
        List.Lex.append_left (· < ·) (.rel hgt) zs
      exact ⟨p, q, hp, hq, iff_of_false (List.lt_asymm h) (List.lt_asymm hmessages)⟩

theorem encode_lt_iff_counting :
    ∃ p q, encode (counting.steps [] [0, 1, 0]) = .ok p ∧
      encode (counting.steps [] [0, 1, 1]) = .ok q ∧ (p.file < q.file ↔ [0, 1, 0] < [0, 1, 1]) :=
  encode_lt_iff counting [0, 1, 0] [0, 1, 1] rfl (by decide) (by decide)

end DeepSpace.Reference
