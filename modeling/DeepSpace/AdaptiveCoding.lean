import DeepSpace.CrossDecoding

/-!
# The reference coder with a model

The table of a symbol may depend on the symbols before it, as with a table that is incremented.

* `update_spec`: one step of the reference, for the encoder and for the decoder;
* `encodeWith_decodeWith`: what was encoded is decoded, up to the largest total that is admitted;
* `encode_injective`: what the C++ encoder writes tells two messages of one length apart;
* `encode_counts`: the counts of the two counting streams are the bits of the file.
-/

namespace DeepSpace.Reference

open DeepSpace.Bitwise DeepSpace.Renormalisation DeepSpace.ArithmeticCoding

/-! ## One step -/

section

variable {δ : Type} {c : Coder δ} {t : FrequencyTable} {symbol : Nat}

def narrowed (t : FrequencyTable) (symbol : Nat) (c : Coder δ) : Coder δ :=
  { c with low := newlow t symbol c, high := newhigh t symbol c }

/-- A settled interval has a point for every unit of frequency. -/
theorem MAX_TOTAL_le_range (hI : c.interval.Settled (2 ^ 30)) : MAX_TOTAL ≤ range c := by
  have := hI.range
  rw [MAX_TOTAL_eq, range]
  change 2 ^ 30 + 1 ≤ c.high - c.low at this
  omega

theorem newlow_eq_slot (hpos : 0 < t.getTotal) :
    newlow t symbol c = c.low + slot (range c) t.getTotal (t.getLow symbol) := by
  rw [newlow, Int.fdiv_eq_ediv_of_nonneg _ hpos.le]
  rfl

theorem newhigh_eq_slot (hpos : 0 < t.getTotal) :
    newhigh t symbol c = c.low + slot (range c) t.getTotal (t.getHigh symbol) - 1 := by
  rw [newhigh, Int.fdiv_eq_ediv_of_nonneg _ hpos.le]
  rfl

/-- The interval of a symbol is a part of the interval that is not empty. -/
theorem narrowed_part (h : Admitted (t, symbol)) (hI : c.interval.Settled (2 ^ 30)) :
    c.low ≤ newlow t symbol c ∧ newlow t symbol c ≤ newhigh t symbol c ∧
      newhigh t symbol c ≤ c.high := by
  have ha : (t.call symbol).Valid := call_valid h.1
  have hrange := MAX_TOTAL_le_range hI
  have hle : t.getTotal ≤ range c := h.2.trans hrange
  have hr : 0 ≤ range c := ha.total_pos.le.trans hle
  have hpos : 0 < t.getTotal := ha.total_pos
  have hlow := slot_nonneg hr ha.total_pos ha.symlow_nonneg
  have hlt := slot_lt_slot ha.total_pos hle ha.symlow_lt
  have hhigh := slot_le hr ha.total_pos ha.symhigh_le
  simp only [FrequencyTable.call] at hlow hlt hhigh
  rw [newlow_eq_slot hpos, newhigh_eq_slot hpos]
  refine ⟨by omega, by omega, ?_⟩
  unfold range at hhigh ⊢
  omega

theorem narrowed_inside (h : Admitted (t, symbol)) (hI : c.interval.Settled (2 ^ 30)) :
    (narrowed t symbol c).interval.Inside (2 ^ 30) := by
  obtain ⟨hlow, hle, hhigh⟩ := narrowed_part h hI
  exact ⟨hI.low_nonneg.trans hlow, hle, hhigh.trans_lt hI.high_lt⟩

theorem update_eq_renormalise (v : Virtual δ) (h : Admitted (t, symbol)) :
    update v t symbol c = renormalise v (narrowed t symbol c) := by
  have ha : (t.call symbol).Valid := call_valid h.1
  rw [update, if_neg (not_lt.mpr h.2), if_neg (show t.getTotal ≠ 0 from ha.total_pos.ne')]
  rfl

/-- **A step**: from any settled interval to a settled one, whatever the subclass. -/
theorem update_spec {α : Type} {v : Virtual δ} {rel : δ → α → Prop} {act : α → Move → α}
    (hv : v.Follows rel act Unbounded) (h : Admitted (t, symbol))
    (hI : c.interval.Settled (2 ^ 30)) {x : α} (hx : rel c.sub x) :
    ∃ ms c', update v t symbol c = .ok c' ∧ Scaled rel act (narrowed t symbol c) x ms c' ∧
      c'.interval.Settled (2 ^ 30) := by
  rw [update_eq_renormalise v h]
  exact renormalise_unbounded hv _ x (narrowed_inside h hI) hx

end

/-! ## The code, backwards -/

theorem reaches_of_step {p p' : ArithmeticEncoder} {t : FrequencyTable} {symbol : Nat}
    {β : Nat → Bool} (h : Admitted (t, symbol)) (hI : p.interval.Settled (2 ^ 30))
    (hw : p.write t symbol = .ok p') (hr : Reaches 30 β p'.interval p'.sub.out) :
    p'.interval.Settled (2 ^ 30) ∧
      Reaches 30 β (narrowed t symbol p).interval p.sub.out ∧
      Reaches 30 β p.interval p.sub.out := by
  obtain ⟨ms, c', hc', hscaled, hset⟩ := update_spec encoder_follows h hI rfl
  obtain rfl : c' = p' := Result.ok.inj (hc'.symm.trans hw)
  have hnarrow : Reaches 30 β (narrowed t symbol p).interval p.sub.out := by
    refine Reaches.of_moves hscaled.moves ?_
    rwa [← hscaled.sub]
  obtain ⟨hlow, -, hhigh⟩ := narrowed_part h hI
  exact ⟨hset, hnarrow, hnarrow.mono hlow hhigh⟩

/-- **A run** of admitted steps: it ends settled, and what lies in its last interval lies in its
first one. -/
theorem writes_settled (steps : List (FrequencyTable × Nat)) (h : ∀ step ∈ steps, Admitted step)
    {p : ArithmeticEncoder} (hI : p.interval.Settled (2 ^ 30)) :
    ∃ p', writes steps p = .ok p' ∧ p'.interval.Settled (2 ^ 30) ∧
      ∀ β, Reaches 30 β p'.interval p'.sub.out → Reaches 30 β p.interval p.sub.out := by
  induction steps generalizing p with
  | nil => exact ⟨p, rfl, hI, fun _ hr => hr⟩
  | cons step steps ih =>
    have hstep : Admitted (step.1, step.2) := h step List.mem_cons_self
    obtain ⟨ms, p₁, hw, hscaled, hset⟩ := update_spec encoder_follows hstep hI rfl
    obtain ⟨p', hp', hset', hback⟩ := ih (fun s hs => h s (List.mem_cons_of_mem _ hs)) hset
    refine ⟨p', ?_, hset', fun β hr => ?_⟩
    · rw [writes, show p.write step.1 step.2 = .ok p₁ from hw, andThen_ok, hp']
    · exact (reaches_of_step hstep hI hw (hback β hr)).2.2

theorem fresh_interval_settled : ArithmeticEncoder.fresh.interval.Settled (2 ^ 30) :=
  ArithmeticCoding.fresh_settled

/-- **The file** of a run: it lies in the interval that the run ends with. -/
theorem encode_spec (steps : List (FrequencyTable × Nat)) (h : ∀ step ∈ steps, Admitted step) :
    ∃ p p', writes steps .fresh = .ok p ∧ encode steps = .ok p' ∧
      Reaches 30 (codeBit p'.file) p.interval p.sub.out := by
  obtain ⟨p, hp, hset, -⟩ := writes_settled steps h fresh_interval_settled
  obtain ⟨p', n, hfin, -, hbits⟩ := finish_close p
  refine ⟨p, p', hp, ?_, ?_⟩
  · rw [encode, hp, andThen_ok, hfin]
  · have hcode := codeBit_of_bits hbits
    refine Reaches.of_finish hset (fun i hi => ?_) ?_ (fun i hi => ?_)
    · rw [hcode, List.getElem?_append_left hi, List.getElem?_eq_getElem hi, Option.getD_some]
    · rw [hcode, List.getElem?_concat_length, Option.getD_some]
    · rw [hcode, List.getElem?_eq_none (by rw [List.length_append, List.length_singleton]; omega),
        Option.getD_none]

/-! ## Decoding -/

/-- Encoder and decoder of the reference at one place of a run. -/
structure Opposite (file : List UInt8) (p : ArithmeticEncoder) (d : ArithmeticDecoder) : Prop where
  interval : d.interval = p.interval
  behind : Behind file d.sub p.sub.out

/-- The symbol that `read` finds. -/
theorem symbol_of_reaches {file : List UInt8} {p : ArithmeticEncoder} {d : ArithmeticDecoder}
    {t : FrequencyTable} {symbol : Nat} (h : Admitted (t, symbol))
    (hI : p.interval.Settled (2 ^ 30)) (hop : Opposite file p d)
    (hr : Reaches 30 (codeBit file) (narrowed t symbol p).interval p.sub.out) :
    d.symbol t = symbol := by
  have ha : (t.call symbol).Valid := call_valid h.1
  have hpos : 0 < t.getTotal := ha.total_pos
  obtain ⟨dl, dh, dm⟩ := d
  obtain ⟨hint, hcode, -⟩ := hop
  obtain ⟨rfl, rfl⟩ := Interval.mk.inj hint
  change dm.code = _ at hcode
  have hrange : 0 < range p := hpos.trans_le (h.2.trans (MAX_TOTAL_le_range hI))
  have hfdiv : ∀ x : Int, x.fdiv (range (⟨p.low, p.high, dm⟩ : ArithmeticDecoder)) = x / range p :=
    fun _ => Int.fdiv_eq_ediv_of_nonneg _ hrange.le
  have hlow := hr.low_le
  have hhigh := hr.le_high
  rw [← hcode] at hlow hhigh
  change newlow t symbol p ≤ dm.code at hlow
  change dm.code ≤ newhigh t symbol p at hhigh
  rw [newlow_eq_slot hpos] at hlow
  rw [newhigh_eq_slot hpos] at hhigh
  rw [ArithmeticDecoder.symbol]
  apply search_eq
  · rw [hfdiv]
    exact (slot_le_iff (o := dm.code - p.low) hrange hpos).mp (by omega)
  · rw [hfdiv]
    exact not_le.mp (mt (slot_le_iff (o := dm.code - p.low) hrange hpos).mpr (by omega))

/-- **One symbol**, encoded and decoded. -/
theorem read_of_write {file : List UInt8} {p p' : ArithmeticEncoder} {d : ArithmeticDecoder}
    {t : FrequencyTable} {symbol : Nat} (h : Admitted (t, symbol))
    (hI : p.interval.Settled (2 ^ 30)) (hop : Opposite file p d) (hw : p.write t symbol = .ok p')
    (hr : Reaches 30 (codeBit file) p'.interval p'.sub.out) :
    ∃ d', d.read t = (symbol, .ok d') ∧ Opposite file p' d' := by
  obtain ⟨hset, hnarrow, -⟩ := reaches_of_step h hI hw hr
  have hsym := symbol_of_reaches h hI hop hnarrow
  obtain ⟨dl, dh, dm⟩ := d
  obtain ⟨hint, hbehind⟩ := hop
  obtain ⟨rfl, rfl⟩ := Interval.mk.inj hint
  obtain ⟨ms, d', hd', hscaled, -, hint', hbehind'⟩ := renormalise_lockstep encoder_follows
    (decoder_follows file) (narrowed_inside h hI) (d := narrowed t symbol ⟨p.low, p.high, dm⟩) rfl
    rfl hbehind ((update_eq_renormalise _ h).symm.trans hw)
  have hrange : range (⟨p.low, p.high, dm⟩ : ArithmeticDecoder) ≠ 0 := by
    have := MAX_TOTAL_le_range hI
    rw [MAX_TOTAL_eq] at this
    unfold range at this ⊢
    change p.high - p.low + 1 ≠ 0
    omega
  refine ⟨d', ?_, hint', ?_⟩
  · rw [ArithmeticDecoder.read, if_neg (not_lt.mpr h.2), if_neg hrange, hsym,
      update_eq_renormalise _ h, hd']
  · rw [show p'.sub.out = _ from hscaled.sub]
    exact hbehind'

/-! ## Messages -/

/-- The table for the next symbol, from the symbols before it. -/
abbrev Model := List Nat → FrequencyTable

/-- What a message makes the encoder do. -/
def Model.steps (model : Model) : List Nat → List Nat → List (FrequencyTable × Nat)
  | _, [] => []
  | past, symbol :: symbols => (model past, symbol) :: model.steps (past ++ [symbol]) symbols

/-- `n` times `read`, as far as no call raises an exception. -/
def ArithmeticDecoder.readsWith (model : Model) : Nat → List Nat → ArithmeticDecoder → List Nat
  | 0, _, _ => []
  | n + 1, past, d =>
    match d.read (model past) with
    | (symbol, .ok d) => symbol :: readsWith model n (past ++ [symbol]) d
    | _ => []

/-- **The rest of a message**, from any place of it. -/
theorem readsWith_eq (model : Model) {file : List UInt8} (symbols : List Nat) {past : List Nat}
    (h : ∀ step ∈ model.steps past symbols, Admitted step) {p p' : ArithmeticEncoder}
    {d : ArithmeticDecoder} (hI : p.interval.Settled (2 ^ 30)) (hop : Opposite file p d)
    (hw : writes (model.steps past symbols) p = .ok p')
    (hr : Reaches 30 (codeBit file) p'.interval p'.sub.out) :
    d.readsWith model symbols.length past = symbols := by
  induction symbols generalizing past p d with
  | nil => rfl
  | cons symbol symbols ih =>
    have hstep : Admitted (model past, symbol) := h _ List.mem_cons_self
    have hrest : ∀ step ∈ model.steps (past ++ [symbol]) symbols, Admitted step :=
      fun s hs => h s (List.mem_cons_of_mem _ hs)
    obtain ⟨ms, p₁, hp₁, -, hset⟩ := update_spec encoder_follows hstep hI rfl
    have hp₁ : p.write (model past) symbol = .ok p₁ := hp₁
    rw [Model.steps, writes, hp₁, andThen_ok] at hw
    obtain ⟨q, hq, -, hback⟩ := writes_settled _ hrest hset
    obtain rfl : q = p' := Result.ok.inj (hq.symm.trans hw)
    obtain ⟨d', hd', hop'⟩ := read_of_write hstep hI hop hp₁ (hback _ hr)
    rw [List.length_cons, ArithmeticDecoder.readsWith, hd']
    exact congrArg _ (ih hrest hset hop' hw)

/-- **Round trip** of the reference coder, for any model. -/
theorem encodeWith_decodeWith (model : Model) (symbols : List Nat)
    (h : ∀ step ∈ model.steps [] symbols, Admitted step) :
    ∃ p, encode (model.steps [] symbols) = .ok p ∧
      (ArithmeticDecoder.ofFile p.file).readsWith model symbols.length [] = symbols := by
  obtain ⟨p, p', hp, hp', hr⟩ := encode_spec _ h
  exact ⟨p', hp', readsWith_eq model symbols h fresh_interval_settled
    ⟨rfl, ofFile_behind p'.file⟩ hp hr⟩

/-- A table of two symbols that counts those it has seen. -/
def counting : Model := fun past => ⟨[past.count 0 + 1, past.count 1 + 1]⟩

theorem encodeWith_decodeWith_counting :
    ∃ p, encode (counting.steps [] [0, 1, 1, 0, 1]) = .ok p ∧
      (ArithmeticDecoder.ofFile p.file).readsWith counting [0, 1, 1, 0, 1].length [] =
        [0, 1, 1, 0, 1] :=
  encodeWith_decodeWith counting [0, 1, 1, 0, 1] (by decide)

/-! ## The files of the C++ encoder -/

theorem steps_append (model : Model) (past xs ys : List Nat) :
    model.steps past (xs ++ ys) = model.steps past xs ++ model.steps (past ++ xs) ys := by
  induction xs generalizing past with
  | nil => rw [List.append_nil]; rfl
  | cons x xs ih =>
    rw [List.cons_append, Model.steps, ih, Model.steps, List.append_assoc]
    rfl

/-- Two lists of one length differ somewhere for the first time. -/
theorem exists_first_difference {α : Type} {xs ys : List α} (h : xs.length = ys.length)
    (hne : xs ≠ ys) :
    ∃ zs x y us vs, x ≠ y ∧ xs = zs ++ x :: us ∧ ys = zs ++ y :: vs := by
  induction xs generalizing ys with
  | nil => exact absurd (List.length_eq_zero_iff.mp h.symm).symm hne
  | cons x xs ih =>
    cases ys with
    | nil => cases h
    | cons y ys =>
      by_cases hxy : x = y
      · subst hxy
        obtain ⟨zs, x', y', us, vs, hne', rfl, rfl⟩ := ih (Nat.succ_inj.mp h) fun heq =>
          hne (by rw [heq])
        exact ⟨x :: zs, x', y', us, vs, hne', rfl, rfl⟩
      · exact ⟨[], x, y, xs, ys, hxy, rfl, rfl⟩

/-- Two symbols of a table share no frequency. -/
theorem call_disjoint (t : FrequencyTable) {x y : Nat} (h : x ≠ y) :
    (t.call x).Disjoint (t.call y) := by
  rcases Nat.lt_or_gt_of_ne h with hlt | hgt
  · exact .inr (getLow_mono t hlt)
  · exact .inl (getLow_mono t hgt)

/-- The slots of two symbols do not meet. -/
theorem narrowed_disjoint {e : ArithmeticCoding.ArithmeticEncoder} {a b : Call} (ha : a.Valid)
    (hb : b.Valid) (hI : e.interval.Inside (2 ^ 30)) (ht : b.total = a.total)
    (hdis : a.Disjoint b) :
    (e.narrowed a).high < (e.narrowed b).low ∨ (e.narrowed b).high < (e.narrowed a).low := by
  have hr := range_nonneg hI
  change e.newhigh a < e.newlow b ∨ e.newhigh b < e.newlow a
  rw [newhigh_eq ha hI, newlow_eq ha hI, newhigh_eq hb hI, newlow_eq hb hI, ht]
  rcases hdis with hdis | hdis
  · have := slot_mono hr ha.total_pos hdis
    exact .inr (by omega)
  · have := slot_mono hr ha.total_pos hdis
    exact .inl (by omega)

/-- No code lies in the slots of both. -/
theorem not_reaches_both {e : ArithmeticCoding.ArithmeticEncoder} {a b : Call} {β : Nat → Bool}
    {O : Output} (ha : a.Valid) (hb : b.Valid) (hI : e.interval.Inside (2 ^ 30))
    (ht : b.total = a.total) (hdis : a.Disjoint b) (hr : Reaches 30 β (e.narrowed a).interval O) :
    ¬ Reaches 30 β (e.narrowed b).interval O := by
  intro hr'
  have hlow := hr.low_le
  have hhigh := hr.le_high
  have hlow' := hr'.low_le
  have hhigh' := hr'.le_high
  simp only [Coder.interval] at hlow hhigh hlow' hhigh'
  rcases narrowed_disjoint ha hb hI ht hdis with hlt | hlt <;> omega

/-- A message that is admitted for the C++ encoder. -/
def Model.Codes (model : Model) (symbols : List Nat) : Prop :=
  ∀ step ∈ model.steps [] symbols, Coded step.1 step.2 ∧ step.1.getTotal ≤ 2 ^ 30 + 1

instance (model : Model) (symbols : List Nat) : Decidable (model.Codes symbols) :=
  inferInstanceAs (Decidable (∀ _ ∈ _, _))

theorem Model.Codes.calls {model : Model} {symbols : List Nat} (h : model.Codes symbols) :
    ∀ a ∈ Reference.calls (model.steps [] symbols), a.Valid ∧ a.total ≤ 2 ^ 30 + 1 := by
  intro a ha
  obtain ⟨step, hstep, rfl⟩ := List.mem_map.mp ha
  exact ⟨call_valid (h step hstep).1, (h step hstep).2⟩

/-- The file of a message lies in the slot of each of its symbols. -/
theorem encode_in_slot (model : Model) {zs us : List Nat} {x : Nat}
    (h : model.Codes (zs ++ x :: us)) {e : ArithmeticCoding.ArithmeticEncoder}
    (he : ArithmeticCoding.encode (calls (model.steps [] (zs ++ x :: us))) = .ok e) :
    ∃ e₁, ArithmeticCoding.writes (calls (model.steps [] zs)) .fresh = .ok e₁ ∧
      e₁.interval.Settled (2 ^ 30) ∧ ((model zs).call x).Valid ∧
      Reaches 30 (codeBit e.file) (e₁.narrowed ((model zs).call x)).interval e₁.sub.output := by
  have hsplit : calls (model.steps [] (zs ++ x :: us)) = calls (model.steps [] zs) ++
      (model zs).call x :: calls (model.steps (zs ++ [x]) us) := by
    rw [steps_append, calls, List.map_append, List.nil_append]
    rfl
  have hcalls := h.calls
  rw [hsplit] at he hcalls
  have hreach := encode_reaches _ (fun a ha => accepted_of_total (hcalls a ha))
    (everyCall_not_boundary hcalls) he
  obtain ⟨e₀, hrun₀, -⟩ := encode_eq_ok he
  rw [ArithmeticCoding.writes, updates_append] at hrun₀
  obtain ⟨e₁, hrun, -⟩ := andThen_eq_ok hrun₀
  obtain ⟨hkept, hr, -⟩ := hreach _ _ _ e₁ rfl hrun
  exact ⟨e₁, hrun, hkept.settled, (hcalls _ (List.mem_append_right _ List.mem_cons_self)).1, hr⟩

theorem steps_length (model : Model) (past symbols : List Nat) :
    (model.steps past symbols).length = symbols.length := by
  induction symbols generalizing past with
  | nil => rfl
  | cons x xs ih => rw [Model.steps, List.length_cons, List.length_cons, ih]

/-- A message of fewer than `2 ^ 26` symbols has a file. -/
theorem exists_encode (model : Model) {symbols : List Nat} (h : model.Codes symbols)
    (hlen : symbols.length < 2 ^ 26) :
    ∃ e, ArithmeticCoding.encode (calls (model.steps [] symbols)) = .ok e := by
  have hacc := fun a ha => accepted_of_total (h.calls a ha)
  have hb := everyCall_not_boundary h.calls
  exact (encode_ok_iff _ hacc hb).mpr (noOverflow_of_length _ hacc hb (by
    rw [calls, List.length_map, steps_length]
    exact hlen))

/-- **The files tell messages apart**: at their first difference the code would lie in two slots. -/
theorem encode_injective (model : Model) (xs ys : List Nat) (hlen : xs.length = ys.length)
    (hne : xs ≠ ys) (hx : model.Codes xs) (hy : model.Codes ys) :
    (∀ e e', ArithmeticCoding.encode (calls (model.steps [] xs)) = .ok e →
      ArithmeticCoding.encode (calls (model.steps [] ys)) = .ok e' → e.file ≠ e'.file) ∧
    (xs.length < 2 ^ 26 → (∃ e, ArithmeticCoding.encode (calls (model.steps [] xs)) = .ok e) ∧
      ∃ e', ArithmeticCoding.encode (calls (model.steps [] ys)) = .ok e') := by
  refine ⟨?_, fun hshort => ⟨exists_encode model hx hshort, exists_encode model hy (hlen ▸ hshort)⟩⟩
  obtain ⟨zs, x, y, us, vs, hxy, rfl, rfl⟩ := exists_first_difference hlen hne
  intro e e' he he' hfile
  obtain ⟨e₁, hrun, hset, ha, hr⟩ := encode_in_slot model hx he
  obtain ⟨e₁', hrun', -, hb, hr'⟩ := encode_in_slot model hy he'
  obtain rfl : e₁ = e₁' := Result.ok.inj (hrun.symm.trans hrun')
  rw [hfile] at hr
  exact not_reaches_both ha hb hset.inside rfl (call_disjoint _ hxy) hr hr'

theorem encode_injective_counting :
    ∃ e e', ArithmeticCoding.encode (calls (counting.steps [] [0, 1, 1])) = .ok e ∧
      ArithmeticCoding.encode (calls (counting.steps [] [0, 1, 0])) = .ok e' ∧
      e.file ≠ e'.file := by
  obtain ⟨hdiffer, hshort⟩ := encode_injective counting [0, 1, 1] [0, 1, 0] rfl (by decide)
    (by decide) (by decide)
  obtain ⟨⟨e, he⟩, e', he'⟩ := hshort (by decide)
  exact ⟨e, e', he, he', hdiffer e e' he he'⟩

/-! ## Counting -/

/-- `VirtualBitOutputStream`. -/
structure VirtualBitOutputStream where
  numBits : Nat
  deriving DecidableEq, Repr

namespace VirtualBitOutputStream

def write (_ : Int) (s : VirtualBitOutputStream) : VirtualBitOutputStream := ⟨s.numBits + 1⟩

def close (s : VirtualBitOutputStream) : VirtualBitOutputStream :=
  ⟨s.numBits + (8 - s.numBits % 8) % 8⟩

/-- `n` times `self.output.write (b)`. -/
def writeTimes (b : Int) : Nat → VirtualBitOutputStream → VirtualBitOutputStream
  | 0, s => s
  | n + 1, s => writeTimes b n (s.write b)

theorem writeTimes_numBits (b : Int) (n : Nat) (s : VirtualBitOutputStream) :
    (s.writeTimes b n).numBits = s.numBits + n := by
  induction n generalizing s with
  | zero => rfl
  | succ n ih =>
    rw [writeTimes, ih]
    exact Nat.succ_add_eq_add_succ s.numBits n

end VirtualBitOutputStream

/-- The members of an `ArithmeticEncoder` over a `VirtualBitOutputStream`. -/
structure VirtualMembers where
  output : VirtualBitOutputStream
  numUnderflow : Nat
  deriving DecidableEq, Repr

abbrev VirtualEncoder := Coder VirtualMembers

namespace VirtualEncoder

def fresh : VirtualEncoder := Coder.fresh ⟨⟨0⟩, 0⟩

def shift (e : VirtualEncoder) : Result VirtualEncoder :=
  let bit := e.low >>> (STATE_SIZE - 1)
  let output := (e.sub.output.write bit).writeTimes (bit.xor 1) e.sub.numUnderflow
  .ok { e with sub := ⟨output, 0⟩ }

def underflow (e : VirtualEncoder) : Result VirtualEncoder :=
  .ok { e with sub := { e.sub with numUnderflow := e.sub.numUnderflow + 1 } }

def virtual : Virtual VirtualMembers := ⟨shift, underflow⟩

def write (t : FrequencyTable) (symbol : Nat) (e : VirtualEncoder) : Result VirtualEncoder :=
  update virtual t symbol e

def writes : List (FrequencyTable × Nat) → VirtualEncoder → Result VirtualEncoder
  | [], e => .ok e
  | (t, symbol) :: steps, e => (e.write t symbol).andThen (writes steps)

def finish (e : VirtualEncoder) : VirtualEncoder :=
  { e with sub := { e.sub with output := e.sub.output.write 1 } }

def close (e : VirtualEncoder) : VirtualEncoder :=
  { e with sub := { e.sub with output := e.sub.output.close } }

/-- A fresh encoder, the symbols, `finish` and `close`. -/
def encode (steps : List (FrequencyTable × Nat)) : Result VirtualEncoder :=
  (writes steps .fresh).andThen fun e => .ok e.finish.close

end VirtualEncoder

/-- The count is that of the bits. -/
theorem virtual_follows : VirtualEncoder.virtual.Follows
    (fun m O => m.output.numBits = O.bits.length ∧ m.numUnderflow = O.pending) Output.apply
      Unbounded where
  room_of_rel _ := trivial
  room_of_act _ := trivial
  shift := by
    rintro c O b - - ⟨hbits, hpending⟩
    refine .of_ok ⟨_, rfl, ?_, rfl⟩
    rw [VirtualBitOutputStream.writeTimes_numBits, VirtualBitOutputStream.write, hbits, hpending,
      length_apply_emit]
  underflow := by
    rintro c O ⟨hbits, hpending⟩
    exact .of_ok ⟨_, rfl, hbits, by rw [hpending]; rfl⟩

theorem write_numBits (s : CountingBitOutputStream) (b : Bool) :
    ∃ s', s.write b.toInt = .ok s' ∧ s'.numBits = s.numBits + 1 := by
  obtain ⟨bitOut, hw, -⟩ := write_toPort s.bitOut b
  exact ⟨⟨s.numBits + 1, bitOut⟩, by rw [CountingBitOutputStream.write, hw, within_ok], rfl⟩

theorem writeTimes_numBits (n : Nat) (s : CountingBitOutputStream) (b : Bool) :
    ∃ s', ArithmeticEncoder.writeTimes b.toInt n s = .ok s' ∧ s'.numBits = s.numBits + n := by
  induction n generalizing s with
  | zero => exact ⟨s, rfl, rfl⟩
  | succ n ih =>
    obtain ⟨s₁, hw, h₁⟩ := write_numBits s b
    obtain ⟨s', hs', h'⟩ := ih s₁
    exact ⟨s', by rw [ArithmeticEncoder.writeTimes, hw, andThen_ok, hs'], by omega⟩

/-- The stream that writes counts as well. -/
theorem counting_follows : ArithmeticEncoder.virtual.Follows
    (fun m O => m.out = O ∧ m.output.numBits = O.bits.length) Output.apply Unbounded where
  room_of_rel _ := trivial
  room_of_act _ := trivial
  shift := by
    rintro c _ b hI hb ⟨rfl, hcount⟩
    obtain ⟨c', hc', hint, hout⟩ := (encoder_follows.shift c _ b hI hb rfl).ok trivial
    obtain ⟨s₁, hw₁, h₁⟩ := write_numBits c.sub.output b
    obtain ⟨s₂, hw₂, h₂⟩ := writeTimes_numBits c.sub.numUnderflow s₁ (!b)
    have hbit : c.low >>> (STATE_SIZE - 1) = b.toInt := top_bit_toInt hI hb
    have hnot : b.toInt.xor 1 = (!b).toInt := by cases b <;> rfl
    have hshift : ArithmeticEncoder.virtual.shift c = .ok { c with sub := ⟨s₂, 0⟩ } := by
      simp only [ArithmeticEncoder.virtual, ArithmeticEncoder.shift, hbit, hnot, hw₁, andThen_ok,
        hw₂, within_ok]
    obtain rfl := Result.ok.inj (hc'.symm.trans hshift)
    refine .of_ok ⟨⟨s₂, 0⟩, hshift, hout, ?_⟩
    rw [h₂, h₁, hcount, length_apply_emit]
    rfl
  underflow := by
    rintro c _ ⟨rfl, hcount⟩
    exact .of_ok ⟨_, rfl, rfl, hcount⟩

/-- **In step**: the encoder that writes and the one that counts. -/
structure Counted (p : ArithmeticEncoder) (q : VirtualEncoder) : Prop where
  interval : q.interval = p.interval
  numBits : p.sub.output.numBits = p.sub.out.bits.length
  virtual : q.sub.output.numBits = p.sub.out.bits.length ∧ q.sub.numUnderflow = p.sub.numUnderflow

theorem writes_counted (steps : List (FrequencyTable × Nat)) (h : ∀ step ∈ steps, Admitted step)
    {p p' : ArithmeticEncoder} {q : VirtualEncoder} (hI : p.interval.Settled (2 ^ 30))
    (hpq : Counted p q) (hw : writes steps p = .ok p') :
    ∃ q', VirtualEncoder.writes steps q = .ok q' ∧ Counted p' q' := by
  induction steps generalizing p q with
  | nil =>
    obtain rfl := Result.ok.inj hw
    exact ⟨q, rfl, hpq⟩
  | cons step steps ih =>
    obtain ⟨t, symbol⟩ := step
    have hstep : Admitted (t, symbol) := h _ List.mem_cons_self
    obtain ⟨ql, qh, qm⟩ := q
    obtain ⟨hint, hbits, hvirtual⟩ := hpq
    obtain ⟨rfl, rfl⟩ := Interval.mk.inj hint
    obtain ⟨p₁, hp₁, hw⟩ := andThen_eq_ok hw
    obtain ⟨ms, q₁, hq₁, hscaled, hset, hint', hvirtual'⟩ := renormalise_lockstep
      counting_follows virtual_follows (narrowed_inside hstep hI)
      (d := narrowed t symbol ⟨p.low, p.high, qm⟩) rfl ⟨rfl, hbits⟩ hvirtual
      ((update_eq_renormalise _ hstep).symm.trans hp₁)
    rw [← update_eq_renormalise _ hstep] at hq₁
    obtain ⟨hout, hcount⟩ := hscaled.sub
    rw [← hout] at hcount hvirtual'
    obtain ⟨q', hq', hcounted⟩ := ih (fun s hs => h s (List.mem_cons_of_mem _ hs)) hset
      ⟨hint', hcount, hvirtual'⟩ hw
    refine ⟨q', ?_, hcounted⟩
    have hq₁ : VirtualEncoder.write t symbol ⟨p.low, p.high, qm⟩ = .ok q₁ := hq₁
    rw [VirtualEncoder.writes, hq₁, andThen_ok, hq']

theorem close_numBits (s : CountingBitOutputStream) :
    ∃ s', s.close = .ok s' ∧ s'.numBits = s.numBits + (8 - s.numBits % 8) % 8 := by
  obtain ⟨bitOut, hc, -⟩ := closeLoop_toPort 8 s.bitOut
  refine ⟨⟨_, bitOut⟩, ?_, rfl⟩
  rw [CountingBitOutputStream.close, BitOutputStream.close, hc, within_ok]

/-- `finish` and `close` count one bit, and up to a whole byte. -/
theorem finish_close_numBits {p p' : ArithmeticEncoder}
    (h : (p.finish).andThen ArithmeticEncoder.close = .ok p') :
    p'.sub.output.numBits =
      p.sub.output.numBits + 1 + (8 - (p.sub.output.numBits + 1) % 8) % 8 := by
  obtain ⟨s₁, hw, h₁⟩ := write_numBits p.sub.output true
  obtain ⟨s₂, hc, h₂⟩ := close_numBits s₁
  have hfin : p.finish = .ok { p with sub := { p.sub with output := s₁ } } := by
    change (p.sub.output.write true.toInt).within _ = _
    rw [hw, within_ok]
  rw [hfin, andThen_ok, ArithmeticEncoder.close, hc, within_ok] at h
  obtain rfl := Result.ok.inj h
  rw [← h₁]
  exact h₂

/-- **The counts** are the bits of the file, whether it is written or not. -/
theorem encode_counts (steps : List (FrequencyTable × Nat)) (h : ∀ step ∈ steps, Admitted step) :
    ∃ p q, encode steps = .ok p ∧ VirtualEncoder.encode steps = .ok q ∧
      p.sub.output.numBits = 8 * p.file.length ∧ q.sub.output.numBits = 8 * p.file.length := by
  obtain ⟨p₁, hp₁, -, -⟩ := writes_settled steps h fresh_interval_settled
  obtain ⟨q₁, hq₁, -, hcount, hvirtual, -⟩ := writes_counted steps h (q := .fresh)
    fresh_interval_settled ⟨rfl, rfl, rfl, rfl⟩ hp₁
  obtain ⟨p', n, hfin, hn, hbits⟩ := finish_close p₁
  have hlen := congrArg List.length hbits
  rw [fileBits_length, List.length_append, List.length_append, List.length_singleton,
    List.length_replicate] at hlen
  have hnum := finish_close_numBits hfin
  rw [hcount] at hnum
  refine ⟨p', q₁.finish.close, by rw [encode, hp₁, andThen_ok, hfin],
    by rw [VirtualEncoder.encode, hq₁, andThen_ok], by omega, ?_⟩
  change q₁.sub.output.numBits + 1 + (8 - (q₁.sub.output.numBits + 1) % 8) % 8 = _
  rw [hvirtual]
  omega

theorem encode_counts_counting :
    ∃ p q, encode (counting.steps [] [0, 1, 1]) = .ok p ∧
      VirtualEncoder.encode (counting.steps [] [0, 1, 1]) = .ok q ∧
      p.sub.output.numBits = 8 * p.file.length ∧ q.sub.output.numBits = 8 * p.file.length :=
  encode_counts _ (by decide)

end DeepSpace.Reference
