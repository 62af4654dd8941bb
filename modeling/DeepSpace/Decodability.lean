import DeepSpace.CoderInvariant

/-!
# The code of the encoder lies in every interval

The code is the file of `encode`, followed by zeros for ever.

* `encode_ok_iff`: there is a file iff no counter of the encoder overflows;
* `encode_reaches`: at every call, the code lies in the interval that the call
  narrows to, the bits pending there included;
* `updates_lockstep`: a decoder that makes the same calls has the interval of the
  encoder, and its register is the word of the code there;
* `decodable_iff`: so the register lies in the slot of the call, and in no slot
  that is disjoint from it.
-/

namespace DeepSpace.ArithmeticCoding

open DeepSpace.Bitwise DeepSpace.Renormalisation

/-! ## The file -/

/-- **The end**, as long as the counter has room for a one and the padding. -/
theorem finish_close {e : ArithmeticEncoder} (h : Counts e.sub.cBitOut)
    (hroom : e.sub.cBitOut.numBits.toInt + 9 ≤ 2 ^ 31) :
    ∃ e' p, (e.finish).andThen ArithmeticEncoder.close = .ok e' ∧ p < 8 ∧
      fileBits e'.file = (e.sub.output.bits ++ [true]) ++ List.replicate p false := by
  have hn := h.numBits
  obtain ⟨s₁, hw, hs₁, hb⟩ := h.write false true (by omega)
  have hlen := congrArg List.length hb
  rw [List.length_append, List.length_singleton] at hlen
  obtain ⟨s₂, p, hc, hlt, hbits, -⟩ := hs₁.close false (by omega)
  have hfin : e.finish = .ok { e with sub := { e.sub with cBitOut := s₁ } } :=
    congrArg (Result.within _) hw
  refine ⟨{ e with sub := { e.sub with cBitOut := s₂ } }, p, ?_, hlt, ?_⟩
  · rw [hfin, andThen_ok]
    exact congrArg (Result.within _) hc
  · rw [hb] at hbits
    exact hbits

theorem finish_close_full {e : ArithmeticEncoder} (h : Counts e.sub.cBitOut)
    (hfull : ¬ e.sub.cBitOut.numBits.toInt + 9 ≤ 2 ^ 31) :
    (e.finish).andThen ArithmeticEncoder.close = .undefined := by
  have hn := h.numBits
  by_cases hroom : e.sub.cBitOut.bitOut.bits.length + 1 < 2 ^ 31
  · obtain ⟨s₁, hw, hs₁, hb⟩ := h.write false true hroom
    have hlen := congrArg List.length hb
    rw [List.length_append, List.length_singleton] at hlen
    have hfin : e.finish = .ok { e with sub := { e.sub with cBitOut := s₁ } } :=
      congrArg (Result.within _) hw
    rw [hfin, andThen_ok]
    exact congrArg (Result.within _) (hs₁.close_full false (by omega))
  · have hfin : e.finish = .undefined :=
      congrArg (Result.within _) (h.write_full false 1 hroom)
    rw [hfin]
    rfl

/-- No counter of the encoder overflows, from the first call to `close`. -/
structure NoOverflow (as : List Call) : Prop where
  calls : EveryCall as Room
  close : ∀ e, writes as .fresh = .ok e → e.sub.cBitOut.numBits.toInt + 9 ≤ 2 ^ 31

theorem encode_eq {as : List Call} {e : ArithmeticEncoder} (h : writes as .fresh = .ok e) :
    encode as = (e.finish).andThen ArithmeticEncoder.close := by
  rw [encode, h, andThen_ok]

theorem encode_eq_ok {as : List Call} {e' : ArithmeticEncoder} (h : encode as = .ok e') :
    ∃ e, writes as .fresh = .ok e ∧ (e.finish).andThen ArithmeticEncoder.close = .ok e' := by
  obtain ⟨e₁, h₁, hclose⟩ := andThen_eq_ok h
  obtain ⟨e, hrun, hfin⟩ := andThen_eq_ok h₁
  exact ⟨e, hrun, by rw [hfin, andThen_ok, hclose]⟩

/-- **Which runs have a file.** -/
theorem encode_ok_iff (as : List Call) (has : ∀ a ∈ as, Accepted a)
    (hb : EveryCall as fun e a => ¬ Boundary e a) :
    (∃ e, encode as = .ok e) ↔ NoOverflow as := by
  constructor
  · rintro ⟨e', henc⟩
    obtain ⟨e, hrun, hfin⟩ := encode_eq_ok henc
    refine ⟨(writes_ok_iff as has hb).mp ⟨e, hrun⟩, fun e₁ hrun₁ => ?_⟩
    obtain rfl := Result.ok.inj (hrun.symm.trans hrun₁)
    by_contra hfull
    rw [finish_close_full (writes_kept as has hb hrun).holds.counts hfull] at hfin
    cases hfin
  · rintro ⟨hcalls, hclose⟩
    obtain ⟨e, hrun⟩ := (writes_ok_iff as has hb).mpr hcalls
    obtain ⟨e', -, hfin, -⟩ := finish_close (writes_kept as has hb hrun).holds.counts
      (hclose e hrun)
    exact ⟨e', (encode_eq hrun).trans hfin⟩

/-- What the file of a run holds. -/
theorem file_of_encode {as : List Call} {e e' : ArithmeticEncoder} (hkept : Kept e)
    (hrun : writes as .fresh = .ok e) (henc : encode as = .ok e') :
    ∃ p < 8, fileBits e'.file = (e.sub.output.bits ++ [true]) ++ List.replicate p false := by
  rw [encode_eq hrun] at henc
  by_cases hroom : e.sub.cBitOut.numBits.toInt + 9 ≤ 2 ^ 31
  · obtain ⟨e₁, p, hfin, hp, hbits⟩ := finish_close hkept.holds.counts hroom
    obtain rfl := Result.ok.inj (hfin.symm.trans henc)
    exact ⟨p, hp, hbits⟩
  · rw [finish_close_full hkept.holds.counts hroom] at henc
    cases henc

/-- **No counter overflows** in a run of fewer than `2 ^ 26` calls. -/
theorem noOverflow_of_length (as : List Call) (has : ∀ a ∈ as, Accepted a)
    (hb : EveryCall as fun e a => ¬ Boundary e a) (hlen : as.length < 2 ^ 26) : NoOverflow as := by
  refine ⟨room_of_length as has hb hlen, fun e hrun => ?_⟩
  have hsize := size_of_writes as has hb hrun
  have hn := (writes_kept as has hb hrun).holds.counts.numBits
  have hbits : e.sub.output.bits.length ≤ e.sub.output.size := Nat.le_add_right _ _
  have hout : e.sub.output.bits.length = e.sub.cBitOut.bitOut.bits.length := rfl
  omega

/-! ## The code, backwards -/

/-- The code ends in every settled interval. -/
theorem reaches_of_finish {e : ArithmeticEncoder} {β : Nat → Bool}
    (hI : e.interval.Settled (2 ^ 30))
    (hβ : ∀ i, β i = (e.sub.output.bits ++ [true])[i]?.getD false) :
    Reaches 30 β e.interval e.sub.output := by
  apply Reaches.of_finish hI
  · intro i hi
    rw [hβ, List.getElem?_append_left hi, List.getElem?_eq_getElem hi]
    rfl
  · rw [hβ, List.getElem?_append_right (le_refl _), Nat.sub_self]
    rfl
  · intro i hi
    rw [hβ, List.getElem?_eq_none (by rw [List.length_append]; exact hi)]
    rfl

/-- **One call back.** -/
theorem reaches_of_write {e e' : ArithmeticEncoder} {a : Call} {β : Nat → Bool} (ha : Accepted a)
    (he : Kept e) (hb : ¬ Boundary e a) (hw : e.write a = .ok e')
    (h : Reaches 30 β e'.interval e'.sub.output) :
    Reaches 30 β (e.narrowed a).interval e.sub.output ∧ Reaches 30 β e.interval e.sub.output := by
  obtain ⟨ms, hmoves, hout⟩ := moves_of_write ha he hb hw
  rw [hout] at h
  have hn := h.of_moves hmoves
  obtain ⟨hl, hh⟩ := narrowed_within ha.1 he.settled.inside
  exact ⟨hn, hn.mono hl hh⟩

/-- **The code against a run**: it lies in every interval on the way. -/
theorem writes_reaches (as : List Call) (has : ∀ a ∈ as, Accepted a) {e : ArithmeticEncoder}
    {β : Nat → Bool} (hb : EveryCall as fun e a => ¬ Boundary e a)
    (hrun : writes as .fresh = .ok e) (h : Reaches 30 β e.interval e.sub.output) :
    EveryCall as fun e a => Kept e ∧
      Reaches 30 β (e.narrowed a).interval e.sub.output ∧ Reaches 30 β e.interval e.sub.output := by
  induction as using List.reverseRecOn generalizing e with
  | nil => exact everyCall_nil
  | append_singleton as a ih =>
    have has' : ∀ b ∈ as, Accepted b := fun b hm => has b (List.mem_append_left _ hm)
    obtain ⟨e₀, hrun₀, hw⟩ := updates_concat_eq_ok hrun
    have hkept := writes_kept as has' hb.of_append hrun₀
    obtain ⟨hn, hr⟩ := reaches_of_write
      (has a (List.mem_append_right _ (List.mem_singleton_self a))) hkept (hb.last hrun₀) hw h
    refine (ih has' hb.of_append hrun₀ hr).concat fun e₁ hrun₁ => ?_
    obtain rfl := Result.ok.inj (hrun₀.symm.trans hrun₁)
    exact ⟨hkept, hn, hr⟩

/-- **The file of a run.** -/
theorem encode_reaches (as : List Call) (has : ∀ a ∈ as, Accepted a)
    (hb : EveryCall as fun e a => ¬ Boundary e a) {e : ArithmeticEncoder}
    (henc : encode as = .ok e) :
    EveryCall as fun e₁ a => Kept e₁ ∧
      Reaches 30 (codeBit e.file) (e₁.narrowed a).interval e₁.sub.output ∧
      Reaches 30 (codeBit e.file) e₁.interval e₁.sub.output := by
  obtain ⟨e₀, hrun, -⟩ := encode_eq_ok henc
  have hkept := writes_kept as has hb hrun
  obtain ⟨p, -, hbits⟩ := file_of_encode hkept hrun henc
  exact writes_reaches as has hb hrun (reaches_of_finish hkept.settled (codeBit_of_bits hbits))

/-! ## A decoder, forwards -/

/-- The register of a decoder for the code `β`, advanced as the renormalisation advances
the interval. -/
def codeRegister (β : Nat → Bool) : Virtual Word where
  shift d := .ok { d with
    sub := ⟨((d.sub.code <<< (1 : Nat)).land MASK).lor (β d.sub.read).toInt, d.sub.read + 1⟩ }
  underflow d := .ok { d with
    sub := ⟨((d.sub.code.land TOP_MASK).lor ((d.sub.code <<< (1 : Nat)).land
      (MASK >>> (1 : Nat)))).lor (β d.sub.read).toInt, d.sub.read + 1⟩ }

/-- It starts with the first 32 bits of the code. -/
def decoder (β : Nat → Bool) : Coder Word := Coder.fresh ⟨window β 0 STATE_SIZE, STATE_SIZE⟩

theorem toInt_bit (b : Bool) : b.toInt = 0 ∨ b.toInt = 1 := by cases b <;> decide

theorem shift_code (x : Int) (b : Bool) :
    ((x <<< (1 : Nat)).land MASK).lor b.toInt = 2 * x % (4 * 2 ^ 30) + b.toInt := by
  rw [shift_low]
  exact lor_bit (by omega) (by omega) (toInt_bit b)

theorem underflow_code (x : Int) (b : Bool) :
    ((x.land TOP_MASK).lor ((x <<< (1 : Nat)).land (MASK >>> (1 : Nat)))).lor b.toInt =
      x / (2 * 2 ^ 30) % 2 * (2 * 2 ^ 30) + 2 * x % (2 * 2 ^ 30) + b.toInt := by
  have htop : x.land TOP_MASK = x / 2 ^ 31 % 2 * 2 ^ 31 := by
    change x.land (2 ^ 31) = _
    rw [land_two_pow, testBit_eq]
    have h2 := Int.emod_two_eq_zero_or_one (x / 2 ^ 31)
    rcases h2 with h | h <;> rw [h] <;> rfl
  have hor : (x / 2 ^ 31 % 2 * 2 ^ 31).lor (2 * x % 2 ^ 31) =
      x / 2 ^ 31 % 2 * 2 ^ 31 + 2 * x % 2 ^ 31 := by
    have h2 := Int.emod_two_eq_zero_or_one (x / 2 ^ 31)
    rcases h2 with h | h <;> rw [h, lor_comm]
    · rw [Int.zero_mul, Int.zero_add]
      exact (lor_bit (by omega) (by omega) (.inl rfl)).trans (Int.add_zero _)
    · rw [Int.one_mul, lor_two_pow 31 (by omega) (by omega)]
      omega
  rw [htop, underflow_low, hor]
  exact lor_bit (by omega) (by omega) (toInt_bit b)

/-- The register is the word of the code behind the encoder's output. -/
theorem codeRegister_follows (β : Nat → Bool) :
    (codeRegister β).Follows (fun w O => w = ⟨register 30 β O, O.read 30⟩) Output.apply
      Unbounded where
  room_of_rel _ := trivial
  room_of_act _ := trivial
  shift := by
    rintro d O b - - hw
    refine .of_ok ⟨_, rfl, ?_⟩
    rw [← register_move, ← hw]
    simp only [Word.apply, shift_code]
  underflow := by
    rintro d O hw
    refine .of_ok ⟨_, rfl, ?_⟩
    rw [← register_move, ← hw]
    simp only [Word.apply, underflow_code]

/-- **Lockstep.**  A subclass that makes the calls of the encoder has its interval, and
follows its output. -/
theorem updates_lockstep {ε : Type} {w : Virtual ε} {rel : ε → Output → Prop}
    (hw : w.Follows rel Output.apply Unbounded) (as : List Call) (has : ∀ a ∈ as, Accepted a)
    (hb : EveryCall as fun e a => ¬ Boundary e a) {e : ArithmeticEncoder}
    (hrun : writes as .fresh = .ok e) {sub : ε} (hsub : rel sub ⟨[], 0⟩) :
    ∃ d, updates w as (Coder.fresh sub) = .ok d ∧ d.interval = e.interval ∧
      rel d.sub e.sub.output := by
  induction as using List.reverseRecOn generalizing e with
  | nil =>
    obtain rfl := Result.ok.inj hrun
    exact ⟨_, rfl, rfl, hsub⟩
  | append_singleton as a ih =>
    have has' : ∀ b ∈ as, Accepted b := fun b hm => has b (List.mem_append_left _ hm)
    obtain ⟨ha, ht⟩ := has a (List.mem_append_right _ (List.mem_singleton_self a))
    obtain ⟨e₀, hrun₀, hwrite⟩ := updates_concat_eq_ok hrun
    have hkept := writes_kept as has' hb.of_append hrun₀
    obtain ⟨d₀, hdrun, hd, hrel⟩ := ih has' hb.of_append hrun₀
    have hI := hkept.settled.inside
    have hlt := slot_lt_of_not_boundary ha ht hkept.settled (hb.last hrun₀)
    rw [update_eq _ ha hI ht] at hwrite
    obtain ⟨ms, d', hd', hsc, -, hint, hrel'⟩ := renormalise_lockstep encoder_follows hw
      (narrowed_inside ha hI hlt) (narrowed_congr hd a) hkept.holds hrel hwrite
    refine ⟨d', ?_, hint, ?_⟩
    · rw [updates_concat as a hdrun, update_eq _ ha (hd ▸ hI) ht, hd']
    · rw [hsc.sub.output]
      exact hrel'

/-! ## Decodability -/

/-- The register lies in the slot of `a`. -/
def InSlot (d : Coder Word) (a : Call) : Prop :=
  d.newlow a ≤ d.sub.code ∧ d.sub.code ≤ d.newhigh a

/-- Disjoint in cumulative frequency. -/
def Call.Disjoint (a b : Call) : Prop := b.symhigh ≤ a.symlow ∨ a.symhigh ≤ b.symlow

theorem not_inSlot_of_disjoint {d : Coder Word} {a b : Call} (ha : a.Valid) (hbv : b.Valid)
    (hI : d.interval.Inside (2 ^ 30)) (ht : b.total = a.total) (hdis : a.Disjoint b)
    (h : InSlot d a) : ¬ InSlot d b := by
  rintro ⟨hb1, hb2⟩
  obtain ⟨h1, h2⟩ := h
  have hr := range_nonneg hI
  rw [newlow_eq ha hI] at h1
  rw [newhigh_eq ha hI] at h2
  rw [newlow_eq hbv hI, ht] at hb1
  rw [newhigh_eq hbv hI, ht] at hb2
  rcases hdis with hdis | hdis
  · have := slot_mono hr ha.total_pos hdis
    omega
  · have := slot_mono hr ha.total_pos hdis
    omega

/-- The run has a file, and before every call the register of the decoder lies in its
interval, in the slot of the call, and in no slot disjoint from that. -/
def Decodable (as : List Call) : Prop :=
  ∃ e, encode as = .ok e ∧ ∀ pre a post, as = pre ++ a :: post →
    ∃ d, updates (codeRegister (codeBit e.file)) pre (decoder (codeBit e.file)) = .ok d ∧
      d.low ≤ d.sub.code ∧ d.sub.code ≤ d.high ∧ InSlot d a ∧
      ∀ b : Call, b.Valid → b.total = a.total → a.Disjoint b → ¬ InSlot d b

theorem accepted_of_total {a : Call} (h : a.Valid ∧ a.total ≤ 2 ^ 30 + 1) : Accepted a :=
  ⟨h.1, h.2.trans (by rw [MAX_TOTAL_eq]; decide)⟩

/-- The largest total is not reached. -/
theorem not_boundary_of_total {e : ArithmeticEncoder} {a : Call} (h : a.total ≤ 2 ^ 30 + 1) :
    ¬ Boundary e a := by
  rintro ⟨ht, -⟩
  rw [ht, MAX_TOTAL_eq] at h
  omega

theorem everyCall_not_boundary {as : List Call} (has : ∀ a ∈ as, a.Valid ∧ a.total ≤ 2 ^ 30 + 1) :
    EveryCall as fun e a => ¬ Boundary e a := by
  rintro pre a post e rfl -
  exact not_boundary_of_total (has a (List.mem_append_right _ List.mem_cons_self)).2

/-- **Every file** is decodable. -/
theorem decodable_of_encode {as : List Call} (has : ∀ a ∈ as, a.Valid ∧ a.total ≤ 2 ^ 30 + 1)
    {e : ArithmeticEncoder} (henc : encode as = .ok e) : Decodable as := by
  have hacc : ∀ a ∈ as, Accepted a := fun a hm => accepted_of_total (has a hm)
  have hb := everyCall_not_boundary has
  have hreach := encode_reaches as hacc hb henc
  obtain ⟨e₀, hrun₀, -⟩ := encode_eq_ok henc
  refine ⟨e, henc, ?_⟩
  rintro pre a post rfl
  have hpre : ∀ b ∈ pre, Accepted b := fun b hm => hacc b (List.mem_append_left _ hm)
  rw [writes, updates_append] at hrun₀
  obtain ⟨e₁, hrun, -⟩ := andThen_eq_ok hrun₀
  obtain ⟨hkept, hn, hr⟩ := hreach pre a post e₁ rfl hrun
  have hfirst : (⟨window (codeBit e.file) 0 STATE_SIZE, STATE_SIZE⟩ : Word) =
      ⟨register 30 (codeBit e.file) ⟨[], 0⟩, (⟨[], 0⟩ : Output).read 30⟩ := by
    rw [register_fresh]
    rfl
  obtain ⟨d, hdrun, hd, hw⟩ := updates_lockstep (codeRegister_follows (codeBit e.file)) pre hpre
    hb.of_append hrun hfirst
  obtain ⟨ha, -⟩ := has a (List.mem_append_right _ List.mem_cons_self)
  obtain ⟨dl, dh, dw⟩ := d
  obtain ⟨rfl, rfl⟩ := Interval.mk.inj hd
  obtain rfl := hw
  have hslot : InSlot ⟨e₁.low, e₁.high, ⟨register 30 (codeBit e.file) e₁.sub.output,
      e₁.sub.output.read 30⟩⟩ a := ⟨hn.low_le, hn.le_high⟩
  exact ⟨_, hdrun, hr.low_le, hr.le_high, hslot,
    fun b hbv htot hdis => not_inSlot_of_disjoint ha hbv hkept.settled.inside htot hdis hslot⟩

/-- **Decodability**: of exactly the runs in which no counter overflows. -/
theorem decodable_iff (as : List Call) (has : ∀ a ∈ as, a.Valid ∧ a.total ≤ 2 ^ 30 + 1) :
    Decodable as ↔ NoOverflow as := by
  rw [← encode_ok_iff as (fun a hm => accepted_of_total (has a hm)) (everyCall_not_boundary has)]
  exact ⟨fun ⟨e, henc, _⟩ => ⟨e, henc⟩, fun ⟨_, henc⟩ => decodable_of_encode has henc⟩

/-- The first two calls leave three bits pending, which the third one settles. -/
theorem decodable_iff_triple : Decodable [⟨3, 1, 2⟩, ⟨10, 4, 6⟩, ⟨10, 0, 4⟩] := by
  have hvalid : ∀ a ∈ ([⟨3, 1, 2⟩, ⟨10, 4, 6⟩, ⟨10, 0, 4⟩] : List Call),
      a.Valid ∧ a.total ≤ 2 ^ 30 + 1 := by
    intro a ha
    simp only [List.mem_cons, List.not_mem_nil, or_false] at ha
    rcases ha with rfl | rfl | rfl <;> exact ⟨by constructor <;> decide, by decide⟩
  exact (decodable_iff _ hvalid).mpr (noOverflow_of_length _
    (fun a ha => accepted_of_total (hvalid a ha)) (everyCall_not_boundary hvalid) (by decide))

/-! ## More pending bits than an `int` counts -/

/-- Every call leaves two bits pending, and the interval as it was. -/
def pendingCall : Call := ⟨1073741384, 96977619, 365412965⟩

def pendingInterval : Interval := ⟨1905260884, 3916688435⟩

/-- Five symbols: the fourth, then the second over and over, then the first one. -/
def overflowRun (n : Nat) : List Call :=
  (⟨1073741384, 476315026, 979171708⟩ :: List.replicate n pendingCall) ++
    [⟨1073741384, 0, 96977619⟩]

theorem overflowRun_valid (n : Nat) : ∀ a ∈ overflowRun n, a.Valid ∧ a.total ≤ 2 ^ 30 + 1 := by
  intro a ha
  rw [overflowRun, List.mem_append, List.mem_cons, List.mem_singleton] at ha
  obtain (rfl | ha) | rfl := ha
  · exact ⟨by constructor <;> decide, by decide⟩
  · obtain rfl := List.eq_of_mem_replicate ha
    exact ⟨by constructor <;> decide, by decide⟩
  · exact ⟨by constructor <;> decide, by decide⟩

/-- On the interval of the run. -/
theorem narrowed_pending {e : ArithmeticEncoder} (hI : e.interval = pendingInterval) (a : Call) :
    (e.narrowed a).interval =
      ((⟨1905260884, 3916688435, ()⟩ : Coder Unit).narrowed a).interval := narrowed_congr hI a

theorem not_boundary_pending {e : ArithmeticEncoder} (hI : e.interval = pendingInterval)
    (a : Call) : ¬ Boundary e a := by
  rintro ⟨-, -, -, hr⟩
  obtain ⟨hl, hh⟩ := Interval.mk.inj hI
  rw [Coder.range, hl, hh] at hr
  revert hr
  decide

/-- **Two more pending bits.** -/
theorem write_pendingCall {e : ArithmeticEncoder} {p : Nat} (he : Kept e)
    (hI : e.interval = pendingInterval) (hout : e.sub.output = ⟨[], p⟩) (hp : p + 2 < 2 ^ 63) :
    ∃ e', e.write pendingCall = .ok e' ∧ Kept e' ∧ e'.interval = pendingInterval ∧
      e'.sub.output = ⟨[], p + 2⟩ := by
  have ha : Accepted pendingCall :=
    accepted_of_total (overflowRun_valid 1 _ (by simp [overflowRun]))
  have hb := not_boundary_pending hI pendingCall
  have hmoves : Moves (2 ^ 30) (e.narrowed pendingCall).interval [.pend, .pend]
      pendingInterval := by
    rw [narrowed_pending hI]
    exact .cons (by decide) (.cons (by decide) (.nil _))
  have hsettled : pendingInterval.Settled (2 ^ 30) := by constructor <;> decide
  obtain ⟨e', hw, hkept⟩ := write_of_room ha he hb
    ⟨_, ⟨_, _, hmoves, hsettled, rfl⟩, by rw [hout]; exact ⟨Nat.two_pow_pos 31, hp⟩⟩
  obtain ⟨ms, hmoves', hout'⟩ := moves_of_write ha he hb hw
  obtain ⟨rfl, hI'⟩ := hmoves.functional hsettled.next hmoves' hkept.settled.next
  exact ⟨e', hw, hkept, hI'.symm, by rw [hout', hout]; rfl⟩

theorem writes_pending (n : Nat) (hn : 2 * n < 2 ^ 63) :
    ∃ e, writes (⟨1073741384, 476315026, 979171708⟩ :: List.replicate n pendingCall) .fresh =
        .ok e ∧ Kept e ∧ e.interval = pendingInterval ∧ e.sub.output = ⟨[], 2 * n⟩ := by
  induction n with
  | zero =>
    have ha : Accepted ⟨1073741384, 476315026, 979171708⟩ :=
      accepted_of_total (overflowRun_valid 0 _ (by simp [overflowRun]))
    have hs : (ArithmeticEncoder.fresh.narrowed
        ⟨1073741384, 476315026, 979171708⟩).interval.Settled (2 ^ 30) := by
      constructor <;> decide
    refine ⟨_, ?_, ⟨hs, fresh_kept.holds⟩, by decide, rfl⟩
    rw [List.replicate_zero, writes, updates_singleton]
    exact write_of_settled ha fresh_settled hs
  | succ n ih =>
    obtain ⟨e, hrun, hkept, hI, hout⟩ := ih (by omega)
    obtain ⟨e', hw, hkept', hI', hout'⟩ := write_pendingCall hkept hI hout (by omega)
    refine ⟨e', ?_, hkept', hI', hout'⟩
    rw [List.replicate_succ', ← List.cons_append]
    exact (updates_concat _ _ hrun).trans hw

/-- The last call settles a bit, and with it all that are pending. -/
theorem writes_overflowRun (n : Nat) (hlt : 2 * n < 2 ^ 63) (hn : 2 ^ 31 ≤ 2 * n + 1) :
    writes (overflowRun n) .fresh = .undefined := by
  obtain ⟨e, hrun, hkept, hI, hout⟩ := writes_pending n hlt
  have ha : Accepted ⟨1073741384, 0, 96977619⟩ :=
    accepted_of_total (overflowRun_valid n _ (List.mem_append_right _ (List.mem_singleton_self _)))
  obtain ⟨O, hleaves, -, hfull⟩ := write_spec ha hkept (not_boundary_pending hI _)
  have hnext : (e.narrowed ⟨1073741384, 0, 96977619⟩).interval.next (2 ^ 30) =
      some (.emit false) := by
    rw [narrowed_pending hI]
    decide
  rw [overflowRun, writes, updates_concat _ _ hrun]
  refine hfull (hleaves.not_fits hnext fun hfits => ?_)
  have hbits := hfits.bits
  rw [length_apply_emit, hout, List.length_nil] at hbits
  dsimp only at hbits
  omega

/-- **A run with too many pending bits** has no code. -/
theorem overflowRun_not_decodable :
    (∀ a ∈ overflowRun (2 ^ 30), a.Valid ∧ a.total ≤ 2 ^ 30 + 1) ∧
      ¬ Decodable (overflowRun (2 ^ 30)) := by
  refine ⟨overflowRun_valid _, ?_⟩
  rintro ⟨e, henc, -⟩
  rw [encode, writes_overflowRun (2 ^ 30) (by decide) (by decide)] at henc
  cases henc

end DeepSpace.ArithmeticCoding
