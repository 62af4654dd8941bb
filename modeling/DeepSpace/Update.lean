import DeepSpace.ArithmeticCoding
import DeepSpace.Renormalisation

/-!
# What `update` does

* `renormalise_spec`: the two loops are the moves of `Renormalisation`, up to a
  settled interval, for every subclass whose methods follow an abstract state as
  long as they have room for it;
* `update_eq`: within the guard nothing overflows, and `update` narrows the
  interval to the slot of the symbol and renormalises it;
* `encoder_follows`: the encoder is one of them, and appends the bits of the moves
  up to those that its counters cannot hold.
-/

namespace DeepSpace.ArithmeticCoding

open DeepSpace.Bitwise DeepSpace.Renormalisation

/-! ## The masks -/

theorem top_eq_zero_iff (low high : Int) :
    (low.xor high).land TOP_MASK = 0 ↔ low / 2 ^ 31 % 2 = high / 2 ^ 31 % 2 := by
  have h : (low.xor high).testBit 31 = (low.testBit 31 ^^ high.testBit 31) := Int.testBit_lxor ..
  rw [testBit_eq, testBit_eq, testBit_eq] at h
  have h0 := Int.emod_two_eq_zero_or_one (low / 2 ^ 31)
  have h1 := Int.emod_two_eq_zero_or_one (high / 2 ^ 31)
  have h2 := Int.emod_two_eq_zero_or_one (low.xor high / 2 ^ 31)
  change (low.xor high).land (2 ^ 31) = 0 ↔ _
  rw [land_two_pow_eq_zero]
  generalize low / 2 ^ 31 % 2 = a, high / 2 ^ 31 % 2 = b, low.xor high / 2 ^ 31 % 2 = x at *
  rcases h0 with rfl | rfl <;> rcases h1 with rfl | rfl <;> rcases h2 with rfl | rfl <;>
    revert h <;> decide

theorem second_ne_zero_iff (low high : Int) :
    (low.land (~~~high)).land SECOND_MASK ≠ 0 ↔
      low / 2 ^ 30 % 2 = 1 ∧ high / 2 ^ 30 % 2 = 0 := by
  have h : (low.land (~~~high)).testBit 30 = (low.testBit 30 && !high.testBit 30) := by
    have hn : (~~~high) = Int.lnot high := by cases high <;> rfl
    rw [hn, Int.testBit_land, Int.testBit_lnot]
  rw [testBit_eq, testBit_eq, testBit_eq] at h
  have h0 := Int.emod_two_eq_zero_or_one (low / 2 ^ 30)
  have h1 := Int.emod_two_eq_zero_or_one (high / 2 ^ 30)
  have h2 := Int.emod_two_eq_zero_or_one (low.land (~~~high) / 2 ^ 30)
  change (low.land (~~~high)).land (2 ^ 30) ≠ 0 ↔ _
  rw [ne_eq, land_two_pow_eq_zero]
  generalize low / 2 ^ 30 % 2 = a, high / 2 ^ 30 % 2 = b, low.land (~~~high) / 2 ^ 30 % 2 = x at *
  rcases h0 with rfl | rfl <;> rcases h1 with rfl | rfl <;> rcases h2 with rfl | rfl <;>
    revert h <;> decide

theorem shiftLeft_one (x : Int) : x <<< (1 : Nat) = 2 * x := by
  rw [Int.shiftLeft_eq]
  omega

theorem shift_low (x : Int) : (x <<< (1 : Nat)).land MASK = 2 * x % 2 ^ 32 := by
  rw [shiftLeft_one]
  exact land_mask (2 * x) 32

theorem shift_high (x : Int) : ((x <<< (1 : Nat)).land MASK).lor 1 = 2 * x % 2 ^ 32 + 1 := by
  rw [shift_low]
  exact lor_bit (by omega) (by omega) (.inr rfl)

theorem underflow_low (x : Int) :
    (x <<< (1 : Nat)).land (MASK >>> (1 : Nat)) = 2 * x % 2 ^ 31 := by
  rw [shiftLeft_one]
  exact land_mask (2 * x) 31

theorem underflow_high (x : Int) :
    (((x <<< (1 : Nat)).land (MASK >>> (1 : Nat))).lor TOP_MASK).lor 1 =
      2 * x % 2 ^ 31 + 2 ^ 31 + 1 := by
  rw [underflow_low]
  have h : (2 * x % 2 ^ 31).lor TOP_MASK = 2 * x % 2 ^ 31 + 2 ^ 31 :=
    lor_two_pow 31 (by omega) (by omega)
  rw [h]
  exact lor_bit (by omega) (by omega) (.inr rfl)

/-! ## The loops -/

variable {δ α : Type}

def Coder.interval (c : Coder δ) : Interval := ⟨c.low, c.high⟩

/-- How a step ends that takes the abstract state to `x`: on the interval `I`, and undefined where
there is no room for `x`. -/
structure Ends (rel : δ → α → Prop) (room : α → Prop) (I : Interval) (x : α)
    (r : Result (Coder δ)) : Prop where
  ok : room x → ∃ c, r = .ok c ∧ c.interval = I ∧ rel c.sub x
  full : ¬ room x → r = .undefined

/-- The virtual methods leave the interval alone and do to the abstract state what
`act` does at the moves, as long as there is room for it. -/
structure Virtual.Follows (v : Virtual δ) (rel : δ → α → Prop) (act : α → Move → α)
    (room : α → Prop) : Prop where
  room_of_rel : ∀ {sub : δ} {x : α}, rel sub x → room x
  room_of_act : ∀ {x : α} {m : Move}, room (act x m) → room x
  shift : ∀ (c : Coder δ) (x : α) (b : Bool), c.interval.Inside (2 ^ 30) →
    c.interval.next (2 ^ 30) = some (.emit b) → rel c.sub x →
    Ends rel room c.interval (act x (.emit b)) (v.shift c)
  underflow : ∀ (c : Coder δ) (x : α), rel c.sub x →
    Ends rel room c.interval (act x .pend) (v.underflow c)

/-- What a loop leaves: the interval and the abstract state after some moves. -/
structure Scaled (rel : δ → α → Prop) (act : α → Move → α) (c : Coder δ) (x : α) (ms : List Move)
    (c' : Coder δ) : Prop where
  moves : Moves (2 ^ 30) c.interval ms c'.interval
  sub : rel c'.sub (ms.foldl act x)

variable {v : Virtual δ} {rel : δ → α → Prop} {act : α → Move → α} {room : α → Prop}

theorem Virtual.Follows.room_of_foldl (hv : v.Follows rel act room) (ms : List Move) {x : α}
    (h : room (ms.foldl act x)) : room x := by
  induction ms generalizing x with
  | nil => exact h
  | cons m ms ih => exact hv.room_of_act (ih h)

/-- **A round**, and the loop behind it. -/
theorem Ends.andThen {I J : Interval} {x₁ x : α} {r : Result (Coder δ)}
    {f : Coder δ → Result (Coder δ)} (h : Ends rel room I x₁ r) (hroom : room x → room x₁)
    (hf : ∀ c₁ : Coder δ, c₁.interval = I → rel c₁.sub x₁ → Ends rel room J x (f c₁)) :
    Ends rel room J x (r.andThen f) := by
  by_cases h₁ : room x₁
  · obtain ⟨c₁, rfl, hI, hsub⟩ := h.ok h₁
    exact hf c₁ hI hsub
  · rw [h.full h₁]
    exact ⟨fun hx => absurd (hroom hx) h₁, fun _ => rfl⟩

/-- A loop that does not turn. -/
theorem Ends.stop (hv : v.Follows rel act room) {c : Coder δ} {x : α} (hx : rel c.sub x) :
    Ends rel room c.interval x (.ok c) :=
  ⟨fun _ => ⟨c, rfl, rfl, hx⟩, fun hfull => absurd (hv.room_of_rel hx) hfull⟩

/-- Where the next bit is settled, the first loop turns, and its body is the move. -/
theorem top_of_next {c : Coder δ} {b : Bool} (hI : c.interval.Inside (2 ^ 30))
    (h : c.interval.next (2 ^ 30) = some (.emit b)) :
    (c.low.xor c.high).land TOP_MASK = 0 ∧
      c.interval.scale (2 ^ 30) (.emit b) =
        ⟨2 * c.low % 2 ^ 32, 2 * c.high % 2 ^ 32 + 1⟩ := by
  have hb := Interval.next_emit hI h
  obtain ⟨h0, h1, h2⟩ := hI
  rw [top_eq_zero_iff]
  simp only [Coder.interval, Interval.scale, Interval.mk.injEq] at *
  cases b
  · simp only [Bool.toInt_false] at hb ⊢
    omega
  · simp only [Bool.toInt_true] at hb ⊢
    omega

/-- Where it stays pending, the second one. -/
theorem middle_of_next {c : Coder δ} (h : c.interval.next (2 ^ 30) = some .pend) :
    (c.low.land (~~~c.high)).land SECOND_MASK ≠ 0 ∧
      c.interval.scale (2 ^ 30) .pend =
        ⟨2 * c.low % 2 ^ 31, 2 * c.high % 2 ^ 31 + 2 ^ 31 + 1⟩ := by
  have hp := Interval.next_pend h
  rw [second_ne_zero_iff]
  simp only [Coder.interval, Interval.scale, Interval.mk.injEq] at *
  omega

/-- **The first loop** settles bits until the ends lie in different halves. -/
theorem shiftLoop_spec (hv : v.Follows rel act room) (bs : List Bool) {n : Nat} {c : Coder δ}
    {x : α} {J : Interval} (hI : c.interval.Inside (2 ^ 30)) (hx : rel c.sub x)
    (h : Moves (2 ^ 30) c.interval (bs.map .emit) J) (hlow : J.low < 2 ^ 31)
    (hhigh : 2 ^ 31 ≤ J.high) (hn : bs.length ≤ n) :
    Ends rel room J ((bs.map Move.emit).foldl act x) (shiftLoop v n c) := by
  induction bs generalizing n c x with
  | nil =>
    cases h
    have hstop : ¬ (c.low.xor c.high).land TOP_MASK = 0 := by
      obtain ⟨h0, h1, h2⟩ := hI
      rw [top_eq_zero_iff]
      simp only [Coder.interval] at *
      omega
    have hloop : shiftLoop v n c = .ok c := by
      cases n with
      | zero => rfl
      | succ n => exact if_neg hstop
    rw [hloop]
    exact .stop hv hx
  | cons b bs ih =>
    obtain ⟨n, rfl⟩ := Nat.exists_eq_succ_of_ne_zero (Nat.ne_zero_of_lt hn)
    cases h with
    | cons hb h =>
      obtain ⟨htop, hscale⟩ := top_of_next hI hb
      have hI₁ := hI.scale hb
      rw [hscale] at h hI₁
      rw [shiftLoop, if_pos htop]
      refine (hv.shift c x b hI hb hx).andThen (hv.room_of_foldl (bs.map .emit)) ?_
      rintro ⟨low, high, sub⟩ hc₁ hsub
      obtain ⟨rfl, rfl⟩ := Interval.mk.inj hc₁
      rw [shift_low, shift_high]
      exact ih (c := ⟨2 * c.low % 2 ^ 32, 2 * c.high % 2 ^ 32 + 1, sub⟩) hI₁ hsub h
        (Nat.le_of_succ_le_succ hn)

/-- **The second loop** leaves bits pending until the interval is settled. -/
theorem underflowLoop_spec (hv : v.Follows rel act room) (k : Nat) {n : Nat} {c : Coder δ}
    {x : α} {J : Interval} (hx : rel c.sub x)
    (h : Moves (2 ^ 30) c.interval (List.replicate k .pend) J) (hJ : J.Settled (2 ^ 30))
    (hn : k ≤ n) :
    Ends rel room J ((List.replicate k Move.pend).foldl act x) (underflowLoop v n c) := by
  induction k generalizing n c x with
  | zero =>
    cases h
    have hstop : ¬ (c.low.land (~~~c.high)).land SECOND_MASK ≠ 0 := by
      obtain ⟨h0, h1, h2, h3, h4⟩ := hJ
      rw [second_ne_zero_iff]
      simp only [Coder.interval] at *
      omega
    have hloop : underflowLoop v n c = .ok c := by
      cases n with
      | zero => rfl
      | succ n => exact if_neg hstop
    rw [hloop]
    exact .stop hv hx
  | succ k ih =>
    obtain ⟨n, rfl⟩ := Nat.exists_eq_succ_of_ne_zero (Nat.ne_zero_of_lt hn)
    cases h with
    | cons hb h =>
      obtain ⟨hmid, hscale⟩ := middle_of_next hb
      rw [hscale] at h
      rw [underflowLoop, if_pos hmid]
      refine (hv.underflow c x hx).andThen (hv.room_of_foldl (List.replicate k .pend)) ?_
      rintro ⟨low, high, sub⟩ hc₁ hsub
      obtain ⟨rfl, rfl⟩ := Interval.mk.inj hc₁
      rw [underflow_low, underflow_high]
      exact ih (c := ⟨2 * c.low % 2 ^ 31, 2 * c.high % 2 ^ 31 + 2 ^ 31 + 1, sub⟩) hsub h
        (Nat.le_of_succ_le_succ hn)

theorem Interval.Inside.enough {I : Interval} (h : I.Inside (2 ^ 30)) :
    4 * 2 ^ 30 ≤ (I.high - I.low + 1) * 2 ^ STATE_SIZE := by
  have h1 := h.low_le_high
  unfold STATE_SIZE
  omega

/-- No interval of the word is scaled more often than it has bits. -/
theorem moves_length_le {I J : Interval} {ms : List Move} (hI : I.Inside (2 ^ 30))
    (h : Moves (2 ^ 30) I ms J) : ms.length ≤ STATE_SIZE := by
  have hwidth := h.width
  obtain ⟨h0, h1, h2⟩ := h.inside hI
  have hpos := hI.low_le_high
  unfold Interval.width at hwidth
  by_contra hlong
  have hpow : (2 : Int) ^ 33 ≤ 2 ^ ms.length := pow_le_pow_right₀ (by decide) (not_le.mp hlong)
  nlinarith

/-- **Renormalisation**, down to a settled interval. -/
theorem renormalise_spec (hv : v.Follows rel act room) (c : Coder δ) (x : α)
    (hI : c.interval.Inside (2 ^ 30)) (hx : rel c.sub x) :
    ∃ ms J, Moves (2 ^ 30) c.interval ms J ∧ J.Settled (2 ^ 30) ∧
      Ends rel room J (ms.foldl act x) (renormalise v c) := by
  obtain ⟨bs, I₁, hemits, hlow, hhigh⟩ := hI.exists_emits STATE_SIZE (Interval.Inside.enough hI)
  have hI₁ := hemits.inside hI
  obtain ⟨k, J, hpends, hJ⟩ := hI₁.exists_pends STATE_SIZE hlow hhigh
    (Interval.Inside.enough hI₁)
  have hbs := moves_length_le hI hemits
  have hk := moves_length_le hI₁ hpends
  rw [List.length_map] at hbs
  rw [List.length_replicate] at hk
  refine ⟨_, J, hemits.append hpends, hJ, ?_⟩
  rw [List.foldl_append]
  refine (shiftLoop_spec hv bs hI hx hemits hlow hhigh hbs).andThen (hv.room_of_foldl _) ?_
  rintro c₁ rfl hsub
  exact underflowLoop_spec hv k hsub hpends hJ hk

/-- **What is left** where nothing was undefined. -/
theorem scaled_of_renormalise (hv : v.Follows rel act room) {c c' : Coder δ} {x : α}
    (hI : c.interval.Inside (2 ^ 30)) (hx : rel c.sub x) (h : renormalise v c = .ok c') :
    ∃ ms, Scaled rel act c x ms c' ∧ c'.interval.Settled (2 ^ 30) := by
  obtain ⟨ms, J, hmoves, hJ, hends⟩ := renormalise_spec hv c x hI hx
  by_cases hroom : room (ms.foldl act x)
  · obtain ⟨c₁, hc₁, rfl, hsub⟩ := hends.ok hroom
    obtain rfl := Result.ok.inj (hc₁.symm.trans h)
    exact ⟨ms, ⟨hmoves, hsub⟩, hJ⟩
  · rw [hends.full hroom] at h
    cases h

/-! ### Methods that cannot fail -/

/-- There is always room. -/
abbrev Unbounded : α → Prop := fun _ => True

theorem Ends.of_ok {c : Coder δ} {x : α} {r : Result (Coder δ)}
    (h : ∃ sub, r = .ok { c with sub } ∧ rel sub x) : Ends rel Unbounded c.interval x r where
  ok _ := by
    obtain ⟨sub, hr, hsub⟩ := h
    exact ⟨_, hr, rfl, hsub⟩
  full h := absurd trivial h

theorem renormalise_unbounded (hv : v.Follows rel act Unbounded) (c : Coder δ) (x : α)
    (hI : c.interval.Inside (2 ^ 30)) (hx : rel c.sub x) :
    ∃ ms c', renormalise v c = .ok c' ∧ Scaled rel act c x ms c' ∧
      c'.interval.Settled (2 ^ 30) := by
  obtain ⟨ms, J, hmoves, hJ, hends⟩ := renormalise_spec hv c x hI hx
  obtain ⟨c', hrun, rfl, hsub⟩ := hends.ok trivial
  exact ⟨ms, c', hrun, ⟨hmoves, hsub⟩, hJ⟩

/-- **Lockstep.**  Two subclasses that follow one abstract state, on the same interval, make the
same moves, as far as the first one gets. -/
theorem renormalise_lockstep {ε : Type} {w : Virtual ε} {rel' : ε → α → Prop}
    (hv : v.Follows rel act room) (hw : w.Follows rel' act Unbounded) {c c' : Coder δ}
    {d : Coder ε} {x : α} (hI : c.interval.Inside (2 ^ 30)) (hd : d.interval = c.interval)
    (hx : rel c.sub x) (hx' : rel' d.sub x) (h : renormalise v c = .ok c') :
    ∃ ms d', renormalise w d = .ok d' ∧ Scaled rel act c x ms c' ∧
      c'.interval.Settled (2 ^ 30) ∧ d'.interval = c'.interval ∧
      rel' d'.sub (ms.foldl act x) := by
  obtain ⟨ms, hsc, hset⟩ := scaled_of_renormalise hv hI hx h
  obtain ⟨ns, d', hrun', hsc', hset'⟩ := renormalise_unbounded hw d x (hd ▸ hI) hx'
  obtain ⟨rfl, he⟩ := hsc.moves.functional hset.next (hd ▸ hsc'.moves) hset'.next
  exact ⟨ms, d', hrun', hsc, hset, he.symm, hsc'.sub⟩

theorem updates_append (as bs : List Call) (c : Coder δ) :
    updates v (as ++ bs) c = (updates v as c).andThen (updates v bs) := by
  induction as generalizing c with
  | nil => rfl
  | cons a as ih =>
    rw [List.cons_append, updates, updates]
    cases update v a c with
    | ok c₁ => exact ih c₁
    | threw message c₁ => rfl
    | undefined => rfl

theorem updates_singleton (a : Call) (c : Coder δ) : updates v [a] c = update v a c := by
  rw [updates]
  cases update v a c <;> rfl

theorem updates_concat (as : List Call) (a : Call) {c c₁ : Coder δ}
    (h : updates v as c = .ok c₁) : updates v (as ++ [a]) c = update v a c₁ := by
  rw [updates_append, h, andThen_ok, updates_singleton]

theorem updates_concat_eq_ok {as : List Call} {a : Call} {c c' : Coder δ}
    (h : updates v (as ++ [a]) c = .ok c') :
    ∃ c₁, updates v as c = .ok c₁ ∧ update v a c₁ = .ok c' := by
  rw [updates_append] at h
  obtain ⟨c₁, h₁, h⟩ := andThen_eq_ok h
  exact ⟨c₁, h₁, (updates_singleton a c₁).symm.trans h⟩

/-! ## Narrowing -/

/-- `0 <= symlow < symhigh <= total`. -/
structure Call.Valid (a : Call) : Prop where
  symlow_nonneg : 0 ≤ a.symlow
  symlow_lt : a.symlow < a.symhigh
  symhigh_le : a.symhigh ≤ a.total

theorem Call.Valid.total_pos {a : Call} (h : a.Valid) : 0 < a.total :=
  (h.symlow_nonneg.trans_lt h.symlow_lt).trans_le h.symhigh_le

theorem MAX_TOTAL_eq : MAX_TOTAL = 2 ^ 30 + 2 := by decide

theorem range_nonneg {c : Coder δ} (hI : c.interval.Inside (2 ^ 30)) : 0 ≤ c.range :=
  Int.sub_nonneg.mpr hI.low_le_high

theorem newlow_eq {c : Coder δ} {a : Call} (ha : a.Valid) (hI : c.interval.Inside (2 ^ 30)) :
    c.newlow a = c.low + slot c.range a.total a.symlow := by
  rw [Coder.newlow, slot, Int.tdiv_eq_ediv_of_nonneg
    (Int.mul_nonneg ha.symlow_nonneg (range_nonneg hI))]

theorem newhigh_eq {c : Coder δ} {a : Call} (ha : a.Valid) (hI : c.interval.Inside (2 ^ 30)) :
    c.newhigh a = c.low + slot c.range a.total a.symhigh - 1 := by
  rw [Coder.newhigh, slot, Int.tdiv_eq_ediv_of_nonneg
    (Int.mul_nonneg (ha.symlow_nonneg.trans ha.symlow_lt.le) (range_nonneg hI))]

/-- The interval that `update` hands to its loops. -/
def Coder.narrowed (c : Coder δ) (a : Call) : Coder δ :=
  { c with low := c.newlow a, high := c.newhigh a }

/-- It depends on the interval only. -/
theorem narrowed_congr {ε : Type} {c : Coder δ} {d : Coder ε} (h : d.interval = c.interval)
    (a : Call) : (d.narrowed a).interval = (c.narrowed a).interval := by
  obtain ⟨dl, dh, ds⟩ := d
  obtain ⟨rfl, rfl⟩ := Interval.mk.inj h
  rfl

/-- **Nothing overflows** within the guard. -/
theorem terms_fit {c : Coder δ} {a : Call} (ha : a.Valid) (hI : c.interval.Inside (2 ^ 30))
    (ht : a.total ≤ MAX_TOTAL) : ∀ x ∈ c.terms a, FitsInt64 x := by
  have hpos := ha.total_pos
  have hr := range_nonneg hI
  obtain ⟨h0, h1, h2⟩ := hI
  obtain ⟨hl, hlt, hle⟩ := ha
  have hr' : c.range < 2 ^ 32 := by
    simp only [Coder.interval] at h0 h2
    unfold Coder.range
    omega
  have hprod : ∀ s, 0 ≤ s → s ≤ a.total → 0 ≤ s * c.range ∧ s * c.range < 2 ^ 63 ∧
      0 ≤ (s * c.range).tdiv a.total ∧ (s * c.range).tdiv a.total ≤ c.range := by
    intro s hs hs'
    have hp := Int.mul_nonneg hs hr
    rw [Int.tdiv_eq_ediv_of_nonneg hp]
    rw [MAX_TOTAL_eq] at ht
    exact ⟨hp, by nlinarith, slot_nonneg hr hpos hs, slot_le hr hpos hs'⟩
  obtain ⟨a1, a2, a3, a4⟩ := hprod a.symlow hl (hlt.le.trans hle)
  obtain ⟨b1, b2, b3, b4⟩ := hprod a.symhigh (hl.trans hlt.le) hle
  simp only [Coder.interval] at h0 h1 h2
  intro x hx
  simp only [Coder.terms, Coder.newlow, Coder.newhigh, List.mem_cons, List.not_mem_nil,
    or_false] at hx
  unfold FitsInt64
  rcases hx with rfl | rfl | rfl | rfl | rfl | rfl | rfl | rfl <;> constructor <;> omega

theorem update_of_fit (v : Virtual δ) {c : Coder δ} {a : Call} (hpos : 0 < a.total)
    (ht : a.total ≤ MAX_TOTAL) (hfit : ∀ x ∈ c.terms a, FitsInt64 x) :
    update v a c = renormalise v (c.narrowed a) := by
  rw [update, if_neg (not_lt.mpr ht), if_neg]
  · rfl
  · rintro (h | h)
    · exact hpos.ne' h
    · exact h hfit

/-- **`update`** within the guard. -/
theorem update_eq (v : Virtual δ) {c : Coder δ} {a : Call} (ha : a.Valid)
    (hI : c.interval.Inside (2 ^ 30)) (ht : a.total ≤ MAX_TOTAL) :
    update v a c = renormalise v (c.narrowed a) :=
  update_of_fit v ha.total_pos ht (terms_fit ha hI ht)

/-- Every sub-interval lies in the interval. -/
theorem narrowed_within {c : Coder δ} {a : Call} (ha : a.Valid)
    (hI : c.interval.Inside (2 ^ 30)) :
    c.low ≤ (c.narrowed a).low ∧ (c.narrowed a).high ≤ c.high := by
  have hr := range_nonneg hI
  have h0 := slot_nonneg hr ha.total_pos ha.symlow_nonneg
  have h1 := slot_le hr ha.total_pos ha.symhigh_le
  have hl := newlow_eq ha hI
  have hh := newhigh_eq ha hI
  unfold Coder.range at *
  simp only [Coder.narrowed]
  omega

/-- A sub-interval is not empty when the range has a point for every unit. -/
theorem narrowed_inside {c : Coder δ} {a : Call} (ha : a.Valid)
    (hI : c.interval.Inside (2 ^ 30)) (hlt : slot c.range a.total a.symlow <
      slot c.range a.total a.symhigh) : (c.narrowed a).interval.Inside (2 ^ 30) := by
  obtain ⟨hl, hh⟩ := narrowed_within ha hI
  have e1 := newlow_eq ha hI
  have e2 := newhigh_eq ha hI
  obtain ⟨h0, h1, h2⟩ := hI
  simp only [Coder.narrowed, Coder.interval] at *
  constructor <;> simp only <;> omega

/-- **A symbol with a slot** is coded, from any settled interval to a settled one. -/
theorem update_spec (hv : v.Follows rel act room) {c : Coder δ} {a : Call} {x : α} (ha : a.Valid)
    (hI : c.interval.Settled (2 ^ 30)) (ht : a.total ≤ MAX_TOTAL) (hx : rel c.sub x)
    (hlt : slot c.range a.total a.symlow < slot c.range a.total a.symhigh) :
    ∃ ms J, Moves (2 ^ 30) (c.narrowed a).interval ms J ∧ J.Settled (2 ^ 30) ∧
      Ends rel room J (ms.foldl act x) (update v a c) := by
  rw [update_eq v ha hI.inside ht]
  exact renormalise_spec hv (c.narrowed a) x (narrowed_inside ha hI.inside hlt) hx

theorem scaled_of_update (hv : v.Follows rel act room) {c c' : Coder δ} {a : Call} {x : α}
    (ha : a.Valid) (hI : c.interval.Settled (2 ^ 30)) (ht : a.total ≤ MAX_TOTAL)
    (hx : rel c.sub x) (hlt : slot c.range a.total a.symlow < slot c.range a.total a.symhigh)
    (h : update v a c = .ok c') :
    ∃ ms, Scaled rel act (c.narrowed a) x ms c' ∧ c'.interval.Settled (2 ^ 30) := by
  rw [update_eq v ha hI.inside ht] at h
  exact scaled_of_renormalise hv (narrowed_inside ha hI.inside hlt) hx h

/-- Neither loop turns. -/
theorem renormalise_of_stable (v : Virtual δ) {c : Coder δ}
    (htop : c.low / 2 ^ 31 % 2 ≠ c.high / 2 ^ 31 % 2)
    (hmid : ¬ (c.low / 2 ^ 30 % 2 = 1 ∧ c.high / 2 ^ 30 % 2 = 0)) : renormalise v c = .ok c := by
  have hs : shiftLoop v STATE_SIZE c = .ok c := if_neg (mt (top_eq_zero_iff _ _).mp htop)
  rw [renormalise, hs, andThen_ok]
  exact if_neg (mt (second_ne_zero_iff _ _).mp hmid)

theorem renormalise_of_settled (v : Virtual δ) {c : Coder δ}
    (h : c.interval.Settled (2 ^ 30)) : renormalise v c = .ok c := by
  obtain ⟨h0, h1, h2, h3, h4⟩ := h
  simp only [Coder.interval] at h0 h1 h2 h3 h4
  exact renormalise_of_stable v (by omega) (by omega)

/-! ## The encoder -/

/-- The settled bits are written, the pending ones are counted. -/
def EncoderMembers.output (m : EncoderMembers) : Output := ⟨m.cBitOut.bitOut.bits, m.numUnderflow⟩

/-- The counters of the encoder hold an output. -/
structure Fits (O : Output) : Prop where
  bits : O.bits.length < 2 ^ 31
  pending : O.pending < 2 ^ 63

/-- The encoder behind an output. -/
structure EncoderMembers.Holds (m : EncoderMembers) (O : Output) : Prop where
  output : m.output = O
  counts : Counts m.cBitOut
  pending : O.pending < 2 ^ 63

theorem EncoderMembers.Holds.fits {m : EncoderMembers} {O : Output} (h : m.Holds O) : Fits O where
  bits := by
    rw [← h.output]
    exact h.counts.length_lt
  pending := h.pending

theorem length_apply_emit (O : Output) (b : Bool) :
    (O.apply (.emit b)).bits.length = O.bits.length + 1 + O.pending := by
  rw [Output.apply, List.length_append, List.length_cons, List.length_replicate]
  omega

theorem Fits.of_apply {O : Output} {m : Move} (h : Fits (O.apply m)) : Fits O := by
  obtain ⟨hb, hp⟩ := h
  cases m with
  | emit b =>
    rw [length_apply_emit] at hb
    exact ⟨by omega, by omega⟩
  | pend => exact ⟨hb, Nat.lt_of_succ_lt hp⟩

/-- **The pending bits** are written, with an `int` that counts no more than the stream does. -/
theorem writeTimes_bits (n : Nat) {i : Int32} {s : CountingBitOutputStream} (b : Bool)
    (h : Counts s) (hi : 0 ≤ i.toInt) (hle : i.toInt ≤ s.bitOut.bits.length)
    (hfits : s.bitOut.bits.length + n < 2 ^ 31) :
    ∃ s', writeTimes (bitChar b) n i s = .ok s' ∧ Counts s' ∧
      s'.bitOut.bits = s.bitOut.bits ++ List.replicate n b := by
  induction n generalizing i s with
  | zero => exact ⟨s, rfl, h, (List.append_nil _).symm⟩
  | succ n ih =>
    obtain ⟨t, hw, ht, hb⟩ := h.write false b (by omega)
    have hlen := congrArg List.length hb
    rw [List.length_append, List.length_singleton] at hlen
    have hi' := toInt_succ hi (by omega)
    obtain ⟨s', hrun, hs', hbits⟩ := ih ht (i := i + 1) (by omega) (by omega) (by omega)
    refine ⟨s', ?_, hs', ?_⟩
    · rw [writeTimes, CountingBitOutputStream.write, hw, andThen_ok, if_neg (ne_max (by omega)),
        hrun]
    · rw [hbits, hb, List.replicate_succ, List.append_assoc]
      rfl

theorem writeTimes_full (n : Nat) {i : Int32} {s : CountingBitOutputStream} (b : Bool)
    (h : Counts s) (hi : 0 ≤ i.toInt) (hle : i.toInt ≤ s.bitOut.bits.length)
    (hfull : ¬ s.bitOut.bits.length + n < 2 ^ 31) :
    writeTimes (bitChar b) n i s = .undefined := by
  have hlt := h.length_lt
  induction n generalizing i s with
  | zero => exact absurd hlt hfull
  | succ n ih =>
    rw [writeTimes, CountingBitOutputStream.write]
    by_cases hroom : s.bitOut.bits.length + 1 < 2 ^ 31
    · obtain ⟨t, hw, ht, hb⟩ := h.write false b hroom
      have hlen := congrArg List.length hb
      rw [List.length_append, List.length_singleton] at hlen
      have hi' := toInt_succ hi (by omega)
      rw [hw, andThen_ok, if_neg (ne_max (by omega))]
      exact ih ht (by omega) (by omega) (by omega) ht.length_lt
    · rw [h.write_full false (bitChar b) hroom]
      rfl

/-- The top bit of `m_low`, when the next bit is settled. -/
theorem top_bit_toInt {c : Coder δ} {b : Bool} (hI : c.interval.Inside (2 ^ 30))
    (hb : c.interval.next (2 ^ 30) = some (.emit b)) : c.low >>> (STATE_SIZE - 1) = b.toInt := by
  have h := Interval.next_emit hI hb
  obtain ⟨h0, h1, h2⟩ := hI
  simp only [Coder.interval] at h h0 h1 h2
  rw [Int.shiftRight_eq_div_pow]
  change c.low / 2 ^ 31 = b.toInt
  cases b <;> simp only [Bool.toInt_false, Bool.toInt_true] at h ⊢ <;> omega

theorem top_bit {c : Coder δ} {b : Bool} (hI : c.interval.Inside (2 ^ 30))
    (hb : c.interval.next (2 ^ 30) = some (.emit b)) :
    UInt8.ofInt (c.low >>> (STATE_SIZE - 1)) = bitChar b := by
  rw [top_bit_toInt hI hb]
  cases b <;> rfl

/-- What `shift` does with the bit on top. -/
theorem shift_eq {e : ArithmeticEncoder} {b : Bool}
    (hbit : UInt8.ofInt (e.low >>> (STATE_SIZE - 1)) = bitChar b) :
    e.shift = ((((e.sub.cBitOut.write (bitChar b)).andThen
      (writeTimes (bitChar (!b)) e.sub.numUnderflow 0)).within
        fun cBitOut => { e with sub := { e.sub with cBitOut } }).andThen
        fun e => .ok { e with sub := { e.sub with numUnderflow := 0 } }) := by
  have hnot : bitChar b ^^^ 1 = bitChar (!b) := by cases b <;> rfl
  rw [ArithmeticEncoder.shift, hbit, hnot]

/-- **A bit is settled**, if the count of the stream has room for it and the pending ones. -/
theorem shift_ends {e : ArithmeticEncoder} {O : Output} {b : Bool}
    (hbit : UInt8.ofInt (e.low >>> (STATE_SIZE - 1)) = bitChar b) (h : e.sub.Holds O) :
    Ends EncoderMembers.Holds Fits e.interval (O.apply (.emit b)) e.shift := by
  obtain ⟨rfl, hcounts, hpending⟩ := h
  have hlen : (e.sub.output.apply (.emit b)).bits.length =
    e.sub.cBitOut.bitOut.bits.length + 1 + e.sub.numUnderflow := length_apply_emit _ b
  rw [shift_eq hbit]
  constructor
  · rintro ⟨hroom, -⟩
    rw [hlen] at hroom
    obtain ⟨s₁, hw₁, hs₁, hb₁⟩ := hcounts.write false b (by omega)
    have hlen₁ := congrArg List.length hb₁
    rw [List.length_append, List.length_singleton] at hlen₁
    obtain ⟨s₂, hw₂, hs₂, hb₂⟩ := writeTimes_bits e.sub.numUnderflow (i := 0) (!b) hs₁ le_rfl
      (Int.natCast_nonneg _) (by omega)
    refine ⟨⟨e.low, e.high, ⟨s₂, 0⟩⟩, ?_, rfl, ?_, hs₂, Nat.two_pow_pos 63⟩
    · rw [CountingBitOutputStream.write, hw₁, andThen_ok, hw₂]
      rfl
    · rw [EncoderMembers.output, hb₂, hb₁, List.append_assoc]
      rfl
  · intro hfull
    have hfull : ¬ e.sub.cBitOut.bitOut.bits.length + 1 + e.sub.numUnderflow < 2 ^ 31 :=
      fun hroom => hfull ⟨hlen ▸ hroom, Nat.two_pow_pos 63⟩
    by_cases hroom : e.sub.cBitOut.bitOut.bits.length + 1 < 2 ^ 31
    · obtain ⟨s₁, hw₁, hs₁, hb₁⟩ := hcounts.write false b hroom
      have hlen₁ := congrArg List.length hb₁
      rw [List.length_append, List.length_singleton] at hlen₁
      rw [CountingBitOutputStream.write, hw₁, andThen_ok, writeTimes_full _ (i := 0) (!b) hs₁ le_rfl
        (Int.natCast_nonneg _) (by omega)]
      rfl
    · rw [CountingBitOutputStream.write, hcounts.write_full false _ hroom]
      rfl

/-- **A bit stays pending**, if a `long long` counts it. -/
theorem underflow_ends (e : ArithmeticEncoder) {O : Output} (h : e.sub.Holds O) :
    Ends EncoderMembers.Holds Fits e.interval (O.apply .pend) e.underflow := by
  obtain ⟨rfl, hcounts, hpending⟩ := h
  have hfits : FitsInt64 (e.sub.numUnderflow + 1) ↔ e.sub.numUnderflow + 1 < 2 ^ 63 := by
    unfold FitsInt64
    omega
  constructor
  · rintro ⟨-, hroom⟩
    exact ⟨_, if_pos (hfits.mpr hroom), rfl, rfl, hcounts, hroom⟩
  · exact fun hfull => if_neg fun hroom => hfull ⟨hcounts.length_lt, hfits.mp hroom⟩

theorem virtual_underflow (e : ArithmeticEncoder) :
    ArithmeticEncoder.virtual.underflow e = e.underflow := by
  dsimp only [ArithmeticEncoder.virtual]

theorem encoder_follows :
    ArithmeticEncoder.virtual.Follows EncoderMembers.Holds Output.apply Fits where
  room_of_rel h := h.fits
  room_of_act h := h.of_apply
  shift _ _ _ hI hb h := shift_ends (top_bit hI hb) h
  underflow e _ h := (virtual_underflow e).symm ▸ underflow_ends e h

end DeepSpace.ArithmeticCoding
