import DeepSpace.Update

/-!
# The interval over a run of the encoder

* `write_spec`: a call keeps the invariants of the interval, unless it codes the
  first unit of the largest total in the shortest range, and ends if the counters
  hold its bits;
* `writes_kept`: so does every run without such a call;
* `protected_iff`: and only such a run;
* `writes_ok_iff`: which runs end.
-/

namespace DeepSpace.ArithmeticCoding

open DeepSpace.Renormalisation

/-! ## Calls -/

/-- The arguments the guard admits. -/
def Accepted (a : Call) : Prop := a.Valid ∧ a.total ≤ MAX_TOTAL

/-- The range is one less than the total, and the symbol is the first unit of it. -/
def Boundary (e : ArithmeticEncoder) (a : Call) : Prop :=
  a.total = MAX_TOTAL ∧ a.symlow = 0 ∧ a.symhigh = 1 ∧ e.range = 2 ^ 30 + 1

/-- The output behind the call `a`, made at `e`: the bits that its interval settles are written, and
those that it leaves pending are counted. -/
def Leaves (e : ArithmeticEncoder) (a : Call) (O : Output) : Prop :=
  ∃ ms J, Moves (2 ^ 30) (e.narrowed a).interval ms J ∧ J.Settled (2 ^ 30) ∧
    O = ms.foldl Output.apply e.sub.output

/-- The counters hold the output behind the call. -/
def Room (e : ArithmeticEncoder) (a : Call) : Prop := ∃ O, Leaves e a O ∧ Fits O

/-- They do not. -/
def Overflows (e : ArithmeticEncoder) (a : Call) : Prop := ∃ O, Leaves e a O ∧ ¬ Fits O

/-- The call `a`, made at `e`, narrows the interval to a part of it that is not empty,
and leaves an interval within the invariants, unless a counter overflows. -/
def Protected (e : ArithmeticEncoder) (a : Call) : Prop :=
  ((∃ e', e.write a = .ok e' ∧ e'.interval.Settled (2 ^ 30)) ∨
      Overflows e a ∧ e.write a = .undefined) ∧
    e.newlow a ≤ e.newhigh a ∧ e.low ≤ e.newlow a ∧ e.newhigh a ≤ e.high

/-! ## One call -/

/-- Between two calls. -/
structure Kept (e : ArithmeticEncoder) : Prop where
  settled : e.interval.Settled (2 ^ 30)
  holds : e.sub.Holds e.sub.output

theorem fresh_settled : ArithmeticEncoder.fresh.interval.Settled (2 ^ 30) := by
  constructor <;> decide

theorem fresh_kept : Kept .fresh := ⟨fresh_settled, rfl, fresh_counts, Nat.two_pow_pos 63⟩

theorem Leaves.functional {e : ArithmeticEncoder} {a : Call} {O O' : Output} (h : Leaves e a O)
    (h' : Leaves e a O') : O = O' := by
  obtain ⟨ms, J, hmoves, hJ, rfl⟩ := h
  obtain ⟨ns, J', hmoves', hJ', rfl⟩ := h'
  obtain ⟨rfl, -⟩ := hmoves.functional hJ.next hmoves' hJ'.next
  rfl

/-- A bit that the counters cannot hold, and those behind it. -/
theorem Leaves.not_fits {e : ArithmeticEncoder} {a : Call} {O : Output} {m : Move}
    (h : Leaves e a O) (hm : (e.narrowed a).interval.next (2 ^ 30) = some m)
    (hfull : ¬ Fits (e.sub.output.apply m)) : ¬ Fits O := by
  obtain ⟨ms, J, hmoves, hJ, rfl⟩ := h
  cases hmoves with
  | nil =>
    rw [hJ.next] at hm
    cases hm
  | @cons _ _ m' ms hm' _ =>
    obtain rfl := Option.some.inj (hm'.symm.trans hm)
    exact fun hfits => hfull (encoder_follows.room_of_foldl ms hfits)

/-- Away from the boundary, every symbol has a slot. -/
theorem slot_lt_of_not_boundary {e : ArithmeticEncoder} {a : Call} (ha : a.Valid)
    (ht : a.total ≤ MAX_TOTAL) (hI : e.interval.Settled (2 ^ 30)) (hb : ¬ Boundary e a) :
    slot e.range a.total a.symlow < slot e.range a.total a.symhigh := by
  have hr : 2 ^ 30 + 1 ≤ e.range := hI.range
  rw [MAX_TOTAL_eq] at ht
  by_cases hle : a.total ≤ e.range
  · exact slot_lt_slot ha.total_pos hle ha.symlow_lt
  · have htot : a.total = e.range + 1 := by omega
    have h := ha.symhigh_le
    rw [htot] at h ⊢
    refine (slot_lt_slot_iff (by omega) ha.symlow_nonneg ha.symlow_lt h).mpr ?_
    rintro ⟨h0, h1⟩
    exact hb ⟨by rw [MAX_TOTAL_eq]; omega, h0, h1, by omega⟩

section

variable {e e' : ArithmeticEncoder} {a : Call} (ha : Accepted a) (he : Kept e)
  (hb : ¬ Boundary e a)

include ha he hb

/-- **One call**, up to what the counters hold. -/
theorem write_spec : ∃ O, Leaves e a O ∧
    (Fits O → ∃ e', e.write a = .ok e' ∧ Kept e' ∧ e'.sub.output = O) ∧
    (¬ Fits O → e.write a = .undefined) := by
  have hlt := slot_lt_of_not_boundary ha.1 ha.2 he.settled hb
  obtain ⟨ms, J, hmoves, hJ, hends⟩ := update_spec encoder_follows ha.1 he.settled ha.2 he.holds hlt
  refine ⟨_, ⟨ms, J, hmoves, hJ, rfl⟩, fun hfits => ?_, hends.full⟩
  obtain ⟨e', hw, rfl, hholds⟩ := hends.ok hfits
  exact ⟨e', hw, ⟨hJ, hholds.output.symm ▸ hholds⟩, hholds.output⟩

theorem write_of_room (h : Room e a) : ∃ e', e.write a = .ok e' ∧ Kept e' := by
  obtain ⟨O, hleaves, hok, -⟩ := write_spec ha he hb
  obtain ⟨O', hleaves', hfits⟩ := h
  obtain rfl := hleaves.functional hleaves'
  obtain ⟨e', hw, hkept, -⟩ := hok hfits
  exact ⟨e', hw, hkept⟩

/-- **A call that ends** had room, and made the moves of its interval. -/
theorem room_of_write (hw : e.write a = .ok e') : Room e a ∧ Kept e' := by
  obtain ⟨O, hleaves, hok, hfull⟩ := write_spec ha he hb
  by_cases hfits : Fits O
  · obtain ⟨e₁, hw₁, hkept, -⟩ := hok hfits
    obtain rfl := Result.ok.inj (hw₁.symm.trans hw)
    exact ⟨⟨O, hleaves, hfits⟩, hkept⟩
  · rw [hfull hfits] at hw
    cases hw

theorem moves_of_write (hw : e.write a = .ok e') :
    ∃ ms, Moves (2 ^ 30) (e.narrowed a).interval ms e'.interval ∧
      e'.sub.output = ms.foldl Output.apply e.sub.output := by
  have hlt := slot_lt_of_not_boundary ha.1 ha.2 he.settled hb
  obtain ⟨ms, hscaled, -⟩ := scaled_of_update encoder_follows ha.1 he.settled ha.2 he.holds hlt hw
  exact ⟨ms, hscaled.moves, hscaled.sub.output⟩

theorem protected_of_not_boundary : Protected e a := by
  have hlt := slot_lt_of_not_boundary ha.1 ha.2 he.settled hb
  obtain ⟨hl, hh⟩ := narrowed_within ha.1 he.settled.inside
  have hne := (narrowed_inside ha.1 he.settled.inside hlt).low_le_high
  refine ⟨?_, hne, hl, hh⟩
  obtain ⟨O, hleaves, hok, hfull⟩ := write_spec ha he hb
  by_cases hfits : Fits O
  · obtain ⟨e', hw, hkept, -⟩ := hok hfits
    exact .inl ⟨e', hw, hkept.settled⟩
  · exact .inr ⟨⟨O, hleaves, hfits⟩, hfull hfits⟩

end

theorem not_protected_of_boundary {e : ArithmeticEncoder} {a : Call} (hb : Boundary e a) :
    ¬ Protected e a := by
  obtain ⟨ht, hl, hh, hr⟩ := hb
  rintro ⟨-, hle, -⟩
  rw [Coder.newlow, Coder.newhigh, ht, hl, hh, hr, MAX_TOTAL_eq] at hle
  have h0 : (0 * (2 ^ 30 + 1) : Int).tdiv (2 ^ 30 + 2) = 0 := by decide
  have h1 : (1 * (2 ^ 30 + 1) : Int).tdiv (2 ^ 30 + 2) = 0 := by decide
  rw [h0, h1] at hle
  omega

/-! ## Runs -/

/-- What holds of every call of a run, given the encoder it is made at. -/
def EveryCall (as : List Call) (P : ArithmeticEncoder → Call → Prop) : Prop :=
  ∀ pre a post e, as = pre ++ a :: post → writes pre .fresh = .ok e → P e a

section

variable {as bs : List Call} {a : Call} {P : ArithmeticEncoder → Call → Prop}
  {e : ArithmeticEncoder}

theorem EveryCall.of_append (h : EveryCall (as ++ bs) P) : EveryCall as P := fun pre a post e he =>
  h pre a (post ++ bs) e (by rw [he, List.append_assoc]; rfl)

theorem EveryCall.last (h : EveryCall (as ++ [a]) P) (hrun : writes as .fresh = .ok e) :
    P e a := h as a [] e rfl hrun

theorem everyCall_nil : EveryCall [] P := fun _ _ _ _ he => absurd he.symm (by simp)

/-- A call more. -/
theorem EveryCall.concat (h : EveryCall as P) (ha : ∀ e, writes as .fresh = .ok e → P e a) :
    EveryCall (as ++ [a]) P := by
  intro pre b post e he hrun
  -- the call is the last one, or one of those before it
  rcases List.eq_nil_or_concat post with rfl | ⟨post', c, rfl⟩
  · obtain ⟨rfl, hab⟩ := List.append_inj' he rfl
    obtain rfl := List.head_eq_of_cons_eq hab
    exact ha e hrun
  · rw [List.concat_eq_append, ← List.cons_append, ← List.append_assoc] at he
    obtain ⟨rfl, -⟩ := List.append_inj' he rfl
    exact h pre b post' e rfl hrun

end

/-- `EveryCall`, call by call from `e` on. -/
def EveryFrom (P : ArithmeticEncoder → Call → Prop) : List Call → ArithmeticEncoder → Prop
  | [], _ => True
  | a :: as, e => P e a ∧
    match e.write a with
    | .ok e' => EveryFrom P as e'
    | _ => True

theorem EveryFrom.call {P : ArithmeticEncoder → Call → Prop} (as : List Call)
    {e : ArithmeticEncoder} (h : EveryFrom P as e) {pre post : List Call} {a : Call}
    {e' : ArithmeticEncoder} (he : as = pre ++ a :: post) (hrun : writes pre e = .ok e') :
    P e' a := by
  induction pre generalizing as e with
  | nil =>
    obtain rfl := he
    obtain rfl := Result.ok.inj hrun
    exact h.1
  | cons b pre ih =>
    obtain rfl := he
    obtain ⟨e₁, hw, hrun⟩ := andThen_eq_ok hrun
    replace hw : e.write b = .ok e₁ := hw
    have h₁ := h.2
    rw [hw] at h₁
    exact ih _ h₁ rfl hrun

theorem everyCall_of_everyFrom {P : ArithmeticEncoder → Call → Prop} {as : List Call}
    (h : EveryFrom P as .fresh) : EveryCall as P := fun _ _ _ _ he hrun =>
  EveryFrom.call as h he hrun

instance EveryFrom.decidable {P : ArithmeticEncoder → Call → Prop} [∀ e a, Decidable (P e a)] :
    (as : List Call) → (e : ArithmeticEncoder) → Decidable (EveryFrom P as e)
  | [], _ => inferInstanceAs (Decidable True)
  | a :: as, e =>
    have : Decidable (match e.write a with
        | .ok e' => EveryFrom P as e'
        | _ => True) :=
      match e.write a with
      | .ok e' => EveryFrom.decidable as e'
      | .threw _ _ => inferInstanceAs (Decidable True)
      | .undefined => inferInstanceAs (Decidable True)
    inferInstanceAs (Decidable (P e a ∧ _))

/-- **Every run** that avoids the boundary stays within the invariants, as far as it gets. -/
theorem writes_kept (as : List Call) (has : ∀ a ∈ as, Accepted a)
    (hb : EveryCall as fun e a => ¬ Boundary e a) {e : ArithmeticEncoder}
    (hrun : writes as .fresh = .ok e) : Kept e := by
  induction as using List.reverseRecOn generalizing e with
  | nil =>
    obtain rfl := Result.ok.inj hrun
    exact fresh_kept
  | append_singleton as a ih =>
    obtain ⟨e₀, hrun₀, hw⟩ := updates_concat_eq_ok hrun
    have hkept := ih (fun b hm => has b (List.mem_append_left _ hm)) hb.of_append hrun₀
    have ha := has a (List.mem_append_right _ (List.mem_singleton_self a))
    exact (room_of_write ha hkept (hb.last hrun₀) hw).2

/-- **The run ends** iff the counters hold the output behind each call. -/
theorem writes_ok_iff (as : List Call) (has : ∀ a ∈ as, Accepted a)
    (hb : EveryCall as fun e a => ¬ Boundary e a) :
    (∃ e, writes as .fresh = .ok e) ↔ EveryCall as Room := by
  induction as using List.reverseRecOn with
  | nil => exact ⟨fun _ => everyCall_nil, fun _ => ⟨_, rfl⟩⟩
  | append_singleton as a ih =>
    have has' : ∀ b ∈ as, Accepted b := fun b hm => has b (List.mem_append_left _ hm)
    have ha := has a (List.mem_append_right _ (List.mem_singleton_self a))
    have ih := ih has' hb.of_append
    constructor
    · rintro ⟨e, hrun⟩
      obtain ⟨e₀, hrun₀, hw⟩ := updates_concat_eq_ok hrun
      have hkept := writes_kept as has' hb.of_append hrun₀
      refine (ih.mp ⟨e₀, hrun₀⟩).concat fun e₁ hrun₁ => ?_
      obtain rfl := Result.ok.inj (hrun₀.symm.trans hrun₁)
      exact (room_of_write ha hkept (hb.last hrun₀) hw).1
    · intro hroom
      obtain ⟨e₀, hrun₀⟩ := ih.mpr hroom.of_append
      have hkept := writes_kept as has' hb.of_append hrun₀
      obtain ⟨e, hw, -⟩ := write_of_room ha hkept (hb.last hrun₀) (hroom.last hrun₀)
      exact ⟨e, (updates_concat as a hrun₀).trans hw⟩

/-- **The guard against the interval.**  All calls of a run keep the invariants iff no
call of it is made at the boundary. -/
theorem protected_iff (as : List Call) (has : ∀ a ∈ as, Accepted a) :
    EveryCall as Protected ↔ EveryCall as fun e a => ¬ Boundary e a := by
  constructor
  · exact fun h pre a post e he hrun hb => not_protected_of_boundary hb (h pre a post e he hrun)
  · rintro hb pre a post e rfl hrun
    have hkept := writes_kept pre (fun b hm => has b (List.mem_append_left _ hm)) hb.of_append hrun
    have ha := has a (List.mem_append_right _ List.mem_cons_self)
    exact protected_of_not_boundary ha hkept (hb pre a post e rfl hrun)

/-! ## Short runs -/

theorem Fits.of_size {O : Output} (h : O.size < 2 ^ 31) : Fits O := by
  unfold Output.size at h
  exact ⟨by omega, by omega⟩

/-- Every call settles or leaves pending at most the bits of a word. -/
theorem Leaves.size_le {e : ArithmeticEncoder} {a : Call} {O : Output} (h : Leaves e a O)
    (hI : (e.narrowed a).interval.Inside (2 ^ 30)) : O.size ≤ e.sub.output.size + 32 := by
  obtain ⟨ms, J, hmoves, -, rfl⟩ := h
  have hlen : ms.length ≤ 32 := moves_length_le hI hmoves
  rw [Output.size_foldl]
  exact Nat.add_le_add_left hlen _

theorem size_of_writes (as : List Call) (has : ∀ a ∈ as, Accepted a)
    (hb : EveryCall as fun e a => ¬ Boundary e a) {e : ArithmeticEncoder}
    (hrun : writes as .fresh = .ok e) : e.sub.output.size ≤ 32 * as.length := by
  induction as using List.reverseRecOn generalizing e with
  | nil =>
    obtain rfl := Result.ok.inj hrun
    exact le_rfl
  | append_singleton as a ih =>
    obtain ⟨e₀, hrun₀, hw⟩ := updates_concat_eq_ok hrun
    have has' : ∀ b ∈ as, Accepted b := fun b hm => has b (List.mem_append_left _ hm)
    have ha := has a (List.mem_append_right _ (List.mem_singleton_self a))
    have hkept := writes_kept as has' hb.of_append hrun₀
    have hlt := slot_lt_of_not_boundary ha.1 ha.2 hkept.settled (hb.last hrun₀)
    have hI := narrowed_inside ha.1 hkept.settled.inside hlt
    obtain ⟨ms, hmoves, hout⟩ := moves_of_write ha hkept (hb.last hrun₀) hw
    have hlen : ms.length ≤ 32 := moves_length_le hI hmoves
    have := ih has' hb.of_append hrun₀
    rw [hout, Output.size_foldl, List.length_append, List.length_singleton]
    omega

/-- **No counter overflows** in a run of fewer than `2 ^ 26` calls. -/
theorem room_of_length (as : List Call) (has : ∀ a ∈ as, Accepted a)
    (hb : EveryCall as fun e a => ¬ Boundary e a) (hlen : as.length < 2 ^ 26) :
    EveryCall as Room := by
  rintro pre a post e rfl hrun
  have has' : ∀ b ∈ pre, Accepted b := fun b hm => has b (List.mem_append_left _ hm)
  have ha := has a (List.mem_append_right _ List.mem_cons_self)
  have hkept := writes_kept pre has' hb.of_append hrun
  have hnb := hb pre a post e rfl hrun
  have hsize := size_of_writes pre has' hb.of_append hrun
  have hI := narrowed_inside ha.1 hkept.settled.inside
    (slot_lt_of_not_boundary ha.1 ha.2 hkept.settled hnb)
  obtain ⟨O, hleaves, -⟩ := write_spec ha hkept hnb
  have := hleaves.size_le hI
  rw [List.length_append, List.length_cons] at hlen
  exact ⟨O, hleaves, .of_size (by omega)⟩

/-! ## The boundary -/

/-- Two calls up to the shortest range, and the first unit of the largest total. -/
def boundaryRun : List Call := [⟨2, 1, 2⟩, ⟨1073741775, 0, 536870889⟩, ⟨1073741826, 0, 1⟩]

theorem boundaryRun_accepted : ∀ a ∈ boundaryRun, Accepted a := by
  intro a ha
  simp only [boundaryRun, List.mem_cons, List.not_mem_nil, or_false] at ha
  rcases ha with rfl | rfl | rfl <;> exact ⟨by constructor <;> decide, by decide⟩

theorem protected_iff_boundaryRun :
    EveryCall boundaryRun Protected ↔ EveryCall boundaryRun fun e a => ¬ Boundary e a :=
  protected_iff boundaryRun boundaryRun_accepted

theorem write_of_settled {e : ArithmeticEncoder} {a : Call} (ha : Accepted a)
    (hI : e.interval.Settled (2 ^ 30)) (hs : (e.narrowed a).interval.Settled (2 ^ 30)) :
    e.write a = .ok (e.narrowed a) := by
  rw [ArithmeticEncoder.write, update_eq _ ha.1 hI.inside ha.2]
  exact renormalise_of_settled _ hs

/-- The run leaves `newhigh = newlow - 1` in its last call. -/
theorem boundaryRun_not_protected :
    (∀ a ∈ boundaryRun, Accepted a) ∧ ¬ EveryCall boundaryRun Protected := by
  refine ⟨boundaryRun_accepted, fun h => ?_⟩
  have hs₁ : (ArithmeticEncoder.fresh.narrowed ⟨2, 1, 2⟩).interval.Settled (2 ^ 30) := by
    constructor <;> decide
  have h₁ := write_of_settled (boundaryRun_accepted _ (by simp [boundaryRun])) fresh_settled hs₁
  have h₂ := write_of_settled (e := ArithmeticEncoder.fresh.narrowed ⟨2, 1, 2⟩)
    (a := ⟨1073741775, 0, 536870889⟩) (boundaryRun_accepted _ (by simp [boundaryRun])) hs₁
    (by constructor <;> decide)
  rw [ArithmeticEncoder.write] at h₁ h₂
  have hp := h [⟨2, 1, 2⟩, ⟨1073741775, 0, 536870889⟩] ⟨1073741826, 0, 1⟩ [] _ rfl (by
    rw [writes, updates, h₁, andThen_ok, updates, h₂, andThen_ok, updates])
  exact not_protected_of_boundary (by refine ⟨?_, ?_, ?_, ?_⟩ <;> decide) hp

end DeepSpace.ArithmeticCoding
