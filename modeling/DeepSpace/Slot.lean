import DeepSpace.Events

/-!
# One place to wait

A server that is busy for `P` cycles with each value it takes, behind a slot for one value; an
arrival is put into the slot, whether the slot is free or not.

* `takes_spaced`: the server takes values `P` cycles apart;
* `lossless_iff`: no value is overwritten, in exactly the traces of arrivals that leave it the time
  for all but the last of them.
-/

namespace DeepSpace.Slot

open DeepSpace.Events

variable {α : Type}

/-- The slot, and the cycles until the server takes again. -/
structure State (α : Type) where
  slot : Option α
  busy : Nat

def State.taken (s : State α) : Option α := if s.busy = 0 then s.slot else none

section

variable (P : Nat)

/-- A value that arrives replaces the one in the slot. -/
def State.step (s : State α) (arrival : Option α) : State α where
  slot :=
    match arrival with
    | some a => some a
    | none => if s.busy = 0 then none else s.slot
  busy := if s.busy = 0 then (if s.slot.isSome then P - 1 else 0) else s.busy - 1

def run (arrivals : Trace α) : Nat → State α
  | 0 => ⟨none, 0⟩
  | t + 1 => (run arrivals t).step P (arrivals t)

def takes (arrivals : Trace α) : Trace α := fun t => (run P arrivals t).taken

/-- Every value that arrived was taken, once and in order, or waits in the slot. -/
def Lossless (arrivals : Trace α) : Prop :=
  ∀ t, before arrivals t = before (takes P arrivals) t ++ (run P arrivals t).slot.toList

/-- From one arrival to another there is time for all but one of those from the first on. -/
def Roomy (arrivals : Trace α) : Prop :=
  ∀ s s', s < s' → (arrivals s).isSome → (arrivals s').isSome →
    s + ((before arrivals s').length - (before arrivals s).length - 1) * P < s'

end

section

variable {P : Nat} {arrivals : Trace α}

/-- The server is busy with what it took. -/
theorem busy_add {t k : Nat} (h : (takes P arrivals t).isSome) (hk : k + 1 ≤ P) :
    (run P arrivals (t + 1 + k)).busy = P - 1 - k := by
  induction k with
  | zero =>
    unfold takes State.taken at h
    split at h
    · next hb =>
      change (if _ = 0 then _ else _) = _
      rw [if_pos hb, if_pos h]
      rfl
    · cases h
  | succ k ih =>
    have ih := ih (by omega)
    have hbusy : (run P arrivals (t + 1 + k)).busy ≠ 0 := by rw [ih]; omega
    have hs : (run P arrivals (t + 1 + k + 1)).busy = (run P arrivals (t + 1 + k)).busy - 1 :=
      if_neg hbusy
    rw [← Nat.add_assoc, hs, ih]
    omega

theorem takes_spaced : Spaced P (takes P arrivals) := by
  intro s s' hlt hs hs'
  by_contra hclose
  obtain ⟨k, rfl⟩ : ∃ k, s' = s + 1 + k := ⟨s' - s - 1, by omega⟩
  have hb := busy_add hs (k := k) (by omega)
  unfold takes State.taken at hs'
  rw [if_neg (by omega)] at hs'
  cases hs'

/-- **No time, no place**: the values that were taken took their time. -/
theorem roomy_of_lossless (h : Lossless P arrivals) : Roomy P arrivals := by
  intro s s' hlt hs hs'
  -- behind an arrival the slot holds it
  have hslot : ∀ r, (arrivals r).isSome →
      (before (takes P arrivals) (r + 1)).length = (before arrivals r).length := by
    intro r hr
    obtain ⟨a, ha⟩ := Option.isSome_iff_exists.mp hr
    have hl := congrArg List.length (h (r + 1))
    have hf : (run P arrivals (r + 1)).slot = some a := by
      change (match arrivals r with | some a => some a | none => _) = _
      rw [ha]
    rw [hf, length_before_succ, if_pos hr, List.length_append] at hl
    exact (Nat.succ.inj hl).symm
  have h1 := hslot s hs
  have h2 := hslot s' hs'
  have hle := length_before_le (e := arrivals) (show s + 1 ≤ s' by omega)
  rw [length_before_succ, if_pos hs] at hle
  have hspaced : Spaced P (takes P arrivals) := takes_spaced
  have := add_mul_lt hspaced (s := s + 1) (t := s' + 1)
    (m := (before arrivals s').length - (before arrivals s).length - 1) (by omega)
  omega

/-- The server rests, or has worked without a pause since the arrival in cycle `v`, on `m` values
so far. -/
def Working (P : Nat) (arrivals : Trace α) (t : Nat) (s : State α) : Prop :=
  s.slot = none ∧ s.busy = 0 ∨ ∃ v m, v < t ∧ (arrivals v).isSome ∧ t + s.busy = v + 1 + m * P ∧
    (before arrivals t).length = (before arrivals v).length + m + s.slot.toList.length

/-- A server that rests. -/
theorem Working.of_rest {t : Nat} {s : State α} (hs : s.slot = none) (hb : s.busy = 0) :
    Working P arrivals (t + 1) (s.step P (arrivals t)) ∧
      (s.step P (arrivals t)).slot = arrivals t := by
  have hb' : (s.step P (arrivals t)).busy = 0 := by simp [State.step, hs, hb]
  cases ha : arrivals t with
  | none =>
    rw [ha] at hb'
    exact ⟨.inl ⟨if_pos hb, hb'⟩, if_pos hb⟩
  | some a =>
    rw [ha] at hb'
    refine ⟨.inr ⟨t, 0, Nat.lt_succ_self t, Option.isSome_of_eq_some ha, ?_, ?_⟩, rfl⟩
    · rw [hb', Nat.zero_mul]
    · rw [length_before_succ, ha]
      rfl

/-- **One cycle** of a trace that leaves the time. -/
theorem Working.step (hP : 0 < P) (h : Roomy P arrivals) {t : Nat} {s : State α}
    (hw : Working P arrivals t s) :
    Working P arrivals (t + 1) (s.step P (arrivals t)) ∧
      s.slot.toList ++ (arrivals t).toList =
        s.taken.toList ++ (s.step P (arrivals t)).slot.toList := by
  have hrest : s.slot = none → s.busy = 0 → Working P arrivals (t + 1) (s.step P (arrivals t)) ∧
      (s.step P (arrivals t)).slot = arrivals t := Working.of_rest
  obtain ⟨hs, hb⟩ | ⟨v, m, hv, hav, ht, hlen⟩ := hw
  · obtain ⟨hw, he⟩ := hrest hs hb
    refine ⟨hw, ?_⟩
    rw [he, State.taken, if_pos hb, hs]
  · have hlen' := length_before_succ arrivals t
    by_cases hb : s.busy = 0
    · cases hs : s.slot with
      | none =>
        obtain ⟨hw, he⟩ := hrest hs hb
        refine ⟨hw, ?_⟩
        rw [he, State.taken, if_pos hb, hs]
      | some b =>
        -- the server takes `b`
        have hbusy : (s.step P (arrivals t)).busy = P - 1 := by
          simp only [State.step, hb, hs, if_pos, Option.isSome_some]
        have hslot : (s.step P (arrivals t)).slot = arrivals t := by
          cases ha : arrivals t with
          | none => exact if_pos hb
          | some a => rfl
        refine ⟨.inr ⟨v, m + 1, by omega, hav, ?_, ?_⟩, ?_⟩
        · rw [hbusy, Nat.succ_mul]
          omega
        · rw [hslot, hlen', hlen, hs]
          cases arrivals t <;> rfl
        · rw [hslot, State.taken, if_pos hb, hs]
    · have hbusy : (s.step P (arrivals t)).busy = s.busy - 1 := if_neg hb
      have htaken : s.taken = none := if_neg hb
      cases ha : arrivals t with
      | none =>
        rw [ha] at hbusy hlen'
        have hslot : (s.step P none).slot = s.slot := if_neg hb
        refine ⟨.inr ⟨v, m, by omega, hav, by omega, ?_⟩, ?_⟩
        · rw [hlen', hlen, hslot]
          rfl
        · rw [htaken, hslot]
          exact List.append_nil _
      | some a =>
        rw [ha] at hbusy hlen'
        have hslot : (s.step P (some a)).slot = some a := rfl
        cases hs : s.slot with
        | none =>
          refine ⟨.inr ⟨v, m, by omega, hav, by omega, ?_⟩, ?_⟩
          · rw [hlen', hlen, hslot, hs]
            rfl
          · rw [htaken, hslot]
        | some b =>
          -- the slot is full: there was no time for the value in it
          have hroom := h v t hv hav (Option.isSome_of_eq_some ha)
          rw [hs] at hlen
          change _ = _ + 1 at hlen
          rw [hlen, Nat.add_assoc, Nat.add_sub_cancel_left, Nat.add_sub_cancel] at hroom
          omega

theorem lossless_of_roomy (hP : 0 < P) (h : Roomy P arrivals) : Lossless P arrivals := by
  have hw : ∀ t, Working P arrivals t (run P arrivals t) := by
    intro t
    induction t with
    | zero => exact .inl ⟨rfl, rfl⟩
    | succ t ih => exact (ih.step hP h).1
  intro t
  induction t with
  | zero => rfl
  | succ t ih =>
    rw [before_succ, ih, List.append_assoc, ((hw t).step hP h).2, before_succ, List.append_assoc]
    rfl

/-- **No value is overwritten** exactly if there is time for them. -/
theorem lossless_iff (hP : 0 < P) : Lossless P arrivals ↔ Roomy P arrivals :=
  ⟨roomy_of_lossless, lossless_of_roomy hP⟩

/-! ## How long a value waits -/

theorem busy_lt (hP : 0 < P) (t : Nat) : (run P arrivals t).busy < P := by
  induction t with
  | zero => exact hP
  | succ t ih =>
    have hb : (run P arrivals (t + 1)).busy =
        if (run P arrivals t).busy = 0 then if (run P arrivals t).slot.isSome then P - 1 else 0
        else (run P arrivals t).busy - 1 := rfl
    rw [hb]
    split
    · split <;> omega
    · omega

/-- A full slot stays full while the server is busy. -/
theorem full_add {t k : Nat} (h : (run P arrivals t).slot.isSome)
    (hk : k ≤ (run P arrivals t).busy) :
    (run P arrivals (t + k)).slot.isSome ∧
      (run P arrivals (t + k)).busy = (run P arrivals t).busy - k := by
  induction k with
  | zero => exact ⟨h, rfl⟩
  | succ k ih =>
    obtain ⟨hs, hb⟩ := ih (by omega)
    have hbusy : (run P arrivals (t + k)).busy ≠ 0 := by omega
    have hb' : (run P arrivals (t + k + 1)).busy = (run P arrivals (t + k)).busy - 1 := if_neg hbusy
    refine ⟨?_, by rw [← Nat.add_assoc, hb', hb]; omega⟩
    change (State.step P (run P arrivals (t + k)) (arrivals (t + k))).slot.isSome
    cases arrivals (t + k) with
    | some a => rfl
    | none => simpa only [State.step, hbusy, if_false] using hs

/-- **No value waits** for more than `P` cycles. -/
theorem taken_soon (hP : 0 < P) (h : Lossless P arrivals) (t : Nat) :
    before arrivals t <+: before (takes P arrivals) (t + P) := by
  cases hs : (run P arrivals t).slot with
  | none =>
    rw [h t, hs, Option.toList_none, List.append_nil]
    exact before_mono (Nat.le_add_right t P)
  | some a =>
    have hfull := full_add (Option.isSome_of_eq_some hs) (le_refl (run P arrivals t).busy)
    have hb : (run P arrivals t).busy < P := busy_lt hP t
    -- it is taken when the server is free
    have htaken : (takes P arrivals (t + (run P arrivals t).busy)).isSome := by
      rw [takes, State.taken, if_pos (by rw [hfull.2, Nat.sub_self])]
      exact hfull.1
    have hlen := length_before_le (e := takes P arrivals)
      (show t + (run P arrivals t).busy + 1 ≤ t + P by omega)
    have hle := length_before_le (e := takes P arrivals)
      (Nat.le_add_right t (run P arrivals t).busy)
    rw [length_before_succ, if_pos htaken] at hlen
    have ht := congrArg List.length (h t)
    rw [hs, List.length_append, Option.toList_some, List.length_singleton] at ht
    refine List.prefix_of_prefix_length_le (before_mono (Nat.le_add_right t P)) ?_ (by omega)
    rw [h (t + P)]
    exact List.prefix_append _ _

theorem roomy_delay_iff {d : Nat} : Roomy P (delay d arrivals) ↔ Roomy P arrivals := by
  have hb : ∀ s, before (delay d arrivals) (s + d) = before arrivals s := fun s => by
    rw [before_delay, Nat.add_sub_cancel]
  constructor
  · intro h s s' hlt hs hs'
    have := h (s + d) (s' + d) (by omega) (by rwa [delay_add]) (by rwa [delay_add])
    rw [hb, hb] at this
    omega
  · intro h t t' hlt ht ht'
    obtain ⟨s, rfl, hs⟩ := delay_isSome ht
    obtain ⟨s', rfl, hs'⟩ := delay_isSome ht'
    have := h s s' (by omega) hs hs'
    rw [hb, hb]
    omega

/-! ## Arrivals that leave it time -/

theorem step_slot (s : State α) (arrival : Option α) : (s.step P arrival).slot =
    match arrival with
    | some a => some a
    | none => if s.busy = 0 then none else s.slot := rfl

theorem step_busy (s : State α) (arrival : Option α) : (s.step P arrival).busy =
    if s.busy = 0 then (if s.slot.isSome then P - 1 else 0) else s.busy - 1 := rfl

theorem run_of_none {t : Nat} (h : ∀ r < t, arrivals r = none) : run P arrivals t = ⟨none, 0⟩ := by
  induction t with
  | zero => rfl
  | succ t ih =>
    rw [run, ih fun r hr => h r (Nat.lt_succ_of_lt hr), h t (Nat.lt_succ_self t)]
    rfl

/-- The first value that arrives is taken a cycle later. -/
theorem takes_first {s : Nat} {a : α} (h : ∀ r < s, arrivals r = none) (hs : arrivals s = some a) :
    takes P arrivals (s + 1) = some a ∧ ∀ r ≤ s, takes P arrivals r = none := by
  refine ⟨?_, fun r hr => ?_⟩
  · rw [takes, run, run_of_none h, hs]
    rfl
  · rw [takes, run_of_none fun r' hr' => h r' (by omega)]
    rfl

/-- **Values `P` cycles apart** are each taken a cycle later. -/
theorem takes_eq_delay (h : Spaced P arrivals) : takes P arrivals = delay 1 arrivals := by
  have hrun : ∀ t, (run P arrivals t).slot = delay 1 arrivals t ∧
      ((run P arrivals t).busy = 0 ∨ ∃ v, (arrivals v).isSome ∧ v + 1 < t ∧
        t + (run P arrivals t).busy = v + 1 + P) := by
    intro t
    induction t with
    | zero => exact ⟨rfl, .inl rfl⟩
    | succ t ih =>
      obtain ⟨hslot, hbusy⟩ := ih
      -- a value that waits finds the server free
      have hfree : (delay 1 arrivals t).isSome → (run P arrivals t).busy = 0 := fun hsome => by
        obtain ⟨s, rfl, hs⟩ := delay_isSome hsome
        rcases hbusy with h0 | ⟨v, hv, hvt, heq⟩
        · exact h0
        · have := h v s (by omega) hv hs
          omega
      rw [delay_add, run, step_slot, step_busy]
      refine ⟨?_, ?_⟩
      · cases arrivals t with
        | some a => rfl
        | none =>
          dsimp only
          split
          · rfl
          · next hne =>
            rw [hslot]
            exact Option.not_isSome_iff_eq_none.mp (mt hfree hne)
      · by_cases h0 : (run P arrivals t).busy = 0
        · rw [if_pos h0, hslot]
          cases hd : (delay 1 arrivals t).isSome with
          | false => exact .inl rfl
          | true =>
            obtain ⟨s, rfl, hs⟩ := delay_isSome hd
            rcases Nat.eq_zero_or_pos P with hP | hP
            · exact .inl (by rw [hP]; rfl)
            · exact .inr ⟨s, hs, by omega, by rw [if_pos rfl]; omega⟩
        · rw [if_neg h0]
          obtain ⟨v, hv, hvt, heq⟩ := hbusy.resolve_left h0
          exact .inr ⟨v, hv, by omega, by omega⟩
  funext t
  obtain ⟨hslot, hbusy⟩ := hrun t
  rw [takes, State.taken, hslot]
  split
  · rfl
  · next hne =>
    obtain ⟨v, hv, hvt, heq⟩ := hbusy.resolve_left hne
    cases hd : delay 1 arrivals t with
    | none => rfl
    | some a =>
      obtain ⟨s, rfl, hs⟩ := delay_isSome (by rw [hd]; rfl)
      have := h v s (by omega) hv hs
      omega

end

end DeepSpace.Slot
