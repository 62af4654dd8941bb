import Mathlib.Data.List.Basic
import Mathlib.Tactic.Ring

/-!
# Events in the cycles of a clock

At most one event in a cycle, which carries a value.

* `before_delay`: the events that are reported later by a fixed number of cycles;
* `before_length_le`, `add_mul_lt`: events that keep their distance are few in a short time.
-/

namespace DeepSpace.Events

variable {α : Type}

/-- What happens in each cycle. -/
abbrev Trace (α : Type) := Nat → Option α

/-- The values of the events before cycle `t`, in order. -/
def before (e : Trace α) : Nat → List α
  | 0 => []
  | t + 1 => before e t ++ (e t).toList

/-- The same events, `d` cycles later. -/
def delay (d : Nat) (e : Trace α) : Trace α := fun t => if t < d then none else e (t - d)

/-- Two events are at least `d` cycles apart. -/
def Spaced (d : Nat) (e : Trace α) : Prop :=
  ∀ s s', s < s' → (e s).isSome → (e s').isSome → s + d ≤ s'

section

variable {e : Trace α} {d : Nat}

theorem before_succ (e : Trace α) (t : Nat) : before e (t + 1) = before e t ++ (e t).toList := rfl

theorem delay_add (d : Nat) (e : Trace α) (t : Nat) : delay d e (t + d) = e t := by
  rw [delay, if_neg (by omega), Nat.add_sub_cancel]

theorem delay_of_lt (e : Trace α) {t : Nat} (h : t < d) : delay d e t = none := if_pos h

theorem delay_delay (d d' : Nat) (e : Trace α) : delay d (delay d' e) = delay (d + d') e := by
  funext t
  unfold delay
  by_cases h : t < d
  · rw [if_pos h, if_pos (by omega)]
  · rw [if_neg h]
    by_cases h' : t - d < d'
    · rw [if_pos h', if_pos (by omega)]
    · rw [if_neg h', if_neg (by omega), Nat.sub_sub]

theorem delay_isSome {t : Nat} (h : (delay d e t).isSome) : ∃ s, t = s + d ∧ (e s).isSome := by
  by_cases hlt : t < d
  · rw [delay_of_lt e hlt] at h
    cases h
  · obtain ⟨s, rfl⟩ := Nat.exists_eq_add_of_le' (not_lt.mp hlt)
    exact ⟨s, rfl, by rwa [delay_add] at h⟩

theorem spaced_delay_iff {k : Nat} : Spaced d (delay k e) ↔ Spaced d e := by
  constructor
  · intro h s s' hlt hs hs'
    have := h (s + k) (s' + k) (by omega) (by rwa [delay_add]) (by rwa [delay_add])
    omega
  · intro h t t' hlt ht ht'
    obtain ⟨s, rfl, hs⟩ := delay_isSome ht
    obtain ⟨s', rfl, hs'⟩ := delay_isSome ht'
    have := h s s' (by omega) hs hs'
    omega

/-- **Later by `d` cycles.** -/
theorem before_delay (d : Nat) (e : Trace α) (t : Nat) :
    before (delay d e) t = before e (t - d) := by
  induction t with
  | zero => rw [Nat.zero_sub]; rfl
  | succ t ih =>
    rw [before_succ, ih]
    by_cases h : t < d
    · rw [delay_of_lt e h, Nat.sub_eq_zero_of_le h.le, Nat.sub_eq_zero_of_le h]
      rfl
    · obtain ⟨t, rfl⟩ := Nat.exists_eq_add_of_le' (not_lt.mp h)
      rw [delay_add, Nat.add_sub_cancel, Nat.add_right_comm, Nat.add_sub_cancel, before_succ]

theorem before_mono {s t : Nat} (h : s ≤ t) : before e s <+: before e t := by
  induction t, h using Nat.le_induction with
  | base => exact List.prefix_rfl
  | succ t _ ih => exact ih.trans (List.prefix_append _ _)

theorem length_before_le {s t : Nat} (h : s ≤ t) : (before e s).length ≤ (before e t).length :=
  (before_mono h).length_le

theorem length_before_succ (e : Trace α) (t : Nat) :
    (before e (t + 1)).length = (before e t).length + (if (e t).isSome then 1 else 0) := by
  rw [before_succ, List.length_append]
  cases e t <;> rfl

theorem before_of_none {s t : Nat} (h : s ≤ t) (hn : ∀ r, s ≤ r → r < t → e r = none) :
    before e t = before e s := by
  induction t, h using Nat.le_induction with
  | base => rfl
  | succ t hst ih =>
    rw [before_succ, hn t hst (Nat.lt_succ_self t), ih fun r hr hrt => hn r hr (by omega)]
    exact List.append_nil _

/-- At most one event in as many cycles as they are apart. -/
theorem before_length_le (hd : Spaced d e) {s t : Nat} (h : t ≤ s + d) :
    (before e t).length ≤ (before e s).length + 1 := by
  induction t with
  | zero => exact Nat.zero_le _
  | succ t ih =>
    have ih := ih (by omega)
    rw [length_before_succ]
    by_cases he : (e t).isSome
    · rw [if_pos he]
      rcases Nat.lt_or_ge t s with hts | hst
      · have := length_before_le (e := e) hts
        rw [length_before_succ, if_pos he] at this
        omega
      · -- an event between the two would be too close
        rw [before_of_none hst fun r hr hrt => ?_]
        by_contra hne
        have := hd r t hrt (Option.isSome_iff_ne_none.mpr hne) he
        omega
    · rw [if_neg he]
      exact ih

/-- The last event of some. -/
theorem exists_last {s t : Nat} (h : (before e s).length < (before e t).length) :
    ∃ r, s ≤ r ∧ r < t ∧ (e r).isSome ∧ (before e r).length + 1 = (before e t).length := by
  induction t with
  | zero => exact absurd h (Nat.not_lt_zero _)
  | succ t ih =>
    rw [length_before_succ] at h ⊢
    by_cases he : (e t).isSome
    · rw [if_pos he] at h ⊢
      refine ⟨t, ?_, Nat.lt_succ_self t, he, rfl⟩
      by_contra hlt
      have := length_before_le (e := e) (show t + 1 ≤ s by omega)
      rw [length_before_succ, if_pos he] at this
      omega
    · rw [if_neg he] at h ⊢
      obtain ⟨r, hs, ht, hr⟩ := ih h
      exact ⟨r, hs, by omega, hr⟩

/-- **Room for `m` events** behind the first one. -/
theorem add_mul_le (hd : Spaced d e) {s r m : Nat} (hs : s ≤ r) (hr : (e r).isSome)
    (hm : (before e r).length = (before e s).length + m) : s + m * d ≤ r := by
  induction m generalizing r with
  | zero => omega
  | succ m ih =>
    obtain ⟨r', hs', hlt, hr', hlen⟩ := exists_last (e := e) (s := s) (t := r) (by omega)
    have h := ih hs' hr' (by omega)
    have := hd r' r hlt hr' hr
    rw [Nat.succ_mul]
    omega

theorem add_mul_lt (hd : Spaced d e) {s t m : Nat}
    (hm : (before e s).length + (m + 1) ≤ (before e t).length) : s + m * d < t := by
  obtain ⟨r, hs, hlt, hr, hlen⟩ := exists_last (e := e) (s := s) (t := t) (by omega)
  obtain ⟨m', hm'⟩ : ∃ m', (before e r).length = (before e s).length + m' := ⟨_, (Nat.add_sub_of_le
    (length_before_le hs)).symm⟩
  have h := add_mul_le hd hs hr hm'
  have hle : m * d ≤ m' * d := Nat.mul_le_mul_right d (by omega)
  omega

/-- What has happened by each cycle says what happens in each. -/
theorem eq_of_before {f : Trace α} (h : ∀ t, before e t = before f t) : e = f := by
  funext t
  have hsucc := h (t + 1)
  rw [before_succ, before_succ, h t, List.append_cancel_left_eq] at hsucc
  cases ht : e t <;> cases ht' : f t <;> simp_all

end

end DeepSpace.Events
