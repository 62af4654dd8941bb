import DeepSpace.Events

/-!
# Characters on a serial line

Every character holds the line for `len` cycles from its first one on, in cells of `C` cycles;
between two characters the line rests at the level `true`.

* `place_add`: a character that nothing cuts short runs to its end;
* `exists_start`: whatever is on the line started so many cycles ago;
* `place_bind_eq`: a given cycle of the characters comes so many cycles behind their start;
* `spaced_of_idle`: a sender that waits for the line to rest leaves a cycle between two characters.
-/

namespace DeepSpace.SerialLine

open DeepSpace.Events

variable {α : Type}

/-- The cycle number `age` of a character. -/
structure Place (α : Type) where
  char : α
  age : Nat
  deriving DecidableEq, Repr

def Place.next (len : Nat) (p : Place α) : Option (Place α) :=
  if p.age + 1 < len then some ⟨p.char, p.age + 1⟩ else none

/-- What is on the line in cycle `t`, for the characters that start in the cycles of `starts`. -/
def place (len : Nat) (starts : Trace α) : Nat → Option (Place α)
  | 0 => (starts 0).map (⟨·, 0⟩)
  | t + 1 =>
    match starts (t + 1) with
    | some a => some ⟨a, 0⟩
    | none => (place len starts t).bind (Place.next len)

/-- The level of the line, where `cells a i` is that of cell `i` of `a`. -/
def level (cells : α → Nat → Bool) (C : Nat) : Option (Place α) → Bool
  | none => true
  | some p => cells p.char (p.age / C)

theorem cell_eq {C i j : Nat} (hj : j < C) : (i * C + j) / C = i :=
  Nat.div_eq_of_lt_le (Nat.le_add_right _ _) (by rw [Nat.succ_mul]; omega)

section

variable {len : Nat} {starts : Trace α}

theorem place_of_start {t : Nat} {a : α} (h : starts t = some a) :
    place len starts t = some ⟨a, 0⟩ := by
  cases t with
  | zero => rw [place, h]; rfl
  | succ t => rw [place, h]

theorem place_succ {t : Nat} (h : starts (t + 1) = none) :
    place len starts (t + 1) = (place len starts t).bind (Place.next len) := by
  rw [place, h]

theorem place_zero (h : starts 0 = none) : place len starts 0 = none := by
  rw [place, h]
  rfl

theorem place_delay_of_lt {d t : Nat} (h : t < d) : place len (delay d starts) t = none := by
  induction t with
  | zero => exact place_zero (delay_of_lt starts h)
  | succ t ih => rw [place_succ (delay_of_lt starts h), ih (by omega), Option.bind_none]

/-- The same characters, `d` cycles later. -/
theorem place_delay (d t : Nat) : place len (delay d starts) (t + d) = place len starts t := by
  have hd := delay_add d starts
  induction t with
  | zero =>
    cases h : starts 0 with
    | some a => rw [place_of_start h, place_of_start ((hd 0).trans h)]
    | none =>
      rw [place_zero h]
      cases d with
      | zero => exact place_zero ((hd 0).trans h)
      | succ d =>
        have h0 : delay (d + 1) starts (d + 1) = none := by
          have := hd 0
          rwa [Nat.zero_add, h] at this
        rw [Nat.zero_add, place_succ h0, place_delay_of_lt (Nat.lt_succ_self d), Option.bind_none]
  | succ t ih =>
    cases h : starts (t + 1) with
    | some a => rw [place_of_start h, place_of_start ((hd (t + 1)).trans h)]
    | none =>
      have h' : delay d starts (t + d + 1) = none := by
        have := hd (t + 1)
        rwa [h, Nat.add_right_comm] at this
      rw [place_succ h, Nat.add_right_comm, place_succ h', ih]

/-- **A character** runs to its end. -/
theorem place_add (hs : Spaced len starts) {s k : Nat} {a : α} (h : starts s = some a)
    (hk : k < len) : place len starts (s + k) = some ⟨a, k⟩ := by
  induction k with
  | zero => exact place_of_start h
  | succ k ih =>
    have hn : starts (s + k + 1) = none := by
      by_contra hne
      have := hs s (s + k + 1) (by omega) (Option.isSome_of_eq_some h)
        (Option.isSome_iff_ne_none.mpr hne)
      omega
    rw [← Nat.add_assoc, place_succ hn, ih (by omega)]
    exact if_pos hk

theorem place_cases {t : Nat} {p : Place α} (h : place len starts t = some p) :
    starts t = some p.char ∧ p.age = 0 ∨
      ∃ s, t = s + 1 ∧
        ∃ k, p.age = k + 1 ∧ k + 1 < len ∧ place len starts s = some ⟨p.char, k⟩ := by
  cases ha : starts t with
  | some a =>
    rw [place_of_start ha] at h
    cases h
    exact .inl ⟨rfl, rfl⟩
  | none =>
    cases t with
    | zero =>
      rw [place_zero ha] at h
      cases h
    | succ t =>
      rw [place_succ ha] at h
      obtain ⟨q, hq, hn⟩ := Option.bind_eq_some_iff.mp h
      unfold Place.next at hn
      split at hn
      · cases hn
        exact .inr ⟨t, rfl, q.age, rfl, by assumption, hq⟩
      · cases hn

/-- **What is on the line** started so many cycles ago. -/
theorem exists_start {t : Nat} {p : Place α} (h : place len starts t = some p) :
    ∃ s, t = s + p.age ∧ starts s = some p.char := by
  induction t generalizing p with
  | zero =>
    obtain ⟨ha, h0⟩ | ⟨s, hs, -⟩ := place_cases h
    · exact ⟨0, by rw [h0], ha⟩
    · cases hs
  | succ t ih =>
    obtain ⟨ha, h0⟩ | ⟨s, hs, k, hk, -, hp⟩ := place_cases h
    · exact ⟨t + 1, by rw [h0], ha⟩
    · obtain rfl := Nat.succ.inj hs
      obtain ⟨s, hs, ha⟩ := ih hp
      exact ⟨s, by rw [hk, hs]; rfl, ha⟩

theorem age_lt (hlen : 0 < len) {t : Nat} {p : Place α} (h : place len starts t = some p) :
    p.age < len := by
  obtain ⟨-, h0⟩ | ⟨s, -, k, hk, hlt, -⟩ := place_cases h
  · rwa [h0]
  · rwa [hk]

/-- Nothing starts within a character. -/
theorem starts_eq_none (hs : Spaced len starts) {t : Nat} {p : Place α}
    (h : place len starts t = some p) (hp : p.age + 1 < len) : starts (t + 1) = none := by
  obtain ⟨s, rfl, ha⟩ := exists_start h
  by_contra hne
  have := hs s (s + p.age + 1) (by omega) (Option.isSome_of_eq_some ha)
    (Option.isSome_iff_ne_none.mpr hne)
  omega

/-- **When a cycle of a character** is on the line. -/
theorem place_bind_eq (hs : Spaced len starts) {k : Nat} (hk : k < len) (t : Nat) :
    (place len starts t).bind (fun p => if p.age = k then some p.char else none) =
      delay k starts t := by
  cases hp : place len starts t with
  | none =>
    cases hd : delay k starts t with
    | none => rfl
    | some a =>
      obtain ⟨s, rfl, -⟩ := delay_isSome (Option.isSome_of_eq_some hd)
      rw [delay_add] at hd
      rw [place_add hs hd hk] at hp
      cases hp
  | some p =>
    obtain ⟨s, rfl, ha⟩ := exists_start hp
    rw [Option.bind_some]
    by_cases hage : p.age = k
    · rw [if_pos hage, ← hage, delay_add, ha]
    · rw [if_neg hage]
      cases hd : delay k starts (s + p.age) with
      | none => rfl
      | some a =>
        -- another character would be at that cycle
        obtain ⟨s', he, -⟩ := delay_isSome (Option.isSome_of_eq_some hd)
        rw [he, delay_add] at hd
        rw [he, place_add hs hd hk] at hp
        cases hp
        exact absurd rfl hage

/-- **A sender that waits** for the line to rest. -/
theorem spaced_of_idle (hidle : ∀ t, (starts (t + 1)).isSome → place len starts t = none) :
    Spaced (len + 1) starts := by
  intro s s' hlt ha ha'
  obtain ⟨a, ha⟩ := Option.isSome_iff_exists.mp ha
  have hrun : ∀ k, k < len → s + k < s' → place len starts (s + k) = some ⟨a, k⟩ := by
    intro k
    induction k with
    | zero => exact fun _ _ => place_of_start ha
    | succ k ih =>
      intro hk hks
      have hp := ih (by omega) (by omega)
      have hn : starts (s + k + 1) = none := by
        by_contra hne
        have := hidle (s + k) (Option.isSome_iff_ne_none.mpr hne)
        rw [hp] at this
        cases this
      rw [← Nat.add_assoc, place_succ hn, hp]
      exact if_pos hk
  obtain ⟨k, rfl⟩ : ∃ k, s' = s + k + 1 := ⟨s' - s - 1, by omega⟩
  by_contra hshort
  have := hrun k (by omega) (by omega)
  rw [hidle (s + k) ha'] at this
  cases this

end

end DeepSpace.SerialLine
