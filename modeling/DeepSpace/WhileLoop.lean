import Mathlib.Data.Nat.Basic

/-!
# Loops that count their rounds

`while (guard (s)) s = body (s);` on any state, where a round may leave the loop with an error.

* `Runs.functional`: a state determines the rounds and the outcome;
* `exists_runs`: a loop that uses up what it has left ends;
* `Runs.invariant`, `Runs.fails`: what every round keeps holds at the end, and at the round that
  fails;
* `Runs.succeeds`: a loop whose rounds cannot fail;
* `Runs.rounds_eq`: with enough rounds the recursion that counts them down is the loop.
-/

namespace DeepSpace.WhileLoop

variable {σ ρ : Type} {guard : σ → Prop} {body : σ → Except ρ σ}

/-- From `s` the loop ends like this after `n` rounds; a round that fails counts. -/
inductive Runs (guard : σ → Prop) (body : σ → Except ρ σ) : Nat → σ → Except ρ σ → Prop
  | stop {s : σ} : ¬ guard s → Runs guard body 0 s (.ok s)
  | fail {s : σ} {e : ρ} : guard s → body s = .error e → Runs guard body 1 s (.error e)
  | next {n : Nat} {s t : σ} {r : Except ρ σ} :
      guard s → body s = .ok t → Runs guard body n t r → Runs guard body (n + 1) s r

theorem Runs.functional {n m : Nat} {s : σ} {r r' : Except ρ σ} (h : Runs guard body n s r)
    (h' : Runs guard body m s r') : n = m ∧ r = r' := by
  induction h generalizing m with
  | stop hs =>
    cases h' with
    | stop _ => exact ⟨rfl, rfl⟩
    | fail hg _ => exact absurd hg hs
    | next hg _ _ => exact absurd hg hs
  | fail hg hb =>
    cases h' with
    | stop hs => exact absurd hg hs
    | fail _ hb' =>
      rw [hb] at hb'
      cases hb'
      exact ⟨rfl, rfl⟩
    | next _ hb' _ =>
      rw [hb] at hb'
      cases hb'
  | next hg hb _ ih =>
    cases h' with
    | stop hs => exact absurd hg hs
    | fail _ hb' =>
      rw [hb] at hb'
      cases hb'
    | next _ hb' h' =>
      rw [hb] at hb'
      cases hb'
      obtain ⟨rfl, rfl⟩ := ih h'
      exact ⟨rfl, rfl⟩

/-- **Termination**: `left k` says that `k` more rounds use everything up. -/
theorem exists_runs {left : Nat → σ → Prop} (hzero : ∀ s, left 0 s → ¬ guard s)
    (hstep : ∀ k s t, left (k + 1) s → guard s → body s = .ok t → left k t) (k : Nat) (s : σ)
    (hs : left k s) : ∃ n ≤ k, ∃ r, Runs guard body n s r := by
  induction k generalizing s with
  | zero => exact ⟨0, le_rfl, _, .stop (hzero s hs)⟩
  | succ k ih =>
    by_cases hg : guard s
    · cases hb : body s with
      | error e => exact ⟨1, Nat.le_add_left 1 k, _, .fail hg hb⟩
      | ok t =>
        obtain ⟨n, hn, r, hr⟩ := ih t (hstep k s t hs hg hb)
        exact ⟨n + 1, Nat.succ_le_succ hn, r, .next hg hb hr⟩
    · exact ⟨0, Nat.zero_le _, _, .stop hg⟩

theorem Runs.invariant {P : σ → Prop} (hstep : ∀ s t, guard s → body s = .ok t → P s → P t)
    {n : Nat} {s t : σ} (h : Runs guard body n s (.ok t)) (hs : P s) : P t ∧ ¬ guard t := by
  generalize hr : Except.ok t = r at h
  induction h with
  | stop hg =>
    cases hr
    exact ⟨hs, hg⟩
  | fail _ _ => cases hr
  | next hg hb _ ih => exact ih (hstep _ _ hg hb hs) hr

/-- Rounds that cannot fail. -/
theorem Runs.succeeds {P : σ → Prop} (hbody : ∀ s, guard s → P s → ∃ t, body s = .ok t ∧ P t)
    {n : Nat} {s : σ} {r : Except ρ σ} (h : Runs guard body n s r) (hs : P s) :
    ∃ t, r = .ok t ∧ P t := by
  induction h with
  | @stop s _ => exact ⟨s, rfl, hs⟩
  | fail hg hb =>
    obtain ⟨t, ht, -⟩ := hbody _ hg hs
    rw [hb] at ht
    cases ht
  | next hg hb _ ih =>
    obtain ⟨t, ht, hP⟩ := hbody _ hg hs
    rw [hb] at ht
    cases ht
    exact ih hP

/-- The round that fails starts from a state that keeps the invariant. -/
theorem Runs.fails {P : σ → Prop} (hstep : ∀ s t, guard s → body s = .ok t → P s → P t)
    {n : Nat} {s : σ} {e : ρ} (h : Runs guard body n s (.error e)) (hs : P s) :
    ∃ t, P t ∧ guard t ∧ body t = .error e := by
  generalize hr : Except.error e = r at h
  induction h with
  | stop _ => cases hr
  | @fail s _ hg hb =>
    cases hr
    exact ⟨s, hs, hg, hb⟩
  | next hg hb _ ih => exact ih (hstep _ _ hg hb hs) hr

/-- At most so many rounds. -/
def rounds (guard : σ → Prop) [DecidablePred guard] (body : σ → Except ρ σ) :
    Nat → σ → Except ρ σ
  | 0, s => .ok s
  | n + 1, s => if guard s then body s >>= rounds guard body n else .ok s

theorem Runs.rounds_eq [DecidablePred guard] {n k : Nat} {s : σ} {r : Except ρ σ}
    (h : Runs guard body n s r) (hk : n ≤ k) : rounds guard body k s = r := by
  induction h generalizing k with
  | stop hg =>
    cases k with
    | zero => rfl
    | succ k => exact if_neg hg
  | fail hg hb =>
    cases k with
    | zero => exact absurd hk (Nat.not_succ_le_zero _)
    | succ k =>
      rw [rounds, if_pos hg, hb]
      rfl
  | next hg hb _ ih =>
    cases k with
    | zero => exact absurd hk (Nat.not_succ_le_zero _)
    | succ k =>
      rw [rounds, if_pos hg, hb]
      exact ih (Nat.le_of_succ_le_succ hk)

end DeepSpace.WhileLoop
