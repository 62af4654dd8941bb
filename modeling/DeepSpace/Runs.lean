import Mathlib.Tactic.TypeStar

/-!
# Runs of a machine

The machine is a partial step function: an event that cannot happen has no step.

* `EveryStep`: what holds at every step of a run, given the state it is taken from;
* `everyStep_of_invariant`: an invariant, kept by the steps that meet a condition,
  along the runs whose steps all meet it;
* `everyStep_iff_history`: what holds at every step, told from what the steps show.
-/

namespace DeepSpace.Runs

variable {σ ε : Type*} (step : σ → ε → Option σ)

def run (s : σ) : List ε → Option σ
  | [] => some s
  | e :: es => (step s e).bind fun s' => run s' es

def EveryStep (P : σ → ε → Prop) (s : σ) : List ε → Prop
  | [] => True
  | e :: es => P s e ∧ ∀ s', step s e = some s' → EveryStep P s' es

instance decidableEveryStep (P : σ → ε → Prop) [∀ s e, Decidable (P s e)] (s : σ) :
    (es : List ε) → Decidable (EveryStep step P s es)
  | [] => isTrue trivial
  | e :: es =>
    match h : step s e with
    | none => decidable_of_iff (P s e) (by simp [EveryStep, h])
    | some s' =>
      have := decidableEveryStep P s' es
      decidable_of_iff (P s e ∧ EveryStep step P s' es) (by simp [EveryStep, h])

variable {step}

theorem run_cons {s s' : σ} {e : ε} (h : step s e = some s') (es : List ε) :
    run step s (e :: es) = run step s' es := by
  rw [run, h, Option.bind_some]

theorem run_append (s : σ) (xs ys : List ε) :
    run step s (xs ++ ys) = (run step s xs).bind fun t => run step t ys := by
  induction xs generalizing s with
  | nil => rfl
  | cons x xs ih =>
    rw [List.cons_append, run, run, Option.bind_assoc]
    exact Option.bind_congr fun t _ => ih t

/-- **The invariant rule.** -/
theorem everyStep_of_invariant {Inv : σ → Prop} {P Q : σ → ε → Prop}
    (hstep : ∀ s e s', Inv s → P s e → step s e = some s' → Inv s')
    (hQ : ∀ s e, Inv s → P s e → Q s e) {s : σ} (h0 : Inv s) {es : List ε}
    (h : EveryStep step P s es) : EveryStep step Q s es := by
  induction es generalizing s with
  | nil => trivial
  | cons e es ih =>
    obtain ⟨hp, hrest⟩ := h
    exact ⟨hQ s e h0 hp, fun s' hs => ih (hstep s e s' h0 hp hs) (hrest s' hs)⟩

theorem invariant_of_run {Inv : σ → Prop} (hstep : ∀ s e s', Inv s → step s e = some s' → Inv s')
    {s s' : σ} (h0 : Inv s) {es : List ε} (h : run step s es = some s') : Inv s' := by
  induction es generalizing s with
  | nil => exact Option.some.inj h ▸ h0
  | cons e es ih =>
    obtain ⟨t, ht, hrest⟩ := Option.bind_eq_some_iff.mp h
    exact ih (hstep s e t h0 ht) hrest

/-! ## Histories -/

variable {ν : Type*}

/-- What the steps of a run show, in order. -/
def history (step : σ → ε → Option σ) (note : σ → ε → Option ν) (s : σ) : List ε → List ν
  | [] => []
  | e :: es => (step s e).elim [] fun s' => (note s e).toList ++ history step note s' es

/-- Every entry of the log is as `Q` says of those before it. -/
def EveryNote (Q : List ν → ν → Prop) (log : List ν) : Prop :=
  ∀ past n post, log = past ++ n :: post → Q past n

theorem everyNote_nil (Q : List ν → ν → Prop) : EveryNote Q [] := by
  intro past n post h
  exact absurd h.symm (List.append_ne_nil_of_right_ne_nil past (List.cons_ne_nil n post))

theorem everyNote_cons {Q : List ν → ν → Prop} {n : ν} {log : List ν} :
    EveryNote Q (n :: log) ↔ Q [] n ∧ EveryNote (fun past => Q (n :: past)) log := by
  constructor
  · intro h
    exact ⟨h [] n log rfl, fun past m post he => h (n :: past) m post (congrArg (n :: ·) he)⟩
  · rintro ⟨h0, hrest⟩ past m post he
    cases past with
    | nil =>
      obtain ⟨rfl, -⟩ := List.cons.inj he
      exact h0
    | cons n' past =>
      obtain ⟨rfl, hlog⟩ := List.cons.inj he
      exact hrest past m post hlog

/-- **The history rule.**  `Told` says what a history tells of the state it leads to. -/
theorem everyStep_iff_history {note : σ → ε → Option ν} {Told : List ν → σ → Prop}
    {P : σ → ε → Prop} {Q : List ν → ν → Prop}
    (hstep : ∀ past s e s', Told past s → step s e = some s' →
      Told (past ++ (note s e).toList) s')
    (hP : ∀ past s e, Told past s →
      (P s e ↔ ∀ s', step s e = some s' → ∀ n ∈ note s e, Q past n))
    {past : List ν} {s : σ} (h0 : Told past s) (es : List ε) :
    EveryStep step P s es ↔
      EveryNote (fun past' => Q (past ++ past')) (history step note s es) := by
  induction es generalizing past s with
  | nil => exact iff_of_true trivial (everyNote_nil _)
  | cons e es ih =>
    rw [EveryStep, hP past s e h0, history]
    cases hs : step s e with
    | none =>
      refine iff_of_true ⟨?_, ?_⟩ (everyNote_nil _) <;> rintro s' ⟨⟩
    | some s' =>
      have hrest := ih (hstep past s e s' h0 hs)
      simp only [Option.some.injEq, forall_eq', Option.elim_some, hrest]
      cases hn : note s e with
      | none =>
        simp only [Option.toList_none, List.append_nil, List.nil_append]
        exact and_iff_right fun n h => by cases h
      | some n =>
        simp only [Option.toList_some, List.singleton_append, everyNote_cons, List.append_nil,
          List.append_assoc, Option.mem_some_iff, forall_eq']

end DeepSpace.Runs
