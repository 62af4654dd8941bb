import DeepSpace.Completion

/-!
# The bursts of a call, whatever the interrupts

* `burstsOf_raise`: an interrupt only moves a burst from those to come to those that came;
* `recorded_of_taken`: every step of the driver keeps the bursts in step with the loops;
* `bursts_of_wait`: a call in its second wait has programmed the bursts of `psddrPlddr`
  and of `plddrPsddr`, each loop in its order;
* `board_of_wait`: so it leaves the memories that `psddrPlddrLoopback` computes.
-/

namespace DeepSpace.AxiTangxi

open DeepSpace.Runs

/-! ## The bursts of a run -/

def Programmed.IsOf (b : Programmed) (p : Nat × Stage) : Prop := b.call = p.1 ∧ b.stage = p.2

instance (b : Programmed) (p : Nat × Stage) : Decidable (b.IsOf p) :=
  inferInstanceAs (Decidable (_ ∧ _))

/-- What a loop of a call has programmed so far, in order. -/
def State.burstsOf (s : State) (p : Nat × Stage) : List Burst :=
  ((s.raised.filter (·.IsOf p)).reverse ++ (s.pending p.2).filter (·.IsOf p)).map (·.burst)

/-- Bursts are where their interrupt is due, and of calls that were made. -/
structure Placed (s : State) : Prop where
  pending : ∀ stage, ∀ b ∈ s.pending stage, b.stage = stage ∧ b.call < s.calls
  raised : ∀ b ∈ s.raised, b.call < s.calls

theorem burstsOf_congr {s s' : State} (hp : s'.pending = s.pending) (hr : s'.raised = s.raised)
    (p : Nat × Stage) : s'.burstsOf p = s.burstsOf p := by
  rw [State.burstsOf, hp, hr]
  rfl

theorem Placed.congr {s s' : State} (h : Placed s) (hp : s'.pending = s.pending)
    (hr : s'.raised = s.raised) (hc : s.calls ≤ s'.calls) : Placed s' := by
  constructor
  · intro stage b hb
    rw [hp] at hb
    obtain ⟨hs, hlt⟩ := h.pending stage b hb
    exact ⟨hs, by omega⟩
  · intro b hb
    rw [hr] at hb
    have := h.raised b hb
    omega

theorem Placed.raise {s : State} (h : Placed s) {stage : Stage} {b : Programmed}
    {rest : List Programmed} (hb : s.pending stage = b :: rest) :
    Placed (s.raise stage b rest) := by
  have hbs := h.pending stage
  rw [hb] at hbs
  constructor
  · intro stage' b' hb'
    by_cases he : stage' = stage
    · subst he
      change b' ∈ Function.update s.pending stage' rest stage' at hb'
      rw [Function.update_self] at hb'
      exact hbs b' (List.mem_cons_of_mem _ hb')
    · change b' ∈ Function.update s.pending stage rest stage' at hb'
      rw [Function.update_of_ne he] at hb'
      exact h.pending stage' b' hb'
  · intro b' hb'
    rcases List.mem_cons.mp hb' with rfl | hb'
    · exact (hbs b' List.mem_cons_self).2
    · exact h.raised b' hb'

/-- **An interrupt** leaves the bursts of every loop as they are. -/
theorem burstsOf_raise {s : State} (h : Placed s) {stage : Stage} {b : Programmed}
    {rest : List Programmed} (hb : s.pending stage = b :: rest) (p : Nat × Stage) :
    (s.raise stage b rest).burstsOf p = s.burstsOf p := by
  have hbs := (h.pending stage b (by rw [hb]; exact List.mem_cons_self)).1
  change (((b :: s.raised).filter (·.IsOf p)).reverse ++
    (Function.update s.pending stage rest p.2).filter (·.IsOf p)).map (·.burst) = _
  rw [State.burstsOf]
  by_cases he : p.2 = stage
  · rw [he, Function.update_self, hb]
    by_cases hi : b.IsOf p <;> simp [hi]
  · have hi : ¬ b.IsOf p := fun hi => he (hi.2.symm.trans hbs)
    rw [Function.update_of_ne he]
    simp [hi]

/-- A call that was not made has no bursts. -/
theorem burstsOf_calls {s : State} (h : Placed s) (stage : Stage) :
    s.burstsOf (s.calls, stage) = [] := by
  have hr : s.raised.filter (·.IsOf (s.calls, stage)) = [] := by
    refine List.filter_eq_nil_iff.mpr fun b hb hi => ?_
    exact (h.raised b hb).ne (of_decide_eq_true hi).1
  have hp : (s.pending stage).filter (·.IsOf (s.calls, stage)) = [] := by
    refine List.filter_eq_nil_iff.mpr fun b hb hi => ?_
    exact (h.pending stage b hb).2.ne (of_decide_eq_true hi).1
  rw [State.burstsOf, hr, hp]
  rfl

/-! ## Where a call is in its loops -/

/-- Where a call is, as one of its loops sees it. -/
inductive Position where
  | before
  | looping (l : Loop)
  | programming (l : Loop)
  | after

/-- A call is at `here` in the loop `stage`, and so before it or behind it in the other. -/
def Stage.position : Stage → Stage → Position → Position
  | psddrPlddr, psddrPlddr, here => here
  | plddrPsddr, plddrPsddr, here => here
  | psddrPlddr, plddrPsddr, _ => .before
  | plddrPsddr, psddrPlddr, _ => .after

def Point.position : Point → Stage → Position
  | .init stage, st => stage.position st .before
  | .loop stage l, st => stage.position st (.looping l)
  | .program stage l, st => stage.position st (.programming l)
  | .wait stage, st => stage.position st .after

theorem position_self (stage : Stage) (here : Position) : stage.position stage here = here := by
  cases stage <;> rfl

theorem position_of_ne {stage st : Stage} (h : st ≠ stage) (x y : Position) :
    stage.position st x = stage.position st y := by
  cases stage <;> cases st <;> first | rfl | exact absurd rfl h

/-- `bs` are the first bursts of the loop, and those of the rest of it follow. -/
def Position.Matches (st : Stage) (t : Transfer) (bs : List Burst) : Position → Prop
  | before => bs = []
  | looping l => ∀ fuel, (st.start t).bursts st.program (bs.length + fuel) =
      (l.bursts st.program fuel).map (bs ++ ·)
  | programming l => ∀ fuel, (st.start t).bursts st.program (bs.length + (fuel + 1)) =
      (l.advance.bursts st.program fuel).map
        (bs ++ st.program l.psNext l.plNext l.burstSize :: ·)
  | after => (st.start t).bursts st.program bs.length = some bs

section

variable {st : Stage} {t : Transfer} {bs : List Burst} {l : Loop}

theorem matches_start (h : Position.before.Matches st t bs) :
    (Position.looping (st.start t)).Matches st t bs := by
  obtain rfl : bs = [] := h
  intro fuel
  rw [List.length_nil, Nat.zero_add]
  exact Option.map_id_apply.symm

theorem matches_iterate (h : (Position.looping l).Matches st t bs) (h0 : l.dataRemaining > 0) :
    (Position.programming l.lastBurst.subtract).Matches st t bs := by
  intro fuel
  rw [h (fuel + 1), Loop.bursts, if_pos h0]
  exact Option.map_map ..

theorem matches_exit (h : (Position.looping l).Matches st t bs) (h0 : ¬ l.dataRemaining > 0) :
    Position.after.Matches st t bs := by
  have hz := h 0
  rw [Loop.bursts, if_neg h0, Option.map_some, List.append_nil] at hz
  exact hz

theorem matches_program (h : (Position.programming l).Matches st t bs) :
    (Position.looping l.advance).Matches st t
      (bs ++ [st.program l.psNext l.plNext l.burstSize]) := by
  intro fuel
  rw [List.length_append, List.length_singleton, Nat.add_assoc, Nat.add_comm 1, h fuel]
  simp only [List.append_assoc, List.singleton_append]

end

/-! ## Steps and runs -/

/-- The call in progress has programmed the bursts that its loops are past. -/
structure Recorded (s : State) : Prop extends Placed s where
  recorded : ∀ c, s.current = some c → c.id < s.calls ∧
    ∀ st, (c.point.position st).Matches st c.axitxTrans (s.burstsOf (c.id, st))

theorem Recorded.idle {s : State} (h : Placed s) (hc : s.current = none) : Recorded s :=
  ⟨h, fun c hc' => by rw [hc] at hc'; cases hc'⟩

/-- The call goes from `x` to `y` in a loop; the other loop sees nothing of it. -/
theorem Recorded.move {s s' : State} {c : Call} {point : Point} (h : Recorded s)
    (hc : s.current = some c) (stage : Stage) {x y : Position}
    (hx : ∀ st, c.point.position st = stage.position st x)
    (hy : ∀ st, point.position st = stage.position st y) (hP : Placed s')
    (hcalls : s'.calls = s.calls) (hcur : s'.current = some { c with point })
    (hne : ∀ st, st ≠ stage → s'.burstsOf (c.id, st) = s.burstsOf (c.id, st))
    (hM : x.Matches stage c.axitxTrans (s.burstsOf (c.id, stage)) →
      y.Matches stage c.axitxTrans (s'.burstsOf (c.id, stage))) : Recorded s' := by
  obtain ⟨hid, hm⟩ := h.recorded c hc
  refine ⟨hP, fun c' hc' => ?_⟩
  obtain rfl : c' = { c with point } := Option.some.inj (hc'.symm.trans hcur)
  refine ⟨by rw [hcalls]; exact hid, fun st => ?_⟩
  have hst := hm st
  rw [hx st] at hst
  change (point.position st).Matches st c.axitxTrans (s'.burstsOf (c.id, st))
  rw [hy st]
  by_cases he : st = stage
  · subst he
    rw [position_self] at hst ⊢
    exact hM hst
  · rw [hne st he, position_of_ne he y x]
    exact hst

theorem goto_pending (s : State) (c : Call) (point : Point) :
    (s.goto c point).pending = s.pending := rfl

theorem iterate_pending (s : State) (c : Call) (stage : Stage) (l : Loop) :
    (s.iterate c stage l).pending = s.pending := by
  unfold State.iterate
  split <;> rw [goto_pending]

theorem recorded_iterate {s : State} {c : Call} {stage : Stage} {l : Loop} (h : Recorded s)
    (hc : s.current = some c) (hp : c.point = .loop stage l) : Recorded (s.iterate c stage l) := by
  have hpend := iterate_pending s c stage l
  have hr := iterate_raised s c stage l
  have hcalls := iterate_calls s c stage l
  have hP := h.toPlaced.congr hpend hr hcalls.ge
  have hx : ∀ st, c.point.position st = stage.position st (.looping l) := fun st => by rw [hp]; rfl
  by_cases h0 : l.dataRemaining > 0
  · refine h.move hc stage hx (fun st => rfl) hP hcalls (iterate_current_of_pos s c stage h0)
      (fun st _ => burstsOf_congr hpend hr _) fun hm => ?_
    rw [burstsOf_congr hpend hr]
    exact matches_iterate hm h0
  · have hcur : (s.iterate c stage l).current = some { c with point := .wait stage } := by
      rw [State.iterate, if_neg h0]
      rfl
    refine h.move hc stage hx (fun st => rfl) hP hcalls hcur
      (fun st _ => burstsOf_congr hpend hr _) fun hm => ?_
    rw [burstsOf_congr hpend hr]
    exact matches_exit hm h0

theorem program_pending_of_ne (s : State) (c : Call) {stage st : Stage} (l : Loop)
    (h : st ≠ stage) : (s.program c stage l).pending st = s.pending st := by
  rw [State.program, goto_pending]
  exact Function.update_of_ne h _ _

theorem program_pending_self (s : State) (c : Call) (stage : Stage) (l : Loop) :
    ∃ b : Programmed, (s.program c stage l).pending stage = s.pending stage ++ [b] ∧
      b.IsOf (c.id, stage) ∧ b.burst = stage.program l.psNext l.plNext l.burstSize := by
  refine ⟨⟨c.id, stage, l.dataRemaining = 0, stage.program l.psNext l.plNext l.burstSize⟩, ?_,
    ⟨rfl, rfl⟩, rfl⟩
  rw [State.program, goto_pending]
  exact Function.update_self stage _ s.pending

theorem recorded_program {s : State} {c : Call} {stage : Stage} {l : Loop} (h : Recorded s)
    (hc : s.current = some c) (hp : c.point = .program stage l) :
    Recorded (s.program c stage l) := by
  obtain ⟨b, hself, hb, hburst⟩ := program_pending_self s c stage l
  have hr : (s.program c stage l).raised = s.raised := by rw [State.program, goto_raised]
  have hcalls : (s.program c stage l).calls = s.calls := by rw [State.program, goto_calls]
  have hP : Placed (s.program c stage l) := by
    constructor
    · intro st b' hb'
      rw [hcalls]
      by_cases he : st = stage
      · subst he
        rw [hself] at hb'
        rcases List.mem_append.mp hb' with hb' | hb'
        · exact h.pending st b' hb'
        · obtain rfl := List.mem_singleton.mp hb'
          exact ⟨hb.2, hb.1.trans_lt (h.recorded c hc).1⟩
      · rw [program_pending_of_ne s c l he] at hb'
        exact h.pending st b' hb'
    · rw [hr, hcalls]
      exact h.raised
  refine h.move hc stage (fun st => by rw [hp]; rfl) (fun st => rfl) hP hcalls rfl
    (fun st he => ?_) fun hm => ?_
  · rw [State.burstsOf, hr, program_pending_of_ne s c l he]
    rfl
  · have happ : (s.program c stage l).burstsOf (c.id, stage) =
        s.burstsOf (c.id, stage) ++ [stage.program l.psNext l.plNext l.burstSize] := by
      rw [State.burstsOf, State.burstsOf, hr, hself, ← hburst]
      simp [hb]
    rw [happ]
    exact matches_program hm

/-- **One step.** -/
theorem recorded_of_taken {s s' : State} {e : Event} (h : Recorded s) (ht : Taken s e s') :
    Recorded s' := by
  cases ht with
  | call addrList argument hc =>
    have hP : Placed (s.enter addrList argument) :=
      h.toPlaced.congr rfl rfl (Nat.le_succ s.calls)
    refine ⟨hP, fun c' hc' => ?_⟩
    obtain rfl := Option.some.inj hc'
    refine ⟨Nat.lt_succ_self s.calls, fun st => ?_⟩
    have hnil : (s.enter addrList argument).burstsOf (s.calls, st) = [] :=
      (burstsOf_congr rfl rfl _).trans (burstsOf_calls h.toPlaced st)
    cases st <;> exact hnil
  | other n hn => exact h
  | silent n stage b rest hn hb hf =>
    refine ⟨h.toPlaced.raise hb, fun c hc => ?_⟩
    obtain ⟨hid, hm⟩ := h.recorded c hc
    exact ⟨hid, fun st => by rw [burstsOf_raise h.toPlaced hb]; exact hm st⟩
  | complete n stage b rest comp hn hb hf hcomp =>
    refine ⟨(h.toPlaced.raise hb).congr rfl rfl le_rfl, fun c hc => ?_⟩
    obtain ⟨hid, hm⟩ := h.recorded c hc
    refine ⟨hid, fun st => ?_⟩
    change (c.point.position st).Matches st c.axitxTrans
      ((s.raise stage b rest).burstsOf (c.id, st))
    rw [burstsOf_raise h.toPlaced hb]
    exact hm st
  | fault c hc hp => exact .idle (h.toPlaced.congr rfl rfl le_rfl) rfl
  | init c stage comp hc hp hcomp =>
    exact h.move hc stage (fun st => by rw [hp]; rfl) (fun st => rfl)
      (h.toPlaced.congr rfl rfl le_rfl) rfl rfl (fun st _ => burstsOf_congr rfl rfl _) matches_start
  | iterate c stage l hc hp => exact recorded_iterate h hc hp
  | program c stage l hc hp => exact recorded_program h hc hp
  | release c stage comp hc hp hcomp hd =>
    cases stage with
    | psddrPlddr =>
      obtain ⟨hid, hm⟩ := h.recorded c hc
      refine ⟨h.toPlaced.congr rfl rfl le_rfl, fun c' hc' => ?_⟩
      obtain rfl := proceed_current hc'
      refine ⟨hid, fun st => ?_⟩
      have hst := hm st
      rw [hp] at hst
      cases st <;> exact hst
    | plddrPsddr => exact .idle (h.toPlaced.congr rfl rfl le_rfl) rfl
  | timeout c stage comp hc hp hcomp hd => exact .idle (h.toPlaced.congr rfl rfl le_rfl) rfl

theorem recorded_boot (done : Nat → Nat) : Recorded (boot done) := by
  refine .idle ⟨fun stage b hb => ?_, fun b hb => ?_⟩ rfl <;> cases hb

/-- **The bursts of a call.**  Whatever the interrupts, a call in its second wait has
programmed what the two loops program when they run alone. -/
theorem bursts_of_wait {done : Nat → Nat} {es : List Event} {s : State} {c : Call}
    (h : run step (boot done) es = some s) (hc : s.current = some c)
    (hp : c.point = .wait .plddrPsddr) :
    (∃ fuel, psddrPlddr fuel c.axitxTrans = some (s.burstsOf (c.id, .psddrPlddr))) ∧
      ∃ fuel, plddrPsddr fuel c.axitxTrans = some (s.burstsOf (c.id, .plddrPsddr)) := by
  have hI : Recorded s := invariant_of_run
    (fun _ _ _ hI hs => recorded_of_taken hI (taken_of_step hs)) (recorded_boot done) h
  obtain ⟨-, hm⟩ := hI.recorded c hc
  rw [hp] at hm
  exact ⟨⟨_, hm .psddrPlddr⟩, ⟨_, hm .plddrPsddr⟩⟩

/-- So the memories, once all bursts of the call are executed, are those of
`psddrPlddrLoopback`, whose ten loads the call is past. -/
theorem board_of_wait {done : Nat → Nat} {es : List Event} {s : State} {c : Call}
    (h : run step (boot done) es = some s) (hc : s.current = some c)
    (hp : c.point = .wait .plddrPsddr) (addrList : List Allocation) {readable : Nat → Bool}
    {trans : Transaction} (ht : c.axitxTrans = transfer addrList trans)
    (hread : txReadable readable trans = true) (m : Board) :
    ∃ fuel, psddrPlddrLoopback fuel addrList readable trans 1 1 m =
      .ok (some (0, (s.burstsOf (c.id, .plddrPsddr)).foldl Board.toPs
        ((s.burstsOf (c.id, .psddrPlddr)).foldl Board.toPl m))) := by
  obtain ⟨⟨n, h₁⟩, ⟨k, h₂⟩⟩ := bursts_of_wait h hc hp
  rw [ht] at h₁ h₂
  refine ⟨n + k, ?_⟩
  have h₁' : psddrPlddr (n + k) (transfer addrList trans) =
      some (s.burstsOf (c.id, .psddrPlddr)) := bursts_mono h₁ k
  have h₂' : plddrPsddr (n + k) (transfer addrList trans) =
      some (s.burstsOf (c.id, .plddrPsddr)) := by
    rw [Nat.add_comm]
    exact bursts_mono h₂ n
  rw [psddrPlddrLoopback_of_readable hread, runLoops, h₁', h₂']
  rfl

end DeepSpace.AxiTangxi
