import DeepSpace.Loopback
import DeepSpace.Runs
import Mathlib.Logic.Function.Basic

/-!
# Loopback calls and interrupts

The driver of `axi_tangxi.c` step by step, between the interrupts that `irq_handler` of
`axitangxi_dev.c` serves.  The PL raises one interrupt for every programmed burst, in
programming order for each of the two loops.

* `linked`: the completion in use is that of the call in progress;
* `no_premature_completion`: no wait ends before the last interrupt of its loop, when no
  other interrupt finds the flag of its loop set during it;
* `premature_of_untimely`: and one that does can end the wait.
-/

namespace DeepSpace.AxiTangxi

open DeepSpace.Runs

/-! ## State -/

def S2MM_PS_DONE : Nat := 257

def S2MM_PL_DONE : Nat := 259

/-- The two loops of a call. -/
inductive Stage where
  | psddrPlddr
  | plddrPsddr
  deriving DecidableEq

/-- `struct axitangxi_irq_data`: what the driver sets.  A completion is known by the
number of its call. -/
structure IrqData where
  lastS2mmPsDone : Bool
  lastS2mmPlDone : Bool
  comp : Option Nat

/-- A burst and its place in the run. -/
structure Programmed where
  call : Nat
  stage : Stage
  last : Bool
  burst : Burst
  deriving DecidableEq

/-- Where a call is: before `init_completion`, at the head of the loop, before the burst
of an iteration, or in `wait_for_completion_timeout`. -/
inductive Point where
  | init (stage : Stage)
  | loop (stage : Stage) (l : Loop)
  | program (stage : Stage) (l : Loop)
  | wait (stage : Stage)

structure Call where
  id : Nat
  axitxTrans : Transfer
  point : Point

/-- The driver, the completions, and the interrupts of programmed bursts: those still to
come, for each loop, and those that came. -/
structure State where
  irqData : IrqData
  done : Nat → Nat
  calls : Nat
  current : Option Call
  pending : Stage → List Programmed
  raised : List Programmed

/-- The loaded module.  Completions live on the stack, and start as it is. -/
def boot (done : Nat → Nat) : State where
  irqData := ⟨false, false, none⟩
  done := done
  calls := 0
  current := none
  pending := fun _ => []
  raised := []

namespace Stage

def start : Stage → Transfer → Loop
  | psddrPlddr => psddrPlddrStart
  | plddrPsddr => plddrPsddrStart

def program : Stage → Nat → Nat → Nat → Burst
  | psddrPlddr => mm2sPsDataS2mmPl
  | plddrPsddr => s2mmPsDataMm2sPl

def flag : Stage → IrqData → Bool
  | psddrPlddr, d => d.lastS2mmPlDone
  | plddrPsddr, d => d.lastS2mmPsDone

def setFlag : Stage → IrqData → IrqData
  | psddrPlddr, d => { d with lastS2mmPlDone := true }
  | plddrPsddr, d => { d with lastS2mmPsDone := true }

/-- The loop whose bursts raise an interrupt. -/
def ofIrq (irqTX : Nat) : Option Stage :=
  if irqTX = S2MM_PL_DONE then some psddrPlddr
  else if irqTX = S2MM_PS_DONE then some plddrPsddr
  else none

end Stage

/-! ## Steps -/

/-- `fault` is that of a `printk` which loads through the user's pointer. -/
inductive Event where
  | call (addrList : List Allocation) (argument : Transaction)
  | fault
  | init
  | iterate
  | program
  | release
  | timeout
  | irq (irqTX : Nat)

/-- `complete`; `none` where it would follow a null pointer. -/
def complete (d : IrqData) (done : Nat → Nat) : Option (Nat → Nat) :=
  d.comp.map fun c => Function.update done c (done c + 1)

/-- `irq_handler`; the cases that only print are the last one. -/
def irqHandler (irqTX : Nat) (d : IrqData) (done : Nat → Nat) : Option (Nat → Nat) :=
  if irqTX = S2MM_PS_DONE then
    if d.lastS2mmPsDone then complete d done else some done
  else if irqTX = S2MM_PL_DONE then
    if d.lastS2mmPlDone then complete d done else some done
  else some done

namespace State

/-- The PL raises the interrupt of `b`. -/
def raise (s : State) (stage : Stage) (b : Programmed) (rest : List Programmed) : State :=
  { s with pending := Function.update s.pending stage rest, raised := b :: s.raised }

/-- An interrupt, and its handler.  Those of the two loops come from programmed bursts. -/
def irq (s : State) (irqTX : Nat) : Option State :=
  match Stage.ofIrq irqTX with
  | none => (irqHandler irqTX s.irqData s.done).map fun done => { s with done }
  | some stage =>
    match s.pending stage with
    | [] => none
    | b :: rest =>
      (irqHandler irqTX s.irqData s.done).map fun done => { s.raise stage b rest with done }

/-- Entry, up to `axitangxi_irq_data.comp = &comp`. -/
def enter (s : State) (addrList : List Allocation) (trans : Transaction) : State :=
  { s with
    irqData := { s.irqData with comp := some s.calls }
    calls := s.calls + 1
    current := some ⟨s.calls, transfer addrList trans, .init .psddrPlddr⟩ }

def goto (s : State) (c : Call) (point : Point) : State :=
  { s with current := some { c with point } }

/-- The kernel ends the task, and its stack goes with it. -/
def fault (s : State) : State := { s with current := none }

/-- `init_completion`, and the first statements of the loop. -/
def initCompletion (s : State) (c : Call) (stage : Stage) : Option State :=
  s.irqData.comp.map fun comp =>
    { s with done := Function.update s.done comp 0 }.goto c (.loop stage (stage.start c.axitxTrans))

/-- The `while`, and an iteration up to its burst. -/
def iterate (s : State) (c : Call) (stage : Stage) (l : Loop) : State :=
  if l.dataRemaining > 0 then
    let l := l.lastBurst.subtract
    { s with
      irqData := if l.dataRemaining = 0 then stage.setFlag s.irqData else s.irqData }.goto c
        (.program stage l)
  else s.goto c (.wait stage)

/-- The burst of an iteration, and the rest of it. -/
def program (s : State) (c : Call) (stage : Stage) (l : Loop) : State :=
  let b : Programmed :=
    ⟨c.id, stage, l.dataRemaining = 0, stage.program l.psNext l.plNext l.burstSize⟩
  { s with
    pending := Function.update s.pending stage (s.pending stage ++ [b]) }.goto c
      (.loop stage l.advance)

/-- Behind a wait: the second loop, or `return`. -/
def proceed (s : State) (c : Call) : Stage → State
  | .psddrPlddr => s.goto c (.init .plddrPsddr)
  | .plddrPsddr => { s with current := none }

/-- `wait_for_completion_timeout` returns the time that is left. -/
def release (s : State) (c : Call) (stage : Stage) : Option State :=
  s.irqData.comp.bind fun comp =>
    if s.done comp = 0 then none
    else some ({ s with done := Function.update s.done comp (s.done comp - 1) }.proceed c stage)

/-- `wait_for_completion_timeout` returns 0, and the call `-ETIME`. -/
def timeout (s : State) : Option State :=
  s.irqData.comp.bind fun comp =>
    if s.done comp = 0 then some { s with current := none } else none

/-- The next statement of the call. -/
def advance (s : State) (c : Call) (e : Event) : Option State :=
  match c.point, e with
  | .init .psddrPlddr, .fault => some s.fault
  | .init stage, .init => s.initCompletion c stage
  | .loop stage l, .iterate => some (s.iterate c stage l)
  | .program stage l, .program => some (s.program c stage l)
  | .wait stage, .release => s.release c stage
  | .wait _, .timeout => s.timeout
  | _, _ => none

end State

def step (s : State) : Event → Option State
  | .call addrList argument =>
    if s.current.isNone then some (s.enter addrList argument) else none
  | .irq irqTX => s.irq irqTX
  | e => s.current.bind fun c => s.advance c e

/-! ## What a step can do -/

/-- The cases of `step`. -/
inductive Taken (s : State) : Event → State → Prop where
  | call (addrList : List Allocation) (argument : Transaction) (hc : s.current = none) :
      Taken s (.call addrList argument) (s.enter addrList argument)
  | other (n : Nat) (hn : Stage.ofIrq n = none) : Taken s (.irq n) s
  | silent (n : Nat) (stage : Stage) (b : Programmed) (rest : List Programmed)
      (hn : Stage.ofIrq n = some stage) (hb : s.pending stage = b :: rest)
      (hf : stage.flag s.irqData = false) : Taken s (.irq n) (s.raise stage b rest)
  | complete (n : Nat) (stage : Stage) (b : Programmed) (rest : List Programmed) (comp : Nat)
      (hn : Stage.ofIrq n = some stage) (hb : s.pending stage = b :: rest)
      (hf : stage.flag s.irqData = true) (hcomp : s.irqData.comp = some comp) :
      Taken s (.irq n)
        { s.raise stage b rest with done := Function.update s.done comp (s.done comp + 1) }
  | fault (c : Call) (hc : s.current = some c) (hp : c.point = .init .psddrPlddr) :
      Taken s .fault s.fault
  | init (c : Call) (stage : Stage) (comp : Nat) (hc : s.current = some c)
      (hp : c.point = .init stage) (hcomp : s.irqData.comp = some comp) :
      Taken s .init ({ s with done := Function.update s.done comp 0 }.goto c
        (.loop stage (stage.start c.axitxTrans)))
  | iterate (c : Call) (stage : Stage) (l : Loop) (hc : s.current = some c)
      (hp : c.point = .loop stage l) : Taken s .iterate (s.iterate c stage l)
  | program (c : Call) (stage : Stage) (l : Loop) (hc : s.current = some c)
      (hp : c.point = .program stage l) : Taken s .program (s.program c stage l)
  | release (c : Call) (stage : Stage) (comp : Nat) (hc : s.current = some c)
      (hp : c.point = .wait stage) (hcomp : s.irqData.comp = some comp) (hd : s.done comp ≠ 0) :
      Taken s .release
        ({ s with done := Function.update s.done comp (s.done comp - 1) }.proceed c stage)
  | timeout (c : Call) (stage : Stage) (comp : Nat) (hc : s.current = some c)
      (hp : c.point = .wait stage) (hcomp : s.irqData.comp = some comp) (hd : s.done comp = 0) :
      Taken s .timeout { s with current := none }

theorem irqHandler_of_none {n : Nat} (hn : Stage.ofIrq n = none) (d : IrqData)
    (done : Nat → Nat) : irqHandler n d done = some done := by
  unfold Stage.ofIrq at hn
  split at hn
  · cases hn
  · split at hn
    · cases hn
    · rw [irqHandler, if_neg ‹_›, if_neg ‹_›]

theorem irqHandler_of_some {n : Nat} {stage : Stage} (hn : Stage.ofIrq n = some stage)
    (d : IrqData) (done : Nat → Nat) :
    irqHandler n d done = if stage.flag d then complete d done else some done := by
  unfold Stage.ofIrq at hn
  split at hn
  · obtain rfl := Option.some.inj hn
    subst n
    rfl
  · split at hn
    · obtain rfl := Option.some.inj hn
      subst n
      rfl
    · cases hn

theorem taken_of_irq {s s' : State} {n : Nat} (h : s.irq n = some s') : Taken s (.irq n) s' := by
  unfold State.irq at h
  split at h
  · next hn =>
    rw [irqHandler_of_none hn] at h
    obtain rfl := Option.some.inj h
    exact .other n hn
  · next stage hn =>
    rw [irqHandler_of_some hn] at h
    split at h
    · cases h
    · next b rest hb =>
      by_cases hf : stage.flag s.irqData = true
      · rw [if_pos hf, complete, Option.map_map] at h
        obtain ⟨comp, hcomp, rfl⟩ := Option.map_eq_some_iff.mp h
        exact .complete n stage b rest comp hn hb hf hcomp
      · rw [if_neg hf] at h
        obtain rfl := Option.some.inj h
        exact .silent n stage b rest hn hb (Bool.eq_false_iff.mpr hf)

theorem taken_of_advance {s s' : State} {c : Call} {e : Event} (hc : s.current = some c)
    (h : s.advance c e = some s') : Taken s e s' := by
  unfold State.advance at h
  split at h
  · next hp =>
    obtain rfl := Option.some.inj h
    exact .fault c hc hp
  · next stage hp =>
    obtain ⟨comp, hcomp, rfl⟩ := Option.map_eq_some_iff.mp h
    exact .init c stage comp hc hp hcomp
  · next stage l hp =>
    obtain rfl := Option.some.inj h
    exact .iterate c stage l hc hp
  · next stage l hp =>
    obtain rfl := Option.some.inj h
    exact .program c stage l hc hp
  · next stage hp =>
    obtain ⟨comp, hcomp, h⟩ := Option.bind_eq_some_iff.mp h
    split at h
    · cases h
    · next hd =>
      obtain rfl := Option.some.inj h
      exact .release c stage comp hc hp hcomp hd
  · next stage hp =>
    obtain ⟨comp, hcomp, h⟩ := Option.bind_eq_some_iff.mp h
    split at h
    · next hd =>
      obtain rfl := Option.some.inj h
      exact .timeout c stage comp hc hp hcomp hd
    · cases h
  · cases h

theorem taken_of_step {s s' : State} {e : Event} (h : step s e = some s') : Taken s e s' := by
  unfold step at h
  split at h
  · split at h
    · next hc =>
      obtain rfl := Option.some.inj h
      exact .call _ _ (Option.isNone_iff_eq_none.mp hc)
    · cases h
  · exact taken_of_irq h
  · obtain ⟨c, hc, h⟩ := Option.bind_eq_some_iff.mp h
    exact taken_of_advance hc h

/-! ## The completion in use -/

/-- The completion is that of the call in progress, and there is one before any flag. -/
structure Linked (s : State) : Prop where
  current : ∀ c, s.current = some c → s.irqData.comp = some c.id
  flagged : ∀ stage, Stage.flag stage s.irqData = true → s.irqData.comp ≠ none

theorem comp_setFlag (stage : Stage) (d : IrqData) : (stage.setFlag d).comp = d.comp := by
  cases stage <;> rfl

theorem Linked.of_goto {s s' : State} {c : Call} (h : Linked s) (hc : s.current = some c)
    (hd : s'.irqData.comp = s.irqData.comp) (hcur : ∀ c', s'.current = some c' → c'.id = c.id) :
    Linked s' := by
  have hcomp := h.current c hc
  constructor
  · intro c' hc'
    rw [hd, hcomp, hcur c' hc']
  · intro stage _
    rw [hd, hcomp]
    exact Option.some_ne_none _

theorem goto_current {s : State} {c c' : Call} {point : Point}
    (h : (s.goto c point).current = some c') : c' = { c with point } :=
  (Option.some.inj h).symm

theorem proceed_current {s : State} {c c' : Call} {stage : Stage}
    (h : (s.proceed c stage).current = some c') : c' = { c with point := .init .plddrPsddr } := by
  cases stage with
  | psddrPlddr => exact goto_current h
  | plddrPsddr => cases h

theorem iterate_comp (s : State) (c : Call) (stage : Stage) (l : Loop) :
    (s.iterate c stage l).irqData.comp = s.irqData.comp := by
  unfold State.iterate
  split
  · change (if _ then _ else _ : IrqData).comp = _
    split
    · exact comp_setFlag stage _
    · rfl
  · rfl

theorem iterate_current {s : State} {c c' : Call} {stage : Stage} {l : Loop}
    (h : (s.iterate c stage l).current = some c') : c'.id = c.id := by
  unfold State.iterate at h
  split at h <;> rw [goto_current h]

theorem goto_calls (s : State) (c : Call) (point : Point) : (s.goto c point).calls = s.calls := rfl

theorem iterate_calls (s : State) (c : Call) (stage : Stage) (l : Loop) :
    (s.iterate c stage l).calls = s.calls := by
  unfold State.iterate
  split <;> rw [goto_calls]

theorem linked_of_taken {s s' : State} {e : Event} (h : Linked s) (ht : Taken s e s') :
    Linked s' := by
  cases ht with
  | call addrList argument hc =>
    constructor
    · intro c hc'
      rw [← Option.some.inj hc']
      rfl
    · exact fun _ _ => Option.some_ne_none _
  | other n hn => exact h
  | silent n stage b rest hn hb hf => exact ⟨h.current, h.flagged⟩
  | complete n stage b rest comp hn hb hf hcomp => exact ⟨h.current, h.flagged⟩
  | fault c hc hp => exact h.of_goto hc rfl fun c' hc' => by cases hc'
  | init c stage comp hc hp hcomp =>
    exact h.of_goto hc rfl fun c' hc' => by rw [goto_current hc']
  | iterate c stage l hc hp =>
    exact h.of_goto hc (iterate_comp s c stage l) fun c' hc' => iterate_current hc'
  | program c stage l hc hp =>
    exact h.of_goto hc rfl fun c' hc' => by rw [goto_current hc']
  | release c stage comp hc hp hcomp hd =>
    exact h.of_goto hc (by cases stage <;> rfl) fun c' hc' => by rw [proceed_current hc']
  | timeout c stage comp hc hp hcomp hd => exact h.of_goto hc rfl fun c' hc' => by cases hc'

theorem linked_boot (done : Nat → Nat) : Linked (boot done) := by
  constructor
  · exact fun c hc => by cases hc
  · intro stage hf
    cases stage <;> cases hf

/-- **Every run** keeps them linked. -/
theorem linked {done : Nat → Nat} {es : List Event} {s : State}
    (h : run step (boot done) es = some s) : Linked s :=
  invariant_of_run (fun _ _ _ hI hs => linked_of_taken hI (taken_of_step hs)) (linked_boot done) h

/-- So the handler never follows a null pointer: a pending interrupt can be served. -/
theorem irq_isSome {s : State} (h : Linked s) {n : Nat} {stage : Stage}
    (hn : Stage.ofIrq n = some stage) (hp : s.pending stage ≠ []) : (s.irq n).isSome := by
  unfold State.irq
  simp only [hn, irqHandler_of_some hn]
  split
  · exact absurd ‹_› hp
  · split
    · next hf =>
      obtain ⟨comp, hcomp⟩ := Option.ne_none_iff_exists'.mp (h.flagged stage hf)
      rw [complete, hcomp]
      rfl
    · rfl

/-! ## Waits -/

/-- The loop that a call is in, from `init_completion` to the end of its wait. -/
def Point.stage? : Point → Option Stage
  | .init _ => none
  | .loop stage _ | .program stage _ | .wait stage => some stage

/-- The call and the loop in progress. -/
def State.inStage (s : State) : Option (Nat × Stage) :=
  s.current.bind fun c => c.point.stage?.map fun stage => (c.id, stage)

def Programmed.IsLastOf (b : Programmed) (p : Nat × Stage) : Prop :=
  b.call = p.1 ∧ b.stage = p.2 ∧ b.last = true

instance (b : Programmed) (p : Nat × Stage) : Decidable (b.IsLastOf p) :=
  inferInstanceAs (Decidable (_ ∧ _ ∧ _))

/-- The interrupt of the last burst of the loop came. -/
def State.Finished (s : State) (p : Nat × Stage) : Prop := ∃ b ∈ s.raised, b.IsLastOf p

instance (s : State) (p : Nat × Stage) : Decidable (s.Finished p) :=
  inferInstanceAs (Decidable (∃ b ∈ s.raised, b.IsLastOf p))

/-- A wait ends only after the interrupt of the last burst of its loop. -/
def NotPremature (s : State) : Event → Prop
  | .release => (step s .release).isSome → ∃ p ∈ s.inStage, s.Finished p
  | _ => True

/-- An interrupt that finds its flag set during a loop is that of the last burst of the
loop, or comes after it. -/
def Timely (s : State) : Event → Prop
  | .irq n => ∀ stage ∈ Stage.ofIrq n, ∀ b ∈ (s.pending stage).head?,
      stage.flag s.irqData = true → ∀ p ∈ s.inStage, b.IsLastOf p ∨ s.Finished p
  | _ => True

instance (s : State) : (e : Event) → Decidable (NotPremature s e)
  | .release => inferInstanceAs (Decidable (_ → ∃ p ∈ s.inStage, s.Finished p))
  | .call _ _ | .fault | .init | .iterate | .program | .timeout | .irq _ => isTrue trivial

instance (s : State) : (e : Event) → Decidable (Timely s e)
  | .irq n => inferInstanceAs (Decidable (∀ stage ∈ Stage.ofIrq n,
      ∀ b ∈ (s.pending stage).head?, stage.flag s.irqData = true →
        ∀ p ∈ s.inStage, b.IsLastOf p ∨ s.Finished p))
  | .call _ _ | .fault | .init | .iterate | .program | .timeout | .release => isTrue trivial

theorem inStage_eq {s : State} {c : Call} (stage : Stage) (hc : s.current = some c)
    (hp : c.point.stage? = some stage) : s.inStage = some (c.id, stage) := by
  rw [State.inStage, hc, Option.bind_some, hp]
  rfl

/-- A completion that is done during a loop was completed for the last burst of it. -/
structure Awaited (s : State) : Prop extends Linked s where
  finished : ∀ p ∈ s.inStage, s.done p.1 ≠ 0 → s.Finished p

theorem awaited_boot (done : Nat → Nat) : Awaited (boot done) :=
  ⟨linked_boot done, fun p hp => by cases hp⟩

theorem Awaited.of_outside {s : State} (h : Linked s) (hs : s.inStage = none) : Awaited s :=
  ⟨h, fun p hp => by rw [hs] at hp; cases hp⟩

theorem finished_of_raised {s s' : State} {b : Programmed} {p : Nat × Stage}
    (hr : s'.raised = b :: s.raised) (h : b.IsLastOf p ∨ s.Finished p) : s'.Finished p := by
  unfold State.Finished
  rw [hr]
  rcases h with hb | ⟨b', hmem, hb'⟩
  · exact ⟨b, List.mem_cons_self, hb⟩
  · exact ⟨b', List.mem_cons_of_mem _ hmem, hb'⟩

theorem goto_inStage (s : State) (c : Call) (point : Point) :
    (s.goto c point).inStage = point.stage?.map fun stage => (c.id, stage) := rfl

theorem goto_done (s : State) (c : Call) (point : Point) : (s.goto c point).done = s.done := rfl

theorem goto_raised (s : State) (c : Call) (point : Point) :
    (s.goto c point).raised = s.raised := rfl

theorem iterate_inStage (s : State) (c : Call) (stage : Stage) (l : Loop) :
    (s.iterate c stage l).inStage = some (c.id, stage) := by
  unfold State.iterate
  split <;> rw [goto_inStage] <;> rfl

theorem iterate_done (s : State) (c : Call) (stage : Stage) (l : Loop) :
    (s.iterate c stage l).done = s.done := by
  unfold State.iterate
  split <;> rw [goto_done]

theorem iterate_raised (s : State) (c : Call) (stage : Stage) (l : Loop) :
    (s.iterate c stage l).raised = s.raised := by
  unfold State.iterate
  split <;> rw [goto_raised]

/-- **One step.** -/
theorem awaited_of_taken {s s' : State} {e : Event} (h : Awaited s) (hT : Timely s e)
    (ht : Taken s e s') : Awaited s' := by
  have hl := linked_of_taken h.toLinked ht
  cases ht with
  | call addrList argument hc => exact .of_outside hl rfl
  | other n hn => exact h
  | silent n stage b rest hn hb hf =>
    exact ⟨hl, fun p hp hd => finished_of_raised rfl (.inr (h.finished p hp hd))⟩
  | complete n stage b rest comp hn hb hf hcomp =>
    have hhead : b ∈ (s.pending stage).head? := by
      rw [hb]
      exact Option.mem_some_self b
    exact ⟨hl, fun p hp _ => finished_of_raised rfl (hT stage hn b hhead hf p hp)⟩
  | fault c hc hp => exact .of_outside hl rfl
  | init c stage comp hc hp hcomp =>
    have hid : comp = c.id := Option.some.inj (hcomp.symm.trans (h.current c hc))
    refine ⟨hl, fun p hp' hd => absurd ?_ hd⟩
    obtain rfl : (c.id, stage) = p := Option.some.inj hp'
    rw [← hid]
    exact Function.update_self comp 0 s.done
  | iterate c stage l hc hp =>
    refine ⟨hl, fun p hp' hd => ?_⟩
    have hin := inStage_eq stage hc (by rw [hp]; rfl)
    rw [iterate_inStage, ← hin] at hp'
    rw [iterate_done] at hd
    unfold State.Finished
    rw [iterate_raised]
    exact h.finished p hp' hd
  | program c stage l hc hp =>
    refine ⟨hl, fun p hp' hd' => h.finished p ?_ hd'⟩
    rw [inStage_eq stage hc (by rw [hp]; rfl)]
    exact hp'
  | release c stage comp hc hp hcomp hd => exact .of_outside hl (by cases stage <;> rfl)
  | timeout c stage comp hc hp hcomp hd => exact .of_outside hl rfl

theorem notPremature_of_awaited {s : State} (h : Awaited s) (e : Event) : NotPremature s e := by
  cases e with
  | release =>
    intro hsome
    obtain ⟨s', hs'⟩ := Option.isSome_iff_exists.mp hsome
    cases taken_of_step hs' with
    | release c stage comp hc hp hcomp hd =>
      have hid : comp = c.id := Option.some.inj (hcomp.symm.trans (h.current c hc))
      have hin := inStage_eq stage hc (by rw [hp]; rfl)
      exact ⟨_, hin, h.finished _ hin (by rw [← hid]; exact hd)⟩
  | _ => trivial

/-- **No premature completion**, in the runs whose interrupts are all timely. -/
theorem no_premature_completion (done : Nat → Nat) (es : List Event)
    (h : EveryStep step Timely (boot done) es) : EveryStep step NotPremature (boot done) es :=
  everyStep_of_invariant (fun _ _ _ hI hT hs => awaited_of_taken hI hT (taken_of_step hs))
    (fun _ e hI _ => notPremature_of_awaited hI e) (awaited_boot done) h

/-- A call for two bursts, each done before the next iteration, and one for one burst, which
finds both flags set. -/
def servedRun : List Event :=
  [.call [sampleTx, sampleRx] (dataInit sampleTransaction 1048577 1048577 0x10000000 0x11000000),
    .init, .iterate, .program, .irq S2MM_PL_DONE, .iterate, .program, .iterate,
    .irq S2MM_PL_DONE, .release,
    .init, .iterate, .program, .irq S2MM_PS_DONE, .iterate, .program, .irq S2MM_PS_DONE,
    .iterate, .release,
    .call [sampleTx, sampleRx] (dataInit sampleTransaction 16 16 0x10000000 0x11000000),
    .init, .iterate, .program, .irq S2MM_PL_DONE, .iterate, .release,
    .init, .iterate, .program, .iterate, .irq S2MM_PS_DONE, .release]

theorem no_premature_completion_servedRun :
    (run step (boot fun _ => 0) servedRun).isSome ∧
      EveryStep step NotPremature (boot fun _ => 0) servedRun :=
  ⟨by decide +kernel, no_premature_completion _ _ (by decide +kernel)⟩

/-- A first call, for two bursts, both programmed before the first interrupt. -/
def twoBurstRun : List Event :=
  [.call [sampleTx, sampleRx] (dataInit sampleTransaction 1048577 1048577 0x10000000 0x11000000),
    .init, .iterate, .program, .iterate, .program, .iterate, .irq S2MM_PL_DONE, .release]

/-- The interrupt of the first burst ends the wait. -/
theorem twoBurstRun_premature :
    (run step (boot fun _ => 0) twoBurstRun).isSome ∧
      ¬ EveryStep step NotPremature (boot fun _ => 0) twoBurstRun := by
  decide +kernel

/-! ## An untimely interrupt -/

theorem step_iterate {s : State} {c : Call} {stage : Stage} {l : Loop} (hc : s.current = some c)
    (hp : c.point = .loop stage l) : step s .iterate = some (s.iterate c stage l) := by
  change (s.current.bind fun c => s.advance c .iterate) = _
  rw [hc, Option.bind_some]
  simp only [State.advance, hp]

theorem step_program {s : State} {c : Call} {stage : Stage} {l : Loop} (hc : s.current = some c)
    (hp : c.point = .program stage l) : step s .program = some (s.program c stage l) := by
  change (s.current.bind fun c => s.advance c .program) = _
  rw [hc, Option.bind_some]
  simp only [State.advance, hp]

theorem iterate_current_of_pos (s : State) (c : Call) (stage : Stage) {l : Loop}
    (h : l.dataRemaining > 0) : (s.iterate c stage l).current =
      some { c with point := .program stage l.lastBurst.subtract } := by
  rw [State.iterate, if_pos h]
  rfl

/-- The driver went to the wait of `p`, with no interrupt on the way. -/
structure Arrived (s s' : State) (p : Nat × Stage) : Prop where
  current : ∃ c, s'.current = some c ∧ c.id = p.1 ∧ c.point = .wait p.2
  done : s'.done = s.done
  raised : s'.raised = s.raised
  comp : s'.irqData.comp = s.irqData.comp

theorem arrived_of_exit {stage : Stage} {l : Loop} {s : State} {c : Call}
    (hc : s.current = some c) (hp : c.point = .loop stage l) (h0 : ¬ l.dataRemaining > 0) :
    ∃ es s', run step s es = some s' ∧ Arrived s s' (c.id, stage) := by
  have hi : s.iterate c stage l = s.goto c (.wait stage) := if_neg h0
  refine ⟨[.iterate], _, run_cons (step_iterate hc hp) [], ?_⟩
  rw [hi]
  exact ⟨⟨{ c with point := .wait stage }, rfl, rfl, rfl⟩, rfl, rfl, rfl⟩

theorem arrived_of_program {stage : Stage} {l : Loop} {s : State} {c : Call}
    (hc : s.current = some c) (hp : c.point = .program stage l)
    (hloop : ∀ (s : State) (c' : Call), s.current = some c' → c'.id = c.id →
      c'.point = .loop stage l.advance →
        ∃ es s', run step s es = some s' ∧ Arrived s s' (c.id, stage)) :
    ∃ es s', run step s es = some s' ∧ Arrived s s' (c.id, stage) := by
  obtain ⟨es, s', hrun, harr⟩ := hloop (s.program c stage l)
    { c with point := .loop stage l.advance } rfl rfl rfl
  refine ⟨.program :: es, s', (run_cons (step_program hc hp) es).trans hrun, harr.current, ?_, ?_,
    ?_⟩
  · rw [harr.done, State.program, goto_done]
  · rw [harr.raised, State.program, goto_raised]
  · rw [harr.comp]
    rfl

/-- A loop that ends takes the driver to its wait. -/
theorem arrived_of_bursts {stage : Stage} (fuel : Nat) :
    ∀ (l : Loop) (bs : List Burst) (s : State) (c : Call), s.current = some c →
      c.point = .loop stage l → l.bursts stage.program fuel = some bs →
        ∃ es s', run step s es = some s' ∧ Arrived s s' (c.id, stage) := by
  induction fuel with
  | zero =>
    intro l bs s c hc hp hb
    refine arrived_of_exit hc hp fun h0 => ?_
    rw [Loop.bursts, if_pos h0] at hb
    cases hb
  | succ fuel ih =>
    intro l bs s c hc hp hb
    by_cases h0 : l.dataRemaining > 0
    · rw [Loop.bursts, if_pos h0] at hb
      obtain ⟨bs', hb', -⟩ := Option.map_eq_some_iff.mp hb
      obtain ⟨es, s', hrun, harr⟩ := arrived_of_program (iterate_current_of_pos s c stage h0) rfl
        fun t c' ht hid hp' => by
          obtain ⟨es, s', hrun, harr⟩ := ih _ bs' t c' ht hp' hb'
          exact ⟨es, s', hrun, hid ▸ harr⟩
      refine ⟨.iterate :: es, s', (run_cons (step_iterate hc hp) es).trans hrun, harr.current, ?_,
        ?_, ?_⟩
      · rw [harr.done, iterate_done]
      · rw [harr.raised, iterate_raised]
      · rw [harr.comp, iterate_comp]
    · exact arrived_of_exit hc hp h0

/-- What is left of the loop ends. -/
def Point.Ends : Point → Prop
  | .loop stage l => ∃ fuel bs, l.bursts stage.program fuel = some bs
  | .program stage l => ∃ fuel bs, l.advance.bursts stage.program fuel = some bs
  | _ => True

theorem arrived_of_ends {s : State} {c : Call} {stage : Stage} (hc : s.current = some c)
    (hp : c.point.stage? = some stage) (he : c.point.Ends) :
    ∃ es s', run step s es = some s' ∧ Arrived s s' (c.id, stage) := by
  cases hpt : c.point with
  | init stage' => rw [hpt] at hp; cases hp
  | loop stage' l =>
    rw [hpt] at hp he
    obtain rfl := Option.some.inj hp
    obtain ⟨fuel, bs, hb⟩ := he
    exact arrived_of_bursts fuel l bs s c hc hpt hb
  | program stage' l =>
    rw [hpt] at hp he
    obtain rfl := Option.some.inj hp
    obtain ⟨fuel, bs, hb⟩ := he
    refine arrived_of_program hc hpt fun t c' ht hid hp' => ?_
    obtain ⟨es, s', hrun, harr⟩ := arrived_of_bursts fuel _ bs t c' ht hp' hb
    exact ⟨es, s', hrun, hid ▸ harr⟩
  | wait stage' =>
    rw [hpt] at hp
    obtain rfl := Option.some.inj hp
    exact ⟨[], s, rfl, ⟨c, hc, rfl, hpt⟩, rfl, rfl, rfl⟩

theorem step_release {s : State} {c : Call} {stage : Stage} {comp : Nat}
    (hc : s.current = some c) (hp : c.point = .wait stage) (hcomp : s.irqData.comp = some comp)
    (hd : s.done comp ≠ 0) : (step s .release).isSome := by
  change (s.current.bind fun c => s.advance c .release).isSome
  rw [hc, Option.bind_some]
  simp only [State.advance, hp, State.release, hcomp, Option.bind_some, if_neg hd,
    Option.isSome_some]

/-- **The condition is the right one.**  After an interrupt that is not timely, the driver
can go on to its wait, and end it, before the last burst of the loop is done. -/
theorem premature_of_untimely {s s₁ : State} {n : Nat} (hl : Linked s) (hT : ¬ Timely s (.irq n))
    (h : step s (.irq n) = some s₁) (hend : ∀ c, s.current = some c → c.point.Ends) :
    ∃ es s₂, run step s₁ es = some s₂ ∧ ¬ NotPremature s₂ .release := by
  simp only [Timely, not_forall, not_or] at hT
  obtain ⟨stage, hn, b, hb, hf, p, hp, hlast, hfin⟩ := hT
  obtain ⟨c, hc, hp⟩ := Option.bind_eq_some_iff.mp hp
  obtain ⟨stage', hst, rfl⟩ := Option.map_eq_some_iff.mp hp
  cases taken_of_step h with
  | other _ hn' => rw [hn'] at hn; cases hn
  | silent _ stage₁ b₁ rest hn' hb' hf' =>
    obtain rfl := Option.some.inj (hn'.symm.trans hn)
    rw [hf'] at hf
    cases hf
  | complete _ stage₁ b₁ rest comp hn' hb' hf' hcomp =>
    obtain rfl := Option.some.inj (hn'.symm.trans hn)
    rw [hb'] at hb
    obtain rfl := Option.some.inj hb
    obtain rfl : comp = c.id := Option.some.inj (hcomp.symm.trans (hl.current c hc))
    obtain ⟨es, s₂, hrun, ⟨c₂, hc₂, hid, hp₂⟩, hd, hr, hcomp₂⟩ := arrived_of_ends
      (s := { s.raise stage₁ b₁ rest with done := Function.update s.done c.id (s.done c.id + 1) })
      hc hst (hend c hc)
    refine ⟨es, s₂, hrun, fun hnp => ?_⟩
    have hdone : s₂.done c.id ≠ 0 := by
      rw [hd]
      exact (Function.update_self c.id (s.done c.id + 1) s.done).trans_ne (Nat.succ_ne_zero _)
    obtain ⟨p, hin, b', hmem, hb₂⟩ := hnp (step_release hc₂ hp₂ (hcomp₂.trans hcomp) hdone)
    rw [inStage_eq stage' hc₂ (by rw [hp₂]; rfl), hid] at hin
    obtain rfl := Option.some.inj hin
    rw [hr] at hmem
    rcases List.mem_cons.mp hmem with rfl | hmem
    · exact hlast hb₂
    · exact hfin ⟨b', hmem, hb₂⟩

end DeepSpace.AxiTangxi
