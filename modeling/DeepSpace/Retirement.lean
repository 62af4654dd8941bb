import DeepSpace.Completion

/-!
# Several calls, and interrupts at any time

The statements of a call are those of `Completion`.  Here any number of calls may be in
progress, since nothing in `axitangxi_ioctl` keeps them apart, and interrupts need no burst.

* `latest`: the completion in use is that of the call entered last;
* `told_of_step`: what the events of a run tell of the flags and of the calls in progress;
* `sound_iff_inTime`: so a run completes no object of a call that has returned iff the
  interrupts of a loop, once a call came to its last burst, find the call entered last
  in progress;
* `Shows.exists_run`: the runs of `Completion` are among these.
-/

namespace DeepSpace.AxiTangxi

open DeepSpace.Runs

/-! ## The module -/

/-- `running i` is call `i`, as long as it has not returned; `seen i` is the completion that
its last statement found in `axitangxi_irq_data`, and that its wait was given. -/
structure Driver where
  irqData : IrqData
  done : Nat → Nat
  calls : Nat
  running : Nat → Option Call
  seen : Nat → Option Nat

inductive Action where
  | call (addrList : List Allocation) (argument : Transaction)
  | statement (i : Nat) (e : Event)
  | irq (irqTX : Nat)

def Call.waiting (c : Call) : Bool :=
  match c.point with
  | .wait _ => true
  | _ => false

namespace Driver

def boot (done : Nat → Nat) : Driver where
  irqData := ⟨false, false, none⟩
  done := done
  calls := 0
  running := fun _ => none
  seen := fun _ => none

/-- The module as call `i` sees it.  A wait stays with the completion it was given. -/
def view (s : Driver) (i : Nat) : State where
  irqData := { s.irqData with
    comp := if (s.running i).any Call.waiting then s.seen i else s.irqData.comp }
  done := s.done
  calls := s.calls
  current := s.running i
  pending := fun _ => []
  raised := []

/-- What a statement of call `i` leaves. -/
def put (s : Driver) (i : Nat) (t : State) : Driver where
  irqData := { t.irqData with comp := s.irqData.comp }
  done := t.done
  calls := t.calls
  running := Function.update s.running i t.current
  seen := Function.update s.seen i t.irqData.comp

/-- The entry of a call, which replaces the completion in use. -/
def enter (s : Driver) (addrList : List Allocation) (argument : Transaction) : Driver :=
  let t := (s.view s.calls).enter addrList argument
  { s.put s.calls t with irqData := t.irqData }

def step (s : Driver) : Action → Option Driver
  | .call addrList argument => some (s.enter addrList argument)
  | .statement i e => (s.running i).bind fun c => ((s.view i).advance c e).map (s.put i)
  | .irq irqTX => (irqHandler irqTX s.irqData s.done).map fun done => { s with done }

/-! ## The property and the condition -/

/-- `irq_handler` calls `complete`. -/
def Completes (s : Driver) (irqTX : Nat) : Prop :=
  ∃ stage ∈ Stage.ofIrq irqTX, stage.flag s.irqData = true

instance (s : Driver) (irqTX : Nat) : Decidable (s.Completes irqTX) :=
  inferInstanceAs (Decidable (∃ stage ∈ Stage.ofIrq irqTX, stage.flag s.irqData = true))

/-- The completion object that the handler touches is that of a call in progress. -/
def Sound (s : Driver) : Action → Prop
  | .irq irqTX => s.Completes irqTX → ∃ comp ∈ s.irqData.comp, (s.running comp).isSome
  | _ => True

instance (s : Driver) : (a : Action) → Decidable (Sound s a)
  | .irq irqTX => inferInstanceAs (Decidable
      (s.Completes irqTX → ∃ comp ∈ s.irqData.comp, (s.running comp).isSome))
  | .call _ _ | .statement _ _ => isTrue trivial

/-- What a step shows of the calls, whatever the driver keeps of it: call `i` entered, a loop
of some call came to its last burst, call `i` is gone (it returned, or a fault ended it), the
interrupt of a loop came. -/
inductive Note where
  | entered (i : Nat)
  | lastBurst (stage : Stage)
  | gone (i : Nat)
  | done (stage : Stage)

/-- A statement of call `i`, at `point`. -/
def Note.ofStatement (i : Nat) : Point → Event → Option Note
  | .loop stage l, .iterate =>
    if l.dataRemaining > 0 ∧ l.lastBurst.subtract.dataRemaining = 0 then some (.lastBurst stage)
    else none
  | .init .psddrPlddr, .fault => some (.gone i)
  | .wait .plddrPsddr, .release => some (.gone i)
  | .wait _, .timeout => some (.gone i)
  | _, _ => none

def note (s : Driver) : Action → Option Note
  | .call _ _ => some (.entered s.calls)
  | .statement i e => (s.running i).bind fun c => Note.ofStatement i c.point e
  | .irq irqTX => (Stage.ofIrq irqTX).map .done

def Note.entered? : Note → Option Nat
  | .entered i => some i
  | _ => none

/-- The call that was entered last. -/
def newest (past : List Note) : Option Nat := past.reverse.findSome? Note.entered?

/-- An interrupt finds the call entered last in progress, once a call came to the last burst
of its loop. -/
def InTime (past : List Note) : Note → Prop
  | .done stage => .lastBurst stage ∈ past → ∀ i ∈ newest past, .gone i ∉ past
  | _ => True

/-! ## The completion in use -/

structure Latest (s : Driver) : Prop where
  comp : 0 < s.calls → s.irqData.comp = some (s.calls - 1)
  flagged : ∀ stage, Stage.flag stage s.irqData = true → 0 < s.calls
  running : ∀ i c, s.running i = some c → i < s.calls

theorem latest_boot (done : Nat → Nat) : Latest (boot done) := by
  constructor
  · exact fun h => absurd h (Nat.lt_irrefl 0)
  · intro stage hf
    cases stage <;> cases hf
  · exact fun i c hc => by cases hc

theorem advance_irq (s : State) (c : Call) (n : Nat) : s.advance c (.irq n) = none := by
  unfold State.advance
  cases c.point with
  | init stage => cases stage <;> rfl
  | _ => rfl

/-- A statement of a call leaves the completion in use, and enters no call. -/
theorem advance_comp {s s' : State} {c : Call} {e : Event} (hc : s.current = some c)
    (h : s.advance c e = some s') :
    s'.irqData.comp = s.irqData.comp ∧ s'.calls = s.calls := by
  cases taken_of_advance hc h with
  | call addrList argument hn => rw [hn] at hc; cases hc
  | other n hn => rw [advance_irq] at h; cases h
  | silent n stage b rest hn hb hf => rw [advance_irq] at h; cases h
  | complete n stage b rest comp hn hb hf hcomp => rw [advance_irq] at h; cases h
  | fault c hc hp => exact ⟨rfl, rfl⟩
  | init c stage comp hc hp hcomp => exact ⟨rfl, rfl⟩
  | iterate c stage l hc hp => exact ⟨iterate_comp s c stage l, iterate_calls s c stage l⟩
  | program c stage l hc hp =>
    rw [State.program, goto_calls]
    exact ⟨rfl, rfl⟩
  | release c stage comp hc hp hcomp hd => exact ⟨by cases stage <;> rfl, by cases stage <;> rfl⟩
  | timeout c stage comp hc hp hcomp hd => exact ⟨rfl, rfl⟩

theorem latest_of_step {s s' : Driver} {a : Action} (h : Latest s) (hs : step s a = some s') :
    Latest s' := by
  cases a with
  | call addrList argument =>
    obtain rfl := Option.some.inj hs
    refine ⟨fun _ => rfl, fun _ _ => Nat.succ_pos _, fun i c hc => ?_⟩
    change i < s.calls + 1
    by_cases hi : i = s.calls
    · omega
    · exact Nat.lt_succ_of_lt (h.running i c ((Function.update_of_ne hi _ _).symm.trans hc))
  | statement i e =>
    obtain ⟨c, hc, hs⟩ := Option.bind_eq_some_iff.mp hs
    obtain ⟨t, ht, rfl⟩ := Option.map_eq_some_iff.mp hs
    have hcalls : t.calls = s.calls := (advance_comp (s := s.view i) hc ht).2
    have hi := h.running i c hc
    have hpos : 0 < s.calls := Nat.zero_lt_of_lt hi
    refine ⟨fun _ => ?_, fun _ _ => ?_, fun j c' hc' => ?_⟩
    · change s.irqData.comp = some (t.calls - 1)
      rw [hcalls]
      exact h.comp hpos
    · change 0 < t.calls
      rwa [hcalls]
    · change j < t.calls
      rw [hcalls]
      by_cases hj : j = i
      · exact hj ▸ hi
      · exact h.running j c' ((Function.update_of_ne hj _ _).symm.trans hc')
  | irq irqTX =>
    obtain ⟨done, -, rfl⟩ := Option.map_eq_some_iff.mp hs
    exact ⟨h.comp, h.flagged, h.running⟩

/-- **Every run** keeps them linked. -/
theorem latest {done : Nat → Nat} {as : List Action} {s : Driver}
    (h : run step (boot done) as = some s) : Latest s :=
  invariant_of_run (fun _ _ _ hI hs => latest_of_step hI hs) (latest_boot done) h

/-! ## What the events tell -/

@[simp] theorem newest_entered (past : List Note) (i : Nat) :
    newest (past ++ [.entered i]) = some i := by
  rw [newest, List.reverse_append]
  rfl

theorem newest_append {n : Note} (past : List Note) (h : n.entered? = none) :
    newest (past ++ [n]) = newest past := by
  simp [newest, h]

/-- The events up to a state, and the state. -/
structure Told (past : List Note) (s : Driver) : Prop extends Latest s where
  newest : newest past = if s.calls = 0 then none else some (s.calls - 1)
  gone : ∀ i, .gone i ∈ past ↔ i < s.calls ∧ s.running i = none
  lastBurst : ∀ stage, .lastBurst stage ∈ past ↔ stage.flag s.irqData = true

theorem told_boot (done : Nat → Nat) : Told [] (boot done) := by
  refine ⟨latest_boot done, rfl, fun i => ?_, fun stage => ?_⟩
  · exact iff_of_false List.not_mem_nil fun h => absurd h.1 (Nat.not_lt_zero i)
  · exact iff_of_false List.not_mem_nil (by cases stage <;> exact Bool.false_ne_true)

theorem flag_setFlag (stage st : Stage) (d : IrqData) :
    st.flag (stage.setFlag d) = true ↔ st.flag d = true ∨ st = stage := by
  cases stage <;> cases st <;> simp [Stage.flag, Stage.setFlag]

/-- What the event of a statement tells. -/
structure Tells (i : Nat) (n : Option Note) (s t : State) : Prop where
  entered : ∀ m ∈ n, m.entered? = none
  gone : ∀ j, n = some (.gone j) ↔ j = i ∧ t.current = none
  lastBurst : ∀ st, (st.flag s.irqData = true ∨ n = some (.lastBurst st)) ↔
    st.flag t.irqData = true

theorem tells_none {i : Nat} {s t : State} (hcur : t.current ≠ none)
    (hf : ∀ st, Stage.flag st s.irqData = Stage.flag st t.irqData) : Tells i none s t := by
  refine ⟨?_, fun j => ?_, fun st => ?_⟩
  · rintro m ⟨⟩
  · exact iff_of_false (by rintro ⟨⟩) fun h => hcur h.2
  · rw [hf st]
    exact or_iff_left (by rintro ⟨⟩)

theorem tells_gone {i : Nat} {s t : State} (hcur : t.current = none)
    (hf : ∀ st, Stage.flag st s.irqData = Stage.flag st t.irqData) :
    Tells i (some (.gone i)) s t := by
  refine ⟨fun m hm => by cases hm; rfl, fun j => ?_, fun st => ?_⟩
  · rw [Option.some.injEq, Note.gone.injEq]
    exact ⟨fun h => ⟨h.symm, hcur⟩, fun h => h.1.symm⟩
  · rw [hf st]
    exact or_iff_left (by rintro ⟨⟩)

theorem tells_iterate (i : Nat) (s : State) (c : Call) (stage : Stage) (l : Loop) :
    Tells i (Note.ofStatement i (.loop stage l) .iterate) s (s.iterate c stage l) := by
  have hcur : (s.iterate c stage l).current ≠ none := by
    unfold State.iterate
    split <;> exact Option.some_ne_none _
  by_cases h : l.dataRemaining > 0 ∧ l.lastBurst.subtract.dataRemaining = 0
  · rw [Note.ofStatement, if_pos h, State.iterate, if_pos h.1]
    refine ⟨fun m hm => by cases hm; rfl, fun j => ?_, fun st => ?_⟩
    · exact iff_of_false (by rintro ⟨⟩) (by rintro ⟨-, ⟨⟩⟩)
    · change _ ↔ st.flag (if _ then _ else _) = true
      rw [if_pos h.2, flag_setFlag, Option.some.injEq, Note.lastBurst.injEq, eq_comm (a := stage)]
  · rw [Note.ofStatement, if_neg h]
    refine tells_none hcur fun st => ?_
    unfold State.iterate
    split
    · next h0 =>
      change _ = st.flag (if _ then _ else _)
      rw [if_neg fun hl => h ⟨h0, hl⟩]
    · rfl

theorem tells_of_advance {s t : State} {c : Call} {e : Event} (hc : s.current = some c)
    (h : s.advance c e = some t) (i : Nat) : Tells i (Note.ofStatement i c.point e) s t := by
  cases taken_of_advance hc h with
  | call addrList argument hn => rw [hn] at hc; cases hc
  | other n hn => rw [advance_irq] at h; cases h
  | silent n stage b rest hn hb hf => rw [advance_irq] at h; cases h
  | complete n stage b rest comp hn hb hf hcomp => rw [advance_irq] at h; cases h
  | fault c' hc' hp =>
    obtain rfl := Option.some.inj (hc'.symm.trans hc)
    rw [hp]
    exact tells_gone rfl fun st => rfl
  | init c' stage comp hc' hp hcomp =>
    obtain rfl := Option.some.inj (hc'.symm.trans hc)
    rw [hp]
    cases stage <;> exact tells_none (Option.some_ne_none _) fun st => rfl
  | iterate c' stage l hc' hp =>
    obtain rfl := Option.some.inj (hc'.symm.trans hc)
    rw [hp]
    exact tells_iterate i s c' stage l
  | program c' stage l hc' hp =>
    obtain rfl := Option.some.inj (hc'.symm.trans hc)
    rw [hp]
    exact tells_none (Option.some_ne_none _) fun st => rfl
  | release c' stage comp hc' hp hcomp hd =>
    obtain rfl := Option.some.inj (hc'.symm.trans hc)
    rw [hp]
    cases stage with
    | psddrPlddr => exact tells_none (Option.some_ne_none _) fun st => rfl
    | plddrPsddr => exact tells_gone rfl fun st => rfl
  | timeout c' stage comp hc' hp hcomp hd =>
    obtain rfl := Option.some.inj (hc'.symm.trans hc)
    rw [hp]
    cases stage <;> exact tells_gone rfl fun st => rfl

theorem told_of_entered {past : List Note} {s : Driver} (h : Told past s)
    (addrList : List Allocation) (argument : Transaction) :
    Told (past ++ [.entered s.calls]) (s.enter addrList argument) := by
  refine ⟨latest_of_step h.toLatest (a := .call addrList argument) rfl, newest_entered past _,
    fun i => ?_, fun stage => ?_⟩
  · have hrun : (s.enter addrList argument).running = Function.update s.running s.calls
        (some ⟨s.calls, transfer addrList argument, .init .psddrPlddr⟩) := rfl
    have hcalls : (s.enter addrList argument).calls = s.calls + 1 := rfl
    rw [hrun, hcalls, List.mem_append, or_iff_left (by simp), h.gone i]
    by_cases hi : i = s.calls
    · rw [hi, Function.update_self]
      exact iff_of_false (fun hlt => absurd hlt.1 (Nat.lt_irrefl _)) fun hnone => by cases hnone.2
    · rw [Function.update_of_ne hi]
      refine ⟨fun hg => ⟨Nat.lt_succ_of_lt hg.1, hg.2⟩, fun hg => ⟨?_, hg.2⟩⟩
      omega
  · rw [List.mem_append, or_iff_left (by simp), h.lastBurst stage]
    cases stage <;> exact Iff.rfl

theorem told_of_statement {past : List Note} {s : Driver} {i : Nat} {c : Call} {e : Event}
    {t : State} (h : Told past s) (hc : s.running i = some c)
    (ht : (s.view i).advance c e = some t) :
    Told (past ++ (Note.ofStatement i c.point e).toList) (s.put i t) := by
  have hL : Latest (s.put i t) := latest_of_step h.toLatest (a := .statement i e) (by
    change (s.running i).bind _ = _
    rw [hc, Option.bind_some, ht]
    rfl)
  have hcalls : (s.put i t).calls = s.calls := (advance_comp (s := s.view i) hc ht).2
  obtain ⟨hentered, hgone, hlast⟩ := tells_of_advance (s := s.view i) hc ht i
  generalize Note.ofStatement i c.point e = n at hentered hgone hlast ⊢
  refine ⟨hL, ?_, fun j => ?_, fun stage => ?_⟩
  · rw [hcalls, ← h.newest]
    cases n with
    | none => rw [Option.toList_none, List.append_nil]
    | some m => exact newest_append past (hentered m rfl)
  · have hrun : (s.put i t).running = Function.update s.running i t.current := rfl
    rw [hcalls, hrun, List.mem_append, Option.mem_toList, hgone j, h.gone j]
    by_cases hj : j = i
    · subst hj
      rw [Function.update_self, hc]
      simp [h.running j c hc]
    · rw [Function.update_of_ne hj]
      exact or_iff_left fun hji => hj hji.1
  · rw [List.mem_append, Option.mem_toList, h.lastBurst stage]
    cases stage with
    | psddrPlddr => exact hlast .psddrPlddr
    | plddrPsddr => exact hlast .plddrPsddr

/-- **One step.** -/
theorem told_of_step {past : List Note} {s s' : Driver} {a : Action} (h : Told past s)
    (hs : step s a = some s') : Told (past ++ (note s a).toList) s' := by
  cases a with
  | call addrList argument =>
    obtain rfl := Option.some.inj hs
    exact told_of_entered h addrList argument
  | statement i e =>
    obtain ⟨c, hc, hs⟩ := Option.bind_eq_some_iff.mp hs
    obtain ⟨t, ht, rfl⟩ := Option.map_eq_some_iff.mp hs
    rw [note, hc, Option.bind_some]
    exact told_of_statement h hc ht
  | irq irqTX =>
    have hL := latest_of_step h.toLatest hs
    obtain ⟨done, -, rfl⟩ := Option.map_eq_some_iff.mp hs
    rw [note]
    cases hn : Stage.ofIrq irqTX with
    | none =>
      rw [Option.map_none, Option.toList_none, List.append_nil]
      exact ⟨hL, h.newest, h.gone, h.lastBurst⟩
    | some stage =>
      rw [Option.map_some, Option.toList_some]
      refine ⟨hL, (newest_append past rfl).trans h.newest, fun i => ?_, fun st => ?_⟩
      · rw [List.mem_append, or_iff_left (by simp)]
        exact h.gone i
      · rw [List.mem_append, or_iff_left (by simp)]
        exact h.lastBurst st

theorem irqHandler_isSome {s : Driver} (h : Latest s) (irqTX : Nat) :
    (irqHandler irqTX s.irqData s.done).isSome := by
  cases hn : Stage.ofIrq irqTX with
  | none => rw [irqHandler_of_none hn]; rfl
  | some stage =>
    rw [irqHandler_of_some hn]
    split
    · next hf =>
      rw [complete, h.comp (h.flagged stage hf)]
      rfl
    · rfl

/-- Only interrupts have to be in time. -/
theorem inTime_of_statement {past : List Note} {i : Nat} {point : Point} {e : Event} {n : Note}
    (h : n ∈ Note.ofStatement i point e) : InTime past n := by
  unfold Note.ofStatement at h
  split at h
  · split at h
    · cases h
      trivial
    · cases h
  · cases h
    trivial
  · cases h
    trivial
  · cases h
    trivial
  · cases h

/-- An interrupt is sound when the events say so. -/
theorem sound_iff_of_told {past : List Note} {s : Driver} (h : Told past s) (a : Action) :
    Sound s a ↔ ∀ s', step s a = some s' → ∀ n ∈ note s a, InTime past n := by
  cases a with
  | call addrList argument =>
    refine iff_of_true trivial fun s' _ n hn => ?_
    obtain rfl := Option.some.inj hn
    trivial
  | statement i e =>
    refine iff_of_true trivial fun s' _ n hn => ?_
    obtain ⟨c, -, hn⟩ := Option.bind_eq_some_iff.mp hn
    exact inTime_of_statement hn
  | irq irqTX =>
    obtain ⟨done, hdone⟩ := Option.isSome_iff_exists.mp (irqHandler_isSome h.toLatest irqTX)
    have hs : step s (.irq irqTX) = some { s with done } := by
      change (irqHandler irqTX s.irqData s.done).map _ = _
      rw [hdone]
      rfl
    simp only [hs, Option.some.injEq, forall_eq', note]
    cases hn : Stage.ofIrq irqTX with
    | none =>
      refine iff_of_true ?_ ?_
      · rintro ⟨stage, hst, -⟩
        rw [hn] at hst
        cases hst
      · rintro n ⟨⟩
    | some stage =>
      have hcompl : s.Completes irqTX ↔ stage.flag s.irqData = true := by
        unfold Completes
        simp [hn]
      simp only [Option.map_some, Option.mem_some_iff, forall_eq', InTime, h.lastBurst stage,
        h.newest, Sound, hcompl]
      refine forall_congr' fun hf => ?_
      have h0 := h.flagged stage hf
      rw [h.comp h0, if_neg (by omega)]
      simp only [Option.mem_some_iff, exists_eq_left', forall_eq', h.gone,
        Option.isSome_iff_ne_none, Nat.sub_one_lt_of_lt h0, true_and, ne_eq]

/-- **No completion after return**, in exactly the runs whose interrupts are in time. -/
theorem sound_iff_inTime (done : Nat → Nat) (as : List Action) :
    EveryStep step Sound (boot done) as ↔
      EveryNote InTime (history step note (boot done) as) :=
  everyStep_iff_history (fun _ _ _ _ h hs => told_of_step h hs)
    (fun _ _ a h => sound_iff_of_told h a) (told_boot done) as

/-- A call that times out before the interrupt of its one burst. -/
def lateRun : List Action :=
  [.call [sampleTx, sampleRx] (dataInit sampleTransaction 16 16 0x10000000 0x11000000),
    .statement 0 .init, .statement 0 .iterate, .statement 0 .program, .statement 0 .iterate,
    .statement 0 .timeout, .irq S2MM_PL_DONE]

/-- The interrupt completes the object of the call that returned `-ETIME`. -/
theorem lateRun_unsound :
    (run step (boot fun _ => 0) lateRun).isSome ∧
      ¬ EveryStep step Sound (boot fun _ => 0) lateRun := by
  decide +kernel

/-! ## The calls one after another -/

/-- The two states differ at most in the bursts that the PL has, or had, to do. -/
structure Alike (s t : State) : Prop where
  irqData : t.irqData = s.irqData
  done : t.done = s.done
  calls : t.calls = s.calls
  current : t.current = s.current

theorem advance_alike {s t s' : State} {c : Call} {e : Event} (h : Alike s t)
    (hs : s.advance c e = some s') : ∃ t', t.advance c e = some t' ∧ Alike s' t' := by
  cases s with
  | mk irqData done calls current pending raised =>
  cases t with
  | mk irqData' done' calls' current' pending' raised' =>
  obtain ⟨rfl, rfl, rfl, rfl⟩ := h
  unfold State.advance at hs ⊢
  split at hs
  · next hp =>
    obtain rfl := Option.some.inj hs
    exact ⟨_, rfl, ⟨rfl, rfl, rfl, rfl⟩⟩
  · next stage hp =>
    obtain ⟨comp, hcomp, rfl⟩ := Option.map_eq_some_iff.mp hs
    exact ⟨_, Option.map_eq_some_iff.mpr ⟨comp, hcomp, rfl⟩, ⟨rfl, rfl, rfl, rfl⟩⟩
  · next stage l hp =>
    obtain rfl := Option.some.inj hs
    refine ⟨_, rfl, ?_⟩
    unfold State.iterate
    split <;> exact ⟨rfl, rfl, rfl, rfl⟩
  · next stage l hp =>
    obtain rfl := Option.some.inj hs
    exact ⟨_, rfl, ⟨rfl, rfl, rfl, rfl⟩⟩
  · next stage hp =>
    obtain ⟨comp, hcomp, hs⟩ := Option.bind_eq_some_iff.mp hs
    split at hs
    · cases hs
    · next hd =>
      obtain rfl := Option.some.inj hs
      refine ⟨_, Option.bind_eq_some_iff.mpr ⟨comp, hcomp, if_neg hd⟩, ?_⟩
      cases stage <;> exact ⟨rfl, rfl, rfl, rfl⟩
  · next stage hp =>
    obtain ⟨comp, hcomp, hs⟩ := Option.bind_eq_some_iff.mp hs
    split at hs
    · next hd =>
      obtain rfl := Option.some.inj hs
      exact ⟨_, Option.bind_eq_some_iff.mpr ⟨comp, hcomp, if_pos hd⟩, ⟨rfl, rfl, rfl, rfl⟩⟩
    · cases hs
  · cases hs

theorem advance_id {s s' : State} {c c' : Call} {e : Event} (h : s.advance c e = some s')
    (hc' : s'.current = some c') : c'.id = c.id := by
  unfold State.advance at h
  split at h
  · obtain rfl := Option.some.inj h
    cases hc'
  · obtain ⟨comp, -, rfl⟩ := Option.map_eq_some_iff.mp h
    rw [goto_current hc']
  · obtain rfl := Option.some.inj h
    exact iterate_current hc'
  · obtain rfl := Option.some.inj h
    rw [goto_current hc']
  · obtain ⟨comp, -, h⟩ := Option.bind_eq_some_iff.mp h
    split at h
    · cases h
    · obtain rfl := Option.some.inj h
      rw [proceed_current hc']
  · obtain ⟨comp, -, h⟩ := Option.bind_eq_some_iff.mp h
    split at h
    · obtain rfl := Option.some.inj h
      cases hc'
    · cases h
  · cases h

/-- The module, with at most one call in progress. -/
structure Shows (d : Driver) (s : State) : Prop where
  irqData : d.irqData = s.irqData
  done : d.done = s.done
  calls : d.calls = s.calls
  running : d.running = fun i => s.current.filter fun c => c.id = i
  seen : ∀ c, s.current = some c → c.waiting = true → d.seen c.id = s.irqData.comp

theorem shows_boot (done : Nat → Nat) : Shows (boot done) (AxiTangxi.boot done) :=
  ⟨rfl, rfl, rfl, rfl, fun c hc => by cases hc⟩

theorem filter_current {current : Option Call} {i : Nat} (h : ∀ c ∈ current, c.id = i) :
    current.filter (fun c => c.id = i) = current := by
  cases current with
  | none => rfl
  | some c => simp [h c rfl]

theorem filter_current_of_ne {current : Option Call} {i j : Nat} (hj : j ≠ i)
    (h : ∀ c ∈ current, c.id = i) : current.filter (fun c => c.id = j) = none := by
  cases current with
  | none => rfl
  | some c => simp [h c rfl, hj.symm]

theorem Shows.update_running {d : Driver} {s : State} (h : Shows d s) {i : Nat}
    {current : Option Call} (hs : ∀ c ∈ s.current, c.id = i) (hi : ∀ c ∈ current, c.id = i) :
    Function.update d.running i current = fun j => current.filter fun c => c.id = j := by
  funext j
  by_cases hj : j = i
  · rw [hj, Function.update_self]
    exact (filter_current hi).symm
  · rw [Function.update_of_ne hj, h.running]
    exact (filter_current_of_ne hj hs).trans (filter_current_of_ne hj hi).symm

theorem Shows.view_alike {d : Driver} {s : State} {c : Call} (h : Shows d s)
    (hc : s.current = some c) : Alike s (d.view c.id) := by
  have hrun : d.running c.id = some c := by
    rw [h.running, ← hc]
    exact filter_current fun c' hc' => by rw [Option.some.inj (hc'.symm.trans hc)]
  refine ⟨?_, h.done, h.calls, hrun.trans hc.symm⟩
  have hcomp : (if (d.running c.id).any Call.waiting then d.seen c.id else d.irqData.comp) =
      s.irqData.comp := by
    rw [hrun, h.irqData]
    split
    · next hw => exact h.seen c hc hw
    · rfl
  rw [view, hcomp, h.irqData]

/-- A statement of the call in progress. -/
theorem Shows.exists_statement {d : Driver} {s s' : State} {c : Call} {e : Event}
    (h : Shows d s) (hc : s.current = some c) (hadv : s.advance c e = some s') :
    ∃ a d', step d a = some d' ∧ Shows d' s' := by
  have hid : ∀ c' ∈ s.current, c'.id = c.id := fun c' hc' => by
    rw [Option.some.inj (hc'.symm.trans hc)]
  have hid' : ∀ c' ∈ s'.current, c'.id = c.id := fun c' hc' => advance_id hadv hc'
  have halike := h.view_alike hc
  obtain ⟨t, ht, hlike⟩ := advance_alike halike hadv
  have hcomp := (advance_comp hc hadv).1
  refine ⟨.statement c.id e, d.put c.id t, ?_, ?_⟩
  · change (d.running c.id).bind _ = _
    rw [show d.running c.id = some c from halike.current.trans hc, Option.bind_some, ht,
      Option.map_some]
  · refine ⟨?_, hlike.done, hlike.calls, ?_, fun c' hc' _ => ?_⟩
    · change { t.irqData with comp := d.irqData.comp } = s'.irqData
      rw [hlike.irqData, h.irqData, ← hcomp]
    · rw [← h.update_running hid hid', ← hlike.current]
      rfl
    · change Function.update d.seen c.id t.irqData.comp c'.id = _
      rw [hid' c' hc', Function.update_self, hlike.irqData]

theorem Shows.call {d : Driver} {s : State} (h : Shows d s) (hc : s.current = none)
    (addrList : List Allocation) (argument : Transaction) :
    Shows (d.enter addrList argument) (s.enter addrList argument) := by
  have hnone : ∀ c ∈ s.current, c.id = s.calls := fun c hc' => by
    rw [hc] at hc'
    cases hc'
  refine ⟨?_, h.done, congrArg (· + 1) h.calls, ?_, fun c hc' hw => ?_⟩
  · change { d.irqData with comp := some d.calls } = _
    rw [h.irqData, h.calls]
    rfl
  · have hcur : ((d.view d.calls).enter addrList argument).current =
        (s.enter addrList argument).current :=
      congrArg (fun n => some (⟨n, transfer addrList argument, .init .psddrPlddr⟩ : Call))
        h.calls
    change Function.update d.running d.calls
      ((d.view d.calls).enter addrList argument).current = _
    rw [hcur, h.calls]
    exact h.update_running hnone fun c hc' => by rw [← Option.some.inj hc']
  · rw [← Option.some.inj hc'] at hw
    cases hw

theorem Shows.exists_irq {d : Driver} {s s' : State} {n : Nat} (h : Shows d s)
    (hs : AxiTangxi.step s (.irq n) = some s') :
    ∃ d', step d (.irq n) = some d' ∧ Shows d' s' := by
  have hirq : irqHandler n d.irqData d.done = irqHandler n s.irqData s.done := by
    rw [h.irqData, h.done]
  change ∃ d', (irqHandler n d.irqData d.done).map _ = some d' ∧ _
  rw [hirq]
  cases taken_of_step hs with
  | other _ hn =>
    rw [irqHandler_of_none hn]
    exact ⟨_, rfl, h.irqData, rfl, h.calls, h.running, h.seen⟩
  | silent _ stage b rest hn hb hf =>
    rw [irqHandler_of_some hn, hf]
    exact ⟨_, rfl, h.irqData, rfl, h.calls, h.running, h.seen⟩
  | complete _ stage b rest comp hn hb hf hcomp =>
    rw [irqHandler_of_some hn, hf, if_pos rfl, complete, hcomp]
    exact ⟨_, rfl, h.irqData, rfl, h.calls, h.running, h.seen⟩

/-- Every step of `Completion` is one here. -/
theorem Shows.exists_step {d : Driver} {s s' : State} {e : Event} (h : Shows d s)
    (hs : AxiTangxi.step s e = some s') : ∃ a d', step d a = some d' ∧ Shows d' s' := by
  cases e with
  | call addrList argument =>
    cases taken_of_step hs with
    | call _ _ hc => exact ⟨.call addrList argument, _, rfl, h.call hc addrList argument⟩
  | irq n => exact ⟨.irq n, h.exists_irq hs⟩
  | _ =>
    obtain ⟨c, hc, hadv⟩ := Option.bind_eq_some_iff.mp hs
    exact h.exists_statement hc hadv

/-- **The calls one after another** are among the runs. -/
theorem Shows.exists_run {d : Driver} {s s' : State} {es : List Event} (h : Shows d s)
    (hs : run AxiTangxi.step s es = some s') : ∃ as d', run step d as = some d' ∧ Shows d' s' := by
  induction es generalizing d s with
  | nil => exact ⟨[], d, rfl, Option.some.inj hs ▸ h⟩
  | cons e es ih =>
    obtain ⟨t, ht, hrest⟩ := Option.bind_eq_some_iff.mp hs
    obtain ⟨a, d₁, ha, h₁⟩ := h.exists_step ht
    obtain ⟨as, d', has, h'⟩ := ih h₁ hrest
    exact ⟨a :: as, d', (run_cons ha as).trans has, h'⟩

end Driver

end DeepSpace.AxiTangxi
