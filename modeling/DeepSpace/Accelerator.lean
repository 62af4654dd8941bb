import DeepSpace.AxiTangxi

/-!
# The registers of the network accelerator

`NETWORK_ACC_CONFIG`, `NETWORK_ACC_START` and `NETWORK_ACC_GET` from the user library down to
`writel` and `readl`.

* `networkAccConfig_configured`, `networkAccStart_written`: the register functions do what the
  calls are for, but nothing calls them; `getNetworkAccArgs_eq`: the third one loses what it reads;
* `axitangxiIoctl_acc`: the three calls reach no register and change no argument;
* `takesEffect_iff`: so a sequence of calls has its effect exactly where there was nothing to do.
-/

namespace DeepSpace.AxiTangxi

/-! ## Registers -/

inductive Register where
  | control
  | weightAddr
  | weightSize
  | quantifyAddr
  | quantifySize
  | pictureAddr
  | pictureSize
  | transAddr
  | transSize
  | entropyAddr
  | entropySize
  deriving DecidableEq, Repr

/-- `struct network_acc_reg`. -/
structure NetworkAccReg where
  control : UInt32
  weightAddr : UInt32
  weightSize : UInt32
  quantifyAddr : UInt32
  quantifySize : UInt32
  pictureAddr : UInt32
  pictureSize : UInt32
  transAddr : UInt32
  transSize : UInt32
  entropyAddr : UInt32
  entropySize : UInt32
  deriving DecidableEq, Repr

/-- `struct network_acc_args` has the same fields. -/
abbrev NetworkAccArgs := NetworkAccReg

/-- The registers, and the calls of `writel` so far. -/
structure Engine where
  registers : Register → UInt32
  written : List (Register × UInt32)

def writel (value : UInt32) (r : Register) (engine : Engine) : Engine where
  registers r' := if r' = r then value else engine.registers r'
  written := engine.written ++ [(r, value)]

def readl (engine : Engine) (r : Register) : UInt32 := engine.registers r

def networkAccConfigDev (weightAddr weightSize quantifyAddr quantifySize pictureAddr
    pictureSize : UInt32) (engine : Engine) : Engine :=
  let engine := writel weightAddr .weightAddr engine
  let engine := writel weightSize .weightSize engine
  let engine := writel quantifyAddr .quantifyAddr engine
  let engine := writel quantifySize .quantifySize engine
  let engine := writel pictureAddr .pictureAddr engine
  writel pictureSize .pictureSize engine

/-- The parameter is overwritten. -/
def networkAccStartDev (_argsControl : UInt32) (engine : Engine) : Engine :=
  let argsControl := 1
  let engine := writel argsControl .control engine
  let argsControl := 0
  writel argsControl .control engine

/-- The four parameters are values: what is read ends with the call. -/
def getNetworkAccArgsDev (_transAddr _transSize _entropyAddr _entropySize : UInt32)
    (engine : Engine) : Engine :=
  let _transAddr := readl engine .transAddr
  let _transSize := readl engine .transSize
  let _entropyAddr := readl engine .entropyAddr
  let _entropySize := readl engine .entropySize
  engine

def networkAccConfig (args : NetworkAccArgs) (engine : Engine) : Engine :=
  networkAccConfigDev args.weightAddr args.weightSize args.quantifyAddr args.quantifySize
    args.pictureAddr args.pictureSize engine

def networkAccStart (args : NetworkAccArgs) (engine : Engine) : Engine :=
  networkAccStartDev args.control engine

/-- `*args` and the registers after the call. -/
def getNetworkAccArgs (args : NetworkAccArgs) (engine : Engine) : NetworkAccArgs × Engine :=
  (args,
    getNetworkAccArgsDev args.transAddr args.transSize args.entropyAddr args.entropySize engine)

/-! ## Calls -/

def EFAULT : Int := 14

def ENOTTY : Int := 25

/-- The local `iargs` is filled and dropped. -/
def accConfig (engine : Engine) (args : NetworkAccReg) (iargs : NetworkAccArgs) : Int × Engine :=
  let _iargs := { iargs with
    weightAddr := args.weightAddr
    weightSize := args.weightSize
    quantifyAddr := args.quantifyAddr
    quantifySize := args.quantifySize
    pictureAddr := args.pictureAddr
    pictureSize := args.pictureSize }
  (0, engine)

def accStart (engine : Engine) (iargs : NetworkAccArgs) : Int × Engine :=
  let iargs := { iargs with control := 1 }
  let _iargs := { iargs with control := 0 }
  (0, engine)

/-- The four assignments are commented out. -/
def accGet (engine : Engine) (args : NetworkAccReg) : Int × Engine × NetworkAccReg :=
  (0, engine, args)

def AXITANGXI_IOCTL_MAGIC : Nat := 0x59

def AXITANGXI_NUM_IOCTLS : Nat := 10

/-- `_IOR (AXITANGXI_IOCTL_MAGIC, nr, type)` for a type of `size` bytes. -/
def iocRead (nr size : Nat) : Nat :=
  2 * 2 ^ 30 + size * 2 ^ 16 + AXITANGXI_IOCTL_MAGIC * 2 ^ 8 + nr

def iocType (cmd : Nat) : Nat := cmd / 2 ^ 8 % 2 ^ 8

def iocNr (cmd : Nat) : Nat := cmd % 2 ^ 8

def AXITANGXI_PSDDR_PLDDR_LOOPBACK : Nat := iocRead 0 72

def AXITANGXI_PSDDR_TANGXI_LOOPBACK : Nat := iocRead 1 72

def NETWORK_ACC_CONFIG : Nat := iocRead 2 44

def NETWORK_ACC_START : Nat := iocRead 3 44

def NETWORK_ACC_GET : Nat := iocRead 4 44

/-- The result of a call, the registers, and the memory behind `arg_ptr`. -/
structure Called where
  rc : Int
  engine : Engine
  arg : Option NetworkAccReg

/-- `arg` is the structure behind `arg_ptr`, if that can be read, and `iargs` the uninitialised
local of the callee.  `loopback` stands for the commands that copy a transaction. -/
def axitangxiIoctl (loopback : Nat → Engine → Int × Engine) (iargs : NetworkAccArgs)
    (engine : Engine) (cmd : Nat) (arg : Option NetworkAccReg) : Called :=
  if iocType cmd ≠ AXITANGXI_IOCTL_MAGIC then ⟨-ENOTTY, engine, arg⟩
  else if iocNr cmd ≥ AXITANGXI_NUM_IOCTLS then ⟨-ENOTTY, engine, arg⟩
  else if cmd = AXITANGXI_PSDDR_PLDDR_LOOPBACK ∨ cmd = AXITANGXI_PSDDR_TANGXI_LOOPBACK then
    let (rc, engine) := loopback cmd engine
    ⟨rc, engine, arg⟩
  else if cmd = NETWORK_ACC_CONFIG then
    match arg with
    | none => ⟨-EFAULT, engine, arg⟩
    | some args =>
      let (rc, engine) := accConfig engine args iargs
      ⟨rc, engine, arg⟩
  else if cmd = NETWORK_ACC_START then
    let (rc, engine) := accStart engine iargs
    ⟨rc, engine, arg⟩
  else if cmd = NETWORK_ACC_GET then
    match arg with
    | none => ⟨-EFAULT, engine, arg⟩
    | some args =>
      -- `acc_get` is passed the copy, which nothing copies back
      let (rc, engine, _) := accGet engine args
      ⟨rc, engine, arg⟩
  else ⟨-ENOTTY, engine, arg⟩

/-! ## User library -/

/-- `struct network_acc_dev`, apart from its descriptor. -/
structure NetworkAccDev extends NetworkAccReg

section

variable (loopback : Nat → Engine → Int × Engine) (stale : NetworkAccArgs) (engine : Engine)

/-- `iargs` is the uninitialised local of the library. -/
def accConfigTest (dev : NetworkAccDev) (iargs : NetworkAccReg) : Called :=
  let iargs := { iargs with
    weightAddr := dev.weightAddr
    weightSize := dev.weightSize
    quantifyAddr := dev.quantifyAddr
    quantifySize := dev.quantifySize
    pictureAddr := dev.pictureAddr
    pictureSize := dev.pictureSize }
  axitangxiIoctl loopback stale engine NETWORK_ACC_CONFIG (some iargs)

def accStartTest (iargs : NetworkAccReg) : Called :=
  axitangxiIoctl loopback stale engine NETWORK_ACC_START (some iargs)

/-- The results are copied before the call. -/
def accGetTest (dev : NetworkAccDev) (iargs : NetworkAccReg) : Called × NetworkAccDev :=
  let dev := { dev with
    transAddr := iargs.transAddr
    transSize := iargs.transSize
    entropyAddr := iargs.entropyAddr
    entropySize := iargs.entropySize }
  (axitangxiIoctl loopback stale engine NETWORK_ACC_GET (some iargs), dev)

end

/-! ## What the calls are for -/

/-- The registers hold the arguments. -/
structure Configured (engine : Engine) (args : NetworkAccReg) : Prop where
  weightAddr : engine.registers .weightAddr = args.weightAddr
  weightSize : engine.registers .weightSize = args.weightSize
  quantifyAddr : engine.registers .quantifyAddr = args.quantifyAddr
  quantifySize : engine.registers .quantifySize = args.quantifySize
  pictureAddr : engine.registers .pictureAddr = args.pictureAddr
  pictureSize : engine.registers .pictureSize = args.pictureSize

/-- What the accelerator has computed. -/
structure Results where
  transAddr : UInt32
  transSize : UInt32
  entropyAddr : UInt32
  entropySize : UInt32
  deriving DecidableEq, Repr

def NetworkAccReg.results (args : NetworkAccReg) : Results :=
  ⟨args.transAddr, args.transSize, args.entropyAddr, args.entropySize⟩

def Engine.results (engine : Engine) : Results :=
  ⟨engine.registers .transAddr, engine.registers .transSize, engine.registers .entropyAddr,
    engine.registers .entropySize⟩

/-- The accelerator stores its results. -/
def Engine.store (engine : Engine) (results : Results) : Engine :=
  { engine with
    registers := fun r =>
      match r with
      | .transAddr => results.transAddr
      | .transSize => results.transSize
      | .entropyAddr => results.entropyAddr
      | .entropySize => results.entropySize
      | r => engine.registers r }

inductive Command where
  | config
  | start
  | get
  deriving DecidableEq, Repr

def Command.cmd : Command → Nat
  | .config => NETWORK_ACC_CONFIG
  | .start => NETWORK_ACC_START
  | .get => NETWORK_ACC_GET

/-- A call, behind whatever the accelerator has stored by then; `iargs` is the uninitialised local
of the callee. -/
structure AccCall where
  results : Results
  command : Command
  arg : Option NetworkAccReg
  iargs : NetworkAccArgs

/-- A call with the registers it started from. -/
structure AccStep where
  call : AccCall
  before : Engine
  after : Called

/-- The calls one after the other. -/
def steps (loopback : Nat → Engine → Int × Engine) : Engine → List AccCall → List AccStep
  | _, [] => []
  | engine, call :: calls =>
    let before := engine.store call.results
    let after := axitangxiIoctl loopback call.iargs before call.command.cmd call.arg
    ⟨call, before, after⟩ :: steps loopback after.engine calls

/-- The arguments of a `CONFIG` stand in the registers until the next one. -/
def ConfigHeld (run : List AccStep) : Prop :=
  ∀ (i : Nat) (s : AccStep) (args : NetworkAccReg), run[i]? = some s → s.call.command = .config →
    s.call.arg = some args → ∀ (j : Nat) (t : AccStep), i ≤ j → run[j]? = some t →
      (∀ (k : Nat) (u : AccStep), i < k → k ≤ j → run[k]? = some u → u.call.command ≠ .config) →
      Configured t.after.engine args

/-- A `START` writes 1 and then 0 to the control register. -/
def StartPulsed (run : List AccStep) : Prop :=
  ∀ s ∈ run, s.call.command = .start → ∃ written,
    s.after.engine.written = s.before.written ++ written ∧
      (written.filter (·.1 = .control)).map (·.2) = [1, 0]

/-- A `GET` leaves the result registers in the structure of the caller. -/
def ResultsHanded (run : List AccStep) : Prop :=
  ∀ s ∈ run, s.call.command = .get → ∃ args, s.after.arg = some args ∧
    args.results = s.before.results

structure TakesEffect (run : List AccStep) : Prop where
  config : ConfigHeld run
  start : StartPulsed run
  get : ResultsHanded run

/-- There is nothing to do: no call starts the accelerator, the registers already hold what they
are set to, and the structures what is asked for. -/
structure NothingToDo (engine : Engine) (calls : List AccCall) : Prop where
  start : ∀ call ∈ calls, call.command ≠ .start
  config : ∀ call ∈ calls, call.command = .config → ∀ args, call.arg = some args →
    Configured engine args
  get : ∀ call ∈ calls, call.command = .get → ∀ args, call.arg = some args →
    args.results = call.results

/-! ## The functions that nothing calls -/

theorem networkAccConfig_configured (args : NetworkAccArgs) (engine : Engine) :
    Configured (networkAccConfig args engine) args :=
  ⟨rfl, rfl, rfl, rfl, rfl, rfl⟩

theorem networkAccStart_written (args : NetworkAccArgs) (engine : Engine) :
    (networkAccStart args engine).written =
      engine.written ++ [(Register.control, 1), (Register.control, 0)] := by
  simp only [networkAccStart, networkAccStartDev, writel, List.append_assoc]
  rfl

/-- Neither the registers nor `*args` change. -/
theorem getNetworkAccArgs_eq (args : NetworkAccArgs) (engine : Engine) :
    getNetworkAccArgs args engine = (args, engine) := rfl

/-! ## The calls -/

/-- The accelerator does not store to the registers that configure it. -/
theorem configured_store_iff {engine : Engine} {results : Results} {args : NetworkAccReg} :
    Configured (engine.store results) args ↔ Configured engine args :=
  ⟨fun h => ⟨h.1, h.2, h.3, h.4, h.5, h.6⟩, fun h => ⟨h.1, h.2, h.3, h.4, h.5, h.6⟩⟩

section

variable (loopback : Nat → Engine → Int × Engine) (stale : NetworkAccArgs) (engine : Engine)

/-- **No call** reaches a register, and none changes its argument. -/
theorem axitangxiIoctl_acc (command : Command) (arg : Option NetworkAccReg) :
    axitangxiIoctl loopback stale engine command.cmd arg =
      ⟨if command = .start ∨ arg.isSome then 0 else -EFAULT, engine, arg⟩ := by
  cases command with
  | config =>
    unfold axitangxiIoctl Command.cmd
    rw [if_neg (by decide), if_neg (by decide), if_neg (by decide), if_pos rfl]
    cases arg <;> rfl
  | start =>
    unfold axitangxiIoctl Command.cmd
    rw [if_neg (by decide), if_neg (by decide), if_neg (by decide), if_neg (by decide), if_pos rfl]
    rfl
  | get =>
    unfold axitangxiIoctl Command.cmd
    rw [if_neg (by decide), if_neg (by decide), if_neg (by decide), if_neg (by decide),
      if_neg (by decide), if_pos rfl]
    cases arg <;> rfl

theorem rc_eq_zero_iff {command : Command} {arg : Option NetworkAccReg} :
    (axitangxiIoctl loopback stale engine command.cmd arg).rc = 0 ↔
      command = .start ∨ ∃ args, arg = some args := by
  rw [axitangxiIoctl_acc, ← Option.isSome_iff_exists]
  by_cases h : command = .start ∨ arg.isSome
  · exact iff_of_true (if_pos h) h
  · exact iff_of_false (fun he => absurd ((if_neg h).symm.trans he) (by decide)) h

/-- **The library** hands out what its uninitialised local held. -/
theorem accGetTest_results (dev : NetworkAccDev) (iargs : NetworkAccReg) :
    (accGetTest loopback stale engine dev iargs).2.toNetworkAccReg.results = iargs.results ∧
      (accGetTest loopback stale engine dev iargs).1 = ⟨0, engine, some iargs⟩ :=
  ⟨rfl, axitangxiIoctl_acc loopback stale engine .get (some iargs)⟩

end

/-! ## Sequences -/

section

variable (loopback : Nat → Engine → Int × Engine) (engine : Engine)

/-- A step that left the registers as it found them, and its argument as it was. -/
structure AccStep.Idle (engine : Engine) (s : AccStep) : Prop where
  registers : s.after.engine = s.before
  arg : s.after.arg = s.call.arg
  results : s.before.results = s.call.results
  configured : ∀ args, Configured s.before args ↔ Configured engine args
  rc : s.after.rc = 0 ↔ s.call.command = .start ∨ ∃ args, s.call.arg = some args

/-- **Every call** is idle, and so are all those before it. -/
theorem idle_of_mem_steps {calls : List AccCall} {s : AccStep}
    (h : s ∈ steps loopback engine calls) : s.Idle engine := by
  induction calls generalizing engine with
  | nil => cases h
  | cons call calls ih =>
    rw [steps] at h
    rcases List.mem_cons.mp h with rfl | ht
    · refine ⟨?_, ?_, rfl, fun args => configured_store_iff, rc_eq_zero_iff loopback call.iargs _⟩
      all_goals rw [axitangxiIoctl_acc]
    · have hi := ih _ ht
      refine ⟨hi.registers, hi.arg, hi.results, fun args => (hi.configured args).trans ?_, hi.rc⟩
      rw [axitangxiIoctl_acc]
      exact configured_store_iff

theorem map_call_steps (calls : List AccCall) :
    (steps loopback engine calls).map (·.call) = calls := by
  induction calls generalizing engine with
  | nil => rfl
  | cons call calls ih => rw [steps, List.map_cons, ih]

theorem mem_calls_iff {calls : List AccCall} {call : AccCall} :
    call ∈ calls ↔ ∃ s ∈ steps loopback engine calls, s.call = call := by
  rw [← List.mem_map, map_call_steps]

variable {loopback engine}

theorem nothingToDo_of_takesEffect {calls : List AccCall}
    (h : TakesEffect (steps loopback engine calls)) : NothingToDo engine calls := by
  refine ⟨fun call hc hty => ?_, fun call hc hty args harg => ?_, fun call hc hty args harg => ?_⟩
  -- a control register that was not written was not pulsed
  · obtain ⟨s, hs, rfl⟩ := (mem_calls_iff loopback engine).mp hc
    obtain ⟨written, hw, hp⟩ := h.start s hs hty
    rw [(idle_of_mem_steps loopback engine hs).registers] at hw
    obtain rfl := List.self_eq_append_right.mp hw
    cases hp
  · obtain ⟨s, hs, rfl⟩ := (mem_calls_iff loopback engine).mp hc
    have hi := idle_of_mem_steps loopback engine hs
    obtain ⟨i, hget⟩ := List.mem_iff_getElem?.mp hs
    rw [← hi.configured args, ← hi.registers]
    exact h.config i s args hget hty harg i s le_rfl hget fun k u hik hki => by omega
  · obtain ⟨s, hs, rfl⟩ := (mem_calls_iff loopback engine).mp hc
    have hi := idle_of_mem_steps loopback engine hs
    obtain ⟨args', harg', he⟩ := h.get s hs hty
    rw [hi.arg, harg] at harg'
    cases harg'
    rw [he, hi.results]

theorem takesEffect_of_nothingToDo {calls : List AccCall}
    (hrc : ∀ s ∈ steps loopback engine calls, s.after.rc = 0) (h : NothingToDo engine calls) :
    TakesEffect (steps loopback engine calls) := by
  have hcalls : ∀ s ∈ steps loopback engine calls, s.call ∈ calls :=
    fun s hs => (mem_calls_iff loopback engine).mpr ⟨s, hs, rfl⟩
  refine ⟨fun i s args hs hty harg j t _ ht _ => ?_, fun s hs hty => ?_, fun s hs hty => ?_⟩
  · have hi := idle_of_mem_steps loopback engine (List.mem_of_getElem? ht)
    rw [hi.registers, hi.configured args]
    exact h.config s.call (hcalls s (List.mem_of_getElem? hs)) hty args harg
  · exact absurd hty (h.start s.call (hcalls s hs))
  · have hi := idle_of_mem_steps loopback engine hs
    obtain hst | ⟨args, harg⟩ := hi.rc.mp (hrc s hs)
    · rw [hty] at hst
      cases hst
    · exact ⟨args, hi.arg.trans harg,
        by rw [hi.results, h.get s.call (hcalls s hs) hty args harg]⟩

/-- **The accelerator calls** have their effect exactly where there is nothing to do. -/
theorem takesEffect_iff {calls : List AccCall}
    (hrc : ∀ s ∈ steps loopback engine calls, s.after.rc = 0) :
    TakesEffect (steps loopback engine calls) ↔ NothingToDo engine calls :=
  ⟨nothingToDo_of_takesEffect, takesEffect_of_nothingToDo hrc⟩

end

def sampleArgs : NetworkAccReg := ⟨0, 1, 2, 3, 4, 5, 6, 0, 0, 0, 0⟩

/-- All registers are 0. -/
def resetEngine : Engine := ⟨fun _ => 0, []⟩

def sampleResults : Results := ⟨7, 8, 9, 10⟩

/-- The three calls of the test program, of which the last comes behind the results. -/
def sampleCalls : List AccCall :=
  [⟨⟨0, 0, 0, 0⟩, .config, some sampleArgs, sampleArgs⟩,
    ⟨⟨0, 0, 0, 0⟩, .start, some sampleArgs, sampleArgs⟩,
    ⟨sampleResults, .get, some sampleArgs, sampleArgs⟩]

theorem takesEffect_iff_sampleCalls :
    (∀ s ∈ steps (fun _ engine => (0, engine)) resetEngine sampleCalls, s.after.rc = 0) ∧
      (TakesEffect (steps (fun _ engine => (0, engine)) resetEngine sampleCalls) ↔
        NothingToDo resetEngine sampleCalls) := by
  have hrc : ∀ s ∈ steps (fun _ engine => (0, engine)) resetEngine sampleCalls,
      s.after.rc = 0 := by
    intro s hs
    simp only [sampleCalls, steps, axitangxiIoctl_acc, List.mem_cons, List.not_mem_nil,
      or_false] at hs
    rcases hs with rfl | rfl | rfl <;> rfl
  exact ⟨hrc, takesEffect_iff hrc⟩

/-- **The test program**: its calls return 0, and none of the three has its effect. -/
theorem sampleCalls_no_effect :
    (∀ s ∈ steps (fun _ engine => (0, engine)) resetEngine sampleCalls, s.after.rc = 0) ∧
      ¬ ConfigHeld (steps (fun _ engine => (0, engine)) resetEngine sampleCalls) ∧
      ¬ StartPulsed (steps (fun _ engine => (0, engine)) resetEngine sampleCalls) ∧
      ¬ ResultsHanded (steps (fun _ engine => (0, engine)) resetEngine sampleCalls) := by
  simp only [sampleCalls, steps, axitangxiIoctl_acc]
  refine ⟨?_, fun h => ?_, fun h => ?_, fun h => ?_⟩
  · intro s hs
    simp only [List.mem_cons, List.not_mem_nil, or_false] at hs
    rcases hs with rfl | rfl | rfl <;> rfl
  · have hw := (h 0 _ sampleArgs rfl rfl rfl 0 _ le_rfl rfl fun k u hk hk' => by omega).weightAddr
    exact absurd hw (by decide)
  · obtain ⟨written, hw, hp⟩ := h _ (.tail _ (.head _)) rfl
    obtain rfl := List.self_eq_append_right.mp hw
    cases hp
  · obtain ⟨args, ha, hr⟩ := h _ (.tail _ (.tail _ (.head _))) rfl
    cases ha
    exact absurd hr (by decide)

end DeepSpace.AxiTangxi
