import DeepSpace.Runs
import Mathlib.Algebra.Order.Ring.Int
import Mathlib.Data.List.Count
import Mathlib.Data.List.Infix

/-!
# `axitangxi_init` and `axitangxi_exit`

What the driver has of the kernel, from one load to the next.  The answers of the kernel are
arbitrary.

* `registersTidy_run`: in every run, a register is mapped exactly while a loaded driver has its
  address;
* `tidy_iff`: the driver holds what it has to, and nothing when it is not loaded, in exactly the
  runs in which no load fails halfway.
-/

namespace DeepSpace.AxiTangxi.DriverLoad

open DeepSpace.Runs

/-! ## The kernel -/

def EINVAL : Int := 22

def EFAULT : Int := 14

/-- The registers with an address of their own. -/
inductive IoRegister where
  | dmaMm2sPsAddr
  | dmaMm2sPsSize
  | nocDataPkgAddr
  | nocDataPkgCtl
  | nocCtlPkgCtl
  | csramWriteCtl
  | dmaS2mmPsAddr
  | dmaS2mmPsSize
  | resultReadAddr
  | resultReadCtl
  | txRiscvResetCtl
  | dmaMm2sPlAddr
  | dmaMm2sPlSize
  | dmaS2mmPlAddr
  | dmaS2mmPlSize
  | plIrqTaskNum
  | networkAccControl
  | networkAccWeightAddr
  | networkAccWeightSize
  | networkAccQuantifyAddr
  | networkAccQuantifySize
  | networkAccPictureAddr
  | networkAccPictureSize
  | networkAccTransAddr
  | networkAccTransSize
  | networkAccEntropyAddr
  | networkAccEntropySize
  deriving DecidableEq, Repr

inductive Resource where
  | irq
  | chrdevRegion
  | cdev
  | deviceClass
  | device
  | mapping (register : IoRegister)
  deriving DecidableEq, Repr

/-- A pointer for which `IS_ERR` holds. -/
structure ErrPtr where
  errno : Nat
  errno_pos : 0 < errno

/-- What the kernel answers to one load.  `requestIrq`, `allocChrdevRegion` and `cdevAdd` are
return values, 0 for success; `classCreate` and `deviceCreate` are `none` for a valid pointer. -/
structure Answers where
  node : Bool
  requestIrq : Int
  allocChrdevRegion : Int
  cdevAdd : Int
  classCreate : Option ErrPtr
  deviceCreate : Option ErrPtr
  ioremap : IoRegister → Bool

/-! ## The code -/

/-- `reg_map`, in the order of its calls of `ioremap`. -/
def regMap : List IoRegister := [
  .dmaMm2sPsAddr, .dmaMm2sPsSize, .nocDataPkgAddr, .nocDataPkgCtl, .nocCtlPkgCtl, .csramWriteCtl,
  .dmaS2mmPsAddr, .dmaS2mmPsSize, .resultReadAddr, .resultReadCtl, .txRiscvResetCtl,
  .dmaMm2sPlAddr, .dmaMm2sPlSize, .dmaS2mmPlAddr, .dmaS2mmPlSize, .plIrqTaskNum,
  .networkAccControl, .networkAccWeightAddr, .networkAccWeightSize, .networkAccQuantifyAddr,
  .networkAccQuantifySize, .networkAccPictureAddr, .networkAccPictureSize, .networkAccTransAddr,
  .networkAccTransSize, .networkAccEntropyAddr, .networkAccEntropySize]

/-- `reg_unmap`. -/
def regUnmap : List IoRegister := [
  .dmaMm2sPsAddr, .dmaMm2sPsSize, .nocDataPkgAddr, .nocDataPkgCtl, .nocCtlPkgCtl, .csramWriteCtl,
  .dmaS2mmPsAddr, .dmaS2mmPsSize, .resultReadAddr, .resultReadCtl, .txRiscvResetCtl,
  .dmaMm2sPlAddr, .dmaMm2sPlSize, .dmaS2mmPlAddr, .dmaS2mmPlSize, .plIrqTaskNum,
  .networkAccControl, .networkAccWeightAddr, .networkAccWeightSize, .networkAccQuantifyAddr,
  .networkAccQuantifySize, .networkAccPictureAddr, .networkAccPictureSize, .networkAccTransAddr,
  .networkAccTransSize, .networkAccEntropyAddr, .networkAccEntropySize]

/-- What a call that may fail has acquired. -/
def granted (rc : Int) (r : Resource) : List Resource := if rc = 0 then [r] else []

/-- `axitangxi_init`: the return value, and what was acquired on the way. -/
def init (k : Answers) : Int × List Resource :=
  if k.node = false then (-EINVAL, [])
  else
    let irq := granted k.requestIrq .irq
    -- `ret` is a `u32`
    let ret := (k.requestIrq % 2 ^ 32).toNat
    if ret < 0 then (-EFAULT, irq)
    else
      let cdev := irq ++ granted k.allocChrdevRegion .chrdevRegion ++ granted k.cdevAdd .cdev
      match k.classCreate with
      | some e => (-e.errno, cdev)
      | none =>
        match k.deviceCreate with
        | some e => (-e.errno, cdev ++ [.deviceClass])
        | none => (0, cdev ++ [.deviceClass, .device] ++ (regMap.filter k.ioremap).map .mapping)

/-- `axitangxi_exit`, which hands back every register whose address is not `NULL`. -/
def exit (mapped : IoRegister → Bool) : List Resource :=
  [.irq] ++ (regUnmap.filter mapped).map .mapping ++ [.cdev, .chrdevRegion, .device, .deviceClass]

/-- The driver: which addresses it has, and how often each resource was acquired, less how often
it was released. -/
structure State where
  loaded : Bool
  mapped : IoRegister → Bool
  account : Resource → Int

def boot : State := ⟨false, fun _ => false, fun _ => 0⟩

inductive Event where
  | load (k : Answers)
  | unload

/-- A driver whose `axitangxi_init` does not return 0 is not loaded. -/
def State.load (s : State) (k : Answers) : State where
  loaded := (init k).1 = 0
  mapped r := .mapping r ∈ (init k).2
  account r := s.account r + (init k).2.count r

def State.unload (s : State) : State where
  loaded := false
  mapped := s.mapped
  account r := s.account r - (exit s.mapped).count r

/-- A driver that is loaded is not loaded again. -/
def step (s : State) : Event → Option State
  | .load k => if s.loaded then none else some (s.load k)
  | .unload => if s.loaded then some s.unload else none

/-! ## What it is for -/

/-- A loaded driver has everything once, and one that is not loaded has nothing. -/
def Tidy (s : State) : Prop := ∀ r, s.account r = if s.loaded then 1 else 0

/-- There is no device, or everything succeeds, or nothing does before the class is missed. -/
def Answers.Clean (k : Answers) : Prop :=
  k.node = false ∨
    (k.requestIrq = 0 ∧ k.allocChrdevRegion = 0 ∧ k.cdevAdd = 0 ∧ k.classCreate = none ∧
      k.deviceCreate = none ∧ ∀ r, k.ioremap r = true) ∨
    k.requestIrq ≠ 0 ∧ k.allocChrdevRegion ≠ 0 ∧ k.cdevAdd ≠ 0 ∧ k.classCreate ≠ none

def Event.Clean : Event → Prop
  | .load k => k.Clean
  | .unload => True

/-! ## A load -/

theorem granted_count (rc : Int) (r r' : Resource) :
    (granted rc r).count r' = if rc = 0 ∧ r = r' then 1 else 0 := by
  unfold granted
  by_cases h : rc = 0 <;> by_cases hr : r = r' <;> simp [h, hr]

/-- Each register is mapped once. -/
theorem regMap_count (r : IoRegister) : regMap.count r = 1 := by cases r <;> rfl

theorem regUnmap_eq : regUnmap = regMap := rfl

theorem mapping_count (p : IoRegister → Bool) (r : IoRegister) :
    ((regMap.filter p).map Resource.mapping).count (.mapping r) = if p r then 1 else 0 := by
  rw [List.count_map_of_injective _ Resource.mapping (fun _ _ h => Resource.mapping.inj h)]
  by_cases h : p r
  · rw [List.count_filter h, regMap_count, if_pos h]
  · rw [if_neg h, List.count_eq_zero]
    exact fun hm => h (List.mem_filter.mp hm).2

theorem mapping_count_of_ne (p : IoRegister → Bool) {r : Resource} (h : ∀ x, r ≠ .mapping x) :
    ((regMap.filter p).map Resource.mapping).count r = 0 := by
  rw [List.count_eq_zero]
  intro hm
  obtain ⟨x, -, rfl⟩ := List.mem_map.mp hm
  exact h x rfl

section

variable {k : Answers}

theorem init_of_node (h : k.node = false) : init k = (-EINVAL, []) := if_pos h

/-- What is acquired before the class is. -/
def early (k : Answers) : List Resource :=
  granted k.requestIrq .irq ++ granted k.allocChrdevRegion .chrdevRegion ++
    granted k.cdevAdd .cdev

/-- What is acquired when the class and the device are there. -/
def late (k : Answers) : List Resource :=
  early k ++ [.deviceClass, .device] ++ (regMap.filter k.ioremap).map .mapping

theorem early_count (r : Resource) : (early k).count r =
    (if k.requestIrq = 0 ∧ .irq = r then 1 else 0) +
      (if k.allocChrdevRegion = 0 ∧ .chrdevRegion = r then 1 else 0) +
      if k.cdevAdd = 0 ∧ .cdev = r then 1 else 0 := by
  rw [early, List.count_append, List.count_append, granted_count, granted_count, granted_count]

/-- No failure of `request_irq` ends the load: an unsigned number is not below 0. -/
theorem init_of_class {e : ErrPtr} (h : k.node = true) (hc : k.classCreate = some e) :
    init k = (-(e.errno : Int), early k) := by
  rw [init, if_neg (by rw [h]; decide), if_neg (Nat.not_lt_zero _), hc]
  rfl

theorem init_of_device {e : ErrPtr} (h : k.node = true) (hc : k.classCreate = none)
    (hd : k.deviceCreate = some e) : init k = (-(e.errno : Int), early k ++ [.deviceClass]) := by
  rw [init, if_neg (by rw [h]; decide), if_neg (Nat.not_lt_zero _), hc, hd]
  rfl

theorem init_of_created (h : k.node = true) (hc : k.classCreate = none)
    (hd : k.deviceCreate = none) :
    init k = (0, late k) := by
  rw [init, if_neg (by rw [h]; decide), if_neg (Nat.not_lt_zero _), hc, hd]
  rfl

theorem errno_ne (e : ErrPtr) : -(e.errno : Int) ≠ 0 := by
  have := e.errno_pos
  omega

theorem early_nothing_iff : (∀ r, (early k).count r = 0) ↔
    k.requestIrq ≠ 0 ∧ k.allocChrdevRegion ≠ 0 ∧ k.cdevAdd ≠ 0 := by
  simp only [early_count]
  constructor
  · intro hr
    exact ⟨by simpa using hr .irq, by simpa using hr .chrdevRegion, by simpa using hr .cdev⟩
  · rintro ⟨hirq, hregion, hcdev⟩ r
    simp [hirq, hregion, hcdev]

theorem created_everything_iff :
    (∀ r, (late k).count r = 1) ↔
      k.requestIrq = 0 ∧ k.allocChrdevRegion = 0 ∧ k.cdevAdd = 0 ∧ ∀ r, k.ioremap r = true := by
  simp only [late, List.count_append, early_count]
  constructor
  · intro hr
    have hirq := hr .irq
    have hregion := hr .chrdevRegion
    have hcdev := hr .cdev
    rw [mapping_count_of_ne _ (fun _ h => by cases h)] at hirq hregion hcdev
    refine ⟨by simpa using hirq, by simpa using hregion, by simpa using hcdev, fun x => ?_⟩
    simpa [mapping_count] using hr (.mapping x)
  · rintro ⟨hirq, hregion, hcdev, hmap⟩ r
    cases r with
    | mapping x => simp [mapping_count, hmap]
    | _ =>
      rw [mapping_count_of_ne _ (fun _ h => by cases h)]
      simp [hirq, hregion, hcdev]

/-- **A load** is tidy in exactly the clean cases. -/
theorem init_tidy_iff :
    (∀ r, (init k).2.count r = if (init k).1 = 0 then 1 else 0) ↔ k.Clean := by
  unfold Answers.Clean
  cases h : k.node with
  | false =>
    rw [init_of_node h]
    exact iff_of_true (fun r => rfl) (.inl rfl)
  | true =>
    cases hc : k.classCreate with
    | some e =>
      rw [init_of_class h hc]
      simp only [if_neg (errno_ne e), early_nothing_iff]
      simp
    | none =>
      cases hd : k.deviceCreate with
      | some e =>
        rw [init_of_device h hc hd]
        simp only [if_neg (errno_ne e)]
        -- the class stays
        refine iff_of_false (fun hr => ?_) (by simp)
        simpa [List.count_append] using hr .deviceClass
      | none =>
        rw [init_of_created h hc hd]
        simp only [↓reduceIte, created_everything_iff]
        simp

/-! ## Steps -/

/-- A register is mapped exactly while a loaded driver has its address. -/
def RegistersTidy (s : State) : Prop :=
  ∀ r, s.account (.mapping r) = if s.loaded ∧ s.mapped r then 1 else 0

theorem registersTidy_boot : RegistersTidy boot := fun _ => rfl

theorem tidy_boot : Tidy boot := fun _ => rfl

/-- Only a load that succeeds maps registers. -/
theorem init_mapping (k : Answers) (r : IoRegister) :
    (init k).2.count (.mapping r) = if (init k).1 = 0 ∧ .mapping r ∈ (init k).2 then 1 else 0 := by
  have hearly : (early k).count (.mapping r) = 0 := by
    rw [early_count]
    simp
  cases h : k.node with
  | false =>
    rw [init_of_node h]
    rfl
  | true =>
    cases hc : k.classCreate with
    | some e =>
      rw [init_of_class h hc, if_neg (fun hm => errno_ne e hm.1)]
      exact hearly
    | none =>
      cases hd : k.deviceCreate with
      | some e =>
        rw [init_of_device h hc hd, if_neg (fun hm => errno_ne e hm.1), List.count_append, hearly]
        rfl
      | none =>
        rw [init_of_created h hc hd]
        have hcount : (late k).count (.mapping r) = if k.ioremap r then 1 else 0 := by
          rw [late, List.count_append, List.count_append, hearly, mapping_count]
          exact Nat.zero_add _
        simp only [hcount, ← List.count_pos_iff, true_and]
        cases k.ioremap r <;> simp

theorem exit_mapping (mapped : IoRegister → Bool) (r : IoRegister) :
    (exit mapped).count (.mapping r) = if mapped r then 1 else 0 := by
  rw [exit, regUnmap_eq, List.count_append, List.count_append, mapping_count]
  exact Nat.zero_add _

/-- The other resources are released whatever became of them. -/
theorem exit_of_ne (mapped : IoRegister → Bool) {r : Resource} (h : ∀ x, r ≠ .mapping x) :
    (exit mapped).count r = 1 := by
  rw [exit, regUnmap_eq, List.count_append, List.count_append, mapping_count_of_ne _ h]
  cases r with
  | mapping x => exact absurd rfl (h x)
  | _ => rfl

end

section

variable {s s' : State} {e : Event}

theorem registersTidy_step (hs : RegistersTidy s) (h : step s e = some s') : RegistersTidy s' := by
  intro r
  cases e with
  | load k =>
    obtain ⟨hl, h⟩ := Option.ite_none_left_eq_some.mp h
    obtain rfl := Option.some.inj h
    have hr := hs r
    rw [if_neg (fun hm => hl hm.1)] at hr
    simp only [State.load, hr, init_mapping, decide_eq_true_eq, zero_add]
    split <;> rfl
  | unload =>
    obtain ⟨hl, h⟩ := Option.ite_none_right_eq_some.mp h
    obtain rfl := Option.some.inj h
    have hr := hs r
    simp only [hl, true_and] at hr
    simp only [State.unload, hr, exit_mapping, Bool.false_eq_true, false_and, ↓reduceIte]
    split <;> rfl

/-- **A step** behind a tidy state. -/
theorem tidy_step (hr : RegistersTidy s) (ht : Tidy s) (h : step s e = some s') :
    Tidy s' ↔ e.Clean := by
  cases e with
  | load k =>
    obtain ⟨hl, h⟩ := Option.ite_none_left_eq_some.mp h
    obtain rfl := Option.some.inj h
    change _ ↔ k.Clean
    rw [← init_tidy_iff]
    refine forall_congr' fun r => ?_
    have h0 := ht r
    rw [if_neg hl] at h0
    simp only [State.load, h0, zero_add, decide_eq_true_eq]
    split <;> exact Int.natCast_inj
  | unload =>
    obtain ⟨hl, h⟩ := Option.ite_none_right_eq_some.mp h
    obtain rfl := Option.some.inj h
    refine iff_of_true (fun r => ?_) trivial
    have h1 := ht r
    rw [if_pos hl] at h1
    have hcount : (exit s.mapped).count r = 1 := by
      by_cases hm : ∃ x, r = .mapping x
      · obtain ⟨x, rfl⟩ := hm
        have hx := hr x
        rw [exit_mapping]
        by_cases hmx : s.mapped x
        · exact if_pos hmx
        · rw [h1, if_neg (fun hm => hmx hm.2)] at hx
          cases hx
      · exact exit_of_ne _ (not_exists.mp hm)
    change s.account r - (exit s.mapped).count r = 0
    rw [h1, hcount]
    rfl

theorem registersTidy_run {es : List Event} (h : run step boot es = some s) : RegistersTidy s :=
  invariant_of_run (fun _ _ _ hs hstep => registersTidy_step hs hstep) registersTidy_boot h

/-- **Tidy runs.** -/
theorem tidy_run_iff (hr : RegistersTidy s) (ht : Tidy s) {es : List Event}
    (h : (run step s es).isSome) :
    (∀ es' t, es' <+: es → run step s es' = some t → Tidy t) ↔ ∀ e ∈ es, e.Clean := by
  induction es generalizing s with
  | nil =>
    refine iff_of_true (fun es' t hp hrun => ?_) (fun e he => by cases he)
    obtain rfl := List.prefix_nil.mp hp
    obtain rfl := Option.some.inj hrun
    exact ht
  | cons e es ih =>
    obtain ⟨u, hu⟩ := Option.isSome_iff_exists.mp h
    obtain ⟨t, hstep, hrest⟩ := Option.bind_eq_some_iff.mp hu
    have hrt := registersTidy_step hr hstep
    have htt := tidy_step hr ht hstep
    have hsome : (run step t es).isSome := Option.isSome_iff_exists.mpr ⟨u, hrest⟩
    rw [List.forall_mem_cons]
    constructor
    · intro hall
      have hclean : Tidy t := hall [e] t ⟨es, rfl⟩ (run_cons hstep [])
      refine ⟨htt.mp hclean, (ih hrt hclean hsome).mp fun es' t' hp hrun => ?_⟩
      exact hall (e :: es') t' (List.cons_prefix_cons.mpr ⟨rfl, hp⟩)
        ((run_cons hstep es').trans hrun)
    · rintro ⟨he, hes⟩ es' t' hp hrun
      cases es' with
      | nil =>
        obtain rfl := Option.some.inj hrun
        exact ht
      | cons e' es' =>
        obtain ⟨rfl, hpre⟩ := List.cons_prefix_cons.mp hp
        rw [run_cons hstep] at hrun
        exact (ih hrt (htt.mpr he) hsome).mpr hes es' t' hpre hrun

end

/-- **The driver**, over loads and unloads: no register stays mapped, whatever fails; and it is
tidy in every state iff every load of the run is clean. -/
theorem tidy_iff (es : List Event) (h : (run step boot es).isSome) :
    (∀ es' s, es' <+: es → run step boot es' = some s → RegistersTidy s) ∧
      ((∀ es' s, es' <+: es → run step boot es' = some s → Tidy s) ↔ ∀ e ∈ es, e.Clean) :=
  ⟨fun _ _ _ hrun => registersTidy_run hrun, tidy_run_iff registersTidy_boot tidy_boot h⟩

/-- The class is there already; the second load gets it, and the third event takes it back. -/
def sampleLoads : List Event := [
  .load ⟨true, 0, 0, 0, some ⟨17, by decide⟩, none, fun _ => true⟩,
  .load ⟨true, 0, 0, 0, none, none, fun _ => true⟩, .unload]

theorem tidy_iff_sampleLoads :
    (run step boot sampleLoads).isSome ∧
      (∀ es' s, es' <+: sampleLoads → run step boot es' = some s → RegistersTidy s) ∧
      ((∀ es' s, es' <+: sampleLoads → run step boot es' = some s → Tidy s) ↔
        ∀ e ∈ sampleLoads, e.Clean) :=
  have h : (run step boot sampleLoads).isSome := by decide
  ⟨h, tidy_iff sampleLoads h⟩

end DeepSpace.AxiTangxi.DriverLoad
