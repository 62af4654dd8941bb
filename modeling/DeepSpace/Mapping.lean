import DeepSpace.AxiTangxi
import DeepSpace.Runs
import Mathlib.Data.List.Infix
import Mathlib.Logic.Function.Basic

/-!
# `axitangxi_mmap` and `axitangxi_vma_close`

The mappings of the device, their records in `addr_list`, and the blocks that `kmalloc` and
`kzalloc` hand out.  Each block has a number of its own; a pointer to a block that was freed
is not followed.

* `kbuff_freed`: in every run, the buffer of every live mapping has been freed;
* `intact_iff`: the registry is intact in exactly the runs in which no call gets its record.
-/

namespace DeepSpace.AxiTangxi

open DeepSpace.Runs

/-! ## State -/

def ENOMEM : Int := 12

def PAGE_SHIFT : Nat := 12

/-- What `axitangxi_mmap` reads of a `vm_area_struct`. -/
structure Vma where
  vmStart : Nat
  vmEnd : Nat
  vmPgoff : Nat
  deriving DecidableEq

/-- A live mapping: its `vm_private_data`, and the buffer whose pages are mapped. -/
structure Mapping where
  vma : Vma
  vmPrivateData : Nat
  kbuff : Nat
  deriving DecidableEq

/-- The blocks, the contents of the records, and `addr_list`, newest first. -/
structure Registry where
  fresh : Nat
  allocated : Nat → Bool
  virtToPhys : Nat → Nat
  record : Nat → Allocation
  addrList : List Nat
  mappings : List Mapping

namespace Registry

/-- After `INIT_LIST_HEAD`. -/
def boot : Registry where
  fresh := 0
  allocated := fun _ => false
  virtToPhys := fun _ => 0
  record := fun _ => ⟨0, 0, 0⟩
  addrList := []
  mappings := []

/-! ## Steps -/

def kmalloc (s : Registry) : Registry :=
  { s with fresh := s.fresh + 1, allocated := Function.update s.allocated s.fresh true }

def kfree (s : Registry) (block : Nat) : Registry :=
  { s with allocated := Function.update s.allocated block false }

/-- `list_add`, which also writes to the node that was first. -/
def listAdd (s : Registry) (node : Nat) : Option Registry :=
  if s.addrList.head?.all s.allocated then some { s with addrList := node :: s.addrList } else none

/-- `axitangxi_mmap`: the return value and the registry.  `record` and `kbuff` say whether
the two allocations succeed, `kbuff` with the physical address, and `rc` is the result of
`remap_pfn_range`. -/
def mmap (s : Registry) (vma : Vma) (record : Bool) (kbuff : Option Nat) (rc : Int) :
    Option (Int × Registry) :=
  let size := vma.vmEnd - vma.vmStart
  if record then
    let axitangxiAlloc := s.fresh
    let s := s.kmalloc
    match kbuff with
    | none => some (-ENOMEM, s)
    | some phys =>
      let kbuff := s.fresh
      let s := { s.kmalloc with virtToPhys := Function.update s.virtToPhys kbuff phys }
      let pfnStart := (phys >>> PAGE_SHIFT) + vma.vmPgoff
      if rc ≠ 0 then some (rc, s.kfree kbuff)
      else
        let s := { s with
          record := Function.update s.record axitangxiAlloc
            ⟨size, vma.vmStart, uint32 (uint32 pfnStart <<< PAGE_SHIFT)⟩
          mappings := ⟨vma, axitangxiAlloc, kbuff⟩ :: s.mappings }
        -- the label `free_data` follows
        (s.listAdd axitangxiAlloc).map fun s => (0, s.kfree kbuff)
  else some (-ENOMEM, s)

/-- `axitangxi_vma_close`; the mapping is gone. -/
def vmaClose (s : Registry) (m : Mapping) : Registry :=
  { s.kfree m.vmPrivateData with mappings := s.mappings.erase m }

/-- `axitangxi_uservirt_to_phys`; `none` where it would read a record that was freed. -/
def uservirtToPhys (s : Registry) (userAddr : Nat) : List Nat → Option Nat
  | [] => some 0
  | node :: iter =>
    if s.allocated node then
      if (s.record node).userAddr = userAddr then some (s.record node).physAddr
      else uservirtToPhys s userAddr iter
    else none

inductive Event where
  | mmap (vma : Vma) (record : Bool) (kbuff : Option Nat) (rc : Int)
  | munmap (m : Mapping)

/-- The kernel gives each mapping a range of its own. -/
def Free (s : Registry) (vma : Vma) : Prop :=
  ∀ m ∈ s.mappings, m.vma.vmEnd ≤ vma.vmStart ∨ vma.vmEnd ≤ m.vma.vmStart

instance (s : Registry) (vma : Vma) : Decidable (s.Free vma) :=
  inferInstanceAs (Decidable (∀ m ∈ s.mappings,
    m.vma.vmEnd ≤ vma.vmStart ∨ vma.vmEnd ≤ m.vma.vmStart))

def step (s : Registry) : Event → Option Registry
  | .mmap vma record kbuff rc =>
    if vma.vmStart < vma.vmEnd ∧ s.Free vma then (s.mmap vma record kbuff rc).map Prod.snd
    else none
  | .munmap m => if m ∈ s.mappings then some (s.vmaClose m) else none

/-! ## What a step can do -/

/-- Both blocks are there, and the buffer has its physical address. -/
def withBlocks (s : Registry) (phys : Nat) : Registry :=
  { s.kmalloc.kmalloc with virtToPhys := Function.update s.virtToPhys (s.fresh + 1) phys }

/-- The record is filled in and in the list, and the buffer is freed. -/
def mapped (s : Registry) (vma : Vma) (phys : Nat) : Registry :=
  { (s.withBlocks phys).kfree (s.fresh + 1) with
    record := Function.update s.record s.fresh ⟨vma.vmEnd - vma.vmStart, vma.vmStart,
      uint32 (uint32 ((phys >>> PAGE_SHIFT) + vma.vmPgoff) <<< PAGE_SHIFT)⟩
    addrList := s.fresh :: s.addrList
    mappings := ⟨vma, s.fresh, s.fresh + 1⟩ :: s.mappings }

/-- The cases of `step`. -/
inductive Taken (s : Registry) : Event → Registry → Prop where
  | noRecord (vma : Vma) (kbuff : Option Nat) (rc : Int) : Taken s (.mmap vma false kbuff rc) s
  | noBuffer (vma : Vma) (rc : Int) : Taken s (.mmap vma true none rc) s.kmalloc
  | noRemap (vma : Vma) (phys : Nat) (rc : Int) (hrc : rc ≠ 0) :
      Taken s (.mmap vma true (some phys) rc) ((s.withBlocks phys).kfree (s.fresh + 1))
  | mapped (vma : Vma) (phys : Nat) : Taken s (.mmap vma true (some phys) 0) (s.mapped vma phys)
  | munmap (m : Mapping) (hm : m ∈ s.mappings) : Taken s (.munmap m) (s.vmaClose m)

theorem taken_of_step {s s' : Registry} {e : Event} (h : step s e = some s') : Taken s e s' := by
  cases e with
  | mmap vma record kbuff rc =>
    obtain ⟨-, h⟩ := Option.ite_none_right_eq_some.mp h
    obtain ⟨⟨rc', t⟩, hm, rfl⟩ := Option.map_eq_some_iff.mp h
    cases record with
    | false =>
      obtain ⟨-, rfl⟩ := Prod.mk.inj (Option.some.inj hm)
      exact .noRecord vma kbuff rc
    | true =>
      cases kbuff with
      | none =>
        obtain ⟨-, rfl⟩ := Prod.mk.inj (Option.some.inj hm)
        exact .noBuffer vma rc
      | some phys =>
        by_cases hrc : rc = 0
        · subst hrc
          obtain ⟨u, hu, he⟩ := Option.map_eq_some_iff.mp hm
          obtain ⟨-, rfl⟩ := Prod.mk.inj he
          obtain ⟨-, hu⟩ := Option.ite_none_right_eq_some.mp hu
          obtain rfl := Option.some.inj hu
          exact .mapped vma phys
        · obtain ⟨-, rfl⟩ := Prod.mk.inj (Option.some.inj ((if_pos hrc).symm.trans hm))
          exact .noRemap vma phys rc hrc
  | munmap m =>
    obtain ⟨hm, h⟩ := Option.ite_none_right_eq_some.mp h
    obtain rfl := Option.some.inj h
    exact .munmap m hm

/-! ## The buffers -/

/-- The blocks of a mapping are older than those to come, and its buffer was freed. -/
structure Freed (s : Registry) (m : Mapping) : Prop where
  record_lt : m.vmPrivateData < s.fresh
  kbuff_lt : m.kbuff < s.fresh
  kbuff : s.allocated m.kbuff = false

theorem Freed.of_allocated {s s' : Registry} {m : Mapping} (h : s.Freed m)
    (hf : s.fresh ≤ s'.fresh) (ha : s'.allocated m.kbuff = s.allocated m.kbuff) : s'.Freed m :=
  ⟨h.record_lt.trans_le hf, h.kbuff_lt.trans_le hf, ha.trans h.kbuff⟩

theorem kmalloc_allocated (s : Registry) : s.kmalloc.allocated s.fresh = true := by
  change Function.update s.allocated s.fresh true s.fresh = true
  rw [Function.update_self]

theorem kfree_allocated (s : Registry) (block : Nat) : (s.kfree block).allocated block = false := by
  change Function.update s.allocated block false block = false
  rw [Function.update_self]

theorem withBlocks_allocated {s : Registry} {phys block : Nat} (h : block < s.fresh) :
    ((s.withBlocks phys).kfree (s.fresh + 1)).allocated block = s.allocated block := by
  change Function.update (Function.update (Function.update _ _ _) _ _) _ _ _ = _
  rw [Function.update_of_ne (by omega)]
  exact (Function.update_of_ne (show block ≠ s.fresh + 1 by omega) _ _).trans
    (Function.update_of_ne (by omega) _ _)

theorem freed_of_taken {s s' : Registry} {e : Event} (h : ∀ m ∈ s.mappings, s.Freed m)
    (ht : Taken s e s') : ∀ m ∈ s'.mappings, s'.Freed m := by
  intro m hm
  cases ht with
  | noRecord vma kbuff rc => exact h m hm
  | noBuffer vma rc =>
    have hf := h m hm
    exact hf.of_allocated (Nat.le_succ _) (Function.update_of_ne hf.kbuff_lt.ne _ _)
  | noRemap vma phys rc hrc =>
    have hf := h m hm
    exact hf.of_allocated (Nat.le_add_right _ 2) (withBlocks_allocated hf.kbuff_lt)
  | mapped vma phys =>
    rcases List.mem_cons.mp hm with rfl | hm
    · exact ⟨Nat.lt_add_of_pos_right Nat.two_pos, Nat.lt_succ_self (s.fresh + 1),
        kfree_allocated (s.withBlocks phys) (s.fresh + 1)⟩
    · have hf := h m hm
      exact hf.of_allocated (Nat.le_add_right _ 2) (withBlocks_allocated hf.kbuff_lt)
  | munmap m' hm' =>
    have hf := h m (List.mem_of_mem_erase hm)
    refine ⟨hf.record_lt, hf.kbuff_lt, ?_⟩
    change Function.update s.allocated _ false _ = _
    by_cases hb : m.kbuff = m'.vmPrivateData
    · rw [hb, Function.update_self]
    · rw [Function.update_of_ne hb, hf.kbuff]

/-- **Every live mapping** shows memory that is free for the next `kmalloc`. -/
theorem kbuff_freed {es : List Event} {s : Registry} (h : run step boot es = some s) :
    ∀ m ∈ s.mappings, s.Freed m :=
  invariant_of_run (fun _ _ _ hI hs => freed_of_taken hI (taken_of_step hs))
    (fun m (hm : m ∈ boot.mappings) => by cases hm) h

/-! ## The registry -/

/-- Where no node of the list was freed, it is read as a list of records. -/
theorem uservirtToPhys_eq {s : Registry} (userAddr : Nat) {nodes : List Nat}
    (h : ∀ node ∈ nodes, s.allocated node = true) :
    s.uservirtToPhys userAddr nodes =
      some (AxiTangxi.uservirtToPhys (nodes.map s.record) userAddr) := by
  induction nodes with
  | nil => rfl
  | cons node iter ih =>
    obtain ⟨hn, hi⟩ := List.forall_mem_cons.mp h
    rw [uservirtToPhys, if_pos hn, ih hi, List.map_cons, AxiTangxi.uservirtToPhys]
    split <;> rfl

/-- The list holds the records of the live mappings, whose two blocks are allocated and no
others, and translates exactly their addresses. -/
structure Intact (s : Registry) : Prop where
  entries : ∀ node, node ∈ s.addrList ↔ ∃ m ∈ s.mappings, m.vmPrivateData = node
  held : ∀ m ∈ s.mappings, s.allocated m.vmPrivateData = true ∧ s.allocated m.kbuff = true
  rest : ∀ block, s.allocated block = true →
    ∃ m ∈ s.mappings, block = m.vmPrivateData ∨ block = m.kbuff
  translated : ∀ userAddr, s.uservirtToPhys userAddr s.addrList =
    some (((s.mappings.find? fun m => m.vma.vmStart = userAddr).map fun m =>
      s.virtToPhys m.kbuff).getD 0)

/-- No record, or no mapping. -/
def Event.NoRecord : Event → Prop
  | .mmap _ record _ _ => record = false
  | .munmap _ => True

theorem intact_boot : Intact boot := by
  constructor
  · intro node
    exact ⟨fun h => (by cases h), fun ⟨m, hm, _⟩ => by cases hm⟩
  · exact fun m hm => by cases hm
  · exact fun block h => by cases h
  · exact fun userAddr => rfl

/-- A block that no mapping knows of stays allocated. -/
theorem not_intact_of_leak {s s' : Registry} (h : ∀ m ∈ s.mappings, s.Freed m)
    (hm : s'.mappings = s.mappings) (ha : s'.allocated s.fresh = true) : ¬ Intact s' := by
  intro hi
  obtain ⟨m, hmem, hb⟩ := hi.rest s.fresh ha
  have hf := h m (hm ▸ hmem)
  have := hf.record_lt
  have := hf.kbuff_lt
  omega

/-- Whatever becomes of a call that has its record, the registry is not intact behind it. -/
theorem not_intact_of_taken {s s' : Registry} {e : Event} (h : ∀ m ∈ s.mappings, s.Freed m)
    (ht : Taken s e s') (he : ¬ e.NoRecord) : ¬ Intact s' := by
  cases ht with
  | noRecord vma kbuff rc => exact absurd rfl he
  | noBuffer vma rc => exact not_intact_of_leak h rfl s.kmalloc_allocated
  | noRemap vma phys rc hrc =>
    refine not_intact_of_leak h rfl ?_
    change Function.update (Function.update (Function.update _ _ _) _ _) _ _ _ = _
    rw [Function.update_of_ne (by omega)]
    exact (Function.update_of_ne (show s.fresh ≠ s.fresh + 1 by omega) _ _).trans
      s.kmalloc_allocated
  | mapped vma phys =>
    intro hi
    have hk := (hi.held _ List.mem_cons_self).2
    exact absurd (hk.symm.trans (kfree_allocated (s.withBlocks phys) (s.fresh + 1))) (by decide)
  | munmap m hm => exact absurd trivial he

/-- In the runs in question nothing ever happens. -/
theorem run_of_noRecord {es : List Event} {s : Registry} (h : run step boot es = some s)
    (he : ∀ e ∈ es, e.NoRecord) : s = boot := by
  induction es with
  | nil => exact (Option.some.inj h).symm
  | cons e es ih =>
    obtain ⟨t, ht, hrest⟩ := Option.bind_eq_some_iff.mp h
    obtain ⟨he, hes⟩ := List.forall_mem_cons.mp he
    cases taken_of_step ht with
    | noRecord vma kbuff rc => exact ih hrest hes
    | noBuffer vma rc => cases he
    | noRemap vma phys rc hrc => cases he
    | mapped vma phys => cases he
    | munmap m hm => cases hm

/-- **The registry** is intact in every state of a run iff every call of the run fails to
get its record. -/
theorem intact_iff (es : List Event) (h : (run step boot es).isSome) :
    (∀ es' s, es' <+: es → run step boot es' = some s → Intact s) ↔ ∀ e ∈ es, e.NoRecord := by
  constructor
  · intro hi e he
    by_contra hne
    obtain ⟨xs, ys, rfl⟩ := List.append_of_mem he
    obtain ⟨s, hs⟩ := Option.isSome_iff_exists.mp h
    rw [run_append] at hs
    obtain ⟨t, ht, hs⟩ := Option.bind_eq_some_iff.mp hs
    obtain ⟨t', ht', -⟩ := Option.bind_eq_some_iff.mp hs
    have hrun : run step boot (xs ++ [e]) = some t' := by
      rw [run_append, ht, Option.bind_some, run_cons ht']
      rfl
    exact not_intact_of_taken (kbuff_freed ht) (taken_of_step ht') hne
      (hi _ _ ⟨ys, by rw [List.append_assoc]; rfl⟩ hrun)
  · intro he es' s hp hs
    rw [run_of_noRecord hs fun e hm => he e (hp.subset hm)]
    exact intact_boot

/-- One page is mapped, two are not for want of a buffer, one more is, and the first is unmapped. -/
def sampleRun : List Event :=
  [.mmap ⟨0x1000, 0x2000, 0⟩ true (some 0x5000) 0, .mmap ⟨0x2000, 0x4000, 0⟩ true none 0,
    .mmap ⟨0x4000, 0x5000, 0⟩ true (some 0x6000) 0, .munmap ⟨⟨0x1000, 0x2000, 0⟩, 0, 1⟩]

theorem intact_iff_sampleRun :
    (run step boot sampleRun).isSome ∧
      ((∀ es' s, es' <+: sampleRun → run step boot es' = some s → Intact s) ↔
        ∀ e ∈ sampleRun, e.NoRecord) :=
  ⟨by decide, intact_iff _ (by decide)⟩

/-- **One page is mapped**, with every allocation and the remap succeeding. -/
theorem mapped_not_intact :
    ∃ s, run step boot [.mmap ⟨0x1000, 0x2000, 0⟩ true (some 0x5000) 0] = some s ∧
      s.mappings = [⟨⟨0x1000, 0x2000, 0⟩, 0, 1⟩] ∧ ¬ Intact s := by
  refine ⟨boot.mapped ⟨0x1000, 0x2000, 0⟩ 0x5000, rfl, rfl, fun hi => ?_⟩
  have hk := (hi.held _ List.mem_cons_self).2
  exact absurd (hk.symm.trans (kfree_allocated (boot.withBlocks 0x5000) 1)) (by decide)

end Registry

end DeepSpace.AxiTangxi
