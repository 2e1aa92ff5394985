import NrKernel.PageTable.Hardware

/-!
# The hardware state machine

Physical memory, the TLBs of all cores of all NUMA nodes and the one page table memory, with
the steps of the MMU (`spec_t/hardware.rs:16–57`, `561–731`). File references in this
directory are relative to `src/page-table/`.
-/

namespace NrKernel.OS

open Lib PageTable

/-- `word_index_spec` (`spec_t/mem.rs:32–37`). -/
def wordIndexSpec (addr : Nat) : Nat := addr / wordSize

/-- `HWLoadResult` (`definitions_t.rs:163–166`). -/
inductive HWLoadResult where
  | pagefault
  | value (v : Nat)

/-- `HWStoreResult` (`definitions_t.rs:168–171`). -/
inductive HWStoreResult where
  | pagefault
  | ok

/-- `HWRWOp` (`definitions_t.rs:173–177`). -/
inductive HWRWOp where
  | store (newValue : Nat) (result : HWStoreResult)
  | load (isExec : Bool) (result : HWLoadResult)

/-- `HWConstants` (`spec_t/hardware.rs:16–21`). -/
structure HWConstants where
  numaNo : Nat
  coreNo : Nat
  physMemSize : Nat

/-- `Core` (`spec_t/hardware.rs:40–43`). -/
structure Core where
  numaId : Nat
  coreId : Nat
  deriving DecidableEq

/-- `CoreVariables`. -/
structure CoreVariables where
  tlb : Mappings

/-- `NUMAVariables`. -/
structure NUMAVariables where
  cores : PMap Nat CoreVariables

/-- `HWVariables` (`spec_t/hardware.rs:24–30`): word-indexed physical memory, the NUMA nodes
and the page table memory. -/
structure HWVariables (M : Type) where
  mem : List Nat
  numas : PMap Nat NUMAVariables
  globalPt : M

/-- `HWStep` (`spec_t/hardware.rs:46–57`). -/
inductive HWStep where
  | readWrite (vaddr paddr : Nat) (op : HWRWOp) (pte : Option (Nat × PageTableEntry)) (core : Core)
  | ptMemOp
  | tlbFill (vaddr : Nat) (pte : PageTableEntry) (core : Core)
  | tlbEvict (vaddr : Nat) (core : Core)

/-- `valid_NUMA_id` and `valid_core_id` (`spec_t/hardware.rs:672–684`). -/
def validCore (c : HWConstants) (core : Core) : Prop :=
  core.numaId < c.numaNo ∧ core.coreId < c.coreNo

namespace HWVariables

variable {M : Type}

/-- The cores of a node, `NUMAs[id].cores`; none for nodes that do not exist. -/
def cores (s : HWVariables M) (numaId : Nat) : PMap Nat CoreVariables :=
  (s.numas numaId).elim PMap.empty (·.cores)

/-- The TLB of a core, `NUMAs[core.NUMA_id].cores[core.core_id].tlb`; empty for cores that do
not exist. -/
def tlb (s : HWVariables M) (core : Core) : Mappings :=
  (s.cores core.numaId core.coreId).elim PMap.empty (·.tlb)

end HWVariables

namespace Hardware

variable {M : Type} [PtMemoryOps M] [PhyAddrWidth]

/-- `NUMA_init` (`spec_t/hardware.rs:567–571`). -/
def numaInit (c : HWConstants) (n : NUMAVariables) : Prop :=
  0 < c.coreNo ∧ (∀ id, id < c.coreNo ↔ (n.cores id).isSome) ∧
  ∀ id v, id < c.coreNo → n.cores id = some v → v.tlb.dom = ∅

/-- `init` (`spec_t/hardware.rs:561–565`). -/
structure Init (c : HWConstants) (s : HWVariables M) : Prop where
  numaNo_pos : 0 < c.numaNo
  numas_dom : ∀ id, id < c.numaNo ↔ (s.numas id).isSome
  numas_init : ∀ id n, id < c.numaNo → s.numas id = some n → numaInit c n

/-- `step_ReadWrite` (`spec_t/hardware.rs:575–639`). -/
def stepReadWrite (c : HWConstants) (s1 s2 : HWVariables M) (vaddr paddr : Nat) (op : HWRWOp)
    (pte : Option (Nat × PageTableEntry)) (core : Core) : Prop :=
  aligned vaddr 8 ∧ s2.numas = s1.numas ∧ validCore c core ∧
  match pte with
  | some (base, pte) =>
    -- a cached mapping that maps vaddr to paddr
    s1.tlb core base = some pte ∧ between vaddr base (base + pte.frame.size) ∧
    paddr = pte.frame.base + (vaddr - base) ∧
    match op with
    | .store newValue result =>
      if wordIndexSpec paddr < s1.mem.length ∧ pte.flags.isSupervisor = false ∧
          pte.flags.isWritable = true then
        result = .ok ∧ s2.mem = s1.mem.set (wordIndexSpec paddr) newValue
      else
        result = .pagefault ∧ s2.mem = s1.mem
    | .load isExec result =>
      s2.mem = s1.mem ∧
      if wordIndexSpec paddr < s1.mem.length ∧ pte.flags.isSupervisor = false ∧
          (isExec = true → pte.flags.disableExecute = false) then
        result = .value (s1.mem.getD (wordIndexSpec paddr) 0)
      else
        result = .pagefault
  | none =>
    -- no mapping containing vaddr exists
    (¬∃ base pte, interpPtMem s1.globalPt base = some pte ∧
      between vaddr base (base + pte.frame.size)) ∧
    s2.mem = s1.mem ∧
    match op with
    | .store _ result => result = .pagefault
    | .load _ result => result = .pagefault

/-- `step_PTMemOp` (`spec_t/hardware.rs:641–644`). -/
def stepPTMemOp (s1 s2 : HWVariables M) : Prop := s2.mem = s1.mem ∧ s2.numas = s1.numas

/-- `other_NUMAs_and_cores_unchanged` (`spec_t/hardware.rs:646–670`). -/
structure OtherNumasAndCoresUnchanged (s1 s2 : HWVariables M) (core : Core) : Prop where
  mem_eq : s2.mem = s1.mem
  numas_dom : s2.numas.dom = s1.numas.dom
  numas_remove : s2.numas.remove core.numaId = s1.numas.remove core.numaId
  cores_dom : (s2.cores core.numaId).dom = (s1.cores core.numaId).dom
  cores_remove : (s2.cores core.numaId).remove core.coreId =
    (s1.cores core.numaId).remove core.coreId

/-- `step_TLBFill` (`spec_t/hardware.rs:686–699`). -/
structure StepTLBFill (c : HWConstants) (s1 s2 : HWVariables M) (vaddr : Nat)
    (pte : PageTableEntry) (core : Core) : Prop where
  valid : validCore c core
  mapped : interpPtMem s1.globalPt vaddr = some pte
  tlb_eq : s2.tlb core = (s1.tlb core).insert vaddr pte
  unchanged : OtherNumasAndCoresUnchanged s1 s2 core

/-- `step_TLBEvict` (`spec_t/hardware.rs:701–713`). -/
structure StepTLBEvict (c : HWConstants) (s1 s2 : HWVariables M) (vaddr : Nat) (core : Core) :
    Prop where
  valid : validCore c core
  cached : vaddr ∈ (s1.tlb core).dom
  tlb_eq : s2.tlb core = (s1.tlb core).remove vaddr
  unchanged : OtherNumasAndCoresUnchanged s1 s2 core

/-- `next_step` (`spec_t/hardware.rs:715–731`). -/
def NextStep (c : HWConstants) (s1 s2 : HWVariables M) : HWStep → Prop
  | .readWrite vaddr paddr op pte core => stepReadWrite c s1 s2 vaddr paddr op pte core
  | .ptMemOp => stepPTMemOp s1 s2
  | .tlbFill vaddr pte core => StepTLBFill c s1 s2 vaddr pte core
  | .tlbEvict vaddr core => StepTLBEvict c s1 s2 vaddr core

end Hardware

open Hardware

section Tlb

variable {M : Type}

/-- Initially all TLBs are empty. -/
theorem Hardware.Init.tlb_eq {c : HWConstants} {s : HWVariables M} (h : Init c s) {core : Core}
    (hcore : validCore c core) : s.tlb core = PMap.empty := by
  obtain ⟨n, hn⟩ := Option.isSome_iff_exists.mp ((h.numas_dom core.numaId).mp hcore.1)
  obtain ⟨_, hdom, hinit⟩ := h.numas_init core.numaId n hcore.1 hn
  obtain ⟨v, hv⟩ := Option.isSome_iff_exists.mp ((hdom core.coreId).mp hcore.2)
  unfold HWVariables.tlb HWVariables.cores
  rw [hn, Option.elim_some, hv, Option.elim_some]
  ext vaddr : 1
  apply (PMap.notMem_dom v.tlb vaddr).mp
  rw [hinit core.coreId v hcore.2 hv]
  exact Set.notMem_empty vaddr

/-- A step of one core's TLB leaves the others as they are. -/
theorem Hardware.OtherNumasAndCoresUnchanged.tlb_eq {s1 s2 : HWVariables M} {core : Core}
    (h : OtherNumasAndCoresUnchanged s1 s2 core) {k : Core} (hne : k ≠ core) :
    s2.tlb k = s1.tlb k := by
  unfold HWVariables.tlb
  by_cases hnuma : k.numaId = core.numaId
  · have hcore : k.coreId ≠ core.coreId := by
      intro heq
      apply hne
      cases k
      cases core
      exact congrArg₂ Core.mk hnuma heq
    have hremove := congrFun h.cores_remove k.coreId
    rw [PMap.remove_of_ne _ hcore, PMap.remove_of_ne _ hcore] at hremove
    rw [hnuma, hremove]
  · have hremove := congrFun h.numas_remove k.numaId
    rw [PMap.remove_of_ne _ hnuma, PMap.remove_of_ne _ hnuma] at hremove
    unfold HWVariables.cores
    rw [hremove]

end Tlb

end NrKernel.OS
