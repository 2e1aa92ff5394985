import NrKernel.OS.Admission
import NrKernel.OS.PageBudget
import NrKernel.OS.TlbInvariant
import NrKernel.PageTable.SingleWrite

/-!
# The kernel

The OS with the page table code in it. Where the state machine of the OS takes the steps that
`spec_pt` promises, a core calls `map_frame` or `unmap` and makes the memory operations of the
call one at a time: `(Read | ViewStutter)* Write` for a map and
`Read* (Write (Read | ViewStutter)*)?` for an unmap (`impl_u/spec_pt.rs:25–30`). Between any two
of them TLBs are filled and evicted, memory is accessed and other cores take requests and
acknowledge shootdowns.
-/

namespace NrKernel.OS

open Lib PageTable CoreState OSVariables PtMemory

/-- A call of `map_frame` or `unmap` that did not return yet. The code of a call is sequential
and runs under the lock, so its memory operations are fixed when it is made. -/
structure RunningCall (M : Type) where
  core : Core
  /-- the operations left to do, with the memories they leave behind -/
  todo : List (MemOp × M)
  result : Except Unit Unit
  /-- the tree the call returns -/
  pt : PTDir

/-- The OS, the tree its page table code owns (`Ghost<PTDir>`), and the call in progress. -/
structure KernelVariables (M : Type) where
  os : OSVariables M
  pt : PTDir
  running : Option (RunningCall M)

/-- The memory after some operations. -/
def memAfter {M : Type} (mem : M) (ops : List (MemOp × M)) : M := ops.foldl (fun _ op ↦ op.2) mem

/-- Without operations the memory is as it was. -/
@[simp] theorem memAfter_nil {M : Type} (mem : M) : memAfter mem [] = mem := rfl

/-- The first operation is followed by the others. -/
@[simp] theorem memAfter_cons {M : Type} (mem : M) (op : MemOp × M) (ops : List (MemOp × M)) :
    memAfter mem (op :: ops) = memAfter op.2 ops := rfl

/-- The last operation leaves its memory. -/
theorem memAfter_snoc {M : Type} (mem : M) (ops : List (MemOp × M)) (op : MemOp × M) :
    memAfter mem (ops ++ [op]) = op.2 := by
  rw [memAfter, List.foldl_append]
  rfl

section Updates

variable {M : Type}

/-- One core in a new state. -/
def OSVariables.setCore (s : OSVariables M) (core : Core) (st : CoreState) : OSVariables M :=
  { s with coreStates := s.coreStates.insert core st }

/-- A new page table memory. -/
def OSVariables.setPt (s : OSVariables M) (mem : M) : OSVariables M :=
  { s with hw := { s.hw with globalPt := mem } }

variable (s : OSVariables M) (core : Core) (st : CoreState) (mem : M)

/-- The core is in its new state. -/
@[simp] theorem coreState_setCore : (s.setCore core st).coreState core = st := coreState_insert rfl

/-- The other cores stay in their states. -/
theorem coreState_setCore_of_ne {k : Core} (h : k ≠ core) :
    (s.setCore core st).coreState k = s.coreState k := coreState_insert_of_ne rfl h

/-- A new page table leaves the cores. -/
@[simp] theorem coreState_setPt (k : Core) : (s.setPt mem).coreState k = s.coreState k := rfl

/-- The page table is the new one. -/
@[simp] theorem globalPt_setPt : (s.setPt mem).hw.globalPt = mem := rfl

/-- A core's new state leaves the page table. -/
@[simp] theorem globalPt_setCore : (s.setCore core st).hw.globalPt = s.hw.globalPt := rfl

end Updates

/-- The steps of the OS that the page table code takes part in. -/
def OSStep.ofPageTable : OSStep → Bool
  | .mapOpStart _ | .mapEnd _ _ | .unmapOpStart _ _ | .unmapOpEnd _ | .viewStutter _ => true
  | _ => false

/-- A step of the kernel: one of the OS around the page table code, or a core calls the page
table code, makes its next memory operation or returns from it. -/
inductive KernelStep where
  | os (step : OSStep)
  | call (core : Core)
  | memOp (core : Core)
  | ret (core : Core)

section Steps

variable {M : Type} [PtMemoryOps M] [PhyAddrWidth]

/-- The steps of the kernel. A map is called with the pages that `map_frame` requires
(`impl_u/l2_impl.rs:1683–1710`). Its last memory operation and its return are one step, as in
`step_Map_End`. -/
inductive KernelNext (c : OSConstants) :
    KernelVariables M → KernelStep → KernelVariables M → Prop
  | os {s : KernelVariables M} (step : OSStep) (os' : OSVariables M)
      (hother : step.ofPageTable = false) (hstep : NextStep c s.os os' step) :
      KernelNext c s (.os step) { s with os := os' }
  | callMap {s : KernelVariables M} (core : Core) (ultId vaddr : Nat) (pte : PageTableEntry)
      (result : Except Unit Unit) (mem : M) (record : List (MemOp × M)) (pt : PTDir)
      (hvalid : validCore c.hw core)
      (hstate : s.os.coreState core = .mapWaiting ultId vaddr pte)
      (hlock : s.os.kernelLock c = none) (hfree : s.running = none)
      (hpages : 3 ≤ allocAvailablePages s.os.hw.globalPt)
      (hcall : mapFrame (Recorded.start s.os.hw.globalPt) s.pt vaddr pte =
        some (result, ⟨mem, record⟩, pt)) :
      KernelNext c s (.call core)
        { s with
          os := s.os.setCore core (.mapExecuting ultId vaddr pte)
          running := some ⟨core, record, result, pt⟩ }
  | callUnmap {s : KernelVariables M} (core : Core) (ultId vaddr : Nat)
      (result : Except Unit Unit) (mem : M) (record : List (MemOp × M)) (pt : PTDir)
      (hvalid : validCore c.hw core) (hstate : s.os.coreState core = .unmapWaiting ultId vaddr)
      (hlock : s.os.kernelLock c = none) (hfree : s.running = none)
      (hcall : unmap (Recorded.start s.os.hw.globalPt) s.pt vaddr =
        some (result, ⟨mem, record⟩, pt)) :
      KernelNext c s (.call core) { s with running := some ⟨core, record, result, pt⟩ }
  | memOpMap {s : KernelVariables M} (r : RunningCall M) (ultId vaddr : Nat)
      (pte : PageTableEntry) (op last : MemOp × M) (rest : List (MemOp × M))
      (hrunning : s.running = some r)
      (hstate : s.os.coreState r.core = .mapExecuting ultId vaddr pte)
      (htodo : r.todo = op :: last :: rest) :
      KernelNext c s (.memOp r.core)
        { s with
          os := s.os.setPt op.2
          running := some { r with todo := last :: rest } }
  | retMap {s : KernelVariables M} (r : RunningCall M) (ultId vaddr : Nat)
      (pte : PageTableEntry) (hrunning : s.running = some r)
      (hstate : s.os.coreState r.core = .mapExecuting ultId vaddr pte)
      (htodo : r.todo.length ≤ 1) :
      KernelNext c s (.ret r.core)
        { os := (s.os.setPt (memAfter s.os.hw.globalPt r.todo)).setCore r.core .idle
          pt := r.pt
          running := none }
  | firstOpUnmap {s : KernelVariables M} (r : RunningCall M) (ultId vaddr : Nat)
      (op : MemOp × M) (rest : List (MemOp × M)) (hrunning : s.running = some r)
      (hstate : s.os.coreState r.core = .unmapWaiting ultId vaddr) (htodo : r.todo = op :: rest) :
      KernelNext c s (.memOp r.core)
        { s with
          os := (s.os.setPt op.2).setCore r.core
            (.unmapOpExecuting ultId vaddr (unmapResult s.os.interpPtMem vaddr r.result))
          running := some { r with todo := rest } }
  | memOpUnmap {s : KernelVariables M} (r : RunningCall M) (ultId vaddr : Nat)
      (result : Except Unit PageTableEntry) (op : MemOp × M) (rest : List (MemOp × M))
      (hrunning : s.running = some r)
      (hstate : s.os.coreState r.core = .unmapOpExecuting ultId vaddr result)
      (htodo : r.todo = op :: rest) :
      KernelNext c s (.memOp r.core)
        { s with
          os := s.os.setPt op.2
          running := some { r with todo := rest } }
  | retUnmap {s : KernelVariables M} (r : RunningCall M) (ultId vaddr : Nat)
      (result : Except Unit PageTableEntry) (hrunning : s.running = some r)
      (hstate : s.os.coreState r.core = .unmapOpExecuting ultId vaddr result)
      (htodo : r.todo = []) :
      KernelNext c s (.ret r.core)
        { os := s.os.setCore r.core (.unmapOpDone ultId vaddr result)
          pt := r.pt
          running := none }
  | retUnmapErr {s : KernelVariables M} (r : RunningCall M) (ultId vaddr : Nat)
      (hrunning : s.running = some r)
      (hstate : s.os.coreState r.core = .unmapWaiting ultId vaddr) (htodo : r.todo = []) :
      KernelNext c s (.ret r.core)
        { os := s.os.setCore r.core
            (.unmapOpDone ultId vaddr (unmapResult s.os.interpPtMem vaddr r.result))
          pt := r.pt
          running := none }

/-- Initially the OS is, with the physical memory its constants promise and an empty tree. -/
structure KernelInit (c : OSConstants) (s : KernelVariables M) : Prop where
  os : Init c s.os
  mem_length : s.os.hw.mem.length = c.hw.physMemSize
  pt_eq : s.pt = PTDir.empty (cr3 s.os.hw.globalPt)
  idle : s.running = none

/-- The kernel, for fixed constants. -/
def kernelMachine (c : OSConstants) : Machine (KernelVariables M) KernelStep where
  init := KernelInit c
  step := KernelNext c

/-- What a process sees of a step: its own requests and accesses, and the end of a map. -/
noncomputable def KernelStep.interp (step : KernelStep) (s : KernelVariables M) : AbstractStep :=
  match step with
  | .os step => step.interp s.os
  | .ret core =>
    match s.os.coreState core, s.running with
    | .mapExecuting ultId _ _, some r => .mapEnd ultId r.result
    | _, _ => .stutter
  | _ => .stutter

end Steps

end NrKernel.OS
