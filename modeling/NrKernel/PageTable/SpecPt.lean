import NrKernel.PageTable.Hardware

/-!
# The page table state machine

What the page table implementation promises to the OS: mapping and unmapping as steps on the
view of the MMU (`impl_u/spec_pt.rs`).
-/

namespace NrKernel.PageTable

open Lib PtMemory

/-- `PageTableVariables` (`impl_u/spec_pt.rs:21–23`). -/
structure PageTableVariables (M : Type) where
  ptMem : M

namespace SpecPt

variable {M : Type} [PtMemoryOps M] [PhyAddrWidth]

/-- `interp`: the memory according to the MMU (`impl_u/spec_pt.rs:39–44`). -/
def interp (s : PageTableVariables M) : Mappings := interpPtMem s.ptMem

/-- `step_Map_Start` (`impl_u/spec_pt.rs:59–66`). -/
def stepMapStart (s1 s2 : PageTableVariables M) : Prop := s2 = s1

/-- `step_Map_End` (`impl_u/spec_pt.rs:68–82`). -/
def stepMapEnd (s1 s2 : PageTableVariables M) (vaddr : Nat) (pte : PageTableEntry)
    (result : Except Unit Unit) : Prop :=
  (candidateMappingOverlapsExistingVmem (interp s1) vaddr pte →
    result = .error () ∧ interp s2 = interp s1) ∧
  (¬candidateMappingOverlapsExistingVmem (interp s1) vaddr pte →
    result = .ok () ∧ interp s2 = (interp s1).insert vaddr pte)

/-- `step_Unmap_Start` (`impl_u/spec_pt.rs:87–100`). -/
def stepUnmapStart (s1 s2 : PageTableVariables M) (vaddr : Nat) (result : Except Unit Unit) :
    Prop :=
  if (interp s1 vaddr).isSome then
    result = .ok () ∧ interp s2 = (interp s1).remove vaddr
  else
    result = .error () ∧ interp s2 = interp s1

/-- `step_Unmap_End` (`impl_u/spec_pt.rs:102–107`). -/
def stepUnmapEnd (s1 s2 : PageTableVariables M) : Prop := s2 = s1

/-- `step_Stutter` (`impl_u/spec_pt.rs:112–114`). -/
def stepStutter (s1 s2 : PageTableVariables M) : Prop := s1 = s2

/-- `step_View_Stutter` (`impl_u/spec_pt.rs:116–121`). -/
def stepViewStutter (s1 s2 : PageTableVariables M) : Prop := interp s2 = interp s1

/-- `init` (`impl_u/spec_pt.rs:126–131`). -/
structure Init (s : PageTableVariables M) : Prop where
  inv : PtMemory.Inv s.ptMem
  regions_eq : regions s.ptMem = {cr3 s.ptMem}
  view_length : (regionView s.ptMem (cr3 s.ptMem)).length = 512
  view_zero : ∀ i, i < 512 → (regionView s.ptMem (cr3 s.ptMem)).getD i 0 = 0#64

end SpecPt

end NrKernel.PageTable
