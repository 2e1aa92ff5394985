import NrKernel.Lib.Transition
import NrKernel.OS.Hardware

/-!
# The high-level machine

What a process sees of the kernel: a word-indexed virtual memory, its mappings and the
pending requests of its threads (`spec_t/hlspec.rs`). A request that the process must not
make moves the machine to an unsound state, after which nothing is promised.
-/

namespace NrKernel.OS

open Lib PageTable

/-- `LoadResult` (`definitions_t.rs:146–149`). -/
inductive LoadResult where
  | undefined
  | value (v : Nat)

/-- `StoreResult` (`definitions_t.rs:151–154`). -/
inductive StoreResult where
  | undefined
  | ok

/-- `RWOp` (`definitions_t.rs:156–160`). -/
inductive RWOp where
  | store (newValue : Nat) (result : StoreResult)
  | load (isExec : Bool) (result : LoadResult)

/-- `candidate_mapping_in_bounds` (`definitions_t.rs:95–97`). -/
def candidateMappingInBounds (base : Nat) (pte : PageTableEntry) : Prop :=
  base + pte.frame.size < x86Arch.upperVaddr 0 0

/-- `AbstractConstants` (`spec_t/hlspec.rs:21–25`). -/
structure AbstractConstants where
  threadNo : Nat
  physMemSize : Nat

/-- `AbstractArguments` (`spec_t/hlspec.rs:50–54`). -/
inductive AbstractArguments where
  | map (vaddr : Nat) (pte : PageTableEntry)
  | unmap (vaddr : Nat) (pte : Option PageTableEntry)
  | empty

/-- `AbstractVariables` (`spec_t/hlspec.rs:27–36`). -/
structure AbstractVariables where
  mem : PMap Nat Nat
  threadState : PMap Nat AbstractArguments
  mappings : Mappings
  sound : Bool

/-- `AbstractStep` (`spec_t/hlspec.rs:39–46`). -/
inductive AbstractStep where
  | readWrite (threadId vaddr : Nat) (op : RWOp) (pte : Option (Nat × PageTableEntry))
  | mapStart (threadId vaddr : Nat) (pte : PageTableEntry)
  | mapEnd (threadId : Nat) (result : Except Unit Unit)
  | unmapStart (threadId vaddr : Nat)
  | unmapEnd (threadId : Nat) (result : Except Unit Unit)
  | stutter

namespace HlSpec

/-- `wf` (`spec_t/hlspec.rs:56–60`). -/
structure Wf (c : AbstractConstants) (s : AbstractVariables) : Prop where
  threads : ∀ id, id < c.threadNo ↔ (s.threadState id).isSome
  mappings_finite : s.mappings.dom.Finite
  mem_finite : s.mem.dom.Finite

/-- `init` (`spec_t/hlspec.rs:62–68`). -/
structure Init (c : AbstractConstants) (s : AbstractVariables) : Prop where
  mem_eq : s.mem = PMap.empty
  mappings_eq : s.mappings = PMap.empty
  threads_idle : ∀ id, id < c.threadNo → s.threadState id = some .empty
  wf : Wf c s
  sound : s.sound = true

/-- `mem_domain_from_entry_contains` (`spec_t/hlspec.rs:83–93`). -/
def memDomainFromEntryContains (physMemSize vaddr base : Nat) (pte : PageTableEntry) : Prop :=
  between vaddr base (base + pte.frame.size) ∧
    wordIndexSpec (pte.frame.base + (vaddr - base)) < physMemSize

/-- `mem_domain_from_mappings_contains` (`spec_t/hlspec.rs:70–81`). -/
def memDomainFromMappingsContains (physMemSize wordIdx : Nat) (mappings : Mappings) : Prop :=
  ∃ base pte, mappings base = some pte ∧
    memDomainFromEntryContains physMemSize (wordIdx * wordSize) base pte

/-- `mem_domain_from_mappings` (`spec_t/hlspec.rs:95–100`). -/
def memDomainFromMappings (physMemSize : Nat) (mappings : Mappings) : Set Nat :=
  {wordIdx | memDomainFromMappingsContains physMemSize wordIdx mappings}

/-- `valid_thread` (`spec_t/hlspec.rs:111–113`). -/
def validThread (c : AbstractConstants) (threadId : Nat) : Prop := threadId < c.threadNo

/-- `state_unchanged_besides_thread_state` (`spec_t/hlspec.rs:118–128`). -/
def stateUnchangedBesidesThreadState (s1 s2 : AbstractVariables) (threadId : Nat)
    (threadArguments : AbstractArguments) : Prop :=
  s2.threadState = s1.threadState.insert threadId threadArguments ∧ s2.mem = s1.mem ∧
    s2.mappings = s1.mappings ∧ s2.sound = s1.sound

/-- `unsound_state` (`spec_t/hlspec.rs:130–132`). -/
def unsoundState (s2 : AbstractVariables) : Prop := s2.sound = false

/-- The size of an optional entry's frame, zero when there is none. -/
def sizeOf? (pte : Option PageTableEntry) : Nat := pte.elim 0 (·.frame.size)

/-- `candidate_mapping_overlaps_inflight_vmem` (`spec_t/hlspec.rs:137–167`). -/
def candidateMappingOverlapsInflightVmem (inflightargs : Set AbstractArguments)
    (base candidateSize : Nat) : Prop :=
  ∃ b ∈ inflightargs,
    match b with
    | .map vaddr pte => overlap ⟨vaddr, pte.frame.size⟩ ⟨base, candidateSize⟩
    | .unmap vaddr pte => overlap ⟨vaddr, sizeOf? pte⟩ ⟨base, candidateSize⟩
    | .empty => False

/-- `candidate_mapping_overlaps_inflight_pmem` (`spec_t/hlspec.rs:169–186`). -/
def candidateMappingOverlapsInflightPmem (inflightargs : Set AbstractArguments)
    (candidate : PageTableEntry) : Prop :=
  ∃ b ∈ inflightargs,
    match b with
    | .map _ pte => overlap candidate.frame pte.frame
    | .unmap _ pte => ∃ p, pte = some p ∧ overlap candidate.frame p.frame
    | .empty => False

/-- `step_ReadWrite` (`spec_t/hlspec.rs:192–256`). -/
def stepReadWrite (c : AbstractConstants) (s1 s2 : AbstractVariables) (threadId vaddr : Nat)
    (op : RWOp) (pte : Option (Nat × PageTableEntry)) : Prop :=
  s2.sound = s1.sound ∧ aligned vaddr 8 ∧ s2.mappings = s1.mappings ∧ validThread c threadId ∧
  s1.threadState threadId = some .empty ∧ s2.threadState = s1.threadState ∧
  match pte with
  | some (base, pte) =>
    -- an existing mapping that contains vaddr
    s1.mappings base = some pte ∧ between vaddr base (base + pte.frame.size) ∧
    match op with
    | .store newValue result =>
      if wordIndexSpec (pte.frame.base + (vaddr - base)) < c.physMemSize ∧
          pte.flags.isSupervisor = false ∧ pte.flags.isWritable = true then
        result = .ok ∧ s2.mem = s1.mem.insert (wordIndexSpec vaddr) newValue
      else
        result = .undefined ∧ s2.mem = s1.mem
    | .load isExec result =>
      s2.mem = s1.mem ∧
      if wordIndexSpec (pte.frame.base + (vaddr - base)) < c.physMemSize ∧
          pte.flags.isSupervisor = false ∧
          (isExec = true → pte.flags.disableExecute = false) then
        ∃ v, result = .value v ∧ s1.mem (wordIndexSpec vaddr) = some v
      else
        result = .undefined
  | none =>
    -- no mapping containing vaddr exists
    wordIndexSpec vaddr ∉ memDomainFromMappings c.physMemSize s1.mappings ∧ s2.mem = s1.mem ∧
    match op with
    | .store _ result => result = .undefined
    | .load _ result => result = .undefined

/-- `step_Map_sound` (`spec_t/hlspec.rs:261–270`). -/
structure StepMapSound (mappings : Mappings) (inflights : Set AbstractArguments) (vaddr : Nat)
    (pte : PageTableEntry) : Prop where
  inflight_vmem : ¬candidateMappingOverlapsInflightVmem inflights vaddr pte.frame.size
  existing_pmem : ¬candidateMappingOverlapsExistingPmem mappings pte
  inflight_pmem : ¬candidateMappingOverlapsInflightPmem inflights pte

/-- `step_Map_enabled` (`spec_t/hlspec.rs:272–288`). -/
structure StepMapEnabled [PhyAddrWidth] (vaddr : Nat) (pte : PageTableEntry) : Prop where
  vaddr_aligned : aligned vaddr pte.frame.size
  frame_aligned : aligned pte.frame.base pte.frame.size
  frame_base_le : pte.frame.base ≤ maxPhyaddr
  in_bounds : candidateMappingInBounds vaddr pte
  /-- the size is the entry size of a layer that supports page mappings -/
  size : pte.frame.size = l3EntrySize ∨ pte.frame.size = l2EntrySize ∨
    pte.frame.size = l1EntrySize

/-- `step_Map_start` (`spec_t/hlspec.rs:290–311`). -/
def stepMapStart [PhyAddrWidth] (c : AbstractConstants) (s1 s2 : AbstractVariables)
    (threadId vaddr : Nat) (pte : PageTableEntry) : Prop :=
  StepMapEnabled vaddr pte ∧ validThread c threadId ∧
  s1.threadState threadId = some .empty ∧
  (StepMapSound s1.mappings s1.threadState.values vaddr pte →
    stateUnchangedBesidesThreadState s1 s2 threadId (.map vaddr pte)) ∧
  (¬StepMapSound s1.mappings s1.threadState.values vaddr pte → unsoundState s2)

/-- `step_Map_end` (`spec_t/hlspec.rs:313–341`). -/
def stepMapEnd (c : AbstractConstants) (s1 s2 : AbstractVariables) (threadId : Nat)
    (result : Except Unit Unit) : Prop :=
  s2.sound = s1.sound ∧ validThread c threadId ∧
  s2.threadState = s1.threadState.insert threadId .empty ∧
  ∃ vaddr pte, s1.threadState threadId = some (.map vaddr pte) ∧
    (candidateMappingOverlapsExistingVmem s1.mappings vaddr pte →
      result = .error () ∧ s2.mappings = s1.mappings ∧ s2.mem = s1.mem) ∧
    (¬candidateMappingOverlapsExistingVmem s1.mappings vaddr pte →
      result = .ok () ∧ s2.mappings = s1.mappings.insert vaddr pte ∧
      (∀ idx, idx ∈ s1.mem.dom → s2.mem idx = s1.mem idx) ∧
      s2.mem.dom = memDomainFromMappings c.physMemSize s2.mappings)

/-- `step_Unmap_sound` (`spec_t/hlspec.rs:346–352`). -/
def stepUnmapSound (inflights : Set AbstractArguments) (vaddr pteSize : Nat) : Prop :=
  ¬candidateMappingOverlapsInflightVmem inflights vaddr pteSize

/-- `step_Unmap_enabled` (`spec_t/hlspec.rs:354–361`). -/
structure StepUnmapEnabled (vaddr : Nat) : Prop where
  vaddr_lt : vaddr < x86Arch.upperVaddr 0 0
  /-- aligned to some valid page size -/
  vaddr_aligned : aligned vaddr l3EntrySize ∨ aligned vaddr l2EntrySize ∨ aligned vaddr l1EntrySize

/-- `step_Unmap_start` (`spec_t/hlspec.rs:366–406`). -/
def stepUnmapStart (c : AbstractConstants) (s1 s2 : AbstractVariables) (threadId vaddr : Nat) :
    Prop :=
  StepUnmapEnabled vaddr ∧ validThread c threadId ∧
  s1.threadState threadId = some .empty ∧
  (stepUnmapSound s1.threadState.values vaddr (sizeOf? (s1.mappings vaddr)) →
    s2.threadState = s1.threadState.insert threadId (.unmap vaddr (s1.mappings vaddr)) ∧
    (if (s1.mappings vaddr).isNone then
      s2.mappings = s1.mappings ∧ s2.mem = s1.mem
    else
      s2.mappings = s1.mappings.remove vaddr ∧
      s2.mem.dom = memDomainFromMappings c.physMemSize s2.mappings ∧
      ∀ idx, idx ∈ s2.mem.dom → s2.mem idx = s1.mem idx) ∧
    s2.mem.dom = memDomainFromMappings c.physMemSize (s1.mappings.remove vaddr) ∧
    s2.sound = s1.sound) ∧
  (¬stepUnmapSound s1.threadState.values vaddr (sizeOf? (s1.mappings vaddr)) → unsoundState s2)

/-- `step_Unmap_end` (`spec_t/hlspec.rs:408–430`). -/
def stepUnmapEnd (c : AbstractConstants) (s1 s2 : AbstractVariables) (threadId : Nat)
    (result : Except Unit Unit) : Prop :=
  validThread c threadId ∧ s2.threadState = s1.threadState.insert threadId .empty ∧
  s2.sound = s1.sound ∧ s2.mappings = s1.mappings ∧ s2.mem = s1.mem ∧
  ∃ vaddr pte, s1.threadState threadId = some (.unmap vaddr pte) ∧
    if pte.isSome then result = .ok () else result = .error ()

/-- `step_Stutter` (`spec_t/hlspec.rs:435–441`). -/
def stepStutter (s1 s2 : AbstractVariables) : Prop := s1 = s2

/-- `next_step` (`spec_t/hlspec.rs:444–492`). -/
def NextStep [PhyAddrWidth] (c : AbstractConstants) (s1 s2 : AbstractVariables)
    (step : AbstractStep) : Prop :=
  if s1.sound = true then
    match step with
    | .readWrite threadId vaddr op pte => stepReadWrite c s1 s2 threadId vaddr op pte
    | .mapStart threadId vaddr pte => stepMapStart c s1 s2 threadId vaddr pte
    | .mapEnd threadId result => stepMapEnd c s1 s2 threadId result
    | .unmapStart threadId vaddr => stepUnmapStart c s1 s2 threadId vaddr
    | .unmapEnd threadId result => stepUnmapEnd c s1 s2 threadId result
    | .stutter => stepStutter s1 s2
  else
    s2.sound = false

end HlSpec

/-- The high-level machine as a transition system. -/
def hlMachine [PhyAddrWidth] (c : AbstractConstants) : Machine AbstractVariables AbstractStep where
  init := HlSpec.Init c
  step s1 step s2 := HlSpec.NextStep c s1 s2 step

end NrKernel.OS
