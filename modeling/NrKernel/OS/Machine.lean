import NrKernel.OS.HighLevel
import NrKernel.PageTable.SpecPt

/-!
# The OS state machine

The kernel's cores around the hardware: map and unmap requests with a global lock around the
page table operation, and the TLB shootdown after an unmap (`spec_t/os.rs`), together with
its interpretation as the high-level machine.
-/

namespace NrKernel.OS

open Lib PageTable

/-- `OSConstants` (`spec_t/os.rs:25–31`). -/
structure OSConstants where
  hw : HWConstants
  /-- the core every user level thread is assigned to -/
  ult2core : PMap Nat Core
  ultNo : Nat

/-- `CoreState` (`spec_t/os.rs:47–60`). -/
inductive CoreState where
  | idle
  | mapWaiting (ultId vaddr : Nat) (pte : PageTableEntry)
  | mapExecuting (ultId vaddr : Nat) (pte : PageTableEntry)
  | unmapWaiting (ultId vaddr : Nat)
  | unmapOpExecuting (ultId vaddr : Nat) (result : Except Unit PageTableEntry)
  | unmapOpDone (ultId vaddr : Nat) (result : Except Unit PageTableEntry)
  | unmapShootdownWaiting (ultId vaddr : Nat) (result : Except Unit PageTableEntry)

/-- `ShootdownVector` (`spec_t/os.rs:42–45`). -/
structure ShootdownVector where
  vaddr : Nat
  openRequests : Set Core

/-- `OSVariables` (`spec_t/os.rs:33–40`). -/
structure OSVariables (M : Type) where
  hw : HWVariables M
  coreStates : PMap Core CoreState
  tlbShootdown : ShootdownVector
  sound : Bool

namespace CoreState

/-- `holds_lock` (`spec_t/os.rs:63–70`). -/
def holdsLock : CoreState → Bool
  | idle | mapWaiting .. | unmapWaiting .. => false
  | _ => true

/-- The entry an operation in flight is about: the one to be mapped, the one to be removed,
or the one that was removed. -/
def inflightPte (pt : Mappings) : CoreState → Option PageTableEntry
  | mapWaiting _ _ pte | mapExecuting _ _ pte => some pte
  | unmapWaiting _ vaddr => pt vaddr
  | unmapOpExecuting _ _ result | unmapOpDone _ _ result | unmapShootdownWaiting _ _ result =>
    result.toOption
  | idle => none

/-- `vaddr` (`spec_t/os.rs:104–117`); none for idle cores, where the source leaves it
unspecified. -/
def vaddr? : CoreState → Option Nat
  | mapWaiting _ vaddr _ | mapExecuting _ vaddr _ | unmapWaiting _ vaddr
  | unmapOpExecuting _ vaddr _ | unmapOpDone _ vaddr _ | unmapShootdownWaiting _ vaddr _ =>
    some vaddr
  | idle => none

/-- The thread an operation in flight was requested by. -/
def ultId? : CoreState → Option Nat
  | mapWaiting ultId _ _ | mapExecuting ultId _ _ | unmapWaiting ultId _
  | unmapOpExecuting ultId _ _ | unmapOpDone ultId _ _ | unmapShootdownWaiting ultId _ _ =>
    some ultId
  | idle => none

end CoreState

namespace OSConstants

/-- `valid_ULT` (`spec_t/os.rs:121–123`). -/
def validUlt (c : OSConstants) (ultId : Nat) : Prop := ultId < c.ultNo

/-- The core of a thread, `ULT2core[ULT_id]`; some core for threads that do not exist. -/
def ultCore (c : OSConstants) (ultId : Nat) : Core := (c.ult2core ultId).getD ⟨0, 0⟩

/-- `interp` (`spec_t/os.rs:125–127`). -/
def interp (c : OSConstants) : AbstractConstants where
  threadNo := c.ultNo
  physMemSize := c.hw.physMemSize

end OSConstants

namespace OSVariables

variable {M : Type}

/-- The state of a core, `core_states[core]`; idle for cores that do not exist. -/
def coreState (s : OSVariables M) (core : Core) : CoreState := (s.coreStates core).getD .idle

/-- `pt_variables` (`spec_t/os.rs:339–341`). -/
def ptVariables (s : OSVariables M) : PageTableVariables M := ⟨s.hw.globalPt⟩

open Classical in
/-- `kernel_lock` (`spec_t/os.rs:131–143`). -/
noncomputable def kernelLock (s : OSVariables M) (c : OSConstants) : Option Core :=
  if h : ∃ core, validCore c.hw core ∧ (s.coreState core).holdsLock = true then
    some h.choose
  else
    none

variable [PtMemoryOps M] [PhyAddrWidth]

/-- `interp_pt_mem` (`spec_t/os.rs:343–345`). -/
def interpPtMem (s : OSVariables M) : Mappings := PageTable.interpPtMem s.hw.globalPt

/-- `inflight_unmap_vaddr` (`spec_t/os.rs:347–364`). -/
def inflightUnmapVaddr (s : OSVariables M) : Set Nat :=
  {vAddress | vAddress ∈ s.interpPtMem.dom ∧ ∃ core st, s.coreStates core = some st ∧
    match st with
    | .unmapWaiting _ vaddr | .unmapOpExecuting _ vaddr _ | .unmapOpDone _ vaddr _
    | .unmapShootdownWaiting _ vaddr _ => vaddr = vAddress
    | _ => False}

open Classical in
/-- `effective_mappings` (`spec_t/os.rs:366–374`): the page table without the addresses that
are being unmapped. -/
noncomputable def effectiveMappings (s : OSVariables M) : Mappings :=
  fun vmemIdx ↦ if vmemIdx ∈ s.inflightUnmapVaddr then none else s.interpPtMem vmemIdx

/-- The choice in `interp_vmem` of a mapping that covers an address. -/
noncomputable def chooseMapping (mappings : Mappings) (vaddr : Nat) : Nat × PageTableEntry :=
  Classical.epsilon fun m ↦ mappings m.1 = some m.2 ∧ between vaddr m.1 (m.1 + m.2.frame.size)

open Classical in
/-- `interp_vmem` (`spec_t/os.rs:376–397`): every mapped word, read through a mapping that
covers it. -/
noncomputable def interpVmem (s : OSVariables M) (c : OSConstants) : PMap Nat Nat :=
  fun vmemIdx ↦
    if HlSpec.memDomainFromMappingsContains c.interp.physMemSize vmemIdx s.effectiveMappings then
      let vaddr := vmemIdx * wordSize
      let m := chooseMapping s.effectiveMappings vaddr
      some (s.hw.mem.getD (wordIndexSpec (m.2.frame.base + (vaddr - m.1))) 0)
    else none

/-- The request of a thread as its core carries it out, `interp_thread_state`'s match. -/
def interpCoreState (pt : Mappings) (ultId : Nat) : CoreState → AbstractArguments
  | .mapWaiting id vaddr pte | .mapExecuting id vaddr pte =>
    if id = ultId then .map vaddr pte else .empty
  | .unmapWaiting id vaddr => if id = ultId then .unmap vaddr (pt vaddr) else .empty
  | .unmapOpExecuting id vaddr result | .unmapOpDone id vaddr result
  | .unmapShootdownWaiting id vaddr result =>
    if id = ultId then .unmap vaddr result.toOption else .empty
  | .idle => .empty

/-- `interp_thread_state` (`spec_t/os.rs:399–446`). -/
def interpThreadState (s : OSVariables M) (c : OSConstants) : PMap Nat AbstractArguments :=
  fun ultId ↦
    if ultId < c.ultNo then
      some (interpCoreState s.interpPtMem ultId (s.coreState (c.ultCore ultId)))
    else none

/-- `interp` (`spec_t/os.rs:448–454`). -/
noncomputable def interp (s : OSVariables M) (c : OSConstants) : AbstractVariables where
  mem := s.interpVmem c
  mappings := s.effectiveMappings
  threadState := s.interpThreadState c
  sound := s.sound

end OSVariables

/-! ## Requests that overlap operations in flight -/

/-- `candidate_mapping_overlaps_inflight_pmem` (`spec_t/os.rs:460–487`). -/
def candidateMappingOverlapsInflightPmem (pt : Mappings) (inflightargs : Set CoreState)
    (candidate : PageTableEntry) : Prop :=
  ∃ b ∈ inflightargs,
    match b with
    | .mapWaiting _ _ pte | .mapExecuting _ _ pte => overlap candidate.frame pte.frame
    | .unmapWaiting _ vaddr => ∃ p, pt vaddr = some p ∧ overlap candidate.frame p.frame
    | .unmapOpExecuting _ _ result | .unmapOpDone _ _ result
    | .unmapShootdownWaiting _ _ result =>
      ∃ p, result = .ok p ∧ overlap candidate.frame p.frame
    | .idle => False

/-- `candidate_mapping_overlaps_inflight_vmem` (`spec_t/os.rs:489–534`). -/
def candidateMappingOverlapsInflightVmem (pt : Mappings) (inflightargs : Set CoreState)
    (base candidateSize : Nat) : Prop :=
  ∃ b ∈ inflightargs,
    match b with
    | .mapWaiting _ vaddr pte | .mapExecuting _ vaddr pte =>
      overlap ⟨vaddr, pte.frame.size⟩ ⟨base, candidateSize⟩
    | .unmapWaiting _ vaddr => overlap ⟨vaddr, HlSpec.sizeOf? (pt vaddr)⟩ ⟨base, candidateSize⟩
    | .unmapOpExecuting _ vaddr result | .unmapOpDone _ vaddr result
    | .unmapShootdownWaiting _ vaddr result =>
      overlap ⟨vaddr, HlSpec.sizeOf? result.toOption⟩ ⟨base, candidateSize⟩
    | .idle => False

/-! ## Steps -/

section Steps

variable {M : Type} [PtMemoryOps M] [PhyAddrWidth]

/-- `step_HW` (`spec_t/os.rs:539–561`). -/
structure StepHW (c : OSConstants) (s1 s2 : OSVariables M) (ultId : Nat) (systemStep : HWStep) :
    Prop where
  valid : c.validUlt ultId
  enabled : s1.coreState (c.ultCore ultId) = .idle ∨
    (∃ vaddr pte core, systemStep = .tlbFill vaddr pte core) ∨
    ∃ vaddr core, systemStep = .tlbEvict vaddr core
  not_ptMemOp : systemStep ≠ .ptMemOp
  hw : Hardware.NextStep c.hw s1.hw s2.hw systemStep
  pt : SpecPt.stepStutter s1.ptVariables s2.ptVariables
  coreStates_eq : s2.coreStates = s1.coreStates
  shootdown_eq : s2.tlbShootdown = s1.tlbShootdown
  sound_eq : s2.sound = s1.sound

/-- `step_Map_sound` (`spec_t/os.rs:566–575`). -/
structure StepMapSound (pt : Mappings) (inflightargs : Set CoreState) (vaddr : Nat)
    (pte : PageTableEntry) : Prop where
  existing_pmem : ¬candidateMappingOverlapsExistingPmem pt pte
  inflight_pmem : ¬candidateMappingOverlapsInflightPmem pt inflightargs pte
  inflight_vmem : ¬candidateMappingOverlapsInflightVmem pt inflightargs vaddr pte.frame.size

/-- `step_Map_enabled` (`spec_t/os.rs:577–592`): the checks of the high-level machine, and
pages for the page table operation. -/
structure StepMapEnabled (ptMem : M) (vaddr : Nat) (pte : PageTableEntry) : Prop extends
    HlSpec.StepMapEnabled vaddr pte where
  pages : 3 ≤ PtMemory.allocAvailablePages ptMem

/-- `step_Map_Start` (`spec_t/os.rs:594–627`). As written there, `==` binds tighter than `&&`:
the request must be sound. -/
structure StepMapStart (c : OSConstants) (s1 s2 : OSVariables M) (ultId vaddr : Nat)
    (pte : PageTableEntry) : Prop where
  valid : c.validUlt ultId
  idle : s1.coreState (c.ultCore ultId) = .idle
  enabled : StepMapEnabled s1.hw.globalPt vaddr pte
  hw : Hardware.stepPTMemOp s1.hw s2.hw
  pt : SpecPt.stepStutter s1.ptVariables s2.ptVariables
  coreStates_eq : s2.coreStates =
    s1.coreStates.insert (c.ultCore ultId) (.mapWaiting ultId vaddr pte)
  shootdown_eq : s2.tlbShootdown = s1.tlbShootdown
  sound_eq : s2.sound = s1.sound ∧
    StepMapSound s1.interpPtMem s1.coreStates.values vaddr pte

/-- `step_Map_op_Start` (`spec_t/os.rs:629–654`). -/
structure StepMapOpStart (c : OSConstants) (s1 s2 : OSVariables M) (core : Core)
    (ultId vaddr : Nat) (pte : PageTableEntry) : Prop where
  valid : validCore c.hw core
  state : s1.coreState core = .mapWaiting ultId vaddr pte
  lock : s1.kernelLock c = none
  hw : Hardware.stepPTMemOp s1.hw s2.hw
  pt : SpecPt.stepMapStart s1.ptVariables s2.ptVariables
  coreStates_eq : s2.coreStates = s1.coreStates.insert core (.mapExecuting ultId vaddr pte)
  shootdown_eq : s2.tlbShootdown = s1.tlbShootdown
  sound_eq : s2.sound = s1.sound

/-- `step_Map_End` (`spec_t/os.rs:656–683`). -/
structure StepMapEnd (c : OSConstants) (s1 s2 : OSVariables M) (core : Core)
    (result : Except Unit Unit) (ultId vaddr : Nat) (pte : PageTableEntry) : Prop where
  valid : validCore c.hw core
  state : s1.coreState core = .mapExecuting ultId vaddr pte
  hw : Hardware.stepPTMemOp s1.hw s2.hw
  pt : SpecPt.stepMapEnd s1.ptVariables s2.ptVariables vaddr pte result
  coreStates_eq : s2.coreStates = s1.coreStates.insert core .idle
  shootdown_eq : s2.tlbShootdown = s1.tlbShootdown
  sound_eq : s2.sound = s1.sound

/-- `step_Unmap_Start` (`spec_t/os.rs:706–739`), with `step_Unmap_sound` as guard, as in
`step_Map_Start`. -/
structure StepUnmapStart (c : OSConstants) (s1 s2 : OSVariables M) (ultId vaddr : Nat) :
    Prop where
  valid : c.validUlt ultId
  idle : s1.coreState (c.ultCore ultId) = .idle
  enabled : HlSpec.StepUnmapEnabled vaddr
  hw : Hardware.stepPTMemOp s1.hw s2.hw
  pt : SpecPt.stepStutter s1.ptVariables s2.ptVariables
  coreStates_eq : s2.coreStates = s1.coreStates.insert (c.ultCore ultId) (.unmapWaiting ultId vaddr)
  shootdown_eq : s2.tlbShootdown = s1.tlbShootdown
  sound_eq : s2.sound = s1.sound ∧
    ¬candidateMappingOverlapsInflightVmem s1.interpPtMem s1.coreStates.values vaddr
      (HlSpec.sizeOf? (s1.interpPtMem vaddr))

/-- The entry an unmap removed, `Ok(s1.interp_pt_mem()[vaddr])` when it succeeded. -/
def unmapResult (pt : Mappings) (vaddr : Nat) (result : Except Unit Unit) :
    Except Unit PageTableEntry :=
  match result, pt vaddr with
  | .ok _, some pte => .ok pte
  | _, _ => .error ()

/-- `step_Unmap_Op_Start` (`spec_t/os.rs:741–778`). -/
structure StepUnmapOpStart (c : OSConstants) (s1 s2 : OSVariables M) (core : Core)
    (result : Except Unit Unit) (ultId vaddr : Nat) : Prop where
  valid : validCore c.hw core
  state : s1.coreState core = .unmapWaiting ultId vaddr
  lock : s1.kernelLock c = none
  hw : Hardware.stepPTMemOp s1.hw s2.hw
  pt : SpecPt.stepUnmapStart s1.ptVariables s2.ptVariables vaddr result
  coreStates_eq : s2.coreStates = s1.coreStates.insert core
    (.unmapOpExecuting ultId vaddr (unmapResult s1.interpPtMem vaddr result))
  shootdown_eq : s2.tlbShootdown = s1.tlbShootdown
  sound_eq : s2.sound = s1.sound

/-- `step_Unmap_Op_End` (`spec_t/os.rs:780–806`). -/
structure StepUnmapOpEnd (c : OSConstants) (s1 s2 : OSVariables M) (core : Core)
    (ultId vaddr : Nat) (result : Except Unit PageTableEntry) : Prop where
  valid : validCore c.hw core
  state : s1.coreState core = .unmapOpExecuting ultId vaddr result
  hw : Hardware.stepPTMemOp s1.hw s2.hw
  pt : SpecPt.stepUnmapEnd s1.ptVariables s2.ptVariables
  coreStates_eq : s2.coreStates = s1.coreStates.insert core (.unmapOpDone ultId vaddr result)
  shootdown_eq : s2.tlbShootdown = s1.tlbShootdown
  sound_eq : s2.sound = s1.sound

/-- `step_Unmap_Initiate_Shootdown` (`spec_t/os.rs:808–834`). -/
structure StepUnmapInitiateShootdown (c : OSConstants) (s1 s2 : OSVariables M) (core : Core)
    (ultId vaddr : Nat) (pte : PageTableEntry) : Prop where
  valid : validCore c.hw core
  state : s1.coreState core = .unmapOpDone ultId vaddr (.ok pte)
  hw : Hardware.stepPTMemOp s1.hw s2.hw
  pt : SpecPt.stepStutter s1.ptVariables s2.ptVariables
  coreStates_eq : s2.coreStates =
    s1.coreStates.insert core (.unmapShootdownWaiting ultId vaddr (.ok pte))
  shootdown_eq : s2.tlbShootdown = ⟨vaddr, {k | validCore c.hw k}⟩
  sound_eq : s2.sound = s1.sound

/-- `step_Ack_Shootdown_IPI` (`spec_t/os.rs:838–864`). -/
structure StepAckShootdownIPI (s1 s2 : OSVariables M) (core : Core) : Prop where
  requested : core ∈ s1.tlbShootdown.openRequests
  evicted : s1.tlbShootdown.vaddr ∉ (s1.hw.tlb core).dom
  unmapped : s1.tlbShootdown.vaddr ∉ s1.interpPtMem.dom
  hw : Hardware.stepPTMemOp s1.hw s2.hw
  pt : SpecPt.stepStutter s1.ptVariables s2.ptVariables
  coreStates_eq : s2.coreStates = s1.coreStates
  shootdown_eq : s2.tlbShootdown =
    ⟨s1.tlbShootdown.vaddr, s1.tlbShootdown.openRequests \ {core}⟩
  sound_eq : s2.sound = s1.sound

/-- `step_Unmap_End` (`spec_t/os.rs:866–891`): after an acknowledged shootdown, or when there
was nothing to unmap. -/
structure StepUnmapEnd (c : OSConstants) (s1 s2 : OSVariables M) (core : Core) : Prop where
  valid : validCore c.hw core
  state :
    match s1.coreState core with
    | .unmapShootdownWaiting _ _ _ => s1.tlbShootdown.openRequests = ∅
    | .unmapOpDone _ _ result => result = .error ()
    | _ => False
  hw : Hardware.stepPTMemOp s1.hw s2.hw
  pt : SpecPt.stepStutter s1.ptVariables s2.ptVariables
  coreStates_eq : s2.coreStates = s1.coreStates.insert core .idle
  shootdown_eq : s2.tlbShootdown = s1.tlbShootdown
  sound_eq : s2.sound = s1.sound

/-- `step_View_Stutter` (`spec_t/os.rs:893–912`). -/
structure StepViewStutter (c : OSConstants) (s1 s2 : OSVariables M) (core : Core) : Prop where
  valid : validCore c.hw core
  state : (∃ ultId vaddr result, s1.coreState core = .unmapOpExecuting ultId vaddr result) ∨
    ∃ ultId vaddr pte, s1.coreState core = .mapExecuting ultId vaddr pte
  hw : Hardware.stepPTMemOp s1.hw s2.hw
  pt : SpecPt.stepViewStutter s1.ptVariables s2.ptVariables
  coreStates_eq : s2.coreStates = s1.coreStates
  shootdown_eq : s2.tlbShootdown = s1.tlbShootdown
  sound_eq : s2.sound = s1.sound

/-- `OSStep` (`spec_t/os.rs:917–933`). -/
inductive OSStep where
  | hw (ultId : Nat) (step : HWStep)
  | mapStart (ultId vaddr : Nat) (pte : PageTableEntry)
  | mapOpStart (core : Core)
  | mapEnd (core : Core) (result : Except Unit Unit)
  | unmapStart (ultId vaddr : Nat)
  | unmapOpStart (core : Core) (result : Except Unit Unit)
  | unmapOpEnd (core : Core)
  | unmapInitiateShootdown (core : Core)
  | ackShootdownIPI (core : Core)
  | unmapEnd (core : Core)
  | viewStutter (core : Core)

/-- `next_step` (`spec_t/os.rs:1020–1036`). -/
def NextStep (c : OSConstants) (s1 s2 : OSVariables M) : OSStep → Prop
  | .hw ultId step => StepHW c s1 s2 ultId step
  | .mapStart ultId vaddr pte => StepMapStart c s1 s2 ultId vaddr pte
  | .mapOpStart core => ∃ ultId vaddr pte, StepMapOpStart c s1 s2 core ultId vaddr pte
  | .mapEnd core result => ∃ ultId vaddr pte, StepMapEnd c s1 s2 core result ultId vaddr pte
  | .unmapStart ultId vaddr => StepUnmapStart c s1 s2 ultId vaddr
  | .unmapOpStart core result => ∃ ultId vaddr, StepUnmapOpStart c s1 s2 core result ultId vaddr
  | .unmapOpEnd core => ∃ ultId vaddr result, StepUnmapOpEnd c s1 s2 core ultId vaddr result
  | .unmapInitiateShootdown core =>
    ∃ ultId vaddr pte, StepUnmapInitiateShootdown c s1 s2 core ultId vaddr pte
  | .ackShootdownIPI core => StepAckShootdownIPI s1 s2 core
  | .unmapEnd core => StepUnmapEnd c s1 s2 core
  | .viewStutter core => StepViewStutter c s1 s2 core

/-- `init` (`spec_t/os.rs:1042–1063`). -/
structure Init (c : OSConstants) (s : OSVariables M) : Prop where
  pt_empty : s.interpPtMem = PMap.empty
  hw : Hardware.Init c.hw s.hw
  pt : ∀ core, validCore c.hw core → SpecPt.Init s.ptVariables
  ult_dom : ∀ id, c.validUlt id ↔ (c.ult2core id).isSome
  ult_core : ∀ id, c.validUlt id → validCore c.hw (c.ultCore id)
  states_dom : ∀ core, validCore c.hw core ↔ (s.coreStates core).isSome
  states_idle : ∀ core, validCore c.hw core → s.coreState core = .idle
  no_requests : s.tlbShootdown.openRequests = ∅
  sound : s.sound = true

/-- The OS as a transition system, for fixed constants. -/
def osMachine (c : OSConstants) : Machine (OSVariables M) OSStep where
  init := Init c
  step s1 step s2 := NextStep c s1 s2 step

end Steps

/-! ## Interpretation of steps -/

/-- The high-level operation of a memory access, which a process may only rely on where its
own view maps the address (`spec_t/os.rs:946–973`). -/
def interpRWOp (op : HWRWOp) (hlPte : Option (Nat × PageTableEntry)) : RWOp :=
  match op, hlPte with
  | .store newValue .ok, some _ => .store newValue .ok
  | .store newValue .ok, none => .store newValue .undefined
  | .store newValue .pagefault, _ => .store newValue .undefined
  | .load isExec (.value v), some _ => .load isExec (.value v)
  | .load isExec (.value _), none => .load isExec .undefined
  | .load isExec .pagefault, _ => .load isExec .undefined

open Classical in
/-- `OSStep::interp` (`spec_t/os.rs:936–1018`); steps that cannot be taken, where the source
leaves it unspecified, are stutters. -/
noncomputable def OSStep.interp {M : Type} [PtMemoryOps M] [PhyAddrWidth] (step : OSStep)
    (s : OSVariables M) : AbstractStep :=
  match step with
  | .hw ultId (.readWrite vaddr _ op pte _) =>
    let hlPte := pte.filter fun m ↦ decide (m.1 ∈ s.effectiveMappings.dom)
    .readWrite ultId vaddr (interpRWOp op hlPte) hlPte
  | .hw _ _ => .stutter
  | .mapStart ultId vaddr pte => .mapStart ultId vaddr pte
  | .mapOpStart _ => .stutter
  | .mapEnd core result =>
    match s.coreState core with
    | .mapExecuting ultId _ _ => .mapEnd ultId result
    | _ => .stutter
  | .unmapStart ultId vaddr => .unmapStart ultId vaddr
  | .unmapOpStart _ _ => .stutter
  | .unmapOpEnd _ => .stutter
  | .unmapInitiateShootdown _ => .stutter
  | .ackShootdownIPI _ => .stutter
  | .unmapEnd core =>
    match s.coreState core with
    | .unmapShootdownWaiting ultId _ result | .unmapOpDone ultId _ result =>
      .unmapEnd ultId (result.map fun _ ↦ ())
    | _ => .stutter
  | .viewStutter _ => .stutter

end NrKernel.OS
