import NrKernel.OS.Kernel
import NrKernel.PageTable.Interface

/-!
# The invariant of the kernel

A call in progress is on course: the operations it has left change the view of the MMU once, as
the state of its core says, and leave a memory that stores the tree it returns. Only its core
holds the lock. So every step of the kernel is some steps of the OS.
-/

namespace NrKernel.OS

open Lib PageTable CoreState OSVariables PtMemory

/-! ## Calls -/

section Calls

variable {M : Type} [PtMemoryOps M] [PhyAddrWidth]

/-- What the operations that are left do to the view of the MMU, by the state of the core. -/
inductive OnCourse (mem : M) (r : RunningCall M) : CoreState → Prop
  | map (ultId vaddr : Nat) (pte : PageTableEntry) (before : List (MemOp × M)) (m : M)
      (hresult : r.result = .ok ()) (htodo : r.todo = before ++ [(.write, m)])
      (hhidden : ∀ op ∈ before, interpPtMem op.2 = interpPtMem mem)
      (hno : ¬candidateMappingOverlapsExistingVmem (interpPtMem mem) vaddr pte)
      (hview : interpPtMem m = (interpPtMem mem).insert vaddr pte) :
      OnCourse mem r (.mapExecuting ultId vaddr pte)
  | mapRefused (ultId vaddr : Nat) (pte : PageTableEntry) (hresult : r.result = .error ())
      (htodo : r.todo = [])
      (hoverlaps : candidateMappingOverlapsExistingVmem (interpPtMem mem) vaddr pte) :
      OnCourse mem r (.mapExecuting ultId vaddr pte)
  | unmap (ultId vaddr : Nat) (m : M) (after : List (MemOp × M)) (hresult : r.result = .ok ())
      (htodo : r.todo = (.write, m) :: after) (hmapped : (interpPtMem mem vaddr).isSome)
      (hview : interpPtMem m = (interpPtMem mem).remove vaddr)
      (hhidden : ∀ op ∈ after, interpPtMem op.2 = interpPtMem m) :
      OnCourse mem r (.unmapWaiting ultId vaddr)
  | unmapRefused (ultId vaddr : Nat) (hresult : r.result = .error ()) (htodo : r.todo = [])
      (hnone : interpPtMem mem vaddr = none) : OnCourse mem r (.unmapWaiting ultId vaddr)
  | unmapped (ultId vaddr : Nat) (result : Except Unit PageTableEntry)
      (hhidden : ∀ op ∈ r.todo, interpPtMem op.2 = interpPtMem mem) :
      OnCourse mem r (.unmapOpExecuting ultId vaddr result)

/-- The request in flight passed the checks it was taken with. -/
def CoreState.Admitted : CoreState → Prop
  | .mapWaiting _ vaddr pte | .mapExecuting _ vaddr pte => HlSpec.StepMapEnabled vaddr pte
  | .unmapWaiting _ vaddr => HlSpec.StepUnmapEnabled vaddr
  | _ => True

/-- What a process may ask to unmap, the implementation accepts. -/
theorem HlSpec.StepUnmapEnabled.accepted {vaddr : Nat} (h : HlSpec.StepUnmapEnabled vaddr)
    (mem : M) (pt : PTDir) : (PT.interp mem pt).AcceptedUnmap vaddr := by
  constructor
  · change between _ (PT.interp mem pt).baseVaddr (PT.interp mem pt).upperVaddr
    rw [Directory.upperVaddr, PT.interp, interpAt_arch, interpAt_layer, interpAt_baseVaddr]
    exact ⟨Nat.zero_le _, h.vaddr_lt⟩
  · change ∃ size, (PT.interp mem pt).arch.containsEntrySize size ∧ aligned vaddr size
    rw [PT.interp, interpAt_arch]
    have hsize : ∀ {size}, size = l3EntrySize ∨ size = l2EntrySize ∨ size = l1EntrySize →
        x86Arch.containsEntrySize size := by
      intro size hsize
      obtain ⟨i, _, hlt, hi⟩ := pageSize_iff.mpr hsize
      exact ⟨i, Nat.zero_le _, hlt, hi⟩
    rcases h.vaddr_aligned with ha | ha | ha
    · exact ⟨_, hsize (.inl rfl), ha⟩
    · exact ⟨_, hsize (.inr (.inl rfl)), ha⟩
    · exact ⟨_, hsize (.inr (.inr rfl)), ha⟩

end Calls

section Spec

variable {M : Type} [PhyAddrWidth] [PageTableMemory M] {mem : M} {pt : PTDir}

/-- A successful `unmap` ends with the memory of its last operation. -/
theorem unmapRun_last_record {s s' : Recorded M} {pt ptRes : PTDir} {layer ptr base vaddr : Nat}
    {removedRegions : Set MemRegion}
    (run : UnmapRun vaddr s pt layer ptr base (.ok (ptRes, removedRegions)) s') :
    ∃ init op, s'.record = init ++ [(op, s'.mem)] := by
  generalize hres : Except.ok (ptRes, removedRegions) = res at run
  induction run generalizing ptRes removedRegions with
  | absent => cases hres
  | directoryRefused => cases hres
  | page h hview hal hwrite hw => exact ⟨_, _, writeEntry_record hwrite⟩
  | kept h hview hd sub hempty ih => exact ih rfl
  | @emptied s₁ s₂ pt d dRes layer ptr base e removed h hview hd sub hempty hwrite hw hf ih =>
    exact ⟨s₂.record, .deallocPage, rfl⟩

/-- A call of `map_frame` for an admitted request returns, and is on course from its start. -/
theorem mapFrame_onCourse (htree : StoresTree mem pt) (hpages : 3 ≤ allocAvailablePages mem)
    {vaddr : Nat} {pte : PageTableEntry} (hadmitted : HlSpec.StepMapEnabled vaddr pte)
    (core : Core) (ultId : Nat) : ∃ result mem' record pt',
    mapFrame (Recorded.start mem) pt vaddr pte = some (result, ⟨mem', record⟩, pt') ∧
      OnCourse mem ⟨core, record, result, pt'⟩ (.mapExecuting ultId vaddr pte) ∧
      StoresTree (memAfter mem record) pt' := by
  obtain ⟨hpte, ha⟩ := hadmitted.accepted mem pt
  have hmax : vaddr < maxBase := by
    have hlt := (stepMapEnabled_iff.mp hadmitted).2.2
    omega
  obtain ⟨result, mem', pt', hspec, hens⟩ :=
    mapFrame_spec htree.inv htree.interp_inv hpages hpte ha hmax
  obtain ⟨result₁, mem₁, pt₁, record, hspec₁, hcall, hok, herr⟩ :=
    mapFrame_in_one_write htree.inv htree.interp_inv hpages hpte ha hmax
  cases hspec.symm.trans hspec₁
  refine ⟨result, mem', record, pt', hcall, ?_⟩
  cases result with
  | ok u =>
    obtain ⟨before, rfl, hhidden, hno, hview⟩ := hok rfl
    refine ⟨.map ultId vaddr pte before mem' rfl rfl hhidden hno hview, ?_⟩
    rw [memAfter_snoc]
    exact ⟨hens.inv, hens.interp_inv⟩
  | error e =>
    obtain rfl := herr rfl
    obtain ⟨rfl, rfl⟩ := hens.refused rfl
    refine ⟨.mapRefused ultId vaddr pte rfl rfl ?_, htree⟩
    by_contra hno
    cases (hens.step.2 hno).1

/-- A call of `unmap` for an admitted request returns, and is on course from its start. -/
theorem unmap_onCourse (htree : StoresTree mem pt) {vaddr : Nat}
    (hadmitted : HlSpec.StepUnmapEnabled vaddr) (core : Core) (ultId : Nat) :
    ∃ result mem' record pt',
    unmap (Recorded.start mem) pt vaddr = some (result, ⟨mem', record⟩, pt') ∧
      OnCourse mem ⟨core, record, result, pt'⟩ (.unmapWaiting ultId vaddr) ∧
      StoresTree (memAfter mem record) pt' := by
  have ha := hadmitted.accepted mem pt
  have hmax : vaddr < maxBase := by
    rw [← x86Arch_upperVaddr_root]
    exact hadmitted.vaddr_lt
  obtain ⟨result, mem', pt', hspec, hens⟩ := unmap_spec htree.inv htree.interp_inv ha hmax
  obtain ⟨result₁, mem₁, pt₁, record, hspec₁, hcall, hok, herr⟩ :=
    unmap_in_one_write htree.inv htree.interp_inv ha hmax
  cases hspec.symm.trans hspec₁
  refine ⟨result, mem', record, pt', hcall, ?_⟩
  cases result with
  | ok u =>
    obtain ⟨m, after, hrecord, hmapped, hview, hhidden⟩ := hok rfl
    refine ⟨.unmap ultId vaddr m after rfl hrecord hmapped hview hhidden, ?_⟩
    rcases unmap_run_recorded htree.inv htree.interp_inv ha hmax with
      ⟨ptRes, removedRegions, s', hcall', _, hrun⟩ | ⟨hcall', _⟩
    · cases hcall.symm.trans hcall'
      obtain ⟨init, op, hlast⟩ := unmapRun_last_record hrun
      have hlast : record = init ++ [(op, mem')] := hlast
      rw [hlast, memAfter_snoc]
      exact ⟨hens.inv, hens.interp_inv⟩
    · cases hcall.symm.trans hcall'
  | error e =>
    obtain rfl := herr rfl
    obtain ⟨rfl, rfl⟩ := hens.refused rfl
    refine ⟨.unmapRefused ultId vaddr rfl rfl ?_, htree⟩
    have hstep : SpecPt.stepUnmapStart ⟨mem'⟩ ⟨mem'⟩ vaddr (.error ()) := hens.step
    unfold SpecPt.stepUnmapStart at hstep
    split at hstep
    · cases hstep.1
    · rename_i hnone
      exact Option.not_isSome_iff_eq_none.mp hnone

end Spec

/-! ## Steps around the page table code -/

section Around

variable {M : Type} [PtMemoryOps M] [PhyAddrWidth] {c : OSConstants} {s t : OSVariables M}

/-- How a core moves in a step of the OS without the page table code. -/
inductive Moves : CoreState → CoreState → Prop
  | stay (st : CoreState) : Moves st st
  | requestMap (ultId vaddr : Nat) (pte : PageTableEntry) (h : HlSpec.StepMapEnabled vaddr pte) :
      Moves .idle (.mapWaiting ultId vaddr pte)
  | requestUnmap (ultId vaddr : Nat) (h : HlSpec.StepUnmapEnabled vaddr) :
      Moves .idle (.unmapWaiting ultId vaddr)
  | initiate (ultId vaddr : Nat) (result : Except Unit PageTableEntry) :
      Moves (.unmapOpDone ultId vaddr result) (.unmapShootdownWaiting ultId vaddr result)
  | endDone (ultId vaddr : Nat) (result : Except Unit PageTableEntry) :
      Moves (.unmapOpDone ultId vaddr result) .idle
  | endWaiting (ultId vaddr : Nat) (result : Except Unit PageTableEntry) :
      Moves (.unmapShootdownWaiting ultId vaddr result) .idle

omit [PtMemoryOps M] in
private theorem moves_insert {core : Core} {st : CoreState}
    (h : t.coreStates = s.coreStates.insert core st) (hmove : Moves (s.coreState core) st)
    (k : Core) : Moves (s.coreState k) (t.coreState k) := by
  by_cases hk : k = core
  · rw [hk, coreState_insert h]
    exact hmove
  · rw [coreState_insert_of_ne h hk]
    exact .stay _

omit [PtMemoryOps M] in
private theorem moves_same (h : t.coreStates = s.coreStates) (k : Core) :
    Moves (s.coreState k) (t.coreState k) := by
  rw [coreState, coreState, h]
  exact .stay _

/-- Steps of the OS without the page table code leave its memory alone. -/
theorem NextStep.globalPt_eq {step : OSStep} (hother : step.ofPageTable = false)
    (hstep : NextStep c s t step) : t.hw.globalPt = s.hw.globalPt := by
  apply hstep.globalPt_of_writesPt
  cases step with
  | mapEnd | unmapOpStart | viewStutter => cases hother
  | _ => rfl

private theorem NextStep.moves {step : OSStep} (hother : step.ofPageTable = false)
    (hstep : NextStep c s t step) (k : Core) : Moves (s.coreState k) (t.coreState k) := by
  cases step with
  | hw ultId step => exact moves_same (StepHW.coreStates_eq hstep) k
  | mapStart ultId vaddr pte =>
    have hstep : StepMapStart c s t ultId vaddr pte := hstep
    apply moves_insert hstep.coreStates_eq
    rw [hstep.idle]
    exact .requestMap ultId vaddr pte hstep.enabled.toStepMapEnabled
  | unmapStart ultId vaddr =>
    have hstep : StepUnmapStart c s t ultId vaddr := hstep
    apply moves_insert hstep.coreStates_eq
    rw [hstep.idle]
    exact .requestUnmap ultId vaddr hstep.enabled
  | unmapInitiateShootdown core =>
    obtain ⟨ultId, vaddr, pte, hstep⟩ := hstep
    apply moves_insert hstep.coreStates_eq
    rw [hstep.state]
    exact .initiate ultId vaddr _
  | ackShootdownIPI core => exact moves_same (StepAckShootdownIPI.coreStates_eq hstep) k
  | unmapEnd core =>
    have hstep : StepUnmapEnd c s t core := hstep
    apply moves_insert hstep.coreStates_eq
    have hstate := hstep.state
    cases hst : s.coreState core with
    | unmapOpDone ultId vaddr result => exact .endDone ultId vaddr result
    | unmapShootdownWaiting ultId vaddr result => exact .endWaiting ultId vaddr result
    | _ =>
      rw [hst] at hstate
      exact hstate.elim
  | _ => cases hother

/-- Physical memory keeps its size. -/
theorem NextStep.mem_length {step : OSStep} (hstep : NextStep c s t step) :
    t.hw.mem.length = s.hw.mem.length := by
  by_cases hhw : ∃ ultId hw, step = .hw ultId hw
  · obtain ⟨ultId, hw, rfl⟩ := hhw
    have hstep : StepHW c s t ultId hw := hstep
    have hnext := hstep.hw
    cases hw with
    | readWrite vaddr paddr op pte core =>
      obtain ⟨_, _, _, hmem⟩ := hnext
      cases pte with
      | none => rw [hmem.2.1]
      | some e =>
        obtain ⟨_, _, _, hop⟩ := hmem
        cases op with
        | store v result =>
          dsimp only at hop
          split at hop
          · rw [hop.2, List.length_set]
          · rw [hop.2]
        | load isExec result => rw [hop.1]
    | ptMemOp => exact absurd rfl hstep.not_ptMemOp
    | tlbFill vaddr pte core => rw [hnext.unchanged.mem_eq]
    | tlbEvict vaddr core => rw [hnext.unchanged.mem_eq]
  · rw [(hstep.stepPTMemOp fun ultId hw heq ↦ hhw ⟨ultId, hw, heq⟩).1]

end Around

/-! ## The invariant -/

/-- The core has entered the page table code and the OS has seen it. -/
def CoreState.executing : CoreState → Bool
  | .mapExecuting _ _ _ | .unmapOpExecuting _ _ _ => true
  | _ => false

private theorem CoreState.holdsLock_of_executing {st : CoreState} (h : st.executing = true) :
    st.holdsLock = true := by
  cases st with
  | mapExecuting => rfl
  | unmapOpExecuting => rfl
  | _ => cases h

section Moves

variable [PhyAddrWidth] {st st' : CoreState}

private theorem Moves.executing_eq (h : Moves st st') : st'.executing = st.executing := by
  cases h with
  | _ => rfl

/-- No core takes the lock outside the page table code. -/
theorem Moves.holdsLock (h : Moves st st') (hlock : st'.holdsLock = true) :
    st.holdsLock = true := by
  cases h with
  | stay => exact hlock
  | initiate => rfl
  | _ => cases hlock

private theorem Moves.admitted (h : Moves st st') (hadmitted : st.Admitted) : st'.Admitted := by
  cases h with
  | stay => exact hadmitted
  | requestMap _ _ _ henabled => exact henabled
  | requestUnmap _ _ henabled => exact henabled
  | _ => trivial

/-- The core of a call waits for it. -/
theorem OnCourse.moves {M : Type} [PtMemoryOps M] {mem : M} {r : RunningCall M}
    (h : OnCourse mem r st) (hmoves : Moves st st') : st' = st := by
  cases h with
  | _ =>
    cases hmoves
    rfl

end Moves

section Inv

variable {M : Type} [PtMemoryOps M] [PhyAddrWidth] {c : OSConstants} {s : KernelVariables M}
  {os' : OSVariables M} {r : RunningCall M}

/-- What every reachable state of the kernel satisfies, next to what the OS in it does. -/
structure KernelInv (c : OSConstants) (s : KernelVariables M) : Prop where
  os : (osMachine c).Reachable s.os
  mem_length : s.os.hw.mem.length = c.hw.physMemSize
  admitted : ∀ k, (s.os.coreState k).Admitted
  tree : s.running = none → StoresTree s.os.hw.globalPt s.pt
  running : ∀ r, s.running = some r → OnCourse s.os.hw.globalPt r (s.os.coreState r.core) ∧
    StoresTree (memAfter s.os.hw.globalPt r.todo) r.pt
  holder : ∀ r, s.running = some r → ∀ k, (s.os.coreState k).holdsLock = true → k = r.core
  executing : ∀ k, (s.os.coreState k).executing = true → ∃ r, s.running = some r ∧ r.core = k

omit [PtMemoryOps M] [PhyAddrWidth] in
/-- The lock is free when no core holds it. -/
theorem kernelLock_of_not_holdsLock {os : OSVariables M}
    (h : ∀ k, (os.coreState k).holdsLock = false) : os.kernelLock c = none := by
  rw [kernelLock, dif_neg]
  rintro ⟨k, _, hk⟩
  rw [h k] at hk
  cases hk

namespace KernelInv

/-- The OS is in a state with its invariant. -/
theorem osInv (h : KernelInv c s) : OsInv c s.os := .of_reachable h.os

/-- The core of a request in flight exists. -/
theorem validCore_of_ne (h : KernelInv c s) {k : Core} (hne : s.os.coreState k ≠ .idle) :
    validCore c.hw k := by
  rw [h.osInv.states_dom, coreStates_of_ne_idle hne]
  rfl

/-- Nobody else holds the lock during a call. -/
theorem not_holdsLock (h : KernelInv c s) (hrunning : s.running = some r) {k : Core}
    (hk : k ≠ r.core) : (s.os.coreState k).holdsLock = false := by
  rw [← Bool.not_eq_true]
  exact fun hlock ↦ hk (h.holder r hrunning k hlock)

/-- A step of the OS that leaves the page table keeps the invariant. -/
theorem os_step (h : KernelInv c s) {step : OSStep} (hother : step.ofPageTable = false)
    (hstep : NextStep c s.os os' step) : KernelInv c { s with os := os' } := by
  have hpt := hstep.globalPt_eq hother
  have hmoves := hstep.moves hother
  constructor
  · exact h.os.step hstep
  · exact hstep.mem_length.trans h.mem_length
  · exact fun k ↦ (hmoves k).admitted (h.admitted k)
  · intro hfree
    rw [hpt]
    exact h.tree hfree
  · intro r hr
    obtain ⟨hcourse, htree⟩ := h.running r hr
    rw [hpt, hcourse.moves (hmoves r.core)]
    exact ⟨hcourse, htree⟩
  · exact fun r hr k hk ↦ h.holder r hr k ((hmoves k).holdsLock hk)
  · intro k hk
    rw [(hmoves k).executing_eq] at hk
    exact h.executing k hk

/-- A core makes a call, or goes on with it. -/
theorem of_running (h : KernelInv c s) (hos : (osMachine c).Reachable os')
    (hmem : os'.hw.mem = s.os.hw.mem)
    (hothers : ∀ k, k ≠ r.core → os'.coreState k = s.os.coreState k)
    (hlock : ∀ k, k ≠ r.core → (s.os.coreState k).holdsLock = false)
    (hadmitted : (os'.coreState r.core).Admitted)
    (hcourse : OnCourse os'.hw.globalPt r (os'.coreState r.core))
    (htree : StoresTree (memAfter os'.hw.globalPt r.todo) r.pt) :
    KernelInv c { s with os := os', running := some r } := by
  have hholder : ∀ k, (os'.coreState k).holdsLock = true → k = r.core := by
    intro k hk
    by_contra hne
    rw [hothers k hne, hlock k hne] at hk
    cases hk
  constructor
  · exact hos
  · rw [hmem]
    exact h.mem_length
  · intro k
    by_cases hk : k = r.core
    · rw [hk]
      exact hadmitted
    · rw [hothers k hk]
      exact h.admitted k
  · intro hfree
    cases hfree
  · intro r' hr'
    cases hr'
    exact ⟨hcourse, htree⟩
  · intro r' hr'
    cases hr'
    exact hholder
  · exact fun k hk ↦ ⟨r, rfl, (hholder k (holdsLock_of_executing hk)).symm⟩

/-- A core returns from its call. -/
theorem of_returned (h : KernelInv c s) (hrunning : s.running = some r)
    (hos : (osMachine c).Reachable os') (hmem : os'.hw.mem = s.os.hw.mem)
    (hothers : ∀ k, k ≠ r.core → os'.coreState k = s.os.coreState k)
    (hadmitted : (os'.coreState r.core).Admitted)
    (hexecuting : (os'.coreState r.core).executing = false)
    (htree : StoresTree os'.hw.globalPt r.pt) : KernelInv c ⟨os', r.pt, none⟩ := by
  constructor
  · exact hos
  · rw [hmem]
    exact h.mem_length
  · intro k
    by_cases hk : k = r.core
    · rw [hk]
      exact hadmitted
    · rw [hothers k hk]
      exact h.admitted k
  · exact fun _ ↦ htree
  · intro r' hr'
    cases hr'
  · intro r' hr'
    cases hr'
  · intro k hk
    by_cases heq : k = r.core
    · rw [heq, hexecuting] at hk
      cases hk
    · rw [hothers k heq] at hk
      have hlock := holdsLock_of_executing hk
      rw [h.not_holdsLock hrunning heq] at hlock
      cases hlock

end KernelInv

end Inv

end NrKernel.OS
