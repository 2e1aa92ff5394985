import NrKernel.OS.KernelInvariant
import NrKernel.OS.Refinement

/-!
# The kernel refines the high-level machine

Every step of the kernel is one or two steps of the OS, or none that the OS sees, and so what a
process sees of the kernel is a run of the high-level machine: a map takes effect with the last
memory operation of `map_frame`, all of the other operations are invisible, and so are those of
`unmap`, whose mapping the process has given up before.
-/

namespace NrKernel.OS

open Lib PageTable CoreState OSVariables PtMemory

section Steps

variable {M : Type} [PtMemoryOps M] [PhyAddrWidth] {c : OSConstants} {s t : KernelVariables M}
  {r : RunningCall M} {ultId vaddr : Nat}

namespace KernelInv

/-! ## Steps of the OS -/

/-- A memory operation that does not change the view is a step of the OS. -/
theorem viewStutter (h : KernelInv c s) (hexecuting : (s.os.coreState r.core).executing = true)
    {mem : M} (hview : interpPtMem mem = interpPtMem s.os.hw.globalPt) :
    NextStep c s.os (s.os.setPt mem) (.viewStutter r.core) := by
  have hne : s.os.coreState r.core ≠ .idle := by
    intro hidle
    rw [hidle] at hexecuting
    cases hexecuting
  refine ⟨h.validCore_of_ne hne, ?_, ⟨rfl, rfl⟩, hview, rfl, rfl, rfl⟩
  cases hst : s.os.coreState r.core with
  | mapExecuting ultId vaddr pte => exact .inr ⟨ultId, vaddr, pte, rfl⟩
  | unmapOpExecuting ultId vaddr result => exact .inl ⟨ultId, vaddr, result, rfl⟩
  | _ =>
    rw [hst] at hexecuting
    cases hexecuting

/-- The last memory of a map is where the OS ends it. -/
theorem mapEnd (h : KernelInv c s) (hrunning : s.running = some r) {pte : PageTableEntry}
    (hstate : s.os.coreState r.core = .mapExecuting ultId vaddr pte) :
    NextStep c s.os ((s.os.setPt (memAfter s.os.hw.globalPt r.todo)).setCore r.core .idle)
      (.mapEnd r.core r.result) := by
  have hvalid : validCore c.hw r.core := h.validCore_of_ne (by simp [hstate])
  refine ⟨ultId, vaddr, pte, hvalid, hstate, ⟨rfl, rfl⟩, ?_, rfl, rfl, rfl⟩
  have hcourse := (h.running r hrunning).1
  rw [hstate] at hcourse
  show SpecPt.stepMapEnd ⟨s.os.hw.globalPt⟩ ⟨memAfter s.os.hw.globalPt r.todo⟩ vaddr pte r.result
  cases hcourse with
  | map _ _ _ before m hresult heq hhidden hno hview =>
    rw [heq, memAfter_snoc]
    exact ⟨fun hov ↦ absurd hov hno, fun _ ↦ ⟨hresult, hview⟩⟩
  | mapRefused _ _ _ hresult heq hoverlaps =>
    rw [heq, memAfter_nil]
    exact ⟨fun _ ↦ ⟨hresult, rfl⟩, fun hno ↦ absurd hoverlaps hno⟩

/-- The first operation of an unmap, or its refusal, starts the unmap of the OS. -/
theorem unmapOpStart (h : KernelInv c s) (hrunning : s.running = some r)
    (hstate : s.os.coreState r.core = .unmapWaiting ultId vaddr) :
    NextStep c s.os ((s.os.setPt (memAfter s.os.hw.globalPt (r.todo.take 1))).setCore r.core
      (.unmapOpExecuting ultId vaddr (unmapResult s.os.interpPtMem vaddr r.result)))
      (.unmapOpStart r.core r.result) := by
  have hvalid : validCore c.hw r.core := h.validCore_of_ne (by simp [hstate])
  have hlock : s.os.kernelLock c = none := by
    apply kernelLock_of_not_holdsLock
    intro k
    by_cases hk : k = r.core
    · rw [hk, hstate]
      rfl
    · exact h.not_holdsLock hrunning hk
  refine ⟨ultId, vaddr, hvalid, hstate, hlock, ⟨rfl, rfl⟩, ?_, rfl, rfl, rfl⟩
  have hcourse := (h.running r hrunning).1
  rw [hstate] at hcourse
  show SpecPt.stepUnmapStart ⟨s.os.hw.globalPt⟩ ⟨memAfter s.os.hw.globalPt (r.todo.take 1)⟩ vaddr
    r.result
  unfold SpecPt.stepUnmapStart SpecPt.interp
  cases hcourse with
  | unmap _ _ m after hresult heq hmapped hview =>
    rw [if_pos hmapped, heq, hresult]
    exact ⟨rfl, hview⟩
  | unmapRefused _ _ hresult heq hnone =>
    rw [if_neg (by rw [hnone]; exact Bool.false_ne_true), heq, hresult]
    exact ⟨rfl, rfl⟩

private theorem callMap (h : KernelInv c s) {core : Core} {pte : PageTableEntry}
    (hstate : s.os.coreState core = .mapWaiting ultId vaddr pte)
    (hlock : s.os.kernelLock c = none) :
    NextStep c s.os (s.os.setCore core (.mapExecuting ultId vaddr pte)) (.mapOpStart core) :=
  ⟨ultId, vaddr, pte, h.validCore_of_ne (by simp [hstate]), hstate, hlock, ⟨rfl, rfl⟩, rfl, rfl,
    rfl, rfl⟩

private theorem unmapOpEnd (h : KernelInv c s) {result : Except Unit PageTableEntry}
    (hstate : s.os.coreState r.core = .unmapOpExecuting ultId vaddr result) :
    NextStep c s.os (s.os.setCore r.core (.unmapOpDone ultId vaddr result)) (.unmapOpEnd r.core) :=
  ⟨ultId, vaddr, result, h.validCore_of_ne (by simp [hstate]), hstate, ⟨rfl, rfl⟩, rfl, rfl, rfl,
    rfl⟩

/-- An unmap that is refused starts and ends in the OS. -/
theorem unmapRefused (h : KernelInv c s) (hrunning : s.running = some r)
    (hstate : s.os.coreState r.core = .unmapWaiting ultId vaddr) (htodo : r.todo = []) :
    (osMachine c).Run s.os [.unmapOpStart r.core r.result, .unmapOpEnd r.core]
      (s.os.setCore r.core
        (.unmapOpDone ultId vaddr (unmapResult s.os.interpPtMem vaddr r.result))) := by
  have hstart := h.unmapOpStart hrunning hstate
  rw [htodo, List.take_nil, memAfter_nil] at hstart
  refine .cons hstart (.single ⟨ultId, vaddr, _, h.validCore_of_ne (by simp [hstate]),
    coreState_setCore _ _ _, ⟨rfl, rfl⟩, rfl, ?_, rfl, rfl⟩)
  exact (PMap.insert_insert _ _ _ _).symm

end KernelInv

/-- The steps of the OS that a step of the kernel is made of. -/
def KernelStep.osSteps (s : KernelVariables M) : KernelStep → List OSStep
  | .os step => [step]
  | .call core =>
    match s.os.coreState core with
    | .mapWaiting _ _ _ => [.mapOpStart core]
    | _ => []
  | .memOp core =>
    match s.os.coreState core, s.running with
    | .unmapWaiting _ _, some r => [.unmapOpStart core r.result]
    | _, _ => [.viewStutter core]
  | .ret core =>
    match s.os.coreState core, s.running with
    | .mapExecuting _ _ _, some r => [.mapEnd core r.result]
    | .unmapWaiting _ _, some r => [.unmapOpStart core r.result, .unmapOpEnd core]
    | _, _ => [.unmapOpEnd core]

/-- What is hidden of a map before its last operation. -/
theorem OnCourse.hidden_of_map {mem : M} {pte : PageTableEntry} {op last : MemOp × M}
    {rest : List (MemOp × M)} (h : OnCourse mem r (.mapExecuting ultId vaddr pte))
    (htodo : r.todo = op :: last :: rest) :
    interpPtMem op.2 = interpPtMem mem ∧
      OnCourse op.2 { r with todo := last :: rest } (.mapExecuting ultId vaddr pte) := by
  cases h with
  | map _ _ _ before m hresult heq hhidden hno hview =>
    rw [htodo] at heq
    cases before with
    | nil => cases heq
    | cons first before =>
      obtain ⟨rfl, htail⟩ := List.cons.inj heq
      have hsame := hhidden op List.mem_cons_self
      refine ⟨hsame, .map ultId vaddr pte before m hresult htail ?_ (hsame ▸ hno) (hsame ▸ hview)⟩
      intro op' hop'
      rw [hhidden op' (List.mem_cons_of_mem _ hop'), hsame]
  | mapRefused _ _ _ _ heq =>
    rw [htodo] at heq
    cases heq

private theorem OnCourse.hidden_of_unmapped {mem : M} {result : Except Unit PageTableEntry}
    {op : MemOp × M} {rest : List (MemOp × M)}
    (h : OnCourse mem r (.unmapOpExecuting ultId vaddr result)) (htodo : r.todo = op :: rest) :
    interpPtMem op.2 = interpPtMem mem ∧
      OnCourse op.2 { r with todo := rest } (.unmapOpExecuting ultId vaddr result) := by
  cases h with
  | unmapped _ _ _ hhidden =>
    rw [htodo] at hhidden
    have hsame := hhidden op List.mem_cons_self
    refine ⟨hsame, .unmapped ultId vaddr result fun op' hop' ↦ ?_⟩
    rw [hhidden op' (List.mem_cons_of_mem _ hop'), hsame]

private theorem OnCourse.unmapped_of_waiting {mem : M} {op : MemOp × M} {rest : List (MemOp × M)}
    (h : OnCourse mem r (.unmapWaiting ultId vaddr)) (htodo : r.todo = op :: rest)
    (result : Except Unit PageTableEntry) :
    OnCourse op.2 { r with todo := rest } (.unmapOpExecuting ultId vaddr result) := by
  cases h with
  | unmap _ _ m after hresult heq hmapped hview hhidden =>
    obtain ⟨rfl, rfl⟩ := List.cons.inj (htodo.symm.trans heq)
    exact .unmapped ultId vaddr result hhidden
  | unmapRefused _ _ _ heq =>
    rw [htodo] at heq
    cases heq

end Steps

section Main

variable {M : Type} [PhyAddrWidth] [PageTableMemory M] {c : OSConstants} {s t : KernelVariables M}
  {l : KernelStep}

/-- A step of the kernel keeps the invariant, and is steps of the OS. -/
theorem KernelNext.osRun (h : KernelInv c s) (hstep : KernelNext c s l t) :
    (osMachine c).Run s.os (l.osSteps s) t.os ∧ KernelInv c t := by
  cases hstep with
  | os step os' hother hstep => exact ⟨.single hstep, h.os_step hother hstep⟩
  | callMap core ultId vaddr pte result mem record pt hvalid hstate hlock hfree hpages hcall =>
    have hos := h.callMap hstate hlock
    have hadmitted := h.admitted core
    rw [hstate] at hadmitted
    obtain ⟨_, _, _, _, hcall', hcourse, htree⟩ :=
      mapFrame_onCourse (h.tree hfree) hpages hadmitted core ultId
    cases hcall.symm.trans hcall'
    constructor
    · rw [KernelStep.osSteps, hstate]
      exact .single hos
    · apply h.of_running (hos.reachable h.os) rfl
      · exact fun k hk ↦ coreState_setCore_of_ne _ _ _ hk
      · exact fun k _ ↦ not_holdsLock_of_kernelLock h.osInv.states_dom hlock k
      · rw [coreState_setCore]
        exact hadmitted
      · rw [coreState_setCore]
        exact hcourse
      · exact htree
  | callUnmap core ultId vaddr result mem record pt hvalid hstate hlock hfree hcall =>
    have hadmitted := h.admitted core
    rw [hstate] at hadmitted
    obtain ⟨_, _, _, _, hcall', hcourse, htree⟩ :=
      unmap_onCourse (h.tree hfree) hadmitted core ultId
    cases hcall.symm.trans hcall'
    constructor
    · rw [KernelStep.osSteps, hstate]
      exact .nil _
    · apply h.of_running h.os rfl (fun _ _ ↦ rfl)
      · exact fun k _ ↦ not_holdsLock_of_kernelLock h.osInv.states_dom hlock k
      · exact h.admitted core
      · rw [hstate]
        exact hcourse
      · exact htree
  | memOpMap r ultId vaddr pte op last rest hrunning hstate htodo =>
    obtain ⟨hcourse, htree⟩ := h.running r hrunning
    rw [hstate] at hcourse
    obtain ⟨hview, hcourse'⟩ := hcourse.hidden_of_map htodo
    have hos := h.viewStutter (r := r) (by rw [hstate]; rfl) hview
    constructor
    · rw [KernelStep.osSteps, hstate]
      exact .single hos
    · apply h.of_running (hos.reachable h.os) rfl (fun _ _ ↦ rfl)
      · exact fun k hk ↦ h.not_holdsLock hrunning hk
      · exact h.admitted r.core
      · rw [coreState_setPt, hstate]
        exact hcourse'
      · rw [htodo, memAfter_cons] at htree
        exact htree
  | retMap r ultId vaddr pte hrunning hstate htodo =>
    have hos := h.mapEnd hrunning hstate
    constructor
    · rw [KernelStep.osSteps, hstate, hrunning]
      exact .single hos
    · apply h.of_returned hrunning (hos.reachable h.os) rfl
      · exact fun k hk ↦ coreState_setCore_of_ne _ _ _ hk
      · rw [coreState_setCore]
        trivial
      · rw [coreState_setCore]
        rfl
      · exact (h.running r hrunning).2
  | firstOpUnmap r ultId vaddr op rest hrunning hstate htodo =>
    have hos := h.unmapOpStart hrunning hstate
    rw [htodo] at hos
    obtain ⟨hcourse, htree⟩ := h.running r hrunning
    rw [hstate] at hcourse
    constructor
    · rw [KernelStep.osSteps, hstate, hrunning]
      exact .single hos
    · apply h.of_running (hos.reachable h.os) rfl
      · exact fun k hk ↦ coreState_setCore_of_ne _ _ _ hk
      · exact fun k hk ↦ h.not_holdsLock hrunning hk
      · rw [coreState_setCore]
        trivial
      · rw [coreState_setCore]
        exact hcourse.unmapped_of_waiting htodo _
      · rw [htodo, memAfter_cons] at htree
        exact htree
  | memOpUnmap r ultId vaddr result op rest hrunning hstate htodo =>
    obtain ⟨hcourse, htree⟩ := h.running r hrunning
    rw [hstate] at hcourse
    obtain ⟨hview, hcourse'⟩ := hcourse.hidden_of_unmapped htodo
    have hos := h.viewStutter (r := r) (by rw [hstate]; rfl) hview
    constructor
    · rw [KernelStep.osSteps, hstate]
      exact .single hos
    · apply h.of_running (hos.reachable h.os) rfl (fun _ _ ↦ rfl)
      · exact fun k hk ↦ h.not_holdsLock hrunning hk
      · exact h.admitted r.core
      · rw [coreState_setPt, hstate]
        exact hcourse'
      · rw [htodo, memAfter_cons] at htree
        exact htree
  | retUnmap r ultId vaddr result hrunning hstate htodo =>
    have hos := h.unmapOpEnd hstate
    have htree := (h.running r hrunning).2
    rw [htodo, memAfter_nil] at htree
    constructor
    · rw [KernelStep.osSteps, hstate]
      exact .single hos
    · apply h.of_returned hrunning (hos.reachable h.os) rfl
      · exact fun k hk ↦ coreState_setCore_of_ne _ _ _ hk
      · rw [coreState_setCore]
        trivial
      · rw [coreState_setCore]
        rfl
      · exact htree
  | retUnmapErr r ultId vaddr hrunning hstate htodo =>
    have hos := h.unmapRefused hrunning hstate htodo
    have htree := (h.running r hrunning).2
    rw [htodo, memAfter_nil] at htree
    constructor
    · rw [KernelStep.osSteps, hstate, hrunning]
      exact hos
    · apply h.of_returned hrunning (h.os.run hos) rfl
      · exact fun k hk ↦ coreState_setCore_of_ne _ _ _ hk
      · rw [coreState_setCore]
        trivial
      · rw [coreState_setCore]
        rfl
      · exact htree

/-- The invariant holds at the start. -/
theorem KernelInv.of_init (h : KernelInit c s) : KernelInv c s := by
  have hidle : ∀ k, s.os.coreState k = .idle := fun k ↦ Init.coreState_eq h.os k
  constructor
  · exact .of_init h.os
  · exact h.mem_length
  · intro k
    rw [hidle]
    trivial
  · intro _
    have hnuma := h.os.hw.numaNo_pos
    have hcore : 0 < c.hw.coreNo := by
      obtain ⟨n, hn⟩ := Option.isSome_iff_exists.mp ((h.os.hw.numas_dom 0).mp hnuma)
      exact (h.os.hw.numas_init 0 n hnuma hn).1
    have hinit : SpecPt.Init ⟨s.os.hw.globalPt⟩ := h.os.pt ⟨0, 0⟩ ⟨hnuma, hcore⟩
    obtain ⟨hinv, hinterp, _⟩ := hinit.tree
    rw [h.pt_eq]
    exact ⟨hinv, hinterp⟩
  · intro r hr
    rw [h.idle] at hr
    cases hr
  · intro r hr
    rw [h.idle] at hr
    cases hr
  · intro k hk
    rw [hidle] at hk
    cases hk

/-- The invariant holds in every reachable state. -/
theorem KernelInv.of_reachable (hreach : (kernelMachine c).Reachable s) : KernelInv c s :=
  hreach.invariant (I := KernelInv c) (fun _ hinit ↦ .of_init hinit)
    fun _ _ _ h hstep ↦ (KernelNext.osRun h hstep).2

/-! ## What a process sees -/

omit [PhyAddrWidth] [PageTableMemory M] in
private theorem interp_of_hidden [PtMemoryOps M] [PhyAddrWidth] {step : OSStep}
    (hhidden : step.ofPageTable = true) (hend : ∀ core result, step ≠ .mapEnd core result)
    (os : OSVariables M) : step.interp os = .stutter := by
  cases step with
  | mapEnd core result => exact absurd rfl (hend core result)
  | mapOpStart | unmapOpStart | unmapOpEnd | viewStutter => rfl
  | _ => cases hhidden

private theorem stutter_of_run {os os' : OSVariables M} {steps : List OSStep}
    (hrun : (osMachine c).Run os steps os') (hreach : (osMachine c).Reachable os)
    (hmem : os.hw.mem.length = c.hw.physMemSize)
    (hhidden : ∀ step ∈ steps, step.ofPageTable = true)
    (hend : ∀ step ∈ steps, ∀ core result, step ≠ .mapEnd core result) :
    HlSpec.NextStep c.interp (os.interp c) (os'.interp c) .stutter := by
  have heq : os.interp c = os'.interp c := by
    induction hrun with
    | nil => rfl
    | @cons os₁ os₂ os₃ step steps hstep hrest ih =>
      have hnext : NextStep c os₁ os₂ step := hstep
      have hinv := OsInv.of_reachable hreach
      have hrefines := hnext.refines hinv (.of_reachable hreach) hmem
      rw [interp_of_hidden (hhidden step List.mem_cons_self) (hend step List.mem_cons_self),
        HlSpec.NextStep, if_pos (show (os₁.interp c).sound = true from hinv.sound)] at hrefines
      have hfirst : os₁.interp c = os₂.interp c := hrefines
      rw [hfirst]
      exact ih (hnext.reachable hreach) (hnext.mem_length.trans hmem)
        (fun st hst ↦ hhidden st (List.mem_cons_of_mem _ hst))
        fun st hst ↦ hend st (List.mem_cons_of_mem _ hst)
  have hsound : (os.interp c).sound = true := (OsInv.of_reachable hreach).sound
  rw [HlSpec.NextStep, if_pos hsound]
  exact heq

/-- A step of the kernel is the interpreted step of the high-level machine. -/
theorem KernelNext.refines (h : KernelInv c s) (hstep : KernelNext c s l t) :
    HlSpec.NextStep c.interp (s.os.interp c) (t.os.interp c) (l.interp s) := by
  have hrun := (hstep.osRun h).1
  have hosInv := h.osInv
  have htlb : TlbCoherent c s.os := .of_reachable h.os
  have hstutter : (∀ step ∈ l.osSteps s, step.ofPageTable = true) →
      (∀ step ∈ l.osSteps s, ∀ core result, step ≠ .mapEnd core result) →
      HlSpec.NextStep c.interp (s.os.interp c) (t.os.interp c) .stutter :=
    stutter_of_run hrun h.os h.mem_length
  cases hstep with
  | os step os' hother hstep => exact hstep.refines hosInv htlb h.mem_length
  | retMap r ultId vaddr pte hrunning hstate htodo =>
    have hend := (h.mapEnd hrunning hstate).refines hosInv htlb h.mem_length
    rw [OSStep.interp, hstate] at hend
    rw [KernelStep.interp, hstate, hrunning]
    exact hend
  | callMap core ultId vaddr pte result mem record pt hvalid hstate hlock hfree hpages hcall =>
    apply hstutter
    · simp [KernelStep.osSteps, hstate, OSStep.ofPageTable]
    · simp [KernelStep.osSteps, hstate]
  | callUnmap core ultId vaddr result mem record pt hvalid hstate hlock hfree hcall =>
    apply hstutter
    · simp [KernelStep.osSteps, hstate]
    · simp [KernelStep.osSteps, hstate]
  | memOpMap r ultId vaddr pte op last rest hrunning hstate htodo =>
    apply hstutter
    · simp [KernelStep.osSteps, hstate, OSStep.ofPageTable]
    · simp [KernelStep.osSteps, hstate]
  | firstOpUnmap r ultId vaddr op rest hrunning hstate htodo =>
    apply hstutter
    · simp [KernelStep.osSteps, hstate, hrunning, OSStep.ofPageTable]
    · simp [KernelStep.osSteps, hstate, hrunning]
  | memOpUnmap r ultId vaddr result op rest hrunning hstate htodo =>
    apply hstutter
    · simp [KernelStep.osSteps, hstate, OSStep.ofPageTable]
    · simp [KernelStep.osSteps, hstate]
  | retUnmap r ultId vaddr result hrunning hstate htodo =>
    rw [KernelStep.interp, hstate]
    apply hstutter
    · simp [KernelStep.osSteps, hstate, OSStep.ofPageTable]
    · simp [KernelStep.osSteps, hstate]
  | retUnmapErr r ultId vaddr hrunning hstate htodo =>
    rw [KernelStep.interp, hstate]
    apply hstutter
    · simp [KernelStep.osSteps, hstate, hrunning, OSStep.ofPageTable]
    · simp [KernelStep.osSteps, hstate, hrunning]

/-- The kernel, with the memory operations of `map_frame` and `unmap` as steps of their own
between the steps of the hardware and of other cores, refines the high-level machine. -/
theorem kernel_refines_hlMachine (c : OSConstants) : Refines (kernelMachine (M := M) c)
    (hlMachine c.interp) (fun s ↦ s.os.interp c) fun s l ↦ l.interp s where
  init := fun _ hinit ↦ Init.refines hinit.os
  step := fun _ _ _ hreach hstep ↦ KernelNext.refines (.of_reachable hreach) hstep

end Main

end NrKernel.OS
