import Mathlib.Data.Set.Card
import NrKernel.OS.TlbInvariant

/-!
# Shootdowns can be completed

From every reachable state in which an unmap operation is done, its core gets to idle by steps
of the shootdown alone: every core with an open request evicts the address, if it caches it, and
acknowledges; then the unmap ends. Nothing else changes on the way but the TLBs and the
shootdown vector.
-/

namespace NrKernel.OS

open Lib PageTable CoreState OSVariables

/-- The steps that complete the unmap of a core. -/
def OSStep.CompletesUnmap (core : Core) : OSStep → Prop
  | .unmapInitiateShootdown k => k = core
  | .hw _ (.tlbEvict _ _) => True
  | .ackShootdownIPI _ => True
  | .unmapEnd k => k = core
  | _ => False

/-- The cores of a machine are finitely many. -/
theorem finite_validCore (c : HWConstants) : {k | validCore c k}.Finite := by
  have hpairs : ({i | i < c.numaNo} ×ˢ {i | i < c.coreNo}).Finite :=
    (Set.finite_lt_nat _).prod (Set.finite_lt_nat _)
  refine (hpairs.image fun p ↦ Core.mk p.1 p.2).subset ?_
  intro k hk
  exact ⟨(k.numaId, k.coreId), hk, rfl⟩

/-! ## Evicting an entry -/

section Evict

variable {M : Type} {s : HWVariables M} {core : Core} {vaddr : Nat}

/-- The hardware without one entry of one TLB. -/
def HWVariables.evict (s : HWVariables M) (core : Core) (vaddr : Nat) : HWVariables M :=
  { s with
    numas := s.numas.insert core.numaId
      ⟨(s.cores core.numaId).insert core.coreId ⟨(s.tlb core).remove vaddr⟩⟩ }

private theorem HWVariables.cores_evict : (s.evict core vaddr).cores core.numaId =
    (s.cores core.numaId).insert core.coreId ⟨(s.tlb core).remove vaddr⟩ := by
  simp only [cores, evict, PMap.insert_self, Option.elim_some]

private theorem HWVariables.tlb_evict :
    (s.evict core vaddr).tlb core = (s.tlb core).remove vaddr := by
  rw [tlb, cores_evict, PMap.insert_self, Option.elim_some]

private theorem HWVariables.mem_dom_of_tlb (h : vaddr ∈ (s.tlb core).dom) :
    core.numaId ∈ s.numas.dom ∧ core.coreId ∈ (s.cores core.numaId).dom := by
  constructor
  · intro hnone
    apply h
    rw [tlb, cores, hnone]
    rfl
  · intro hnone
    apply h
    rw [tlb, hnone]
    rfl

/-- Evicting an entry is a step of the hardware. -/
theorem Hardware.stepTLBEvict_evict {c : HWConstants} (hcore : validCore c core)
    (hcached : vaddr ∈ (s.tlb core).dom) :
    StepTLBEvict c s (s.evict core vaddr) vaddr core := by
  obtain ⟨hnuma, hexists⟩ := HWVariables.mem_dom_of_tlb hcached
  refine ⟨hcore, hcached, HWVariables.tlb_evict, ⟨rfl, ?_, ?_, ?_, ?_⟩⟩
  · rw [HWVariables.evict, PMap.dom_insert, Set.insert_eq_of_mem hnuma]
  · rw [HWVariables.evict, PMap.remove_insert]
  · rw [HWVariables.cores_evict, PMap.dom_insert, Set.insert_eq_of_mem hexists]
  · rw [HWVariables.cores_evict, PMap.remove_insert]

end Evict

/-! ## The protocol -/

section Protocol

variable {M : Type} [PtMemoryOps M] [PhyAddrWidth] {c : OSConstants}
  {s s' s'' : OSVariables M} {core : Core} {ultId vaddr : Nat}
  {result : Except Unit PageTableEntry}

/-- Memory, page table memory and the phases of the other cores are as before. -/
structure Undisturbed (core : Core) (s s' : OSVariables M) : Prop where
  mem_eq : s'.hw.mem = s.hw.mem
  globalPt_eq : s'.hw.globalPt = s.hw.globalPt
  others : ∀ k, k ≠ core → s'.coreStates k = s.coreStates k

/-- Steps that complete the unmap of the core lead from one state to the other, and disturb
nothing else. -/
def ShootdownRun (c : OSConstants) (core : Core) (s s' : OSVariables M) : Prop :=
  ∃ steps, (osMachine c).Run s steps s' ∧ (∀ step ∈ steps, step.CompletesUnmap core) ∧
    Undisturbed core s s'

namespace ShootdownRun

private theorem refl (s : OSVariables M) : ShootdownRun c core s s :=
  ⟨[], .nil s, nofun, rfl, rfl, fun _ _ ↦ rfl⟩

private theorem single {step : OSStep} (hstep : NextStep c s s' step)
    (hcompletes : step.CompletesUnmap core) (h : Undisturbed core s s') :
    ShootdownRun c core s s' := by
  refine ⟨[step], .single hstep, fun st hst ↦ ?_, h⟩
  rw [List.mem_singleton.mp hst]
  exact hcompletes

/-- Shootdowns go on with one another. -/
theorem trans (h : ShootdownRun c core s s') (h' : ShootdownRun c core s' s'') :
    ShootdownRun c core s s'' := by
  obtain ⟨steps, hrun, hsteps, hsame⟩ := h
  obtain ⟨steps', hrun', hsteps', hsame'⟩ := h'
  refine ⟨steps ++ steps', hrun.append hrun', fun step hstep ↦ ?_, ?_⟩
  · rcases List.mem_append.mp hstep with hmem | hmem
    · exact hsteps step hmem
    · exact hsteps' step hmem
  · exact ⟨hsame'.mem_eq.trans hsame.mem_eq, hsame'.globalPt_eq.trans hsame.globalPt_eq,
      fun k hk ↦ (hsame'.others k hk).trans (hsame.others k hk)⟩

/-- A shootdown keeps the machine in reachable states. -/
theorem reachable (h : ShootdownRun c core s s') (hreach : (osMachine c).Reachable s) :
    (osMachine c).Reachable s' := by
  obtain ⟨steps, hrun, _⟩ := h
  exact hreach.run hrun

end ShootdownRun

/-- A core can be rid of an address, whoever asks. -/
theorem exists_evicted (core : Core) (s : OSVariables M) (hult : c.validUlt ultId) {k : Core}
    (hk : validCore c.hw k) (vaddr : Nat) :
    ∃ s', ShootdownRun c core s s' ∧ s'.coreStates = s.coreStates ∧
      s'.tlbShootdown = s.tlbShootdown ∧ vaddr ∉ (s'.hw.tlb k).dom := by
  by_cases hcached : vaddr ∈ (s.hw.tlb k).dom
  · let s' : OSVariables M := { s with hw := s.hw.evict k vaddr }
    have hstep : NextStep c s s' (.hw ultId (.tlbEvict vaddr k)) :=
      ⟨hult, .inr (.inr ⟨vaddr, k, rfl⟩), nofun, Hardware.stepTLBEvict_evict hk hcached, rfl, rfl,
        rfl, rfl⟩
    refine ⟨s', .single hstep trivial ⟨rfl, rfl, fun _ _ ↦ rfl⟩, rfl, rfl, ?_⟩
    rw [show s'.hw.tlb k = (s.hw.tlb k).remove vaddr from HWVariables.tlb_evict,
      PMap.notMem_dom, PMap.remove_self]
  · exact ⟨s, .refl s, rfl, rfl, hcached⟩

/-- While a core waits for a shootdown, every core with an open request can acknowledge it. -/
theorem exists_acknowledged (hreach : (osMachine c).Reachable s)
    (hst : s.coreState core = .unmapShootdownWaiting ultId vaddr result) {k : Core}
    (hk : k ∈ s.tlbShootdown.openRequests) :
    ∃ s', ShootdownRun c core s s' ∧
      s'.coreState core = .unmapShootdownWaiting ultId vaddr result ∧
      s'.tlbShootdown.openRequests = s.tlbShootdown.openRequests \ {k} := by
  have hinv := OsInv.of_reachable hreach
  have htlb := TlbCoherent.of_reachable hreach
  obtain ⟨hult, _⟩ := hinv.valid_ids core ultId (by rw [hst]; rfl)
  obtain ⟨s₁, hrun, hstates, hshootdown, hgone⟩ :=
    exists_evicted core s hult (htlb.requests_valid k hk) vaddr
  have hst₁ : s₁.coreState core = .unmapShootdownWaiting ultId vaddr result := by
    rw [coreState, hstates]
    exact hst
  have hreach₁ := hrun.reachable hreach
  have hvaddr : s₁.tlbShootdown.vaddr = vaddr :=
    ((TlbCoherent.of_reachable hreach₁).shootdown core ultId vaddr result hst₁).1
  have hunmapped : s₁.interpPtMem vaddr = none :=
    (OsInv.of_reachable hreach₁).unmapped core vaddr result (by rw [hst₁]; rfl)
  let s' : OSVariables M :=
    { s₁ with tlbShootdown := ⟨s₁.tlbShootdown.vaddr, s₁.tlbShootdown.openRequests \ {k}⟩ }
  have hstep : NextStep c s₁ s' (.ackShootdownIPI k) := by
    refine ⟨?_, ?_, ?_, ⟨rfl, rfl⟩, rfl, rfl, rfl, rfl⟩
    · rw [hshootdown]
      exact hk
    · rw [hvaddr]
      exact hgone
    · rw [hvaddr, PMap.notMem_dom]
      exact hunmapped
  refine ⟨s', hrun.trans (.single hstep trivial ⟨rfl, rfl, fun _ _ ↦ rfl⟩), hst₁, ?_⟩
  show s₁.tlbShootdown.openRequests \ {k} = _
  rw [hshootdown]

/-- While a core waits for a shootdown, all open requests can be acknowledged. -/
theorem exists_all_acknowledged (hreach : (osMachine c).Reachable s)
    (hst : s.coreState core = .unmapShootdownWaiting ultId vaddr result) :
    ∃ s', ShootdownRun c core s s' ∧
      s'.coreState core = .unmapShootdownWaiting ultId vaddr result ∧
      s'.tlbShootdown.openRequests = ∅ := by
  -- by induction on the number of open requests
  generalize hn : s.tlbShootdown.openRequests.ncard = n
  induction n generalizing s with
  | zero =>
    have hfinite : s.tlbShootdown.openRequests.Finite :=
      (finite_validCore c.hw).subset (TlbCoherent.of_reachable hreach).requests_valid
    exact ⟨s, .refl s, hst, (Set.ncard_eq_zero hfinite).mp hn⟩
  | succ n ih =>
    have hsome : s.tlbShootdown.openRequests.ncard ≠ 0 := by
      rw [hn]
      exact Nat.succ_ne_zero n
    obtain ⟨k, hk⟩ := Set.nonempty_of_ncard_ne_zero hsome
    obtain ⟨s₁, hrun, hst₁, hopen⟩ := exists_acknowledged hreach hst hk
    have hcard : s₁.tlbShootdown.openRequests.ncard = n := by
      rw [hopen, Set.ncard_sdiff_singleton_of_mem hk, hn, Nat.add_sub_cancel]
    obtain ⟨s', hrun', hst', hempty⟩ := ih (hrun.reachable hreach) hst₁ hcard
    exact ⟨s', hrun.trans hrun', hst', hempty⟩

/-- An unmap that is done, or whose shootdown has been acknowledged, can end. -/
theorem exists_ended (hvalid : validCore c.hw core)
    (hst : s.coreState core = .unmapOpDone ultId vaddr (.error ()) ∨
      s.coreState core = .unmapShootdownWaiting ultId vaddr result ∧
        s.tlbShootdown.openRequests = ∅) :
    ∃ s', ShootdownRun c core s s' ∧ s'.coreState core = .idle := by
  let s' : OSVariables M := { s with coreStates := s.coreStates.insert core .idle }
  have hstep : NextStep c s s' (.unmapEnd core) := by
    refine ⟨hvalid, ?_, ⟨rfl, rfl⟩, rfl, rfl, rfl, rfl⟩
    rcases hst with hst | ⟨hst, hopen⟩
    · rw [hst]
    · rw [hst]
      exact hopen
  have hstates : s'.coreStates = s.coreStates.insert core .idle := rfl
  refine ⟨s', .single hstep rfl ⟨rfl, rfl, fun k hk ↦ ?_⟩, coreState_insert hstates⟩
  exact PMap.insert_of_ne _ _ hk

/-- A shootdown can be asked for once the unmap operation is done. -/
theorem exists_initiated (hvalid : validCore c.hw core) {pte : PageTableEntry}
    (hst : s.coreState core = .unmapOpDone ultId vaddr (.ok pte)) :
    ∃ s', ShootdownRun c core s s' ∧
      s'.coreState core = .unmapShootdownWaiting ultId vaddr (.ok pte) := by
  let s' : OSVariables M :=
    { s with
      coreStates := s.coreStates.insert core (.unmapShootdownWaiting ultId vaddr (.ok pte))
      tlbShootdown := ⟨vaddr, {k | validCore c.hw k}⟩ }
  have hstep : NextStep c s s' (.unmapInitiateShootdown core) :=
    ⟨ultId, vaddr, pte, hvalid, hst, ⟨rfl, rfl⟩, rfl, rfl, rfl, rfl⟩
  have hstates : s'.coreStates =
      s.coreStates.insert core (.unmapShootdownWaiting ultId vaddr (.ok pte)) := rfl
  refine ⟨s', .single hstep rfl ⟨rfl, rfl, fun k hk ↦ ?_⟩, coreState_insert hstates⟩
  exact PMap.insert_of_ne _ _ hk

/-- A shootdown that is waited for can be completed. -/
theorem exists_completed (hreach : (osMachine c).Reachable s) (hvalid : validCore c.hw core)
    (hst : s.coreState core = .unmapShootdownWaiting ultId vaddr result) :
    ∃ s', ShootdownRun c core s s' ∧ s'.coreState core = .idle := by
  obtain ⟨s₁, hrun, hst₁, hopen⟩ := exists_all_acknowledged hreach hst
  obtain ⟨s', hrun', hidle⟩ := exists_ended hvalid (.inr ⟨hst₁, hopen⟩)
  exact ⟨s', hrun.trans hrun', hidle⟩

/-- From every reachable state in which the unmap operation of a core is done, finitely many
steps of its shootdown, each enabled in turn, get the core to idle; physical memory, page table
memory and the phases of all other cores stay as they are. -/
theorem shootdown_completes (c : OSConstants) {s : OSVariables M}
    (hreach : (osMachine c).Reachable s) {core : Core} {ultId vaddr : Nat}
    {result : Except Unit PageTableEntry}
    (hst : s.coreState core = .unmapOpDone ultId vaddr result ∨
      s.coreState core = .unmapShootdownWaiting ultId vaddr result) :
    ∃ steps s', (osMachine c).Run s steps s' ∧ (∀ step ∈ steps, step.CompletesUnmap core) ∧
      s'.coreState core = .idle ∧ s'.hw.mem = s.hw.mem ∧ s'.hw.globalPt = s.hw.globalPt ∧
      ∀ k, k ≠ core → s'.coreStates k = s.coreStates k := by
  have hinv := OsInv.of_reachable hreach
  have hult : (s.coreState core).ultId? = some ultId := by
    rcases hst with hst | hst
    · rw [hst]
      rfl
    · rw [hst]
      rfl
  obtain ⟨hthread, hcore⟩ := hinv.valid_ids core ultId hult
  have hvalid : validCore c.hw core := hcore ▸ hinv.ult_core ultId hthread
  have hcompleted : ∃ s', ShootdownRun c core s s' ∧ s'.coreState core = .idle := by
    rcases hst with hst | hst
    · cases result with
      | error e =>
        have hdone : s.coreState core = .unmapOpDone ultId vaddr (.error ()) ∨
            s.coreState core = .unmapShootdownWaiting ultId vaddr (.error e) ∧
              s.tlbShootdown.openRequests = ∅ := .inl hst
        exact exists_ended hvalid hdone
      | ok pte =>
        obtain ⟨s₁, hrun, hst₁⟩ := exists_initiated hvalid hst
        obtain ⟨s', hrun', hidle⟩ := exists_completed (hrun.reachable hreach) hvalid hst₁
        exact ⟨s', hrun.trans hrun', hidle⟩
    · exact exists_completed hreach hvalid hst
  obtain ⟨s', ⟨steps, hrun, hsteps, hsame⟩, hidle⟩ := hcompleted
  exact ⟨steps, s', hrun, hsteps, hidle, hsame.mem_eq, hsame.globalPt_eq, hsame.others⟩

end Protocol

open ExampleRun in
attribute [local instance] widePhyAddr in
/-- The one core has unmapped a page its own TLB still caches. -/
theorem shootdown_completes_done : ∃ steps s',
    (osMachine c).Run (state BumpMemory.initial cached
      (.unmapOpDone 0 vaddr (.ok smallPage)) noShootdown) steps s' ∧
    (∀ step ∈ steps, step.CompletesUnmap core0) ∧ s'.coreState core0 = .idle ∧
    s'.hw.mem = List.replicate 4096 0 ∧ s'.hw.globalPt = BumpMemory.initial ∧
    ∀ k, k ≠ core0 → s'.coreStates k = (state BumpMemory.initial cached
      (.unmapOpDone 0 vaddr (.ok smallPage)) noShootdown).coreStates k :=
  shootdown_completes c (unmapOpEnd.reachable reachable_executing) (.inl rfl)

end NrKernel.OS
