import NrKernel.OS.InFlight

/-!
# Translation lookaside buffers

What the TLBs of the cores hold while others map and unmap: every entry is in the page table,
or is that of an unmap whose shootdown is not over. So an unmap ends when no core can use its
address, which stays so until the address is mapped again.
-/

namespace NrKernel.OS

open Lib PageTable CoreState OSVariables

section Coherence

variable {M : Type} [PtMemoryOps M] [PhyAddrWidth] {c : OSConstants} {s s1 s2 : OSVariables M}

/-- What every reachable OS state satisfies of its TLBs. -/
structure TlbCoherent (c : OSConstants) (s : OSVariables M) : Prop where
  coherent : ∀ k, validCore c.hw k → ∀ base pte, s.hw.tlb k base = some pte →
    s.interpPtMem base = some pte ∨ ∃ core, (s.coreState core).unmapped? = some (base, .ok pte)
  requests_valid : ∀ k ∈ s.tlbShootdown.openRequests, validCore c.hw k
  /-- the shootdown vector is about the unmap that waits, and whoever acknowledged it is rid of
  the address -/
  shootdown : ∀ core ultId vaddr result,
    s.coreState core = .unmapShootdownWaiting ultId vaddr result →
    s.tlbShootdown.vaddr = vaddr ∧
      ∀ k, validCore c.hw k → k ∉ s.tlbShootdown.openRequests → s.hw.tlb k vaddr = none

/-! ## What a step does to TLBs and the shootdown vector -/

omit [PtMemoryOps M] [PhyAddrWidth] in
/-- Page table operations leave the TLBs alone. -/
theorem Hardware.stepPTMemOp.tlb_eq (h : Hardware.stepPTMemOp s1.hw s2.hw) (k : Core) :
    s2.hw.tlb k = s1.hw.tlb k := by
  unfold HWVariables.tlb HWVariables.cores
  rw [h.2]

/-- An entry of a TLB was there before or has just been read from the page table. -/
theorem StepHW.tlb_eq_some {ultId : Nat} {step : HWStep} (h : StepHW c s1 s2 ultId step)
    {k : Core} {base : Nat} {pte : PageTableEntry} (hk : s2.hw.tlb k base = some pte) :
    s1.hw.tlb k base = some pte ∨ s1.interpPtMem base = some pte := by
  have hhw := h.hw
  cases step with
  | readWrite vaddr paddr op e core =>
    refine .inl ?_
    unfold HWVariables.tlb HWVariables.cores at hk ⊢
    rwa [hhw.2.1] at hk
  | ptMemOp => exact absurd rfl h.not_ptMemOp
  | tlbFill vaddr p core =>
    have hfill : Hardware.StepTLBFill c.hw s1.hw s2.hw vaddr p core := hhw
    by_cases hcore : k = core
    · subst hcore
      rw [hfill.tlb_eq] at hk
      rcases (PMap.insert_eq_some _ _ _ _ _).mp hk with ⟨rfl, rfl⟩ | ⟨_, hold⟩
      · exact .inr hfill.mapped
      · exact .inl hold
    · rw [hfill.unchanged.tlb_eq hcore] at hk
      exact .inl hk
  | tlbEvict vaddr core =>
    have hevict : Hardware.StepTLBEvict c.hw s1.hw s2.hw vaddr core := hhw
    by_cases hcore : k = core
    · subst hcore
      rw [hevict.tlb_eq] at hk
      exact .inl ((PMap.remove_eq_some _ _ _ _).mp hk).2
    · rw [hevict.unchanged.tlb_eq hcore] at hk
      exact .inl hk

/-- Every step but those of the hardware is a page table operation, as far as the hardware is
concerned. -/
theorem NextStep.stepPTMemOp {step : OSStep} (hstep : NextStep c s1 s2 step)
    (hhw : ∀ ultId st, step ≠ .hw ultId st) : Hardware.stepPTMemOp s1.hw s2.hw := by
  cases step with
  | hw ultId step => exact absurd rfl (hhw ultId step)
  | mapStart ultId vaddr pte => exact StepMapStart.hw hstep
  | mapOpStart core =>
    obtain ⟨_, _, _, hstep⟩ := hstep
    exact hstep.hw
  | mapEnd core result =>
    obtain ⟨_, _, _, hstep⟩ := hstep
    exact hstep.hw
  | unmapStart ultId vaddr => exact StepUnmapStart.hw hstep
  | unmapOpStart core result =>
    obtain ⟨_, _, hstep⟩ := hstep
    exact hstep.hw
  | unmapOpEnd core =>
    obtain ⟨_, _, _, hstep⟩ := hstep
    exact hstep.hw
  | unmapInitiateShootdown core =>
    obtain ⟨_, _, _, hstep⟩ := hstep
    exact hstep.hw
  | ackShootdownIPI core => exact StepAckShootdownIPI.hw hstep
  | unmapEnd core => exact StepUnmapEnd.hw hstep
  | viewStutter core => exact StepViewStutter.hw hstep

/-- TLBs are filled from the page table only. -/
theorem NextStep.tlb_eq_some {step : OSStep} (hstep : NextStep c s1 s2 step) {k : Core}
    {base : Nat} {pte : PageTableEntry} (hk : s2.hw.tlb k base = some pte) :
    s1.hw.tlb k base = some pte ∨ s1.interpPtMem base = some pte := by
  by_cases hhw : ∃ ultId st, step = .hw ultId st
  · obtain ⟨ultId, st, rfl⟩ := hhw
    exact StepHW.tlb_eq_some hstep hk
  · have hop := hstep.stepPTMemOp fun ultId st heq ↦ hhw ⟨ultId, st, heq⟩
    rw [hop.tlb_eq k] at hk
    exact .inl hk

/-- An address that is neither cached nor mapped is not cached after a step. -/
theorem NextStep.tlb_eq_none {step : OSStep} (hstep : NextStep c s1 s2 step) {k : Core}
    {base : Nat} (htlb : s1.hw.tlb k base = none) (hpt : s1.interpPtMem base = none) :
    s2.hw.tlb k base = none := by
  by_contra hne
  obtain ⟨pte, hpte⟩ := Option.ne_none_iff_exists'.mp hne
  rcases hstep.tlb_eq_some hpte with hold | hold
  · rw [htlb] at hold
    cases hold
  · rw [hpt] at hold
    cases hold

/-- An unmap that changed the page table is in flight until it ends. -/
theorem NextStep.unmapped_stays {step : OSStep} (hstep : NextStep c s1 s2 step) {k : Core}
    {e : Nat × Except Unit PageTableEntry} (hst : (s1.coreState k).unmapped? = some e)
    (hown : step ≠ .unmapEnd k) : (s2.coreState k).unmapped? = some e := by
  rcases hstep.coreState_cases k with heq | hmove
  · rw [heq, hst]
  · generalize s1.coreState k = st1 at hst hmove
    generalize s2.coreState k = st2 at hmove ⊢
    cases hmove with
    | unmapOpEnd => exact hst
    | unmapInitiateShootdown => exact hst
    | unmapEnd _ _ h => exact absurd h hown
    | unmapEndShootdown _ _ _ h => exact absurd h hown
    | _ => cases hst

/-- A core that waits for a shootdown did so before, unless it has just asked for it. -/
theorem NextStep.shootdownWaiting_cases {step : OSStep} (hstep : NextStep c s1 s2 step) {k : Core}
    {ultId vaddr : Nat} {result : Except Unit PageTableEntry}
    (hst : s2.coreState k = .unmapShootdownWaiting ultId vaddr result) :
    s1.coreState k = .unmapShootdownWaiting ultId vaddr result ∨
      ∃ pte, StepUnmapInitiateShootdown c s1 s2 k ultId vaddr pte := by
  rcases hstep.coreState_cases k with heq | hmove
  · exact .inl (heq ▸ hst)
  · rw [hst] at hmove
    generalize hst1 : s1.coreState k = st1 at hmove
    cases hmove with
    | unmapInitiateShootdown _ _ pte h =>
      subst h
      obtain ⟨id, v, p, hinit⟩ := hstep
      have hstate := hinit.state
      rw [hst1] at hstate
      cases hstate
      exact .inr ⟨pte, hinit⟩

/-- A core that executes an unmap operation did so before, unless it has just started. -/
theorem NextStep.executing_cases {step : OSStep} (hstep : NextStep c s1 s2 step) {k : Core}
    {ultId vaddr : Nat} {result : Except Unit PageTableEntry}
    (hst : s2.coreState k = .unmapOpExecuting ultId vaddr result) :
    s1.coreState k = .unmapOpExecuting ultId vaddr result ∨
      s1.coreState k = .unmapWaiting ultId vaddr ∧ ∃ r, step = .unmapOpStart k r := by
  rcases hstep.coreState_cases k with heq | hmove
  · exact .inl (heq ▸ hst)
  · rw [hst] at hmove
    generalize s1.coreState k = st1 at hmove ⊢
    cases hmove with
    | unmapOpStart _ _ r h => exact .inr ⟨rfl, r, h⟩

/-- Steps leave the shootdown vector alone, but for the start of a shootdown and its
acknowledgements. -/
theorem NextStep.shootdown_cases {step : OSStep} (hstep : NextStep c s1 s2 step) :
    s2.tlbShootdown = s1.tlbShootdown ∨
    (∃ core ultId vaddr pte, StepUnmapInitiateShootdown c s1 s2 core ultId vaddr pte) ∨
    ∃ core, StepAckShootdownIPI s1 s2 core := by
  cases step with
  | hw ultId step => exact .inl (StepHW.shootdown_eq hstep)
  | mapStart ultId vaddr pte => exact .inl (StepMapStart.shootdown_eq hstep)
  | mapOpStart core =>
    obtain ⟨_, _, _, hstep⟩ := hstep
    exact .inl hstep.shootdown_eq
  | mapEnd core result =>
    obtain ⟨_, _, _, hstep⟩ := hstep
    exact .inl hstep.shootdown_eq
  | unmapStart ultId vaddr => exact .inl (StepUnmapStart.shootdown_eq hstep)
  | unmapOpStart core result =>
    obtain ⟨_, _, hstep⟩ := hstep
    exact .inl hstep.shootdown_eq
  | unmapOpEnd core =>
    obtain ⟨_, _, _, hstep⟩ := hstep
    exact .inl hstep.shootdown_eq
  | unmapInitiateShootdown core =>
    obtain ⟨ultId, vaddr, pte, hstep⟩ := hstep
    exact .inr (.inl ⟨core, ultId, vaddr, pte, hstep⟩)
  | ackShootdownIPI core => exact .inr (.inr ⟨core, hstep⟩)
  | unmapEnd core => exact .inl (StepUnmapEnd.shootdown_eq hstep)
  | viewStutter core => exact .inl (StepViewStutter.shootdown_eq hstep)

namespace TlbCoherent

/-! ## Preservation -/

private theorem of_init (h : Init c s) : TlbCoherent c s := by
  have htlb : ∀ k, validCore c.hw k → ∀ base, s.hw.tlb k base = none := by
    intro k hk base
    rw [h.hw.tlb_eq hk]
    rfl
  constructor
  · intro k hk base pte hpte
    rw [htlb k hk base] at hpte
    cases hpte
  · intro k hk
    rw [h.no_requests] at hk
    exact hk.elim
  · intro core ultId vaddr result hst
    have hvalid : validCore c.hw core := by
      rw [h.states_dom core, coreStates_of_ne_idle (by rw [hst]; exact CoreState.noConfusion)]
      rfl
    rw [h.states_idle core hvalid] at hst
    cases hst

/-- A mapped entry stays mapped, or is that of an unmap that has just removed it. -/
theorem mapped_step {step : OSStep} (hstep : NextStep c s1 s2 step) {base : Nat}
    {pte : PageTableEntry} (hpt : s1.interpPtMem base = some pte) :
    s2.interpPtMem base = some pte ∨
      ∃ core, (s2.coreState core).unmapped? = some (base, .ok pte) := by
  rcases hstep.view_cases with hview | ⟨core, ultId, vaddr, p, rfl, _, hnone, hview⟩ |
    ⟨core, result, ultId, vaddr, rfl, hop, hview⟩
  · rw [hview]
    exact .inl hpt
  · rw [hview, PMap.insert_of_ne]
    · exact .inl hpt
    · rintro rfl
      rw [hnone] at hpt
      cases hpt
  · by_cases hbase : base = vaddr
    · subst hbase
      refine .inr ⟨core, ?_⟩
      rw [coreState_insert hop.coreStates_eq, unmapped?, hop.unmapResult_of_some hpt]
    · rw [hview, PMap.remove_of_ne _ hbase]
      exact .inl hpt

private theorem coherent_step (h : TlbCoherent c s1) {step : OSStep} (hstep : NextStep c s1 s2 step)
    {k : Core} (hk : validCore c.hw k) {base : Nat} {pte : PageTableEntry}
    (hpte : s2.hw.tlb k base = some pte) :
    s2.interpPtMem base = some pte ∨
      ∃ core, (s2.coreState core).unmapped? = some (base, .ok pte) := by
  have hold : s1.interpPtMem base = some pte ∨
      ∃ core, (s1.coreState core).unmapped? = some (base, .ok pte) := by
    rcases hstep.tlb_eq_some hpte with htlb | hpt
    · exact h.coherent k hk base pte htlb
    · exact .inl hpt
  rcases hold with hpt | ⟨core, hcore⟩
  · exact mapped_step hstep hpt
  · by_cases hown : step = .unmapEnd core
    · -- the unmap is over: its shootdown left the entry in no TLB
      subst hown
      have hend : StepUnmapEnd c s1 s2 core := hstep
      rw [hend.hw.tlb_eq k] at hpte
      obtain ⟨ultId, vaddr, result, ⟨hst, hopen⟩ | ⟨hst, rfl⟩⟩ := hend.state_cases
      · rw [hst] at hcore
        cases hcore
        obtain ⟨_, hgone⟩ := h.shootdown core ultId base _ hst
        rw [hgone k hk (hopen ▸ Set.notMem_empty k)] at hpte
        cases hpte
      · rw [hst] at hcore
        cases hcore
    · exact .inr ⟨core, hstep.unmapped_stays hcore hown⟩

private theorem shootdown_step (hinv : OsInv c s1) (h : TlbCoherent c s1) {step : OSStep}
    (hstep : NextStep c s1 s2 step) {core : Core} {ultId vaddr : Nat}
    {result : Except Unit PageTableEntry}
    (hst : s2.coreState core = .unmapShootdownWaiting ultId vaddr result) :
    s2.tlbShootdown.vaddr = vaddr ∧
      ∀ k, validCore c.hw k → k ∉ s2.tlbShootdown.openRequests → s2.hw.tlb k vaddr = none := by
  rcases hstep.shootdownWaiting_cases hst with hold | ⟨pte, hinit⟩
  · obtain ⟨hvaddr, hgone⟩ := h.shootdown core ultId vaddr result hold
    have hpt : s1.interpPtMem vaddr = none :=
      hinv.unmapped core vaddr result (by rw [hold]; rfl)
    rcases hstep.shootdown_cases with heq | ⟨core', id, v, pte, hinit⟩ | ⟨core', hack⟩
    · rw [heq]
      exact ⟨hvaddr, fun k hk hno ↦ hstep.tlb_eq_none (hgone k hk hno) hpt⟩
    · -- the lock keeps two cores from waiting for a shootdown
      have hcore : core' = core := by
        apply hinv.lock_unique
        · rw [hinit.state]
          rfl
        · rw [hold]
          rfl
      rw [hcore] at hinit
      rw [hinit.state] at hold
      cases hold
    · rw [hack.shootdown_eq]
      refine ⟨hvaddr, fun k hk hno ↦ hstep.tlb_eq_none ?_ hpt⟩
      by_cases hcore : k = core'
      · rw [hcore, ← hvaddr]
        exact (PMap.notMem_dom _ _).mp hack.evicted
      · exact hgone k hk fun hopen ↦ hno ⟨hopen, hcore⟩
  · rw [hinit.shootdown_eq]
    exact ⟨rfl, fun k hk hno ↦ absurd hk hno⟩

private theorem step (hinv : OsInv c s1) (h : TlbCoherent c s1) {step : OSStep}
    (hstep : NextStep c s1 s2 step) : TlbCoherent c s2 := by
  constructor
  · exact fun k hk base pte hpte ↦ h.coherent_step hstep hk hpte
  · intro k hk
    rcases hstep.shootdown_cases with heq | ⟨core, id, v, pte, hinit⟩ | ⟨core, hack⟩
    · rw [heq] at hk
      exact h.requests_valid k hk
    · rw [hinit.shootdown_eq] at hk
      exact hk
    · rw [hack.shootdown_eq] at hk
      exact h.requests_valid k hk.1
  · exact fun core ultId vaddr result hst ↦ h.shootdown_step hinv hstep hst

/-- TLBs are coherent in every reachable state. -/
theorem of_reachable (hreach : (osMachine c).Reachable s) : TlbCoherent c s := by
  refine (hreach.invariant (I := fun s ↦ OsInv c s ∧ TlbCoherent c s) ?_ ?_).2
  · exact fun s hinit ↦ ⟨.of_init hinit, .of_init hinit⟩
  · exact fun s1 step s2 h hstep ↦ ⟨h.1.step hstep, h.2.step h.1 hstep⟩

end TlbCoherent

/-- TLB coherence: in every reachable state every cached entry is in the page table or is that
of an unmap in flight, and never differs from what the page table maps at its address. -/
theorem tlb_coherent (c : OSConstants) {s : OSVariables M} (hreach : (osMachine c).Reachable s)
    (k : Core) (hk : validCore c.hw k) (base : Nat) (pte : PageTableEntry)
    (hpte : s.hw.tlb k base = some pte) :
    (s.interpPtMem base = some pte ∨
      ∃ core ultId, validCore c.hw core ∧
        (s.coreState core = .unmapOpExecuting ultId base (.ok pte) ∨
          s.coreState core = .unmapOpDone ultId base (.ok pte) ∨
          s.coreState core = .unmapShootdownWaiting ultId base (.ok pte))) ∧
      ∀ pte', s.interpPtMem base = some pte' → pte' = pte := by
  have hinv := OsInv.of_reachable hreach
  rcases (TlbCoherent.of_reachable hreach).coherent k hk base pte hpte with hpt | ⟨core, hcore⟩
  · refine ⟨.inl hpt, fun pte' hpt' ↦ ?_⟩
    rw [hpt] at hpt'
    exact (Option.some.inj hpt').symm
  · constructor
    · have hvalid : validCore c.hw core := by
        rw [hinv.states_dom core, coreStates_of_ne_idle]
        · rfl
        · intro hidle
          rw [hidle] at hcore
          cases hcore
      right
      cases hst : s.coreState core with
      | unmapOpExecuting id v r =>
        rw [hst] at hcore
        cases hcore
        exact ⟨core, id, hvalid, .inl hst⟩
      | unmapOpDone id v r =>
        rw [hst] at hcore
        cases hcore
        exact ⟨core, id, hvalid, .inr (.inl hst)⟩
      | unmapShootdownWaiting id v r =>
        rw [hst] at hcore
        cases hcore
        exact ⟨core, id, hvalid, .inr (.inr hst)⟩
      | _ =>
        rw [hst] at hcore
        cases hcore
    · intro pte' hpt'
      rw [hinv.unmapped core base _ hcore] at hpt'
      cases hpt'

end Coherence

attribute [local instance] widePhyAddr in
/-- A cached page that is being unmapped. -/
theorem tlb_coherent_executing :
    let s := ExampleRun.state BumpMemory.initial ExampleRun.cached
      (.unmapOpExecuting 0 ExampleRun.vaddr (.ok smallPage)) ExampleRun.noShootdown
    (s.interpPtMem ExampleRun.vaddr = some smallPage ∨
      ∃ core ultId, validCore ExampleRun.c.hw core ∧
        (s.coreState core = .unmapOpExecuting ultId ExampleRun.vaddr (.ok smallPage) ∨
          s.coreState core = .unmapOpDone ultId ExampleRun.vaddr (.ok smallPage) ∨
          s.coreState core = .unmapShootdownWaiting ultId ExampleRun.vaddr (.ok smallPage))) ∧
      ∀ pte', s.interpPtMem ExampleRun.vaddr = some pte' → pte' = smallPage :=
  tlb_coherent ExampleRun.c ExampleRun.reachable_executing ExampleRun.core0
    ((ExampleRun.validCore_iff _).mpr rfl) ExampleRun.vaddr smallPage rfl

/-! ## No use after unmap -/

section UnmapEnd

variable {M : Type} [PtMemoryOps M] [PhyAddrWidth] {c : OSConstants} {s s1 s2 : OSVariables M}

/-- The step is not the end of a successful map operation for the address. -/
def NotMapsAgain (vaddr : Nat) (s : OSVariables M) (step : OSStep) (_ : OSVariables M) : Prop :=
  ∀ core ultId pte, step = .mapEnd core (.ok ()) →
    s.coreState core ≠ .mapExecuting ultId vaddr pte

/-- An address that is neither mapped nor cached stays so until it is mapped again. -/
theorem unmapped_of_run {vaddr : Nat} {steps : List OSStep} {t : OSVariables M}
    (hpt : s.interpPtMem vaddr = none)
    (htlb : ∀ k, validCore c.hw k → s.hw.tlb k vaddr = none)
    (hrun : ((osMachine c).restrict (NotMapsAgain vaddr)).Run s steps t) :
    t.interpPtMem vaddr = none ∧ ∀ k, validCore c.hw k → t.hw.tlb k vaddr = none := by
  induction hrun with
  | nil => exact ⟨hpt, htlb⟩
  | @cons s r _ step _ hstep _ ih =>
    obtain ⟨hstep, hown⟩ := hstep
    have hstep : NextStep c s r step := hstep
    apply ih _ fun k hk ↦ hstep.tlb_eq_none (htlb k hk) hpt
    rcases hstep.view_cases with hview | ⟨core, ultId, v, pte, rfl, hend, _, hview⟩ |
      ⟨core, result, ultId, v, rfl, hop, hview⟩
    · rw [hview, hpt]
    · rw [hview, PMap.insert_of_ne, hpt]
      rintro rfl
      exact hown core ultId pte rfl hend.state
    · by_contra hne
      obtain ⟨p, hp⟩ := Option.ne_none_iff_exists'.mp hne
      rw [hview] at hp
      rw [((PMap.remove_eq_some _ _ _ _).mp hp).2] at hpt
      cases hpt

/-- No use after unmap: a core that waited for a shootdown can end its unmap only when no core
caches the address, and from then on none does until a map operation maps it again. -/
theorem unmapEnd_no_stale_tlb (c : OSConstants) {s s' : OSVariables M}
    (hreach : (osMachine c).Reachable s) {core : Core} {ultId vaddr : Nat}
    {result : Except Unit PageTableEntry}
    (hst : s.coreState core = .unmapShootdownWaiting ultId vaddr result)
    (hstep : NextStep c s s' (.unmapEnd core)) :
    (∀ k, validCore c.hw k → vaddr ∉ (s.hw.tlb k).dom) ∧
      ∀ steps t, ((osMachine c).restrict (NotMapsAgain vaddr)).Run s' steps t →
        ∀ k, validCore c.hw k → vaddr ∉ (t.hw.tlb k).dom := by
  have hinv := OsInv.of_reachable hreach
  have hend : StepUnmapEnd c s s' core := hstep
  have hopen : s.tlbShootdown.openRequests = ∅ := by
    have hstate := hend.state
    rw [hst] at hstate
    exact hstate
  have htlb : ∀ k, validCore c.hw k → s.hw.tlb k vaddr = none := by
    intro k hk
    apply ((TlbCoherent.of_reachable hreach).shootdown core ultId vaddr result hst).2 k hk
    rw [hopen]
    exact Set.notMem_empty k
  have hpt : s.interpPtMem vaddr = none :=
    hinv.unmapped core vaddr result (by rw [hst]; rfl)
  constructor
  · exact fun k hk ↦ (PMap.notMem_dom _ _).mpr (htlb k hk)
  · intro steps t hrun k hk
    have hpt' : s'.interpPtMem vaddr = none := by
      rw [interpPtMem_of_stutter hend.pt, hpt]
    have htlb' : ∀ k, validCore c.hw k → s'.hw.tlb k vaddr = none := by
      intro k hk
      rw [hend.hw.tlb_eq k, htlb k hk]
    exact (PMap.notMem_dom _ _).mpr ((unmapped_of_run hpt' htlb' hrun).2 k hk)

end UnmapEnd

attribute [local instance] widePhyAddr in
/-- The end of an unmap whose shootdown is acknowledged. -/
theorem unmapEnd_no_stale_tlb_acknowledged :
    let s := ExampleRun.state BumpMemory.initial PMap.empty
      (.unmapShootdownWaiting 0 ExampleRun.vaddr (.ok smallPage)) ExampleRun.acknowledged
    let s' := ExampleRun.state BumpMemory.initial PMap.empty .idle ExampleRun.acknowledged
    (∀ k, validCore ExampleRun.c.hw k → ExampleRun.vaddr ∉ (s.hw.tlb k).dom) ∧
      ∀ steps t,
        ((osMachine ExampleRun.c).restrict (NotMapsAgain ExampleRun.vaddr)).Run s' steps t →
        ∀ k, validCore ExampleRun.c.hw k → ExampleRun.vaddr ∉ (t.hw.tlb k).dom :=
  unmapEnd_no_stale_tlb ExampleRun.c ExampleRun.reachable_acknowledged rfl ExampleRun.unmapEnd

end NrKernel.OS
