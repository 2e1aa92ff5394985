import NrKernel.OS.TlbInvariant

/-!
# The domain invariant of the TLBs

`tlb_inv` (`spec_t/os.rs:229–286`) with its quantifiers over valid cores. Its set
`Unmap_vaddr` does not list the addresses of unmaps in the state `UnmapOpExecuting`, so the
invariant says of these, too, that no TLB holds them; it holds in exactly the states in which
that is so.
-/

namespace NrKernel.OS

open Lib PageTable CoreState OSVariables

namespace OSVariables

section Definitions

variable {M : Type} (s : OSVariables M) (c : OSConstants)

/-- `shootdown_cores_valid` (`spec_t/os.rs:231–234`). -/
def ShootdownCoresValid : Prop := ∀ core ∈ s.tlbShootdown.openRequests, validCore c.hw core

/-- `successful_IPI` (`spec_t/os.rs:236–249`), for valid handlers. -/
def SuccessfulIPI : Prop :=
  ∀ dispatcher, validCore c.hw dispatcher →
    match s.coreState dispatcher with
    | .unmapShootdownWaiting _ vaddr _ =>
      ∀ handler, validCore c.hw handler → handler ∉ s.tlbShootdown.openRequests →
        vaddr ∉ (s.hw.tlb handler).dom
    | _ => True

/-- `Unmap_vaddr` (`spec_t/os.rs:251–266`): it leaves out `UnmapOpExecuting`. -/
def unmapVaddr : Set Nat :=
  {vAddress | ∃ core st, s.coreStates core = some st ∧
    match st with
    | .unmapOpDone _ vaddr result | .unmapShootdownWaiting _ vaddr result =>
      (∃ pte, result = .ok pte) ∧ vaddr = vAddress
    | _ => False}

variable [PtMemoryOps M] [PhyAddrWidth]

/-- `TLB_dom_subset_of_pt_and_inflight_unmap_vaddr` (`spec_t/os.rs:268–276`). -/
def TlbDomSubsetOfPtAndInflightUnmapVaddr : Prop :=
  ∀ core, validCore c.hw core → (s.hw.tlb core).dom ⊆ s.interpPtMem.dom ∪ s.unmapVaddr

/-- `tlb_inv` (`spec_t/os.rs:285–289`). -/
structure TlbInv : Prop where
  shootdown_cores_valid : s.ShootdownCoresValid c
  successful_IPI : s.SuccessfulIPI c
  dom_subset : s.TlbDomSubsetOfPtAndInflightUnmapVaddr c

end Definitions

end OSVariables

section Exact

variable {M : Type} [PtMemoryOps M] [PhyAddrWidth] {c : OSConstants} {s s1 s2 : OSVariables M}

/-- No valid core caches an address whose unmap operation is executing. -/
def NoneCachedWhileExecuting (c : OSConstants) (s : OSVariables M) : Prop :=
  ∀ core ultId vaddr pte, s.coreState core = .unmapOpExecuting ultId vaddr (.ok pte) →
    ∀ k, validCore c.hw k → vaddr ∉ (s.hw.tlb k).dom

omit [PtMemoryOps M] [PhyAddrWidth] in
private theorem mem_unmapVaddr {v : Nat} : v ∈ s.unmapVaddr ↔ ∃ core ultId pte,
    s.coreState core = .unmapOpDone ultId v (.ok pte) ∨
      s.coreState core = .unmapShootdownWaiting ultId v (.ok pte) := by
  constructor
  · rintro ⟨core, st, hst, hmatch⟩
    have hcore := coreState_of_eq hst
    cases st with
    | unmapOpDone ultId vaddr result =>
      obtain ⟨⟨pte, rfl⟩, rfl⟩ := hmatch
      exact ⟨core, ultId, pte, .inl hcore⟩
    | unmapShootdownWaiting ultId vaddr result =>
      obtain ⟨⟨pte, rfl⟩, rfl⟩ := hmatch
      exact ⟨core, ultId, pte, .inr hcore⟩
    | _ => exact hmatch.elim
  · rintro ⟨core, ultId, pte, hst⟩
    have hne : s.coreState core ≠ .idle := by
      intro hidle
      rw [hidle] at hst
      rcases hst with hst | hst
      · cases hst
      · cases hst
    refine ⟨core, s.coreState core, coreStates_of_ne_idle hne, ?_⟩
    rcases hst with hst | hst
    · rw [hst]
      exact ⟨⟨pte, rfl⟩, rfl⟩
    · rw [hst]
      exact ⟨⟨pte, rfl⟩, rfl⟩

/-- In a reachable state the invariant holds if and only if no TLB holds the address of an
unmap operation that is executing. -/
theorem tlbInv_iff (hreach : (osMachine c).Reachable s) :
    s.TlbInv c ↔ NoneCachedWhileExecuting c s := by
  have hinv := OsInv.of_reachable hreach
  have htlb := TlbCoherent.of_reachable hreach
  constructor
  · intro h core ultId vaddr pte hst k hk hcached
    have hnone : s.interpPtMem vaddr = none :=
      hinv.unmapped core vaddr (.ok pte) (by rw [hst]; rfl)
    rcases h.dom_subset k hk hcached with hmapped | hlisted
    · exact hmapped hnone
    · -- the listed unmap of the address is another core's
      obtain ⟨core', id, p, hst'⟩ := mem_unmapVaddr.mp hlisted
      have hne : core ≠ core' := by
        rintro rfl
        rw [hst] at hst'
        rcases hst' with hst' | hst'
        · cases hst'
        · cases hst'
      have hv : (s.coreState core).vaddr? = some vaddr := by
        rw [hst]
        rfl
      have hv' : (s.coreState core').vaddr? = some vaddr := by
        rcases hst' with hst' | hst'
        · rw [hst']
          rfl
        · rw [hst']
          rfl
      exact hinv.vaddr_ne hne hv hv' rfl
  · intro h
    refine ⟨htlb.requests_valid, ?_, ?_⟩
    · intro dispatcher _
      cases hst : s.coreState dispatcher with
      | unmapShootdownWaiting ultId vaddr result =>
        intro handler hk hno
        exact (PMap.notMem_dom _ _).mpr
          ((htlb.shootdown dispatcher ultId vaddr result hst).2 handler hk hno)
      | _ => trivial
    · intro k hk base hbase
      obtain ⟨pte, hpte⟩ := (PMap.mem_dom _ _).mp hbase
      rcases htlb.coherent k hk base pte hpte with hpt | ⟨core, hcore⟩
      · exact .inl (PMap.mem_dom_of_eq hpt)
      · right
        rw [mem_unmapVaddr]
        cases hst : s.coreState core with
        | unmapOpExecuting id v r =>
          rw [hst] at hcore
          cases hcore
          exact absurd hbase (h core id base pte hst k hk)
        | unmapOpDone id v r =>
          rw [hst] at hcore
          cases hcore
          exact ⟨core, id, pte, .inl hst⟩
        | unmapShootdownWaiting id v r =>
          rw [hst] at hcore
          cases hcore
          exact ⟨core, id, pte, .inr hst⟩
        | _ =>
          rw [hst] at hcore
          cases hcore

/-! ## Runs in which the invariant holds -/

/-- No valid core caches the address of an unmap operation when it starts. -/
def EvictedBeforeUnmap (c : OSConstants) (s : OSVariables M) (step : OSStep)
    (_ : OSVariables M) : Prop :=
  ∀ core result ultId vaddr, step = .unmapOpStart core result →
    s.coreState core = .unmapWaiting ultId vaddr →
    ∀ k, validCore c.hw k → vaddr ∉ (s.hw.tlb k).dom

/-- An address that nobody caches when its unmap operation starts is not cached while the
operation executes. -/
theorem NoneCachedWhileExecuting.step (hinv : OsInv c s1) (h : NoneCachedWhileExecuting c s1)
    {step : OSStep} (hstep : NextStep c s1 s2 step) (hevicted : EvictedBeforeUnmap c s1 step s2) :
    NoneCachedWhileExecuting c s2 := by
  intro core ultId vaddr pte hst k hk
  rw [PMap.notMem_dom]
  rcases hstep.executing_cases hst with hold | ⟨hwait, r, rfl⟩
  · apply hstep.tlb_eq_none ((PMap.notMem_dom _ _).mp (h core ultId vaddr pte hold k hk))
    exact hinv.unmapped core vaddr (.ok pte) (by rw [hold]; rfl)
  · have hop : Hardware.stepPTMemOp s1.hw s2.hw := hstep.stepPTMemOp fun _ _ heq ↦ by cases heq
    rw [hop.tlb_eq k]
    exact (PMap.notMem_dom _ _).mp (hevicted core r ultId vaddr rfl hwait k hk)

/-- An unmap operation that starts while its address is cached breaks the invariant. -/
theorem not_tlbInv_of_cached (hreach : (osMachine c).Reachable s1) {step : OSStep}
    (hstep : NextStep c s1 s2 step) (hcached : ¬EvictedBeforeUnmap c s1 step s2) :
    ¬s2.TlbInv c := by
  rw [tlbInv_iff (hstep.reachable hreach)]
  intro hnone
  apply hcached
  rintro core result ultId vaddr rfl hwait k hk hdom
  obtain ⟨id, v, hop⟩ := hstep
  have hstate := hop.state
  rw [hwait] at hstate
  cases hstate
  obtain ⟨pte, hpte⟩ := (PMap.mem_dom _ _).mp hdom
  -- a cached address that no core is unmapping yet is mapped
  have hpt : s1.interpPtMem vaddr = some pte := by
    rcases (TlbCoherent.of_reachable hreach).coherent k hk vaddr pte hpte with hpt | ⟨core', hcore'⟩
    · exact hpt
    · have hne : core ≠ core' := by
        rintro rfl
        rw [hwait] at hcore'
        cases hcore'
      have hv : (s1.coreState core).vaddr? = some vaddr := by
        rw [hwait]
        rfl
      have hv' := vaddr?_of_unmapVaddr? (unmapVaddr?_of_unmapped? hcore')
      exact absurd rfl ((OsInv.of_reachable hreach).vaddr_ne hne hv hv')
  have hst : s2.coreState core = .unmapOpExecuting ultId vaddr (.ok pte) := by
    rw [coreState_insert hop.coreStates_eq, hop.unmapResult_of_some hpt]
  apply hnone core ultId vaddr pte hst k hk
  rw [hop.hw.tlb_eq k]
  exact hdom

/-- The invariant holds in every state of every run in which no core caches the address of an
unmap operation when it starts, and fails right after any other unmap operation starts. -/
theorem tlbInv_iff_evictedBeforeUnmap (c : OSConstants) :
    (∀ s : OSVariables M, ((osMachine c).restrict (EvictedBeforeUnmap c)).Reachable s →
      s.TlbInv c) ∧
    ∀ (s1 s2 : OSVariables M) (step : OSStep), (osMachine c).Reachable s1 →
      NextStep c s1 s2 step → ¬EvictedBeforeUnmap c s1 step s2 → ¬s2.TlbInv c := by
  constructor
  · intro s hreach
    rw [tlbInv_iff (.of_restrict hreach)]
    refine (hreach.invariant (I := fun s ↦ OsInv c s ∧ NoneCachedWhileExecuting c s) ?_ ?_).2
    · intro s hinit
      refine ⟨.of_init hinit, fun core ultId vaddr pte hst ↦ ?_⟩
      rw [Init.coreState_eq hinit] at hst
      cases hst
    · intro s1 step s2 h hstep
      have hnext : NextStep c s1 s2 step := hstep.1
      exact ⟨h.1.step hnext, h.2.step h.1 hnext hstep.2⟩
  · exact fun s1 s2 step hreach hstep hcached ↦ not_tlbInv_of_cached hreach hstep hcached

end Exact

attribute [local instance] widePhyAddr in
/-- The invariant fails right after the one core has removed a page from the page table that
its own TLB still caches. -/
theorem not_tlbInv_executing : ¬∀ s : OSVariables BumpMemory,
    (osMachine ExampleRun.c).Reachable s → s.TlbInv ExampleRun.c := by
  intro hall
  have hinv := hall _ ExampleRun.reachable_executing
  have hcore : validCore ExampleRun.c.hw ExampleRun.core0 := (ExampleRun.validCore_iff _).mpr rfl
  have hcached : ExampleRun.vaddr ∈ ExampleRun.cached.dom :=
    PMap.mem_dom_of_eq (PMap.insert_self _ _ _)
  rcases hinv.dom_subset ExampleRun.core0 hcore hcached with hmapped | hlisted
  · apply hmapped
    rw [ExampleRun.view_state, ExampleRun.initial_empty, PMap.empty_apply]
  · obtain ⟨core, st, hst, hmatch⟩ := hlisted
    rcases (PMap.insert_eq_some _ _ _ _ _).mp hst with ⟨_, rfl⟩ | ⟨_, hst⟩
    · exact hmatch
    · cases hst

attribute [local instance] widePhyAddr in
-- The same run without the access that caches the page meets the condition.
private theorem reachable_evicted :
    ((osMachine ExampleRun.c).restrict (EvictedBeforeUnmap ExampleRun.c)).Reachable
      (ExampleRun.state BumpMemory.initial PMap.empty
        (.unmapOpExecuting 0 ExampleRun.vaddr (.ok smallPage)) ExampleRun.noShootdown) := by
  have hstep : ∀ {mem : BumpMemory} {st : CoreState} {t : OSVariables BumpMemory} {step : OSStep},
      NextStep ExampleRun.c (ExampleRun.state mem PMap.empty st ExampleRun.noShootdown) t step →
      ((osMachine ExampleRun.c).restrict (EvictedBeforeUnmap ExampleRun.c)).Reachable
        (ExampleRun.state mem PMap.empty st ExampleRun.noShootdown) →
      ((osMachine ExampleRun.c).restrict (EvictedBeforeUnmap ExampleRun.c)).Reachable t := by
    intro mem st t step hnext hreach
    refine hnext.reachable_restrict ?_ hreach
    intro core result ultId vaddr _ _ k hk
    rw [(ExampleRun.validCore_iff k).mp hk]
    exact fun hdom ↦ hdom rfl
  obtain ⟨m, _, _, _, hm⟩ := exists_mapped
  exact hstep (ExampleRun.unmapOpStart hm) <| hstep ExampleRun.unmapStart <|
    hstep (ExampleRun.mapEnd hm) <| hstep ExampleRun.mapOpStart <| hstep ExampleRun.mapStart <|
    .of_init ExampleRun.init

attribute [local instance] widePhyAddr in
/-- The unmap of a page that no core has cached. -/
theorem tlbInv_iff_evictedBeforeUnmap_executing :
    (ExampleRun.state BumpMemory.initial PMap.empty
      (.unmapOpExecuting 0 ExampleRun.vaddr (.ok smallPage)) ExampleRun.noShootdown).TlbInv
      ExampleRun.c :=
  (tlbInv_iff_evictedBeforeUnmap ExampleRun.c).1 _ reachable_evicted

end NrKernel.OS
