import NrKernel.OS.InvariantSteps

/-!
# Operations in flight

`OSVariables::inv` (`spec_t/os.rs:147–334`) in every reachable state: one lock holder, own
threads, no overlap among operations in flight and among mappings. The operations of other
cores therefore never touch the region of an operation in flight, and its outcome is settled
when it starts.
-/

namespace NrKernel.OS

open Lib PageTable CoreState OSVariables

/-! ## The invariant of the source -/

/-- `is_idle` (`spec_t/os.rs:72–74`). -/
def CoreState.isIdle : CoreState → Bool
  | idle => true
  | _ => false

/-- `vmem_pte_size` (`spec_t/os.rs:76–102`); zero for idle cores, where the source leaves it
unspecified. -/
def CoreState.vmemPteSize (pt : Mappings) : CoreState → Nat
  | mapWaiting _ _ pte | mapExecuting _ _ pte => pte.frame.size
  | unmapWaiting _ vaddr => HlSpec.sizeOf? (pt vaddr)
  | unmapOpExecuting _ _ result | unmapOpDone _ _ result | unmapShootdownWaiting _ _ result =>
    HlSpec.sizeOf? result.toOption
  | idle => 0

private theorem CoreState.vmemPteSize_eq (pt : Mappings) (st : CoreState) :
    st.vmemPteSize pt = HlSpec.sizeOf? (st.inflightPte pt) := by
  cases st with
  | _ => rfl

namespace OSVariables

section Inv

variable {M : Type} (s : OSVariables M) (c : OSConstants)

/-- `valid_ids` (`spec_t/os.rs:149–163`). -/
def ValidIds : Prop :=
  ∀ core, validCore c.hw core →
    match s.coreState core with
    | .mapWaiting ultId _ _ | .mapExecuting ultId _ _ | .unmapWaiting ultId _
    | .unmapOpExecuting ultId _ _ | .unmapOpDone ultId _ _ | .unmapShootdownWaiting ultId _ _ =>
      c.validUlt ultId ∧ c.ultCore ultId = core
    | .idle => True

/-- `wf` (`spec_t/os.rs:200–210`). -/
structure Wf : Prop where
  ult_dom : ∀ id, c.validUlt id ↔ (c.ult2core id).isSome
  ult_core : ∀ id, c.validUlt id → validCore c.hw (c.ultCore id)
  states_dom : ∀ core, validCore c.hw core ↔ (s.coreStates core).isSome
  lock_unique : ∀ core1 core2, validCore c.hw core1 → (s.coreState core1).holdsLock = true →
    validCore c.hw core2 → (s.coreState core2).holdsLock = true → core1 = core2

variable [PtMemoryOps M] [PhyAddrWidth]

/-- `successful_unmaps` (`spec_t/os.rs:186–198`). -/
def SuccessfulUnmaps : Prop :=
  ∀ core, validCore c.hw core →
    match s.coreState core with
    | .unmapOpExecuting _ vaddr _ | .unmapOpDone _ vaddr _ | .unmapShootdownWaiting _ vaddr _ =>
      vaddr ∉ s.interpPtMem.dom
    | _ => True

/-- `basic_inv` (`spec_t/os.rs:212–219`). -/
structure BasicInv : Prop where
  wf : s.Wf c
  valid_ids : s.ValidIds c
  successful_unmaps : s.SuccessfulUnmaps c

/-- `inflight_map_no_overlap_inflight_vmem` (`spec_t/os.rs:303–316`). -/
def InflightMapNoOverlapInflightVmem : Prop :=
  ∀ core1 core2 vaddr1 vaddr2, validCore c.hw core1 → validCore c.hw core2 →
    (s.coreState core1).isIdle = false → (s.coreState core2).isIdle = false →
    (s.coreState core1).vaddr? = some vaddr1 → (s.coreState core2).vaddr? = some vaddr2 →
    overlap ⟨vaddr1, (s.coreState core1).vmemPteSize s.interpPtMem⟩
      ⟨vaddr2, (s.coreState core2).vmemPteSize s.interpPtMem⟩ → core1 = core2

/-- `existing_map_no_overlap_existing_vmem` (`spec_t/os.rs:318–326`). -/
def ExistingMapNoOverlapExistingVmem : Prop :=
  ∀ vaddr pte, s.interpPtMem vaddr = some pte →
    ¬candidateMappingOverlapsExistingVmem (s.interpPtMem.remove vaddr) vaddr pte

/-- `overlapping_vmem_inv` (`spec_t/os.rs:328–333`). -/
def OverlappingVmemInv : Prop :=
  s.sound = true →
    s.InflightMapNoOverlapInflightVmem c ∧ s.ExistingMapNoOverlapExistingVmem

/-- `inv` (`spec_t/os.rs:221–226`). -/
structure Inv : Prop where
  basic_inv : s.BasicInv c
  overlapping_vmem_inv : s.OverlappingVmemInv c

end Inv

end OSVariables

section Preserved

variable {M : Type} [PtMemoryOps M] [PhyAddrWidth] {c : OSConstants} {s s1 s2 : OSVariables M}

namespace OsInv

/-- Every entry of the page table is a mapping that the process sees, or held by a request to
unmap it. -/
theorem exists_holder (h : OsInv c s) {vaddr : Nat} {pte : PageTableEntry}
    (hpt : s.interpPtMem vaddr = some pte) :
    ∃ o, holdings AbstractArguments.removed? s.effectiveMappings (s.interpThreadState c) o =
      some (vaddr, pte) := by
  by_cases hu : s.Unmapping vaddr
  · obtain ⟨k, st, hk, hv⟩ := hu
    obtain ⟨ultId, hult⟩ := ultId?_of_vaddr? (vaddr?_of_unmapVaddr? hv)
    rw [← coreState_of_eq hk] at hv hult
    refine ⟨.thread ultId, ?_⟩
    rw [holdings_thread (h.interpThreadState_core hult)]
    cases hst : s.coreState k with
    | unmapWaiting id v =>
      rw [hst] at hv
      cases hv
      rw [arguments, hpt]
      rfl
    | idle =>
      rw [hst] at hv
      cases hv
    | mapWaiting =>
      rw [hst] at hv
      cases hv
    | mapExecuting =>
      rw [hst] at hv
      cases hv
    | _ =>
      -- these have removed the entry
      rw [hst] at hv
      cases hv
      rw [h.unmapped k vaddr _ (by rw [hst]; rfl)] at hpt
      cases hpt
  · exact ⟨.mapping vaddr,
      holdings_mapping ((effectiveMappings_of_not_unmapping hu).trans hpt)⟩

private theorem vmem_unique (h : OsInv c s) {b₁ b₂ : Nat} {p₁ p₂ : PageTableEntry}
    (h₁ : s.interpPtMem b₁ = some p₁) (h₂ : s.interpPtMem b₂ = some p₂)
    (hov : overlap ⟨b₁, p₁.frame.size⟩ ⟨b₂, p₂.frame.size⟩) : b₁ = b₂ := by
  obtain ⟨o₁, ho₁⟩ := h.exists_holder h₁
  obtain ⟨o₂, ho₂⟩ := h.exists_holder h₂
  have heq : o₁ = o₂ := h.separated.installed.holder_unique ho₁ ho₂ hov
  rw [heq, ho₂] at ho₁
  exact congrArg Prod.fst (Option.some.inj ho₁).symm

private theorem inv (h : OsInv c s) : s.Inv c := by
  refine ⟨⟨⟨h.ult_dom, h.ult_core, h.states_dom, ?_⟩, ?_, ?_⟩, fun _ ↦ ⟨?_, ?_⟩⟩
  · exact fun k₁ k₂ _ h₁ _ h₂ ↦ h.lock_unique k₁ k₂ h₁ h₂
  · intro core _
    cases hst : s.coreState core with
    | idle => trivial
    | _ => exact h.valid_ids core _ (by rw [hst]; rfl)
  · intro core _
    cases hst : s.coreState core with
    | unmapOpExecuting =>
      exact (PMap.notMem_dom _ _).mpr (h.unmapped core _ _ (by rw [hst]; rfl))
    | unmapOpDone =>
      exact (PMap.notMem_dom _ _).mpr (h.unmapped core _ _ (by rw [hst]; rfl))
    | unmapShootdownWaiting =>
      exact (PMap.notMem_dom _ _).mpr (h.unmapped core _ _ (by rw [hst]; rfl))
    | _ => trivial
  · intro core1 core2 vaddr1 vaddr2 _ _ _ _ hv1 hv2 hov
    by_contra hne
    rw [vmemPteSize_eq, vmemPteSize_eq] at hov
    exact h.not_overlap hne hv1 hv2 hov
  · rintro vaddr pte hpt ⟨b, p, hb, hov⟩
    obtain ⟨hne, hb⟩ := (PMap.remove_eq_some _ _ _ _).mp hb
    exact hne (h.vmem_unique hpt hb hov).symm

end OsInv

/-- The invariant of the OS holds in every reachable state, for any number of cores. -/
theorem osMachine_keeps_inv (c : OSConstants) {s : OSVariables M}
    (hreach : (osMachine c).Reachable s) : s.Inv c :=
  (OsInv.of_reachable hreach).inv

end Preserved

attribute [local instance] widePhyAddr in
/-- One core executes its map while the other one waits to map something else. -/
theorem osMachine_keeps_inv_twoCores :
    (TwoCores.state BumpMemory.initial (.mapExecuting 0 TwoCores.vaddr smallPage)
      (.mapWaiting 1 TwoCores.otherVaddr TwoCores.otherPage)).Inv TwoCores.c := by
  have hinit := BumpMemory.initial_init
  have hpages : 3 ≤ PtMemory.allocAvailablePages BumpMemory.initial := by decide
  exact osMachine_keeps_inv TwoCores.c <| (TwoCores.mapOpStart0 rfl).reachable <|
    (TwoCores.second_checked hinit hpages).reachable <|
    (TwoCores.first_checked hinit hpages).reachable <| .of_init (TwoCores.init hinit)

/-! ## What the other cores leave alone -/

section Outcome

variable {M : Type} [PtMemoryOps M] [PhyAddrWidth] {c : OSConstants} {s s1 s2 : OSVariables M}

/-- A step leaves the view of the page table as it is, unless it ends a map operation that
adds its entry, or starts an unmap operation. -/
theorem NextStep.view_cases {step : OSStep} (hstep : NextStep c s1 s2 step) :
    s2.interpPtMem = s1.interpPtMem ∨
    (∃ core ultId vaddr pte, step = .mapEnd core (.ok ()) ∧
      StepMapEnd c s1 s2 core (.ok ()) ultId vaddr pte ∧
      s1.interpPtMem vaddr = none ∧
      s2.interpPtMem = s1.interpPtMem.insert vaddr pte) ∨
    ∃ core result ultId vaddr, step = .unmapOpStart core result ∧
      StepUnmapOpStart c s1 s2 core result ultId vaddr ∧
      s2.interpPtMem = s1.interpPtMem.remove vaddr := by
  cases step with
  | hw ultId step => exact .inl (interpPtMem_of_stutter (StepHW.pt hstep))
  | mapStart ultId vaddr pte => exact .inl (interpPtMem_of_stutter (StepMapStart.pt hstep))
  | mapOpStart core =>
    obtain ⟨_, _, _, hstep⟩ := hstep
    exact .inl (interpPtMem_of_stepMapStart hstep.pt)
  | mapEnd core result =>
    obtain ⟨ultId, vaddr, pte, hstep⟩ := hstep
    rcases hstep.view_cases with ⟨_, _, hview⟩ | ⟨hov, rfl, hview⟩
    · exact .inl hview
    · refine .inr (.inl ⟨core, ultId, vaddr, pte, rfl, hstep, ?_, hview⟩)
      by_contra hne
      obtain ⟨p, hp⟩ := Option.ne_none_iff_exists'.mp hne
      exact hov ⟨vaddr, p, hp, overlap_of_base_eq rfl⟩
  | unmapStart ultId vaddr => exact .inl (interpPtMem_of_stutter (StepUnmapStart.pt hstep))
  | unmapOpStart core result =>
    obtain ⟨ultId, vaddr, hstep⟩ := hstep
    exact .inr (.inr ⟨core, result, ultId, vaddr, rfl, hstep, hstep.view_eq⟩)
  | unmapOpEnd core =>
    obtain ⟨_, _, _, hstep⟩ := hstep
    exact .inl (interpPtMem_of_stepUnmapEnd hstep.pt)
  | unmapInitiateShootdown core =>
    obtain ⟨_, _, _, hstep⟩ := hstep
    exact .inl (interpPtMem_of_stutter hstep.pt)
  | ackShootdownIPI core => exact .inl (interpPtMem_of_stutter (StepAckShootdownIPI.pt hstep))
  | unmapEnd core => exact .inl (interpPtMem_of_stutter (StepUnmapEnd.pt hstep))
  | viewStutter core => exact .inl (interpPtMem_of_viewStutter (StepViewStutter.pt hstep))

/-- How a step moves a core from one state to the next, with the view of the page table
before. -/
inductive CoreMove (pt : Mappings) (step : OSStep) (k : Core) : CoreState → CoreState → Prop
  | mapStart (ultId vaddr : Nat) (pte : PageTableEntry) :
      CoreMove pt step k .idle (.mapWaiting ultId vaddr pte)
  | mapOpStart (ultId vaddr : Nat) (pte : PageTableEntry) :
      CoreMove pt step k (.mapWaiting ultId vaddr pte) (.mapExecuting ultId vaddr pte)
  | mapEnd (ultId vaddr : Nat) (pte : PageTableEntry) (result : Except Unit Unit)
      (h : step = .mapEnd k result) : CoreMove pt step k (.mapExecuting ultId vaddr pte) .idle
  | unmapStart (ultId vaddr : Nat) : CoreMove pt step k .idle (.unmapWaiting ultId vaddr)
  | unmapOpStart (ultId vaddr : Nat) (result : Except Unit Unit)
      (h : step = .unmapOpStart k result) :
      CoreMove pt step k (.unmapWaiting ultId vaddr)
        (.unmapOpExecuting ultId vaddr (unmapResult pt vaddr result))
  | unmapOpEnd (ultId vaddr : Nat) (result : Except Unit PageTableEntry) :
      CoreMove pt step k (.unmapOpExecuting ultId vaddr result)
        (.unmapOpDone ultId vaddr result)
  | unmapInitiateShootdown (ultId vaddr : Nat) (pte : PageTableEntry)
      (h : step = .unmapInitiateShootdown k) :
      CoreMove pt step k (.unmapOpDone ultId vaddr (.ok pte))
        (.unmapShootdownWaiting ultId vaddr (.ok pte))
  | unmapEnd (ultId vaddr : Nat) (h : step = .unmapEnd k) :
      CoreMove pt step k (.unmapOpDone ultId vaddr (.error ())) .idle
  | unmapEndShootdown (ultId vaddr : Nat) (result : Except Unit PageTableEntry)
      (h : step = .unmapEnd k) :
      CoreMove pt step k (.unmapShootdownWaiting ultId vaddr result) .idle

/-- A step leaves a core in its state or moves it. -/
theorem NextStep.coreState_cases {step : OSStep} (hstep : NextStep c s1 s2 step) (k : Core) :
    s2.coreState k = s1.coreState k ∨
      CoreMove s1.interpPtMem step k (s1.coreState k) (s2.coreState k) := by
  have hinsert : ∀ {core : Core} {st : CoreState},
      s2.coreStates = s1.coreStates.insert core st →
      (k = core → CoreMove s1.interpPtMem step k (s1.coreState k) st) →
      s2.coreState k = s1.coreState k ∨
        CoreMove s1.interpPtMem step k (s1.coreState k) (s2.coreState k) := by
    intro core st hstates hmove
    by_cases hk : k = core
    · have hst : s2.coreState k = st := hk ▸ coreState_insert hstates
      exact .inr (hst ▸ hmove hk)
    · exact .inl (coreState_insert_of_ne hstates hk)
  have hsame : s2.coreStates = s1.coreStates → s2.coreState k = s1.coreState k := by
    intro hstates
    rw [coreState, hstates, coreState]
  cases step with
  | hw ultId step => exact .inl (hsame (StepHW.coreStates_eq hstep))
  | mapStart ultId vaddr pte =>
    refine hinsert (StepMapStart.coreStates_eq hstep) fun hk ↦ ?_
    rw [hk, StepMapStart.idle hstep]
    exact .mapStart ultId vaddr pte
  | mapOpStart core =>
    obtain ⟨ultId, vaddr, pte, hstep⟩ := hstep
    refine hinsert hstep.coreStates_eq fun hk ↦ ?_
    rw [hk, hstep.state]
    exact .mapOpStart ultId vaddr pte
  | mapEnd core result =>
    obtain ⟨ultId, vaddr, pte, hstep⟩ := hstep
    refine hinsert hstep.coreStates_eq fun hk ↦ ?_
    rw [hk, hstep.state]
    exact .mapEnd ultId vaddr pte result rfl
  | unmapStart ultId vaddr =>
    refine hinsert (StepUnmapStart.coreStates_eq hstep) fun hk ↦ ?_
    rw [hk, StepUnmapStart.idle hstep]
    exact .unmapStart ultId vaddr
  | unmapOpStart core result =>
    obtain ⟨ultId, vaddr, hstep⟩ := hstep
    refine hinsert hstep.coreStates_eq fun hk ↦ ?_
    rw [hk, hstep.state]
    exact .unmapOpStart ultId vaddr result rfl
  | unmapOpEnd core =>
    obtain ⟨ultId, vaddr, result, hstep⟩ := hstep
    refine hinsert hstep.coreStates_eq fun hk ↦ ?_
    rw [hk, hstep.state]
    exact .unmapOpEnd ultId vaddr result
  | unmapInitiateShootdown core =>
    obtain ⟨ultId, vaddr, pte, hstep⟩ := hstep
    refine hinsert hstep.coreStates_eq fun hk ↦ ?_
    rw [hk, hstep.state]
    exact .unmapInitiateShootdown ultId vaddr pte rfl
  | ackShootdownIPI core => exact .inl (hsame (StepAckShootdownIPI.coreStates_eq hstep))
  | unmapEnd core =>
    refine hinsert (StepUnmapEnd.coreStates_eq hstep) fun hk ↦ ?_
    obtain ⟨ultId, vaddr, result, ⟨hst, _⟩ | ⟨hst, rfl⟩⟩ := StepUnmapEnd.state_cases hstep
    · rw [hk, hst]
      exact .unmapEndShootdown ultId vaddr result rfl
    · rw [hk, hst]
      exact .unmapEnd ultId vaddr rfl
  | viewStutter core => exact .inl (hsame (StepViewStutter.coreStates_eq hstep))

/-- A waiting unmap waits until its own operation starts. -/
theorem NextStep.unmapWaiting_stays {step : OSStep} (hstep : NextStep c s1 s2 step) {k : Core}
    {ultId vaddr : Nat} (hst : s1.coreState k = .unmapWaiting ultId vaddr)
    (hown : ∀ result, step ≠ .unmapOpStart k result) :
    s2.coreState k = .unmapWaiting ultId vaddr := by
  rcases hstep.coreState_cases k with heq | hmove
  · rw [heq, hst]
  · rw [hst] at hmove
    generalize s2.coreState k = st at hmove ⊢
    cases hmove with
    | unmapOpStart _ _ result h => exact absurd h (hown result)

/-- The thread, address and entry of a map operation in flight. -/
def CoreState.mapRequest? : CoreState → Option (Nat × Nat × PageTableEntry)
  | mapWaiting ultId vaddr pte | mapExecuting ultId vaddr pte => some (ultId, vaddr, pte)
  | _ => none

/-- A map operation is in flight until it ends. -/
theorem NextStep.mapRequest_stays {step : OSStep} (hstep : NextStep c s1 s2 step) {k : Core}
    {e : Nat × Nat × PageTableEntry} (hst : (s1.coreState k).mapRequest? = some e)
    (hown : ∀ result, step ≠ .mapEnd k result) : (s2.coreState k).mapRequest? = some e := by
  rcases hstep.coreState_cases k with heq | hmove
  · rw [heq, hst]
  · generalize s1.coreState k = st1 at hst hmove
    generalize s2.coreState k = st2 at hmove ⊢
    cases hmove with
    | mapOpStart => exact hst
    | mapEnd _ _ _ result h => exact absurd h (hown result)
    | _ => cases hst

/-- The other cores leave the page table alone at the address of an operation in flight. -/
theorem OsInv.view_of_other (h : OsInv c s1) {step : OSStep} (hstep : NextStep c s1 s2 step)
    {k : Core} {vaddr : Nat} (hv : (s1.coreState k).vaddr? = some vaddr)
    (hmap : ∀ result, step ≠ .mapEnd k result) (hunmap : ∀ result, step ≠ .unmapOpStart k result) :
    s2.interpPtMem vaddr = s1.interpPtMem vaddr := by
  rcases hstep.view_cases with hview | ⟨core, ultId, v, pte, rfl, hend, _, hview⟩ |
    ⟨core, result, ultId, v, rfl, hop, hview⟩
  · rw [hview]
  · have hne : k ≠ core := by
      rintro rfl
      exact hmap _ rfl
    rw [hview, PMap.insert_of_ne]
    apply h.vaddr_ne hne hv
    rw [hend.state]
    rfl
  · have hne : k ≠ core := by
      rintro rfl
      exact hunmap _ rfl
    rw [hview, PMap.remove_of_ne]
    apply h.vaddr_ne hne hv
    rw [hop.state]
    rfl

/-- The other cores neither add nor remove mappings that overlap a map operation in flight. -/
theorem OsInv.overlaps_of_other (h : OsInv c s1) {step : OSStep} (hstep : NextStep c s1 s2 step)
    {k : Core} {ultId vaddr : Nat} {pte : PageTableEntry}
    (hreq : (s1.coreState k).mapRequest? = some (ultId, vaddr, pte))
    (hown : ∀ result, step ≠ .mapEnd k result) :
    candidateMappingOverlapsExistingVmem s2.interpPtMem vaddr pte ↔
      candidateMappingOverlapsExistingVmem s1.interpPtMem vaddr pte := by
  have hv : (s1.coreState k).vaddr? = some vaddr ∧
      HlSpec.sizeOf? ((s1.coreState k).inflightPte s1.interpPtMem) = pte.frame.size := by
    cases hst : s1.coreState k with
    | mapWaiting =>
      rw [hst] at hreq
      cases hreq
      exact ⟨rfl, rfl⟩
    | mapExecuting =>
      rw [hst] at hreq
      cases hreq
      exact ⟨rfl, rfl⟩
    | _ =>
      rw [hst] at hreq
      cases hreq
  rcases hstep.view_cases with hview | ⟨core, id, v, p, rfl, hend, hnone, hview⟩ |
    ⟨core, result, id, v, rfl, hop, hview⟩
  · rw [hview]
  · -- the entry that was added is where another operation was in flight
    have hne : k ≠ core := by
      rintro rfl
      exact hown _ rfl
    have hv' : (s1.coreState core).vaddr? = some v := by
      rw [hend.state]
      rfl
    have hno := h.not_overlap hne hv.1 hv'
    rw [hv.2, hend.state] at hno
    rw [hview]
    constructor
    · rintro ⟨b, q, hb, hov⟩
      rcases (PMap.insert_eq_some _ _ _ _ _).mp hb with ⟨rfl, rfl⟩ | ⟨_, hb⟩
      · exact absurd hov hno
      · exact ⟨b, q, hb, hov⟩
    · rintro ⟨b, q, hb, hov⟩
      refine ⟨b, q, (PMap.insert_eq_some _ _ _ _ _).mpr (.inr ⟨?_, hb⟩), hov⟩
      rintro rfl
      rw [hnone] at hb
      cases hb
  · -- so is the one that was removed
    have hne : k ≠ core := by
      rintro rfl
      rw [hop.state] at hreq
      cases hreq
    have hv' : (s1.coreState core).vaddr? = some v := by
      rw [hop.state]
      rfl
    have hno := h.not_overlap hne hv.1 hv'
    rw [hv.2, hop.state, inflightPte] at hno
    rw [hview]
    constructor
    · rintro ⟨b, q, hb, hov⟩
      exact ⟨b, q, ((PMap.remove_eq_some _ _ _ _).mp hb).2, hov⟩
    · rintro ⟨b, q, hb, hov⟩
      refine ⟨b, q, (PMap.remove_eq_some _ _ _ _).mpr ⟨?_, hb⟩, hov⟩
      rintro rfl
      rw [hb] at hno
      exact hno hov

/-! ## The outcome is settled at the start -/

/-- No step is the unmap operation of the core. -/
def NotUnmapOpStart (core : Core) (_ : OSVariables M) (step : OSStep) (_ : OSVariables M) : Prop :=
  ∀ result, step ≠ .unmapOpStart core result

/-- No step ends the map operation of the core. -/
def NotMapEnd (core : Core) (_ : OSVariables M) (step : OSStep) (_ : OSVariables M) : Prop :=
  ∀ result, step ≠ .mapEnd core result

/-- While a core waits to unmap an address, its lookup stays the same. -/
theorem lookup_of_run {core : Core} {ultId vaddr : Nat} {steps : List OSStep}
    (h : OsInv c s1) (hst : s1.coreState core = .unmapWaiting ultId vaddr)
    (hrun : ((osMachine c).restrict (NotUnmapOpStart core)).Run s1 steps s2) :
    s2.coreState core = .unmapWaiting ultId vaddr ∧
      s2.interpPtMem vaddr = s1.interpPtMem vaddr := by
  induction hrun with
  | nil => exact ⟨hst, rfl⟩
  | @cons s1 t _ step _ hstep _ ih =>
    obtain ⟨hstep, hown⟩ := hstep
    have hstep : NextStep c s1 t step := hstep
    have hmap : ∀ result, step ≠ .mapEnd core result := by
      rintro result rfl
      obtain ⟨_, _, _, hend⟩ := hstep
      rw [hend.state] at hst
      cases hst
    obtain ⟨hst', hview⟩ := ih (h.step hstep) (hstep.unmapWaiting_stays hst hown)
    refine ⟨hst', hview.trans ?_⟩
    apply h.view_of_other hstep _ hmap hown
    rw [hst]
    rfl

/-- While a core maps, its region overlaps a mapping all the time or never. -/
theorem overlaps_of_run {core : Core} {ultId vaddr : Nat} {pte : PageTableEntry}
    {steps : List OSStep} (h : OsInv c s1)
    (hst : (s1.coreState core).mapRequest? = some (ultId, vaddr, pte))
    (hrun : ((osMachine c).restrict (NotMapEnd core)).Run s1 steps s2) :
    (s2.coreState core).mapRequest? = some (ultId, vaddr, pte) ∧
      (candidateMappingOverlapsExistingVmem s2.interpPtMem vaddr pte ↔
        candidateMappingOverlapsExistingVmem s1.interpPtMem vaddr pte) := by
  induction hrun with
  | nil => exact ⟨hst, Iff.rfl⟩
  | @cons s1 t _ step _ hstep _ ih =>
    obtain ⟨hstep, hown⟩ := hstep
    have hstep : NextStep c s1 t step := hstep
    obtain ⟨hst', hov⟩ := ih (h.step hstep) (hstep.mapRequest_stays hst hown)
    exact ⟨hst', hov.trans (h.overlaps_of_other hstep hst hown)⟩

/-- The outcome of an operation is settled when it starts. From the start of an unmap to its
operation on the page table the lookup of its address stays the same, and the operation
succeeds if and only if something was mapped at the start; from the start of a map to its end
its region overlaps a mapping all the time or never, and the operation fails if and only if
it overlapped one at the start. -/
theorem outcome_fixed_at_start (c : OSConstants) {s s' t : OSVariables M}
    (hreach : (osMachine c).Reachable s) (ultId vaddr : Nat) (steps : List OSStep) :
    (NextStep c s s' (.unmapStart ultId vaddr) →
      ((osMachine c).restrict (NotUnmapOpStart (c.ultCore ultId))).Run s' steps t →
      t.interpPtMem vaddr = s.interpPtMem vaddr ∧
        ∀ result t', NextStep c t t' (.unmapOpStart (c.ultCore ultId) result) →
          result = if (s.interpPtMem vaddr).isSome then .ok () else .error ()) ∧
    ∀ pte, NextStep c s s' (.mapStart ultId vaddr pte) →
      ((osMachine c).restrict (NotMapEnd (c.ultCore ultId))).Run s' steps t →
      (candidateMappingOverlapsExistingVmem t.interpPtMem vaddr pte ↔
        candidateMappingOverlapsExistingVmem s.interpPtMem vaddr pte) ∧
      ∀ result t', NextStep c t t' (.mapEnd (c.ultCore ultId) result) →
        (result = .error () ↔ candidateMappingOverlapsExistingVmem s.interpPtMem vaddr pte) := by
  have h := OsInv.of_reachable hreach
  constructor
  · intro hstart hrun
    have hstart : StepUnmapStart c s s' ultId vaddr := hstart
    have hst := coreState_insert hstart.coreStates_eq
    obtain ⟨hst', hview⟩ := lookup_of_run (hstart.osInv h) hst hrun
    have hlookup := hview.trans (congrFun (interpPtMem_of_stutter hstart.pt) vaddr)
    refine ⟨hlookup, ?_⟩
    rintro result t' ⟨id, v, hop⟩
    have hstate := hop.state
    rw [hst'] at hstate
    cases hstate
    rw [← hlookup]
    exact hop.result_eq
  · intro pte hstart hrun
    have hstart : StepMapStart c s s' ultId vaddr pte := hstart
    have hst : (s'.coreState (c.ultCore ultId)).mapRequest? = some (ultId, vaddr, pte) := by
      rw [coreState_insert hstart.coreStates_eq]
      rfl
    obtain ⟨hst', hov⟩ := overlaps_of_run (hstart.osInv h) hst hrun
    rw [interpPtMem_of_stutter hstart.pt] at hov
    refine ⟨hov, ?_⟩
    rintro result t' ⟨id, v, p, hend⟩
    rw [hend.state] at hst'
    cases hst'
    rw [← hov]
    rcases hend.view_cases with ⟨hyes, hresult, _⟩ | ⟨hno, hresult, _⟩
    · exact iff_of_true hresult hyes
    · rw [hresult]
      exact iff_of_false (fun hbad ↦ by cases hbad) hno

end Outcome

attribute [local instance] widePhyAddr in
/-- Two cores at a time: the first one maps its page while the second one waits to map another
one, and asks to unmap it again before the second one's map is executed. -/
theorem outcome_fixed_at_start_twoCores : ∃ m m' : BumpMemory,
    (∀ result t', NextStep TwoCores.c
      (TwoCores.state m .idle (.mapExecuting 1 TwoCores.otherVaddr TwoCores.otherPage)) t'
      (.mapEnd TwoCores.core1 result) → result ≠ .error ()) ∧
    (TwoCores.state m' (.unmapWaiting 0 TwoCores.vaddr) .idle).interpPtMem TwoCores.vaddr =
      some smallPage ∧
    ∀ result t', NextStep TwoCores.c
      (TwoCores.state m' (.unmapWaiting 0 TwoCores.vaddr) .idle) t'
      (.unmapOpStart TwoCores.core0 result) → result = .ok () := by
  have hinit := BumpMemory.initial_init
  have hpages : 3 ≤ PtMemory.allocAvailablePages BumpMemory.initial := by decide
  obtain ⟨m, m', hm, _, hother⟩ := TwoCores.exists_both_mapped
  have hfirst : (osMachine TwoCores.c).Reachable
      (TwoCores.state BumpMemory.initial (.mapWaiting 0 TwoCores.vaddr smallPage) .idle) :=
    (TwoCores.first_checked hinit hpages).reachable (.of_init (TwoCores.init hinit))
  have hsecond := TwoCores.second_checked hinit hpages
  have hmapped := TwoCores.first_mapped hinit hm
  have hwaiting := hmapped.reachable <| (TwoCores.mapOpStart0 rfl).reachable <|
    hsecond.reachable hfirst
  have hcores : TwoCores.core0 ≠ TwoCores.c.ultCore 1 := by decide
  have hmap := (outcome_fixed_at_start TwoCores.c hfirst 1 TwoCores.otherVaddr
    [.mapOpStart TwoCores.core0, .mapEnd TwoCores.core0 (.ok ()), .mapOpStart TwoCores.core1]).2
    TwoCores.otherPage hsecond (.cons ⟨TwoCores.mapOpStart0 rfl, nofun⟩
      (.cons ⟨hmapped, fun _ h ↦ hcores (OSStep.mapEnd.inj h).1⟩
        (.single ⟨TwoCores.mapOpStart1 rfl, nofun⟩)))
  have hunmap := (outcome_fixed_at_start TwoCores.c hwaiting 0 TwoCores.vaddr
    [.mapOpStart TwoCores.core1, .mapEnd TwoCores.core1 (.ok ())]).1 (TwoCores.unmapStart0 hm)
    (.cons ⟨TwoCores.mapOpStart1 rfl, nofun⟩ (.single ⟨TwoCores.mapEnd1 hother, nofun⟩))
  have hlookup : (TwoCores.state m .idle
      (.mapWaiting 1 TwoCores.otherVaddr TwoCores.otherPage)).interpPtMem TwoCores.vaddr =
      some smallPage := by
    show PageTable.interpPtMem m TwoCores.vaddr = some smallPage
    rw [hm, PMap.insert_self]
  have hempty : (TwoCores.state BumpMemory.initial (.mapWaiting 0 TwoCores.vaddr smallPage)
      .idle).interpPtMem = PMap.empty := SpecPt.Init.interp_eq hinit
  rw [hlookup, Option.isSome_some, if_pos rfl] at hunmap
  refine ⟨m, m', fun result t' hend herror ↦ ?_, hunmap.1, hunmap.2⟩
  obtain ⟨b, p, hb, _⟩ := (hmap.2 result t' hend).mp herror
  rw [hempty] at hb
  rw [PMap.empty_apply] at hb
  cases hb

end NrKernel.OS
