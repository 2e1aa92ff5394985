import NrKernel.OS.InFlight
import NrKernel.PageTable.AllocationBudget

/-!
# The page budget of map operations

A map request is taken when the page table memory has three pages left
(`spec_t/os.rs:577–592`), which is what `map_frame` asks of its caller
(`impl_u/l2_impl.rs:1683–1710`). The request waits for the lock after the check, while others
may use the pages up. The pages are there throughout a run in which no other write of the page
table takes those of a request in flight.
-/

namespace NrKernel.OS

open Lib PageTable CoreState OSVariables PtMemory

section Budget

variable {M : Type} [PtMemoryOps M] [PhyAddrWidth] {c : OSConstants} {s s1 s2 : OSVariables M}

/-- Whenever a core executes a map, the memory has the pages `map_frame` asks for. -/
def BudgetKept (s : OSVariables M) : Prop :=
  ∀ core ultId vaddr pte, s.coreState core = .mapExecuting ultId vaddr pte →
    3 ≤ allocAvailablePages s.hw.globalPt

/-- The steps in which a core writes the page table memory. -/
def OSStep.writesPt : OSStep → Bool
  | .mapEnd _ _ | .unmapOpStart _ _ | .viewStutter _ => true
  | _ => false

/-- A map request that was checked and is not carried out. -/
def CoreState.mapInFlight : CoreState → Bool
  | .mapWaiting _ _ _ | .mapExecuting _ _ _ => true
  | _ => false

/-- While a map request is in flight, a write of the page table memory, other than the end of that
map, allocates nothing, or finds three pages more than it allocates. -/
def SparesRequests (s : OSVariables M) (step : OSStep) (t : OSVariables M) : Prop :=
  step.writesPt = true → ∀ core, (s.coreState core).mapInFlight = true →
    (∀ result, step ≠ .mapEnd core result) →
    ∃ ops, MemOp.Run s.hw.globalPt ops t.hw.globalPt ∧
      (allocations ops = 0 ∨ allocations ops + 3 ≤ allocAvailablePages s.hw.globalPt)

/-- While a map request is in flight, nobody else writes the page table memory. -/
def WritesAlone (s : OSVariables M) (step : OSStep) (_ : OSVariables M) : Prop :=
  step.writesPt = true → ∀ core, (s.coreState core).mapInFlight = true →
    ∃ result, step = .mapEnd core result

/-- Where nobody else writes, nobody takes the pages of a request. -/
theorem WritesAlone.sparesRequests {step : OSStep} (h : WritesAlone s1 step s2) :
    SparesRequests s1 step s2 := by
  intro hwrites core hflight hother
  obtain ⟨result, hend⟩ := h hwrites core hflight
  exact absurd hend (hother result)

/-- The page table memory stays the same in the other steps. -/
theorem NextStep.globalPt_of_writesPt {step : OSStep} (hstep : NextStep c s1 s2 step)
    (hwrites : step.writesPt = false) : s2.hw.globalPt = s1.hw.globalPt := by
  have hsame : s1.ptVariables = s2.ptVariables → s2.hw.globalPt = s1.hw.globalPt :=
    fun h ↦ (congrArg PageTableVariables.ptMem h).symm
  cases step with
  | hw ultId step => exact hsame (StepHW.pt hstep)
  | mapStart ultId vaddr pte => exact hsame (StepMapStart.pt hstep)
  | mapOpStart core =>
    obtain ⟨_, _, _, hstep⟩ := hstep
    exact hsame (Eq.symm hstep.pt)
  | unmapStart ultId vaddr => exact hsame (StepUnmapStart.pt hstep)
  | unmapOpEnd core =>
    obtain ⟨_, _, _, hstep⟩ := hstep
    exact hsame (Eq.symm hstep.pt)
  | unmapInitiateShootdown core =>
    obtain ⟨_, _, _, hstep⟩ := hstep
    exact hsame hstep.pt
  | ackShootdownIPI core => exact hsame (StepAckShootdownIPI.pt hstep)
  | unmapEnd core => exact hsame (StepUnmapEnd.pt hstep)
  | mapEnd | unmapOpStart | viewStutter => cases hwrites

/-- A map request in flight is there until the map ends, and comes with its check. -/
theorem NextStep.mapInFlight_cases {step : OSStep} (hstep : NextStep c s1 s2 step) (k : Core) :
    (s2.coreState k).mapInFlight = (s1.coreState k).mapInFlight ∨
      (∃ result, step = .mapEnd k result) ∧ (s2.coreState k).mapInFlight = false ∨
      (∃ ultId vaddr pte, step = .mapStart ultId vaddr pte) ∧
        3 ≤ allocAvailablePages s1.hw.globalPt := by
  have hinsert : ∀ {core : Core} {st : CoreState}, s2.coreStates = s1.coreStates.insert core st →
      st.mapInFlight = (s1.coreState core).mapInFlight →
      (s2.coreState k).mapInFlight = (s1.coreState k).mapInFlight := by
    intro core st hstates hst
    by_cases hk : k = core
    · rw [hk, coreState_insert hstates, hst]
    · rw [coreState_insert_of_ne hstates hk]
  have hsame : s2.coreStates = s1.coreStates →
      (s2.coreState k).mapInFlight = (s1.coreState k).mapInFlight := by
    intro hstates
    rw [coreState, hstates, coreState]
  cases step with
  | hw id step => exact .inl (hsame (StepHW.coreStates_eq hstep))
  | mapStart id v p => exact .inr (.inr ⟨⟨id, v, p, rfl⟩, (StepMapStart.enabled hstep).pages⟩)
  | mapOpStart core =>
    obtain ⟨_, _, _, hstep⟩ := hstep
    exact .inl (hinsert hstep.coreStates_eq (by rw [hstep.state]; rfl))
  | mapEnd core result =>
    obtain ⟨_, _, _, hstep⟩ := hstep
    by_cases hk : k = core
    · subst hk
      exact .inr (.inl ⟨⟨result, rfl⟩, by rw [coreState_insert hstep.coreStates_eq]; rfl⟩)
    · rw [coreState_insert_of_ne hstep.coreStates_eq hk]
      exact .inl rfl
  | unmapStart id v =>
    exact .inl (hinsert (StepUnmapStart.coreStates_eq hstep)
      (by rw [StepUnmapStart.idle hstep]; rfl))
  | unmapOpStart core result =>
    obtain ⟨_, _, hstep⟩ := hstep
    exact .inl (hinsert hstep.coreStates_eq (by rw [hstep.state]; rfl))
  | unmapOpEnd core =>
    obtain ⟨_, _, _, hstep⟩ := hstep
    exact .inl (hinsert hstep.coreStates_eq (by rw [hstep.state]; rfl))
  | unmapInitiateShootdown core =>
    obtain ⟨_, _, _, hstep⟩ := hstep
    exact .inl (hinsert hstep.coreStates_eq (by rw [hstep.state]; rfl))
  | ackShootdownIPI core => exact .inl (hsame (StepAckShootdownIPI.coreStates_eq hstep))
  | unmapEnd core =>
    have hstate := StepUnmapEnd.state hstep
    refine .inl (hinsert (StepUnmapEnd.coreStates_eq hstep) ?_)
    cases hst : s1.coreState core with
    | mapWaiting | mapExecuting =>
      rw [hst] at hstate
      exact hstate.elim
    | _ => rfl
  | viewStutter core => exact .inl (hsame (StepViewStutter.coreStates_eq hstep))

/-- Every map request in flight has the pages it was checked for. -/
def RequestsCovered (s : OSVariables M) : Prop :=
  ∀ core, (s.coreState core).mapInFlight = true → 3 ≤ allocAvailablePages s.hw.globalPt

omit [PhyAddrWidth] in
/-- The pages of a request are there when its map is executed. -/
theorem RequestsCovered.budgetKept (h : RequestsCovered s) : BudgetKept s := by
  intro core ultId vaddr pte hst
  apply h core
  rw [hst]
  rfl

/-- A step that spares the requests in flight leaves them their pages. -/
theorem RequestsCovered.step (h : RequestsCovered s1) {step : OSStep}
    (hstep : NextStep c s1 s2 step) (hspares : SparesRequests s1 step s2) :
    RequestsCovered s2 := by
  intro core hflight
  have hkept : (s1.coreState core).mapInFlight = true ∧ (∀ result, step ≠ .mapEnd core result) ∨
      step.writesPt = false ∧ 3 ≤ allocAvailablePages s1.hw.globalPt := by
    rcases hstep.mapInFlight_cases core with hsame | ⟨_, hended⟩ | ⟨⟨_, _, _, rfl⟩, hpages⟩
    · refine .inl ⟨hsame.symm.trans hflight, ?_⟩
      rintro result rfl
      obtain ⟨_, _, _, hend⟩ := hstep
      rw [coreState_insert hend.coreStates_eq] at hflight
      cases hflight
    · rw [hended] at hflight
      cases hflight
    · exact .inr ⟨rfl, hpages⟩
  cases hwrites : step.writesPt with
  | false =>
    rw [hstep.globalPt_of_writesPt hwrites]
    rcases hkept with ⟨hold, _⟩ | ⟨_, hpages⟩
    · exact h core hold
    · exact hpages
  | true =>
    rcases hkept with ⟨hold, hother⟩ | ⟨hno, _⟩
    · obtain ⟨ops, hrun, hroom⟩ := hspares hwrites core hold hother
      have hle := hrun.available_le
      have hcovered := h core hold
      omega
    · cases hwrites.symm.trans hno

/-- A step that takes pages of a request in flight leaves it without them: it has fewer than three
when its map is executed, at once or from the start of the map on. -/
theorem not_budgetKept_of_step {step : OSStep} {core : Core} {ops : List (MemOp × M)}
    (hstep : NextStep c s1 s2 step) (hflight : (s1.coreState core).mapInFlight = true)
    (hother : ∀ result, step ≠ .mapEnd core result)
    (hrun : MemOp.Run s1.hw.globalPt ops s2.hw.globalPt)
    (hkept : ∀ op ∈ ops, op.1 ≠ .deallocPage)
    (hspent : allocAvailablePages s1.hw.globalPt < allocations ops + 3) :
    (∃ ultId vaddr pte, s2.coreState core = .mapExecuting ultId vaddr pte) ∧ ¬BudgetKept s2 ∨
      (∃ ultId vaddr pte, s2.coreState core = .mapWaiting ultId vaddr pte) ∧
        ∀ s3, NextStep c s2 s3 (.mapOpStart core) → ¬BudgetKept s3 := by
  have hfew := hrun.available_eq hkept
  have hstays : (s2.coreState core).mapInFlight = true := by
    rcases hstep.mapInFlight_cases core with hsame | ⟨⟨result, hend⟩, _⟩ | ⟨⟨ultId, v, p, rfl⟩, _⟩
    · exact hsame.trans hflight
    · exact absurd hend (hother result)
    · by_cases hk : core = c.ultCore ultId
      · rw [hk, StepMapStart.idle hstep] at hflight
        cases hflight
      · rwa [coreState_insert_of_ne (StepMapStart.coreStates_eq hstep) hk]
  cases hst : s2.coreState core with
  | mapExecuting ultId vaddr pte =>
    refine .inl ⟨⟨ultId, vaddr, pte, rfl⟩, fun hbudget ↦ ?_⟩
    have hpages := hbudget core ultId vaddr pte hst
    omega
  | mapWaiting ultId vaddr pte =>
    refine .inr ⟨⟨ultId, vaddr, pte, rfl⟩, ?_⟩
    rintro s3 ⟨id, v, p, hop⟩ hbudget
    have hpages := hbudget core id v p (coreState_insert hop.coreStates_eq)
    rw [show s3.hw.globalPt = s2.hw.globalPt from congrArg PageTableVariables.ptMem hop.pt]
      at hpages
    omega
  | _ =>
    rw [hst] at hstays
    cases hstays

/-- The budget is there in every state of every run whose steps spare the map requests in flight,
as they do when nobody else writes between the check of a request and the end of its map; and a
step that takes pages of one leaves it to execute its map without them. -/
theorem budgetKept_of_sparesRequests (c : OSConstants) :
    (∀ s : OSVariables M, ((osMachine c).restrict SparesRequests).Reachable s → BudgetKept s) ∧
    (∀ s : OSVariables M, ((osMachine c).restrict WritesAlone).Reachable s → BudgetKept s) ∧
    ∀ (s1 s2 : OSVariables M) (step : OSStep) (core : Core) (ops : List (MemOp × M)),
      (osMachine c).Reachable s1 → NextStep c s1 s2 step →
      (s1.coreState core).mapInFlight = true → (∀ result, step ≠ .mapEnd core result) →
      MemOp.Run s1.hw.globalPt ops s2.hw.globalPt → (∀ op ∈ ops, op.1 ≠ .deallocPage) →
      allocAvailablePages s1.hw.globalPt < allocations ops + 3 →
      (∃ ultId vaddr pte, s2.coreState core = .mapExecuting ultId vaddr pte) ∧ ¬BudgetKept s2 ∨
        (∃ ultId vaddr pte, s2.coreState core = .mapWaiting ultId vaddr pte) ∧
          ∀ s3, NextStep c s2 s3 (.mapOpStart core) → ¬BudgetKept s3 := by
  have hkept : ∀ s : OSVariables M, ((osMachine c).restrict SparesRequests).Reachable s →
      BudgetKept s := by
    intro s hreach
    refine (hreach.invariant (I := RequestsCovered) ?_ ?_).budgetKept
    · intro s hinit core hflight
      rw [Init.coreState_eq hinit] at hflight
      cases hflight
    · intro s1 step s2 h hstep
      exact h.step hstep.1 hstep.2
  refine ⟨hkept, fun s hreach ↦ ?_, fun s1 s2 step core ops _ ↦ not_budgetKept_of_step⟩
  exact hkept s (hreach.restrict_mono fun _ _ _ h ↦ h.sparesRequests)

end Budget

section Implementation

variable {M : Type} [PhyAddrWidth] [PageTableMemory M] {s1 s2 : OSVariables M}

/-- For the end of a map that the implementation carried out this is a condition on the state
before it: no directory is missing, or there are three pages more than directories are missing. -/
theorem sparesRequests_of_mapFrame {core : Core} {pt pt' : PTDir} {vaddr : Nat}
    {pte : PageTableEntry} {result : Except Unit Unit} (hinv : PT.Inv s1.hw.globalPt pt)
    (hinterp : (PT.interp s1.hw.globalPt pt).Inv) (hpages : 3 ≤ allocAvailablePages s1.hw.globalPt)
    (hpte : AcceptedMapping pte) (ha : (PT.interp s1.hw.globalPt pt).AcceptedMapping vaddr pte)
    (hmax : vaddr < maxBase)
    (hcall : mapFrame s1.hw.globalPt pt vaddr pte = some (result, s2.hw.globalPt, pt'))
    (hroom : missingDirectories s1.hw.globalPt vaddr pte.frame.size = [] ∨
      (missingDirectories s1.hw.globalPt vaddr pte.frame.size).length + 3 ≤
        allocAvailablePages s1.hw.globalPt) :
    SparesRequests s1 (.mapEnd core result) s2 := by
  intro _ _ _ _
  obtain ⟨ops, hrun, hallocs⟩ := exists_memOps_of_mapFrame hinv hinterp hpages hpte ha hmax hcall
  refine ⟨ops, hrun, ?_⟩
  rcases hroom with hnone | hroom
  · rw [hnone] at hallocs
    exact .inl (Nat.le_zero.mp hallocs)
  · exact .inr (Nat.le_trans (Nat.add_le_add_right hallocs 3) hroom)

end Implementation

/-! ## Two maps at a time

Both requests are checked before the first map is executed. -/

namespace TwoCores

attribute [local instance] widePhyAddr

/-- An empty root directory and three pages. -/
def lowMemory : BumpMemory :=
  { BumpMemory.initial with
    next := frameLimit - 3
    live_lt := fun p h ↦ lt_of_lt_of_le (BumpMemory.initial.live_lt p h) (by decide) }

/-- The memory with three pages is one to start with. -/
theorem lowMemory_init : SpecPt.Init ⟨lowMemory⟩ where
  inv := BumpMemory.inv _
  regions_eq := BumpMemory.initial_init.regions_eq
  view_length := BumpMemory.initial_init.view_length
  view_zero := BumpMemory.initial_init.view_zero

/-- A map that takes the last pages while another request waits. -/
theorem exists_spent : ∃ m : BumpMemory, PtMemory.allocAvailablePages m = 0 ∧
    (osMachine c).Reachable (state m .idle (.mapExecuting 1 otherVaddr otherPage)) := by
  have hlow : 3 ≤ allocAvailablePages lowMemory := by decide
  obtain ⟨m, pt, hcall, _, _, hm⟩ := lowMemory_init.exists_mapFrame_smallPage hlow
  have hpages : (mapFrame lowMemory rootDir 0x3000 smallPage).map
      (fun r ↦ allocAvailablePages r.2.1) = some 0 := by
    decide +kernel
  rw [hcall] at hpages
  exact ⟨m, Option.some.inj hpages, (mapOpStart1 rfl).reachable <|
    (first_mapped lowMemory_init hm).reachable <| (mapOpStart0 rfl).reachable <|
    (second_checked lowMemory_init hlow).reachable <|
    (first_checked lowMemory_init hlow).reachable <| .of_init (init lowMemory_init)⟩

end TwoCores

attribute [local instance] widePhyAddr in
/-- Both cores had their requests taken with three pages left; the second one executes its map
with none. -/
theorem not_budgetKept_twoCores : ¬∀ s : OSVariables BumpMemory,
    (osMachine TwoCores.c).Reachable s → BudgetKept s := by
  intro hall
  obtain ⟨m, hpages, hreach⟩ := TwoCores.exists_spent
  have hkept := hall _ hreach TwoCores.core1 1 TwoCores.otherVaddr TwoCores.otherPage rfl
  rw [show (TwoCores.state m .idle _).hw.globalPt = m from rfl, hpages] at hkept
  omega

attribute [local instance] widePhyAddr in
/-- With more memory the first map spares the request that waits, and takes pages. -/
theorem budgetKept_of_sparesRequests_second : ∃ m : BumpMemory,
    allocAvailablePages m < allocAvailablePages BumpMemory.initial ∧
    BudgetKept (TwoCores.state m .idle
      (.mapExecuting 1 TwoCores.otherVaddr TwoCores.otherPage)) := by
  have hinit := BumpMemory.initial_init
  have hthree : 3 ≤ allocAvailablePages BumpMemory.initial := by decide
  obtain ⟨m, pt, hcall, _, _, hm⟩ := exists_mapFrame_smallPage
  obtain ⟨hinv, hinterp, _⟩ := hinit.tree
  have htaken : (mapFrame BumpMemory.initial rootDir 0x3000 smallPage).map
      (fun r ↦ decide (allocAvailablePages r.2.1 < allocAvailablePages BumpMemory.initial)) =
      some true := by
    decide +kernel
  rw [hcall] at htaken
  refine ⟨m, of_decide_eq_true (Option.some.inj htaken), ?_⟩
  apply (budgetKept_of_sparesRequests TwoCores.c).1
  refine (TwoCores.mapOpStart1 rfl).reachable_restrict nofun <|
    (TwoCores.first_mapped hinit hm).reachable_restrict ?_ <|
    (TwoCores.mapOpStart0 rfl).reachable_restrict nofun <|
    (TwoCores.second_checked hinit hthree).reachable_restrict nofun <|
    (TwoCores.first_checked hinit hthree).reachable_restrict nofun <|
    .of_init (TwoCores.init hinit)
  have hroom : (missingDirectories BumpMemory.initial 0x3000 smallPage.frame.size).length + 3 ≤
      allocAvailablePages BumpMemory.initial := by
    decide +kernel
  exact sparesRequests_of_mapFrame hinv hinterp hthree smallPage_accepted
    (smallPage_acceptedMapping _ _) (by decide) hcall (.inr hroom)

end NrKernel.OS
