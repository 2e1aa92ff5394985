import NrKernel.OS.PageBudget

/-!
# Memory accesses and cores

An access of a thread is a step of the hardware on some core. The OS machine asks that the
thread's own core is idle (`spec_t/os.rs:539–561`), the hardware that the core of the access
exists (`spec_t/hardware.rs:575–639`); nothing asks that the two are the same core, so that a
thread accesses memory through the TLB of a core that maps or unmaps, unless there is one core.
-/

namespace NrKernel.OS

open Lib PageTable CoreState OSVariables

section Cores

variable {c : OSConstants}

/-- Where there is only one core, every core is that of the thread. -/
theorem validCore_unique (hnuma : c.hw.numaNo = 1) (hcores : c.hw.coreNo = 1) {k k' : Core}
    (hk : validCore c.hw k) (hk' : validCore c.hw k') : k = k' := by
  rw [validCore, hnuma, hcores] at hk hk'
  cases k
  cases k'
  rw [Core.mk.injEq]
  dsimp only at hk hk'
  omega

/-- Where there are more, there is one next to any given core. -/
theorem exists_validCore_ne (hnuma : 0 < c.hw.numaNo) (hcores : 0 < c.hw.coreNo)
    (hmore : ¬(c.hw.numaNo = 1 ∧ c.hw.coreNo = 1)) (k : Core) :
    ∃ k', validCore c.hw k' ∧ k' ≠ k := by
  by_cases hk : k = ⟨0, 0⟩
  · by_cases hone : c.hw.numaNo = 1
    · have hcore : 1 < c.hw.coreNo := by
        by_contra hle
        exact hmore ⟨hone, by omega⟩
      refine ⟨⟨0, 1⟩, ⟨hnuma, hcore⟩, ?_⟩
      rw [hk]
      exact nofun
    · have hnode : 1 < c.hw.numaNo := by omega
      refine ⟨⟨1, 0⟩, ⟨hnode, hcores⟩, ?_⟩
      rw [hk]
      exact nofun
  · exact ⟨⟨0, 0⟩, ⟨hnuma, hcores⟩, Ne.symm hk⟩

end Cores

section Access

variable {M : Type} [PtMemoryOps M] [PhyAddrWidth] {c : OSConstants} {s s2 : OSVariables M}
  {ultId vaddr paddr : Nat} {op : HWRWOp} {pte : Option (Nat × PageTableEntry)} {core : Core}

variable (M) in
/-- Threads access memory through their own cores only, while these are idle. -/
def AccessesOwnCore (c : OSConstants) : Prop :=
  ∀ s : OSVariables M, (osMachine c).Reachable s → ∀ s2 ultId vaddr paddr op pte core,
    NextStep c s s2 (.hw ultId (.readWrite vaddr paddr op pte core)) →
    core = c.ultCore ultId ∧ s.coreState core = .idle

/-- A thread that accesses memory is on an idle core. -/
theorem StepHW.ultCore_idle
    (hstep : StepHW c s s2 ultId (.readWrite vaddr paddr op pte core)) :
    s.coreState (c.ultCore ultId) = .idle := by
  rcases hstep.enabled with hidle | ⟨_, _, _, heq⟩ | ⟨_, _, heq⟩
  · exact hidle
  · cases heq
  · cases heq

/-- While nothing is mapped, a thread on an idle core may fault on any core. -/
theorem nextStep_pagefault (hult : c.validUlt ultId)
    (hidle : s.coreState (c.ultCore ultId) = .idle) (hcore : validCore c.hw core)
    (hempty : s.interpPtMem = PMap.empty) :
    NextStep c s s (.hw ultId (.readWrite 0 0 (.load false .pagefault) none core)) := by
  refine ⟨hult, .inl hidle, nofun, ⟨by decide, rfl, hcore, ?_, rfl, rfl⟩, rfl, rfl, rfl, rfl⟩
  rintro ⟨base, p, hp, _⟩
  have hp : s.interpPtMem base = some p := hp
  rw [hempty] at hp
  cases hp

/-- From an initial state on, threads access memory only through their own, idle cores if and
only if there is no thread or a single core. -/
theorem accessesOwnCore_iff (c : OSConstants) {s₀ : OSVariables M} (hinit : Init c s₀) :
    AccessesOwnCore M c ↔ c.ultNo = 0 ∨ c.hw.numaNo = 1 ∧ c.hw.coreNo = 1 := by
  constructor
  · intro hown
    rw [or_iff_not_imp_left]
    intro hthreads
    by_contra hmore
    have hult : c.validUlt 0 := Nat.pos_of_ne_zero hthreads
    have hcore := hinit.ult_core 0 hult
    obtain ⟨k, hk, hne⟩ := exists_validCore_ne hinit.hw.numaNo_pos
      (Nat.zero_lt_of_lt hcore.2) hmore (c.ultCore 0)
    have hstep : NextStep c s₀ s₀ (.hw 0 (.readWrite 0 0 (.load false .pagefault) none k)) :=
      nextStep_pagefault hult (hinit.states_idle _ hcore) hk hinit.pt_empty
    exact hne (hown s₀ (.of_init hinit) s₀ 0 0 0 _ none k hstep).1
  · rintro hone s hreach s2 ultId vaddr paddr op pte core hstep
    have hhw : StepHW c s s2 ultId (.readWrite vaddr paddr op pte core) := hstep
    have hult : ultId < c.ultNo := hhw.valid
    rcases hone with hnone | ⟨hnuma, hcores⟩
    · omega
    · have hown : core = c.ultCore ultId :=
        validCore_unique hnuma hcores hhw.hw.2.2.1 ((OsInv.of_reachable hreach).ult_core ultId hult)
      exact ⟨hown, hown ▸ hhw.ultCore_idle⟩

end Access

attribute [local instance] widePhyAddr in
/-- One core with one thread. -/
theorem accessesOwnCore_iff_one : AccessesOwnCore BumpMemory ExampleRun.c ↔
    ExampleRun.c.ultNo = 0 ∨ ExampleRun.c.hw.numaNo = 1 ∧ ExampleRun.c.hw.coreNo = 1 :=
  accessesOwnCore_iff ExampleRun.c ExampleRun.init

attribute [local instance] widePhyAddr in
/-- The second thread accesses memory through the first core, which executes a map. -/
theorem not_accessesOwnCore_twoCores : ¬AccessesOwnCore BumpMemory TwoCores.c := by
  intro hown
  have hidle : CoreState.idle.holdsLock = false := rfl
  have hreach := (TwoCores.mapOpStart0 hidle).reachable <|
    (TwoCores.first_checked TwoCores.lowMemory_init (by decide)).reachable <|
    .of_init (TwoCores.init TwoCores.lowMemory_init)
  have hstep : NextStep TwoCores.c
      (TwoCores.state TwoCores.lowMemory (.mapExecuting 0 TwoCores.vaddr smallPage) .idle)
      (TwoCores.state TwoCores.lowMemory (.mapExecuting 0 TwoCores.vaddr smallPage) .idle)
      (.hw 1 (.readWrite 0 0 (.load false .pagefault) none TwoCores.core0)) :=
    nextStep_pagefault (show 1 < 2 by decide) rfl ((TwoCores.validCore_iff _).mpr (.inl rfl))
      (SpecPt.Init.interp_eq TwoCores.lowMemory_init)
  obtain ⟨_, hidle⟩ := hown _ hreach _ 1 0 0 _ none TwoCores.core0 hstep
  cases hidle

end NrKernel.OS
