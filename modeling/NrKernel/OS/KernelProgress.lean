import NrKernel.OS.KernelRefinement
import NrKernel.OS.Shootdown

/-!
# The kernel serves its requests

From every reachable state of the kernel, in the middle of a call or not, the requests that were
taken can be served: the core in the page table code finishes its call, which never stops the
program, an unmap that is done gets its shootdown, and the lock goes to the next core that waits.
In the end all cores are idle, unless maps wait and the page table memory is short of pages.
-/

namespace NrKernel.OS

open Lib PageTable CoreState OSVariables PtMemory

/-- The steps that serve a request that was taken. -/
def KernelStep.Serves : KernelStep → Prop
  | .os (.unmapInitiateShootdown _) | .os (.ackShootdownIPI _) | .os (.unmapEnd _)
  | .os (.hw _ (.tlbEvict _ _)) => True
  | .call _ | .memOp _ | .ret _ => True
  | _ => False

private theorem OSStep.CompletesUnmap.serves {core : Core} {step : OSStep}
    (h : step.CompletesUnmap core) : (KernelStep.os step).Serves ∧ step.ofPageTable = false := by
  cases step with
  | hw ultId step =>
    cases step with
    | tlbEvict => exact ⟨trivial, rfl⟩
    | _ => cases h
  | unmapInitiateShootdown => exact ⟨trivial, rfl⟩
  | ackShootdownIPI => exact ⟨trivial, rfl⟩
  | unmapEnd => exact ⟨trivial, rfl⟩
  | _ => cases h

section Progress

variable {M : Type} [PhyAddrWidth] [PageTableMemory M] {c : OSConstants}
  {s s' s'' : KernelVariables M} {r : RunningCall M} {core : Core}

private theorem KernelNext.reachable {l : KernelStep} (hstep : KernelNext c s l s')
    (h : (kernelMachine c).Reachable s) : (kernelMachine c).Reachable s' :=
  h.step hstep

/-- Steps that serve requests lead from one state to the other. -/
def ServingRun (c : OSConstants) (s s' : KernelVariables M) : Prop :=
  ∃ steps, (kernelMachine c).Run s steps s' ∧ ∀ l ∈ steps, l.Serves

namespace ServingRun

private theorem refl (s : KernelVariables M) : ServingRun c s s := by
  refine ⟨[], .nil s, fun l hl ↦ ?_⟩
  cases hl

private theorem trans (h : ServingRun c s s') (h' : ServingRun c s' s'') : ServingRun c s s'' := by
  obtain ⟨steps, hrun, hsteps⟩ := h
  obtain ⟨steps', hrun', hsteps'⟩ := h'
  refine ⟨steps ++ steps', hrun.append hrun', fun l hl ↦ ?_⟩
  rcases List.mem_append.mp hl with hmem | hmem
  · exact hsteps l hmem
  · exact hsteps' l hmem

private theorem single {l : KernelStep} (hstep : KernelNext c s l s') (hserves : l.Serves) :
    ServingRun c s s' := by
  refine ⟨[l], .single hstep, fun l' hl' ↦ ?_⟩
  rw [List.mem_singleton.mp hl']
  exact hserves

private theorem inv (h : ServingRun c s s') (hinv : KernelInv c s) : KernelInv c s' := by
  obtain ⟨steps, hrun, _⟩ := h
  exact hrun.invariant (I := KernelInv c) (fun _ _ _ h hstep ↦ (KernelNext.osRun h hstep).2) hinv

/-- Steps of the OS that complete an unmap. -/
theorem of_os {os os' : OSVariables M} {steps : List OSStep}
    (hrun : (osMachine c).Run os steps os') (hsteps : ∀ step ∈ steps, step.CompletesUnmap core)
    (pt : PTDir) (running : Option (RunningCall M)) :
    ServingRun c ⟨os, pt, running⟩ ⟨os', pt, running⟩ := by
  induction hrun with
  | nil => exact refl _
  | @cons os₁ os₂ os₃ step steps hstep _ ih =>
    obtain ⟨hserves, hother⟩ := (hsteps step List.mem_cons_self).serves
    have hfirst : KernelNext c ⟨os₁, pt, running⟩ (.os step) ⟨os₂, pt, running⟩ :=
      .os step os₂ hother hstep
    exact (single hfirst hserves).trans
      (ih fun step hstep ↦ hsteps step (List.mem_cons_of_mem _ hstep))

end ServingRun

/-- Requests of a core are served while the other cores stay in their states. -/
structure Served (c : OSConstants) (core : Core) (s s' : KernelVariables M) : Prop where
  run : ServingRun c s s'
  others : ∀ k, k ≠ core → s'.os.coreState k = s.os.coreState k
  free : s'.running = none

/-! ## Finishing a call -/

/-- The core has nothing left to do, or its shootdown. -/
def CoreState.Finished (st : CoreState) : Prop :=
  st = .idle ∨ ∃ ultId vaddr result,
    st = .unmapOpDone ultId vaddr result ∨ st = .unmapShootdownWaiting ultId vaddr result

private theorem Served.trans_step {l : KernelStep} (hstep : KernelNext c s l s')
    (hserves : l.Serves)
    (hothers : ∀ k, k ≠ core → s'.os.coreState k = s.os.coreState k) (h : Served c core s' s'') :
    Served c core s s'' where
  run := (ServingRun.single hstep hserves).trans h.run
  others k hk := (h.others k hk).trans (hothers k hk)
  free := h.free

private theorem Served.single {l : KernelStep} (hstep : KernelNext c s l s') (hserves : l.Serves)
    (hothers : ∀ k, k ≠ core → s'.os.coreState k = s.os.coreState k) (hfree : s'.running = none) :
    Served c core s s' :=
  ⟨.single hstep hserves, hothers, hfree⟩

/-- A call in progress can be finished. -/
theorem KernelInv.exists_finished (h : KernelInv c s) (hrunning : s.running = some r) :
    ∃ s', Served c r.core s s' ∧ (s'.os.coreState r.core).Finished := by
  -- by induction on the operations left
  generalize hn : r.todo.length = n
  induction n using Nat.strong_induction_on generalizing s r with
  | _ n ih =>
    subst hn
    have hcourse := (h.running r hrunning).1
    generalize hstate : s.os.coreState r.core = st at hcourse
    have hret : ∀ {os' : OSVariables M} {st' : CoreState},
        KernelNext c s (.ret r.core) ⟨os'.setCore r.core st', r.pt, none⟩ →
        (∀ k, os'.coreState k = s.os.coreState k) → st'.Finished →
        ∃ s', Served c r.core s s' ∧ (s'.os.coreState r.core).Finished := by
      intro os' st' hstep hos' hfinished
      refine ⟨_, .single hstep trivial (fun k hk ↦ ?_) rfl, ?_⟩
      · exact (coreState_setCore_of_ne _ _ _ hk).trans (hos' k)
      · show ((os'.setCore r.core st').coreState r.core).Finished
        rw [coreState_setCore]
        exact hfinished
    have hgo : ∀ {s₁ : KernelVariables M} {todo : List (MemOp × M)},
        KernelNext c s (.memOp r.core) s₁ → s₁.running = some { r with todo := todo } →
        (∀ k, k ≠ r.core → s₁.os.coreState k = s.os.coreState k) →
        todo.length < r.todo.length →
        ∃ s', Served c r.core s s' ∧ (s'.os.coreState r.core).Finished := by
      intro s₁ todo hstep hrunning₁ hothers hlt
      obtain ⟨s', hserved, hfinished⟩ := ih _ hlt (hstep.osRun h).2 hrunning₁ rfl
      exact ⟨s', hserved.trans_step hstep trivial hothers, hfinished⟩
    have hmap : ∀ {ultId vaddr pte}, st = .mapExecuting ultId vaddr pte →
        ∃ s', Served c r.core s s' ∧ (s'.os.coreState r.core).Finished := by
      rintro ultId vaddr pte rfl
      by_cases hle : r.todo.length ≤ 1
      · exact hret (.retMap r ultId vaddr pte hrunning hstate hle) (fun _ ↦ rfl) (.inl rfl)
      · obtain ⟨op, last, rest, htodo⟩ : ∃ op last rest, r.todo = op :: last :: rest := by
          cases htodo : r.todo with
          | nil => simp [htodo] at hle
          | cons op todo =>
            cases todo with
            | nil => simp [htodo] at hle
            | cons last rest => exact ⟨op, last, rest, rfl⟩
        exact hgo (.memOpMap r ultId vaddr pte op last rest hrunning hstate htodo) rfl
          (fun _ _ ↦ rfl) (by simp [htodo])
    have hunmap : ∀ {ultId vaddr}, st = .unmapWaiting ultId vaddr →
        ∃ s', Served c r.core s s' ∧ (s'.os.coreState r.core).Finished := by
      rintro ultId vaddr rfl
      cases htodo : r.todo with
      | nil =>
        exact hret (.retUnmapErr r ultId vaddr hrunning hstate htodo) (fun _ ↦ rfl)
          (.inr ⟨_, _, _, .inl rfl⟩)
      | cons op rest =>
        exact hgo (.firstOpUnmap r ultId vaddr op rest hrunning hstate htodo) rfl
          (fun k hk ↦ coreState_setCore_of_ne _ _ _ hk) (by simp [htodo])
    cases hcourse with
    | map ultId vaddr pte => exact hmap rfl
    | mapRefused ultId vaddr pte => exact hmap rfl
    | unmap ultId vaddr => exact hunmap rfl
    | unmapRefused ultId vaddr => exact hunmap rfl
    | unmapped ultId vaddr result =>
      cases htodo : r.todo with
      | nil =>
        exact hret (.retUnmap r ultId vaddr result hrunning hstate htodo) (fun _ ↦ rfl)
          (.inr ⟨_, _, _, .inl rfl⟩)
      | cons op rest =>
        exact hgo (.memOpUnmap r ultId vaddr result op rest hrunning hstate htodo) rfl
          (fun _ _ ↦ rfl) (by simp [htodo])

/-- A core whose operation is done gets to idle. -/
theorem KernelInv.exists_idle (h : KernelInv c s) (hfree : s.running = none)
    (hfinished : (s.os.coreState core).Finished) :
    ∃ s', Served c core s s' ∧ s'.os.coreState core = .idle := by
  rcases hfinished with hidle | ⟨ultId, vaddr, result, hst⟩
  · exact ⟨s, ⟨.refl s, fun _ _ ↦ rfl, hfree⟩, hidle⟩
  · have hvalid : validCore c.hw core := by
      apply h.validCore_of_ne
      intro hidle
      rw [hidle] at hst
      rcases hst with hst | hst
      · cases hst
      · cases hst
    have hcompleted : ∃ os', ShootdownRun c core s.os os' ∧ os'.coreState core = .idle := by
      rcases hst with hst | hst
      · cases result with
        | error e =>
          exact exists_ended hvalid (.inl hst : s.os.coreState core = _ ∨
            s.os.coreState core = .unmapShootdownWaiting _ _ (.error ()) ∧ _)
        | ok pte =>
          obtain ⟨os₁, hrun, hst₁⟩ := exists_initiated hvalid hst
          obtain ⟨os', hrun', hidle⟩ := exists_completed (hrun.reachable h.os) hvalid hst₁
          exact ⟨os', hrun.trans hrun', hidle⟩
      · exact exists_completed h.os hvalid hst
    obtain ⟨os', ⟨steps, hrun, hsteps, hsame⟩, hidle⟩ := hcompleted
    refine ⟨⟨os', s.pt, s.running⟩, ⟨.of_os hrun hsteps s.pt s.running, fun k hk ↦ ?_, hfree⟩,
      hidle⟩
    rw [coreState, hsame.others k hk, coreState]

private theorem Served.trans (h : Served c core s s') (h' : Served c core s' s'') :
    Served c core s s'' where
  run := h.run.trans h'.run
  others k hk := (h'.others k hk).trans (h.others k hk)
  free := h'.free

/-- The core of a call gets to idle. -/
theorem KernelInv.exists_returned (h : KernelInv c s) (hrunning : s.running = some r) :
    ∃ s', Served c r.core s s' ∧ s'.os.coreState r.core = .idle := by
  obtain ⟨s₁, hserved, hfinished⟩ := h.exists_finished hrunning
  obtain ⟨s', hserved', hidle⟩ := (hserved.run.inv h).exists_idle hserved.free hfinished
  exact ⟨s', hserved.trans hserved', hidle⟩

/-! ## Taking the next request -/

/-- A core can make its call when the lock is free, if it maps with the pages it needs. -/
theorem KernelInv.exists_called (h : KernelInv c s) (hfree : s.running = none)
    (hlock : s.os.kernelLock c = none)
    (hst : (∃ ultId vaddr, s.os.coreState core = .unmapWaiting ultId vaddr) ∨
      3 ≤ allocAvailablePages s.os.hw.globalPt ∧
        ∃ ultId vaddr pte, s.os.coreState core = .mapWaiting ultId vaddr pte) :
    ∃ s', Served c core s s' ∧ s'.os.coreState core = .idle := by
  have hcall : ∃ s₁ r, KernelNext c s (.call core) s₁ ∧ s₁.running = some r ∧ r.core = core ∧
      ∀ k, k ≠ core → s₁.os.coreState k = s.os.coreState k := by
    have hadmitted := h.admitted core
    rcases hst with ⟨ultId, vaddr, hst⟩ | ⟨hpages, ultId, vaddr, pte, hst⟩
    · rw [hst] at hadmitted
      obtain ⟨result, mem, record, pt, hcall, _⟩ :=
        unmap_onCourse (h.tree hfree) hadmitted core ultId
      have hvalid : validCore c.hw core := h.validCore_of_ne (by simp [hst])
      exact ⟨_, _, .callUnmap core ultId vaddr result mem record pt hvalid hst hlock hfree hcall,
        rfl, rfl, fun _ _ ↦ rfl⟩
    · rw [hst] at hadmitted
      obtain ⟨result, mem, record, pt, hcall, _⟩ :=
        mapFrame_onCourse (h.tree hfree) hpages hadmitted core ultId
      have hvalid : validCore c.hw core := h.validCore_of_ne (by simp [hst])
      exact ⟨_, _, .callMap core ultId vaddr pte result mem record pt hvalid hst hlock hfree hpages
        hcall, rfl, rfl, fun k hk ↦ coreState_setCore_of_ne _ _ _ hk⟩
  obtain ⟨s₁, r, hstep, hrunning, rfl, hothers⟩ := hcall
  obtain ⟨s', hserved, hidle⟩ := (hstep.osRun h).2.exists_returned hrunning
  exact ⟨s', hserved.trans_step hstep trivial hothers, hidle⟩

/-- Every core is idle, or maps wait for more pages than there are. -/
def Settled (s : KernelVariables M) : Prop :=
  ∀ core, s.os.coreState core = .idle ∨
    (∃ ultId vaddr pte, s.os.coreState core = .mapWaiting ultId vaddr pte) ∧
      allocAvailablePages s.os.hw.globalPt < 3

/-- As long as the kernel has not settled, the request of some core can be served. -/
theorem KernelInv.exists_served (h : KernelInv c s) (hnot : ¬Settled s) :
    ∃ core s', s.os.coreState core ≠ .idle ∧ Served c core s s' ∧ s'.os.coreState core = .idle := by
  cases hrunning : s.running with
  | some r =>
    obtain ⟨s', hserved, hidle⟩ := h.exists_returned hrunning
    refine ⟨r.core, s', fun hr ↦ ?_, hserved, hidle⟩
    have hcourse := (h.running r hrunning).1
    rw [hr] at hcourse
    cases hcourse
  | none =>
    have hexecuting : ∀ k, (s.os.coreState k).executing = false := by
      intro k
      rw [← Bool.not_eq_true]
      intro hk
      obtain ⟨r, hr, _⟩ := h.executing k hk
      rw [hrunning] at hr
      cases hr
    by_cases hholder : ∃ k, (s.os.coreState k).holdsLock = true
    · -- the holder waits for its shootdown
      obtain ⟨k, hk⟩ := hholder
      have hfinished : (s.os.coreState k).Finished := by
        have hno := hexecuting k
        cases hst : s.os.coreState k with
        | unmapOpDone => exact .inr ⟨_, _, _, .inl rfl⟩
        | unmapShootdownWaiting => exact .inr ⟨_, _, _, .inr rfl⟩
        | mapExecuting | unmapOpExecuting =>
          rw [hst] at hno
          cases hno
        | idle | mapWaiting | unmapWaiting =>
          rw [hst] at hk
          cases hk
      obtain ⟨s', hserved, hidle⟩ := h.exists_idle hrunning hfinished
      refine ⟨k, s', fun hr ↦ ?_, hserved, hidle⟩
      rw [hr] at hk
      cases hk
    · have hnone : ∀ k, (s.os.coreState k).holdsLock = false := by
        intro k
        rw [← Bool.not_eq_true]
        exact fun hk ↦ hholder ⟨k, hk⟩
      have hlock : s.os.kernelLock c = none := kernelLock_of_not_holdsLock hnone
      -- a core that is not idle waits with its request
      obtain ⟨k, hk⟩ := not_forall.mp hnot
      obtain ⟨hne, hpages⟩ := not_or.mp hk
      have hwaiting : (∃ ultId vaddr, s.os.coreState k = .unmapWaiting ultId vaddr) ∨
          3 ≤ allocAvailablePages s.os.hw.globalPt ∧
            ∃ ultId vaddr pte, s.os.coreState k = .mapWaiting ultId vaddr pte := by
        have hno := hnone k
        cases hst : s.os.coreState k with
        | idle => exact absurd hst hne
        | mapWaiting ultId vaddr pte =>
          refine .inr ⟨?_, ultId, vaddr, pte, rfl⟩
          by_contra hlt
          exact hpages ⟨⟨ultId, vaddr, pte, hst⟩, Nat.lt_of_not_le hlt⟩
        | unmapWaiting ultId vaddr => exact .inl ⟨ultId, vaddr, rfl⟩
        | _ =>
          rw [hst] at hno
          cases hno
      obtain ⟨s', hserved, hidle⟩ := h.exists_called hrunning hlock hwaiting
      exact ⟨k, s', hne, hserved, hidle⟩

/-- From every reachable state of the kernel, steps that serve the requests taken so far lead to
one in which every core is idle, but for maps that wait while fewer than three pages are left. No
call stops the program, no core waits for the lock or for a shootdown forever. -/
theorem kernel_settles (c : OSConstants) {s : KernelVariables M}
    (hreach : (kernelMachine c).Reachable s) : ∃ steps t, (kernelMachine c).Run s steps t ∧
    (∀ l ∈ steps, l.Serves) ∧ Settled t := by
  have hsettles : ∃ t, ServingRun c s t ∧ Settled t := by
    have h := KernelInv.of_reachable hreach
    clear hreach
    -- by induction on the number of cores with a request
    generalize hn : {k | s.os.coreState k ≠ .idle}.ncard = n
    induction n using Nat.strong_induction_on generalizing s with
    | _ n ih =>
      by_cases hsettled : Settled s
      · exact ⟨s, .refl s, hsettled⟩
      · obtain ⟨core, s', hne, hserved, hidle⟩ := h.exists_served hsettled
        have hsub : {k | s'.os.coreState k ≠ .idle} ⊂ {k | s.os.coreState k ≠ .idle} := by
          refine ⟨fun k hk ↦ ?_, fun hle ↦ hle hne hidle⟩
          have hkcore : k ≠ core := by
            rintro rfl
            exact hk hidle
          show s.os.coreState k ≠ .idle
          rw [← hserved.others k hkcore]
          exact hk
        have hfinite : {k | s.os.coreState k ≠ .idle}.Finite :=
          (finite_validCore c.hw).subset fun k hk ↦ h.validCore_of_ne hk
        obtain ⟨t, hrun, ht⟩ := ih _ (hn ▸ Set.ncard_lt_ncard hsub hfinite) (hserved.run.inv h) rfl
        exact ⟨t, hserved.run.trans hrun, ht⟩
  obtain ⟨t, ⟨steps, hrun, hsteps⟩, ht⟩ := hsettles
  exact ⟨steps, t, hrun, hsteps, ht⟩

end Progress

open TwoCores in
attribute [local instance] widePhyAddr in
/-- One core is in the middle of its map, the other waits for the lock. -/
theorem kernel_settles_twoCores : ∃ s : KernelVariables BumpMemory,
    (∃ r, s.running = some r ∧ r.core = core0) ∧
    s.os.coreState core1 = .mapWaiting 1 otherVaddr otherPage ∧
    ∃ steps t, (kernelMachine c).Run s steps t ∧ (∀ l ∈ steps, l.Serves) ∧ Settled t := by
  have hinit : KernelInit c ⟨state lowMemory .idle .idle, rootDir, none⟩ :=
    ⟨init lowMemory_init, List.length_replicate, rfl, rfl⟩
  have hfirst : KernelNext c ⟨state lowMemory .idle .idle, rootDir, none⟩ (.os _)
      ⟨state lowMemory (.mapWaiting 0 vaddr smallPage) .idle, rootDir, none⟩ :=
    .os (.mapStart 0 vaddr smallPage) _ rfl (first_checked lowMemory_init (by decide))
  have hsecond : KernelNext c ⟨state lowMemory (.mapWaiting 0 vaddr smallPage) .idle, rootDir, none⟩
      (.os _) ⟨state lowMemory (.mapWaiting 0 vaddr smallPage)
        (.mapWaiting 1 otherVaddr otherPage), rootDir, none⟩ :=
    .os (.mapStart 1 otherVaddr otherPage) _ rfl (second_checked lowMemory_init (by decide))
  have hwaiting := hsecond.reachable (hfirst.reachable (.of_init hinit))
  have hinv := KernelInv.of_reachable hwaiting
  obtain ⟨result, mem, record, pt, hcall, _⟩ :=
    mapFrame_onCourse (hinv.tree rfl) (by decide) (hinv.admitted core0) core0 0
  have hlock : (state lowMemory (.mapWaiting 0 vaddr smallPage)
      (.mapWaiting 1 otherVaddr otherPage)).kernelLock c = none := by
    have hstart : NextStep c (state lowMemory (.mapWaiting 0 vaddr smallPage)
        (.mapWaiting 1 otherVaddr otherPage)) _ (.mapOpStart core0) := mapOpStart0 rfl
    obtain ⟨_, _, _, hop⟩ := hstart
    exact hop.lock
  have hcalled := KernelNext.callMap core0 0 vaddr smallPage result mem record pt
    ((validCore_iff _).mpr (.inl rfl)) rfl hlock rfl (by decide) hcall
  exact ⟨_, ⟨_, rfl, rfl⟩, rfl, kernel_settles c (hcalled.reachable hwaiting)⟩

end NrKernel.OS
