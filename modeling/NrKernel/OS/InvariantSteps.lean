import NrKernel.OS.Invariant
import NrKernel.PageTable.Refinement

/-!
# The steps of the OS keep its invariant

For every step: what a process sees of it, and that it keeps the invariant. Starting an unmap
takes a mapping away from the process, ending a map adds one, and everything in between is
invisible.
-/

namespace NrKernel.OS

open Lib PageTable CoreState OSVariables

section Steps

variable {M : Type} [PtMemoryOps M] [PhyAddrWidth] {c : OSConstants} {s s1 s2 : OSVariables M}
  {core : Core} {st : CoreState}

/-! ## Soundness of requests as a process sees it -/

omit [PhyAddrWidth] [PtMemoryOps M] in
/-- A core with a request in flight is among the cores the OS asks. -/
theorem coreState_mem_values {ultId : Nat} (h : (s.coreState core).ultId? = some ultId) :
    s.coreState core ∈ s.coreStates.values := by
  refine ⟨core, coreStates_of_ne_idle fun hidle ↦ ?_⟩
  rw [hidle] at h
  cases h

/-- A region that overlaps no operation of the OS in flight overlaps no request in flight. -/
theorem not_overlap_requests {base size : Nat}
    (h : ¬candidateMappingOverlapsInflightVmem s.interpPtMem s.coreStates.values base size) :
    ¬HlSpec.candidateMappingOverlapsInflightVmem (s.interpThreadState c).values base size := by
  rintro ⟨a, ⟨id, hid⟩, hov⟩
  rcases (interpThreadState_eq_some hid).2 with rfl | ⟨hult, rfl⟩
  · exact hov
  · refine h ⟨_, coreState_mem_values hult, ?_⟩
    cases hst : s.coreState (c.ultCore id) with
    | idle =>
      rw [hst] at hov
      exact hov
    | _ =>
      rw [hst] at hov
      exact hov

-- A frame that overlaps no operation of the OS in flight overlaps no request in flight.
private theorem not_overlap_request_frames {pte : PageTableEntry}
    (h : ¬candidateMappingOverlapsInflightPmem s.interpPtMem s.coreStates.values pte) :
    ¬HlSpec.candidateMappingOverlapsInflightPmem (s.interpThreadState c).values pte := by
  rintro ⟨a, ⟨id, hid⟩, hov⟩
  rcases (interpThreadState_eq_some hid).2 with rfl | ⟨hult, rfl⟩
  · exact hov
  · refine h ⟨_, coreState_mem_values hult, ?_⟩
    have hok : ∀ {result : Except Unit PageTableEntry} {p : PageTableEntry},
        result.toOption = some p → result = .ok p := by
      intro result p hp
      cases result with
      | error => cases hp
      | ok q => exact congrArg Except.ok (Option.some.inj hp)
    cases hst : s.coreState (c.ultCore id) with
    | idle =>
      rw [hst] at hov
      exact hov
    | mapWaiting =>
      rw [hst] at hov
      exact hov
    | mapExecuting =>
      rw [hst] at hov
      exact hov
    | unmapWaiting =>
      rw [hst] at hov
      exact hov
    | _ =>
      rw [hst] at hov
      obtain ⟨p, hp, hov⟩ := hov
      exact ⟨p, hok hp, hov⟩

/-- What the OS checks of a map request is enough for the high-level machine. -/
theorem StepMapSound.interp {vaddr : Nat} {pte : PageTableEntry}
    (h : StepMapSound s.interpPtMem s.coreStates.values vaddr pte) :
    HlSpec.StepMapSound s.effectiveMappings (s.interpThreadState c).values vaddr pte where
  inflight_vmem := not_overlap_requests h.inflight_vmem
  existing_pmem := fun ⟨b, p, hb, hov⟩ ↦
    h.existing_pmem ⟨b, p, (interpPtMem_of_effective hb).1, hov⟩
  inflight_pmem := not_overlap_request_frames h.inflight_pmem

/-! ## The interpretation of each step -/

namespace StepMapStart

variable {ultId vaddr : Nat} {pte : PageTableEntry}

/-- The start of a map keeps the effective mappings. -/
theorem effectiveMappings_eq (hstep : StepMapStart c s1 s2 ultId vaddr pte) :
    s2.effectiveMappings = s1.effectiveMappings := by
  apply OSVariables.effectiveMappings_eq
  · apply unmapping_insert hstep.coreStates_eq
    rw [hstep.idle]
    rfl
  · exact fun v _ ↦ congrFun (interpPtMem_of_stutter hstep.pt) v

/-- The process has its map in flight. -/
theorem interpThreadState_eq (hstep : StepMapStart c s1 s2 ultId vaddr pte) :
    s2.interpThreadState c = (s1.interpThreadState c).insert ultId (.map vaddr pte) :=
  OsInv.interpThreadState_start hstep.valid hstep.idle hstep.coreStates_eq rfl
    (interpPtMem_of_stutter hstep.pt)

/-- The start of a map keeps the invariant. -/
theorem osInv (hstep : StepMapStart c s1 s2 ultId vaddr pte) (h : OsInv c s1) : OsInv c s2 := by
  have hview := interpPtMem_of_stutter hstep.pt
  apply h.move (h.ult_core ultId hstep.valid) hstep.coreStates_eq
  · exact fun hlock ↦ Bool.noConfusion hlock
  · intro id hid
    rw [← Option.some.inj hid]
    exact ⟨hstep.valid, rfl⟩
  · intro v result hv
    cases hv
  · intro k _ v result hk
    rw [hview]
    exact h.unmapped k v result hk
  · rw [hstep.effectiveMappings_eq, hstep.interpThreadState_eq]
    exact h.separated.mapStart ultId hstep.enabled.toStepMapEnabled.isPage hstep.sound_eq.2.interp
  · exact hstep.sound_eq.1

end StepMapStart

namespace StepUnmapStart

variable {ultId vaddr : Nat}

private theorem not_unmapping (hstep : StepUnmapStart c s1 s2 ultId vaddr) :
    ¬s1.Unmapping vaddr := by
  rintro ⟨k, st, hk, hv⟩
  refine hstep.sound_eq.2 ⟨st, ⟨k, hk⟩, ?_⟩
  cases st with
  | idle => cases hv
  | mapWaiting => cases hv
  | mapExecuting => cases hv
  | _ =>
    cases hv
    exact overlap_of_base_eq rfl

private theorem effective_vaddr (hstep : StepUnmapStart c s1 s2 ultId vaddr) :
    s1.effectiveMappings vaddr = s1.interpPtMem vaddr :=
  effectiveMappings_of_not_unmapping hstep.not_unmapping

/-- The start of an unmap takes its address out of the effective mappings. -/
theorem effectiveMappings_eq (hstep : StepUnmapStart c s1 s2 ultId vaddr) :
    s2.effectiveMappings = s1.effectiveMappings.remove vaddr := by
  have hview := interpPtMem_of_stutter hstep.pt
  ext v : 1
  by_cases hv : v = vaddr
  · rw [hv, PMap.remove_self]
    exact effectiveMappings_of_unmapping (.insert_self hstep.coreStates_eq rfl)
  · rw [PMap.remove_of_ne _ hv]
    by_cases hu : s1.Unmapping v
    · rw [effectiveMappings_of_unmapping hu, effectiveMappings_of_unmapping]
      rcases hu.insert hstep.coreStates_eq with hidle | hu2
      · rw [hstep.idle] at hidle
        cases hidle
      · exact hu2
    · rw [effectiveMappings_of_not_unmapping hu, effectiveMappings_of_not_unmapping, hview]
      intro hu2
      rcases hu2.of_insert hstep.coreStates_eq with heq | hu1
      · exact hv (Option.some.inj heq).symm
      · exact hu hu1

/-- The process has its unmap in flight. -/
theorem interpThreadState_eq (hstep : StepUnmapStart c s1 s2 ultId vaddr) :
    s2.interpThreadState c =
      (s1.interpThreadState c).insert ultId (.unmap vaddr (s1.effectiveMappings vaddr)) := by
  rw [hstep.effective_vaddr]
  exact OsInv.interpThreadState_start hstep.valid hstep.idle hstep.coreStates_eq rfl
    (interpPtMem_of_stutter hstep.pt)

/-- What the OS checks of an unmap request is enough for the high-level machine. -/
theorem sound_interp (hstep : StepUnmapStart c s1 s2 ultId vaddr) :
    HlSpec.stepUnmapSound (s1.interpThreadState c).values vaddr
      (HlSpec.sizeOf? (s1.effectiveMappings vaddr)) := by
  rw [hstep.effective_vaddr]
  exact not_overlap_requests hstep.sound_eq.2

/-- The start of an unmap keeps the invariant. -/
theorem osInv (hstep : StepUnmapStart c s1 s2 ultId vaddr) (h : OsInv c s1) : OsInv c s2 := by
  have hview := interpPtMem_of_stutter hstep.pt
  have hsound := hstep.sound_interp
  apply h.move (h.ult_core ultId hstep.valid) hstep.coreStates_eq
  · exact fun hlock ↦ Bool.noConfusion hlock
  · intro id hid
    rw [← Option.some.inj hid]
    exact ⟨hstep.valid, rfl⟩
  · intro v result hv
    cases hv
  · intro k _ v result hk
    rw [hview]
    exact h.unmapped k v result hk
  · rw [hstep.effectiveMappings_eq, hstep.interpThreadState_eq]
    cases hpte : s1.effectiveMappings vaddr with
    | none =>
      rw [hpte] at hsound
      rw [PMap.remove_of_eq_none hpte]
      exact h.separated.unmapStart_none ultId hsound
    | some pte =>
      rw [hpte] at hsound
      exact h.separated.unmapStart ultId hpte hsound
  · exact hstep.sound_eq.1

end StepUnmapStart

namespace StepMapEnd

variable {result : Except Unit Unit} {ultId vaddr : Nat} {pte : PageTableEntry}

/-- Where the core maps, nothing is being unmapped. -/
theorem not_unmapping (hstep : StepMapEnd c s1 s2 core result ultId vaddr pte) (h : OsInv c s1) :
    ¬s1.Unmapping vaddr := by
  have hv : (s1.coreState core).vaddr? = some vaddr := by
    rw [hstep.state]
    rfl
  apply h.not_unmapping hv
  rw [hstep.state]
  rfl

/-- What overlaps the page table overlaps what the process sees. -/
theorem overlaps_effective (hstep : StepMapEnd c s1 s2 core result ultId vaddr pte)
    (h : OsInv c s1) (hov : candidateMappingOverlapsExistingVmem s1.interpPtMem vaddr pte) :
    candidateMappingOverlapsExistingVmem s1.effectiveMappings vaddr pte := by
  obtain ⟨b, p, hb, hov⟩ := hov
  by_cases hu : s1.Unmapping b
  · -- a mapping that is being unmapped is where another request is
    obtain ⟨k, st, hk, hv⟩ := hu
    have hkst := coreState_of_eq hk
    have hne : core ≠ k := by
      rintro rfl
      rw [← hkst, hstep.state] at hv
      cases hv
    refine absurd hov ?_
    have hv₁ : (s1.coreState core).vaddr? = some vaddr := by
      rw [hstep.state]
      rfl
    have hv₂ : (s1.coreState k).vaddr? = some b := by
      rw [hkst]
      exact vaddr?_of_unmapVaddr? hv
    have hno := h.not_overlap hne hv₁ hv₂
    rw [hstep.state, hkst] at hno
    cases hst : st with
    | idle =>
      rw [hst] at hv
      cases hv
    | mapWaiting =>
      rw [hst] at hv
      cases hv
    | mapExecuting =>
      rw [hst] at hv
      cases hv
    | unmapWaiting ultId v =>
      rw [hst] at hv hno
      cases hv
      rw [inflightPte, inflightPte, hb] at hno
      exact hno
    | _ =>
      -- it has been removed from the page table already
      have hgone := h.unmapped k b _ (by rw [hkst, hst]; rw [hst] at hv; cases hv; rfl)
      rw [hb] at hgone
      cases hgone
  · exact ⟨b, p, (effectiveMappings_of_not_unmapping hu).trans hb, hov⟩

/-- The view after a map operation: the new entry was added, or nothing was. -/
theorem view_cases (hstep : StepMapEnd c s1 s2 core result ultId vaddr pte) :
    (candidateMappingOverlapsExistingVmem s1.interpPtMem vaddr pte ∧ result = .error () ∧
        s2.interpPtMem = s1.interpPtMem) ∨
      (¬candidateMappingOverlapsExistingVmem s1.interpPtMem vaddr pte ∧ result = .ok () ∧
        s2.interpPtMem = s1.interpPtMem.insert vaddr pte) := by
  have hpt := hstep.pt
  rw [SpecPt.stepMapEnd, interp_ptVariables, interp_ptVariables] at hpt
  by_cases hov : candidateMappingOverlapsExistingVmem s1.interpPtMem vaddr pte
  · exact .inl ⟨hov, hpt.1 hov⟩
  · exact .inr ⟨hov, hpt.2 hov⟩

/-- A map operation changes nothing at other addresses. -/
theorem view_of_ne (hstep : StepMapEnd c s1 s2 core result ultId vaddr pte) {v : Nat}
    (hne : v ≠ vaddr) : s2.interpPtMem v = s1.interpPtMem v := by
  rcases hstep.view_cases with ⟨_, _, hview⟩ | ⟨_, _, hview⟩
  · rw [hview]
  · rw [hview, PMap.insert_of_ne _ _ hne]

/-- No other operation in flight is about the address that is mapped. -/
theorem vaddr_ne (hstep : StepMapEnd c s1 s2 core result ultId vaddr pte) (h : OsInv c s1)
    {k : Core} (hne : k ≠ core) {v : Nat} (hv : (s1.coreState k).vaddr? = some v) : v ≠ vaddr := by
  apply h.vaddr_ne hne hv
  rw [hstep.state]
  rfl

/-- The process has nothing in flight after its map has ended. -/
theorem interpThreadState_eq (hstep : StepMapEnd c s1 s2 core result ultId vaddr pte)
    (h : OsInv c s1) :
    s2.interpThreadState c = (s1.interpThreadState c).insert ultId .empty := by
  have hult : (s1.coreState core).ultId? = some ultId := by
    rw [hstep.state]
    rfl
  apply h.interpThreadState_finish hult hstep.coreStates_eq
  exact fun k hne v hv ↦ hstep.view_of_ne (hstep.vaddr_ne h hne (vaddr?_of_unmapVaddr? hv))

/-- Mapping an address does not change what is being unmapped. -/
theorem unmapping_iff (hstep : StepMapEnd c s1 s2 core result ultId vaddr pte) (v : Nat) :
    s2.Unmapping v ↔ s1.Unmapping v := by
  apply unmapping_insert hstep.coreStates_eq
  rw [hstep.state]
  rfl

private theorem effectiveMappings_eq_insert (hstep : StepMapEnd c s1 s2 core result ultId vaddr pte)
    (h : OsInv c s1) (hview : s2.interpPtMem = s1.interpPtMem.insert vaddr pte) :
    s2.effectiveMappings = s1.effectiveMappings.insert vaddr pte := by
  ext v : 1
  by_cases hu : s1.Unmapping v
  · have hv : v ≠ vaddr := fun heq ↦ hstep.not_unmapping h (heq ▸ hu)
    rw [PMap.insert_of_ne _ _ hv, effectiveMappings_of_unmapping hu,
      effectiveMappings_of_unmapping ((hstep.unmapping_iff v).mpr hu)]
  · rw [effectiveMappings_of_not_unmapping (mt (hstep.unmapping_iff v).mp hu), hview]
    by_cases hv : v = vaddr
    · rw [hv, PMap.insert_self, PMap.insert_self]
    · rw [PMap.insert_of_ne _ _ hv, PMap.insert_of_ne _ _ hv, effectiveMappings_of_not_unmapping hu]

/-- What a process sees of a map operation that ends: it failed, as its region overlaps a
mapping, or its entry was added. -/
theorem effective_cases (hstep : StepMapEnd c s1 s2 core result ultId vaddr pte)
    (h : OsInv c s1) :
    (candidateMappingOverlapsExistingVmem s1.effectiveMappings vaddr pte ∧ result = .error () ∧
        s2.effectiveMappings = s1.effectiveMappings) ∨
      (¬candidateMappingOverlapsExistingVmem s1.effectiveMappings vaddr pte ∧ result = .ok () ∧
        s2.effectiveMappings = s1.effectiveMappings.insert vaddr pte) := by
  rcases hstep.view_cases with ⟨hov, hresult, hview⟩ | ⟨hov, hresult, hview⟩
  · refine .inl ⟨hstep.overlaps_effective h hov, hresult, ?_⟩
    exact OSVariables.effectiveMappings_eq hstep.unmapping_iff fun v _ ↦ congrFun hview v
  · refine .inr ⟨?_, hresult, hstep.effectiveMappings_eq_insert h hview⟩
    rintro ⟨b, p, hb, hbov⟩
    exact hov ⟨b, p, (interpPtMem_of_effective hb).1, hbov⟩

/-- The process had its map in flight. -/
theorem interpThreadState_core (hstep : StepMapEnd c s1 s2 core result ultId vaddr pte)
    (h : OsInv c s1) : s1.interpThreadState c ultId = some (.map vaddr pte) := by
  have hult : (s1.coreState core).ultId? = some ultId := by
    rw [hstep.state]
    rfl
  rw [h.interpThreadState_core hult, hstep.state]
  rfl

/-- The end of a map keeps the invariant. -/
theorem osInv (hstep : StepMapEnd c s1 s2 core result ultId vaddr pte) (h : OsInv c s1) :
    OsInv c s2 := by
  apply h.move hstep.valid hstep.coreStates_eq
  · exact fun hlock ↦ Bool.noConfusion hlock
  · intro id hid
    cases hid
  · intro v r hv
    cases hv
  · intro k hne v r hk
    have hv := vaddr?_of_unmapVaddr? (unmapVaddr?_of_unmapped? hk)
    rw [hstep.view_of_ne (hstep.vaddr_ne h hne hv)]
    exact h.unmapped k v r hk
  · rw [hstep.interpThreadState_eq h]
    rcases hstep.effective_cases h with ⟨_, _, heff⟩ | ⟨hov, _, heff⟩
    · rw [heff]
      exact h.separated.finish ultId
    · rw [heff]
      exact h.separated.mapEnd (hstep.interpThreadState_core h) hov
  · exact hstep.sound_eq

end StepMapEnd

namespace StepUnmapOpStart

variable {result : Except Unit Unit} {ultId vaddr : Nat}

/-- The unmap operation succeeds exactly where something is mapped. -/
theorem result_eq (hstep : StepUnmapOpStart c s1 s2 core result ultId vaddr) :
    result = if (s1.interpPtMem vaddr).isSome then .ok () else .error () := by
  have hpt := hstep.pt
  rw [SpecPt.stepUnmapStart, interp_ptVariables, interp_ptVariables] at hpt
  split at hpt
  · rename_i hsome
    rw [if_pos hsome]
    exact hpt.1
  · rename_i hnone
    rw [if_neg hnone]
    exact hpt.1

/-- After an unmap operation its address is not mapped, and nothing else has changed. -/
theorem view_eq (hstep : StepUnmapOpStart c s1 s2 core result ultId vaddr) :
    s2.interpPtMem = s1.interpPtMem.remove vaddr := by
  have hpt := hstep.pt
  rw [SpecPt.stepUnmapStart, interp_ptVariables, interp_ptVariables] at hpt
  split at hpt
  · exact hpt.2
  · rename_i hnone
    rw [hpt.2, PMap.remove_of_eq_none (Option.not_isSome_iff_eq_none.mp hnone)]

/-- The core keeps the entry it removed. -/
theorem unmapResult_toOption (hstep : StepUnmapOpStart c s1 s2 core result ultId vaddr) :
    (unmapResult s1.interpPtMem vaddr result).toOption = s1.interpPtMem vaddr := by
  rw [hstep.result_eq]
  unfold unmapResult
  cases s1.interpPtMem vaddr with
  | none => rfl
  | some pte => rfl

/-- Unmapping a mapped page succeeds with it. -/
theorem unmapResult_of_some (hstep : StepUnmapOpStart c s1 s2 core result ultId vaddr)
    {pte : PageTableEntry} (hpte : s1.interpPtMem vaddr = some pte) :
    unmapResult s1.interpPtMem vaddr result = .ok pte := by
  rw [hstep.result_eq]
  unfold unmapResult
  rw [hpte]
  rfl

/-- Taking a page out of the page table is invisible to processes. -/
theorem interp_eq (hstep : StepUnmapOpStart c s1 s2 core result ultId vaddr) (h : OsInv c s1) :
    s2.effectiveMappings = s1.effectiveMappings ∧
      s2.interpThreadState c = s1.interpThreadState c := by
  apply h.interp_continue hstep.state hstep.coreStates_eq
  · rfl
  · rfl
  · rfl
  · rw [arguments, arguments, hstep.unmapResult_toOption]
  · intro v hv
    rw [hstep.view_eq, PMap.remove_of_ne _ fun heq ↦ hv (congrArg some heq.symm)]

private theorem osInv (hstep : StepUnmapOpStart c s1 s2 core result ultId vaddr) (h : OsInv c s1) :
    OsInv c s2 := by
  apply h.move_continue hstep.state hstep.coreStates_eq
  · rfl
  · rfl
  · intro k hk
    rw [not_holdsLock_of_kernelLock h.states_dom hstep.lock] at hk
    cases hk
  · rfl
  · rw [arguments, arguments, hstep.unmapResult_toOption]
  · intro v r hv
    cases hv
    rw [hstep.view_eq, PMap.remove_self]
  · intro v hv
    rw [hstep.view_eq, PMap.remove_of_ne _ fun heq ↦ hv (congrArg some heq.symm)]
  · exact hstep.sound_eq

end StepUnmapOpStart

namespace StepUnmapEnd

omit [PtMemoryOps M] [PhyAddrWidth] in
/-- The request a core ends: an unmap that changed the page table, whose shootdown was
acknowledged or not needed. -/
theorem state_cases (hstep : StepUnmapEnd c s1 s2 core) : ∃ ultId vaddr result,
    (s1.coreState core = .unmapShootdownWaiting ultId vaddr result ∧
      s1.tlbShootdown.openRequests = ∅) ∨
    s1.coreState core = .unmapOpDone ultId vaddr result ∧ result = .error () := by
  have hstate := hstep.state
  split at hstate
  · rename_i ultId vaddr result heq
    exact ⟨ultId, vaddr, result, .inl ⟨heq, hstate⟩⟩
  · rename_i ultId vaddr result heq
    exact ⟨ultId, vaddr, result, .inr ⟨heq, hstate⟩⟩
  · exact hstate.elim

omit [PtMemoryOps M] [PhyAddrWidth] in
/-- Either state in which an unmap can end names its thread, its address and its result. -/
theorem request_of_state {st : CoreState} {ultId vaddr : Nat}
    {result : Except Unit PageTableEntry}
    (hst : st = .unmapShootdownWaiting ultId vaddr result ∨ st = .unmapOpDone ultId vaddr result)
    (pt : Nat → Option PageTableEntry) :
    st.ultId? = some ultId ∧ st.unmapped? = some (vaddr, result) ∧
      st.arguments pt = .unmap vaddr result.toOption := by
  rcases hst with rfl | rfl
  · exact ⟨rfl, rfl, rfl⟩
  · exact ⟨rfl, rfl, rfl⟩

/-- Ending an unmap shows a process nothing new: its address is not mapped. -/
theorem effectiveMappings_eq (hstep : StepUnmapEnd c s1 s2 core) (h : OsInv c s1) {vaddr : Nat}
    {result : Except Unit PageTableEntry}
    (hst : (s1.coreState core).unmapped? = some (vaddr, result)) :
    s2.effectiveMappings = s1.effectiveMappings := by
  have hview := interpPtMem_of_stutter hstep.pt
  ext v : 1
  by_cases hu : s1.Unmapping v
  · rw [effectiveMappings_of_unmapping hu]
    rcases hu.insert hstep.coreStates_eq with hv | hu2
    · rw [unmapVaddr?_of_unmapped? hst] at hv
      by_contra hne
      obtain ⟨pte, hpte⟩ := Option.ne_none_iff_exists'.mp hne
      have hpt := (interpPtMem_of_effective hpte).1
      rw [hview, ← Option.some.inj hv, h.unmapped core vaddr result hst] at hpt
      cases hpt
    · exact effectiveMappings_of_unmapping hu2
  · rw [effectiveMappings_of_not_unmapping hu, effectiveMappings_of_not_unmapping, hview]
    intro hu2
    rcases hu2.of_insert hstep.coreStates_eq with hv | hu1
    · cases hv
    · exact hu hu1

/-- The process has nothing in flight after its unmap has ended. -/
theorem interpThreadState_eq (hstep : StepUnmapEnd c s1 s2 core) (h : OsInv c s1) {ultId : Nat}
    (hult : (s1.coreState core).ultId? = some ultId) :
    s2.interpThreadState c = (s1.interpThreadState c).insert ultId .empty :=
  h.interpThreadState_finish hult hstep.coreStates_eq fun _ _ v _ ↦
    congrFun (interpPtMem_of_stutter hstep.pt) v

private theorem osInv (hstep : StepUnmapEnd c s1 s2 core) (h : OsInv c s1) : OsInv c s2 := by
  obtain ⟨ultId, vaddr, result, hst⟩ := hstep.state_cases
  obtain ⟨hult, hunmapped, -⟩ := request_of_state (hst.imp And.left And.left) s1.interpPtMem
  apply h.move hstep.valid hstep.coreStates_eq
  · exact fun hlock ↦ Bool.noConfusion hlock
  · intro id hid
    cases hid
  · intro v r hv
    cases hv
  · intro k _ v r hk
    rw [interpPtMem_of_stutter hstep.pt]
    exact h.unmapped k v r hk
  · rw [hstep.effectiveMappings_eq h hunmapped, hstep.interpThreadState_eq h hult]
    exact h.separated.finish ultId
  · exact hstep.sound_eq

end StepUnmapEnd

/-! ## Steps a process does not see -/

namespace OsInv

/-- A core that goes on with its request and leaves the view of the page table alone changes
nothing that a process sees. -/
theorem interp_continue_of_view (h : OsInv c s1) {old : CoreState}
    (hstate : s1.coreState core = old) (hstates : s2.coreStates = s1.coreStates.insert core st)
    (hpt : s2.interpPtMem = s1.interpPtMem) {ultId : Nat} (hold : old.ultId? = some ultId)
    (hnew : st.ultId? = some ultId) (hunmap : st.unmapVaddr? = old.unmapVaddr?)
    (hargs : st.arguments s1.interpPtMem = old.arguments s1.interpPtMem) :
    s2.effectiveMappings = s1.effectiveMappings ∧
      s2.interpThreadState c = s1.interpThreadState c := by
  apply h.interp_continue hstate hstates hold hnew hunmap
  · rw [hpt, hargs]
  · exact fun v _ ↦ congrFun hpt v

/-- A core that keeps the lock goes on with its request. -/
theorem move_continue_of_lock (h : OsInv c s1) {old : CoreState}
    (hstate : s1.coreState core = old) (hstates : s2.coreStates = s1.coreStates.insert core st)
    (hpt : s2.interpPtMem = s1.interpPtMem) {ultId : Nat} (hold : old.ultId? = some ultId)
    (hnew : st.ultId? = some ultId) (hlock : old.holdsLock = true)
    (hunmap : st.unmapVaddr? = old.unmapVaddr?)
    (hargs : st.arguments s1.interpPtMem = old.arguments s1.interpPtMem)
    (hunmapped : st.unmapped? = old.unmapped?)
    (hsound : s2.sound = s1.sound) : OsInv c s2 := by
  subst hstate
  apply h.move_continue rfl hstates hold hnew _ hunmap _ _ _ hsound
  · exact fun k hk ↦ h.lock_unique k core hk hlock
  · rw [hpt, hargs]
  · intro v r hv
    rw [hpt]
    exact h.unmapped core v r (hunmapped ▸ hv)
  · exact fun v _ ↦ congrFun hpt v

end OsInv

/-- Starting to map keeps the view of the page table. -/
theorem interpPtMem_of_stepMapStart (h : SpecPt.stepMapStart s1.ptVariables s2.ptVariables) :
    s2.interpPtMem = s1.interpPtMem := by
  rw [← interp_ptVariables, ← interp_ptVariables, show s2.ptVariables = s1.ptVariables from h]

/-- Finishing to unmap keeps the view of the page table. -/
theorem interpPtMem_of_stepUnmapEnd (h : SpecPt.stepUnmapEnd s1.ptVariables s2.ptVariables) :
    s2.interpPtMem = s1.interpPtMem := by
  rw [← interp_ptVariables, ← interp_ptVariables, show s2.ptVariables = s1.ptVariables from h]

/-- A stutter of the view keeps it. -/
theorem interpPtMem_of_viewStutter
    (h : SpecPt.stepViewStutter s1.ptVariables s2.ptVariables) :
    s2.interpPtMem = s1.interpPtMem := by
  rw [← interp_ptVariables, ← interp_ptVariables]
  exact h

section Internal

variable {ultId vaddr : Nat} {pte : PageTableEntry} {result : Except Unit PageTableEntry}

/-- Taking the lock for a map is invisible to processes. -/
theorem StepMapOpStart.interp_eq (hstep : StepMapOpStart c s1 s2 core ultId vaddr pte)
    (h : OsInv c s1) :
    s2.effectiveMappings = s1.effectiveMappings ∧
      s2.interpThreadState c = s1.interpThreadState c := by
  apply h.interp_continue_of_view hstep.state hstep.coreStates_eq
    (interpPtMem_of_stepMapStart hstep.pt)
  · rfl
  · rfl
  · rfl
  · rfl

private theorem StepMapOpStart.osInv (hstep : StepMapOpStart c s1 s2 core ultId vaddr pte)
    (h : OsInv c s1) : OsInv c s2 := by
  have hview := interpPtMem_of_stepMapStart hstep.pt
  apply h.move_continue hstep.state hstep.coreStates_eq
  · rfl
  · rfl
  · intro k hk
    rw [not_holdsLock_of_kernelLock h.states_dom hstep.lock] at hk
    cases hk
  · rfl
  · rfl
  · intro v r hv
    cases hv
  · exact fun v _ ↦ congrFun hview v
  · exact hstep.sound_eq

/-- The end of the page table's unmap is invisible to processes. -/
theorem StepUnmapOpEnd.interp_eq (hstep : StepUnmapOpEnd c s1 s2 core ultId vaddr result)
    (h : OsInv c s1) :
    s2.effectiveMappings = s1.effectiveMappings ∧
      s2.interpThreadState c = s1.interpThreadState c := by
  apply h.interp_continue_of_view hstep.state hstep.coreStates_eq
    (interpPtMem_of_stepUnmapEnd hstep.pt)
  · rfl
  · rfl
  · rfl
  · rfl

private theorem StepUnmapOpEnd.osInv (hstep : StepUnmapOpEnd c s1 s2 core ultId vaddr result)
    (h : OsInv c s1) : OsInv c s2 := by
  apply h.move_continue_of_lock hstep.state hstep.coreStates_eq
    (interpPtMem_of_stepUnmapEnd hstep.pt)
  · rfl
  · rfl
  · rfl
  · rfl
  · rfl
  · rfl
  · exact hstep.sound_eq

/-- The start of a shootdown is invisible to processes. -/
theorem StepUnmapInitiateShootdown.interp_eq
    (hstep : StepUnmapInitiateShootdown c s1 s2 core ultId vaddr pte) (h : OsInv c s1) :
    s2.effectiveMappings = s1.effectiveMappings ∧
      s2.interpThreadState c = s1.interpThreadState c := by
  apply h.interp_continue_of_view hstep.state hstep.coreStates_eq
    (interpPtMem_of_stutter hstep.pt)
  · rfl
  · rfl
  · rfl
  · rfl

private theorem StepUnmapInitiateShootdown.osInv
    (hstep : StepUnmapInitiateShootdown c s1 s2 core ultId vaddr pte) (h : OsInv c s1) :
    OsInv c s2 := by
  apply h.move_continue_of_lock hstep.state hstep.coreStates_eq (interpPtMem_of_stutter hstep.pt)
  · rfl
  · rfl
  · rfl
  · rfl
  · rfl
  · rfl
  · exact hstep.sound_eq

end Internal

/-! ## All reachable states -/

/-- Initially every core is idle. -/
theorem Init.coreState_eq (h : Init c s) (k : Core) : s.coreState k = .idle := by
  by_cases hk : validCore c.hw k
  · exact h.states_idle k hk
  · rw [h.states_dom k, Option.not_isSome_iff_eq_none] at hk
    rw [coreState, hk]
    rfl

/-- Initially a process sees no mappings. -/
theorem Init.effectiveMappings_eq (h : Init c s) : s.effectiveMappings = PMap.empty := by
  ext v : 1
  by_contra hne
  obtain ⟨pte, hpte⟩ := Option.ne_none_iff_exists'.mp hne
  have hpt := (interpPtMem_of_effective hpte).1
  rw [h.pt_empty] at hpt
  cases hpt

/-- The invariant holds at the start. -/
theorem OsInv.of_init (h : Init c s) : OsInv c s := by
  constructor
  · exact h.ult_dom
  · exact h.ult_core
  · exact h.states_dom
  · intro k₁ k₂ h₁
    rw [h.coreState_eq] at h₁
    cases h₁
  · intro k id hid
    rw [h.coreState_eq] at hid
    cases hid
  · intro k v r hv
    rw [h.coreState_eq] at hv
    cases hv
  · rw [h.effectiveMappings_eq]
    apply Separated.of_idle
    intro id a ha
    rcases (interpThreadState_eq_some ha).2 with hempty | ⟨hult, _⟩
    · exact hempty
    · rw [h.coreState_eq] at hult
      cases hult
  · exact h.sound

/-- Every step of the OS keeps the invariant. -/
theorem OsInv.step (h : OsInv c s1) {step : OSStep} (hstep : NextStep c s1 s2 step) :
    OsInv c s2 := by
  cases step with
  | hw ultId step =>
    have hstep : StepHW c s1 s2 ultId step := hstep
    exact h.stay hstep.coreStates_eq (interpPtMem_of_stutter hstep.pt) hstep.sound_eq
  | mapStart ultId vaddr pte => exact StepMapStart.osInv hstep h
  | mapOpStart core =>
    obtain ⟨_, _, _, hstep⟩ := hstep
    exact hstep.osInv h
  | mapEnd core result =>
    obtain ⟨_, _, _, hstep⟩ := hstep
    exact hstep.osInv h
  | unmapStart ultId vaddr => exact StepUnmapStart.osInv hstep h
  | unmapOpStart core result =>
    obtain ⟨_, _, hstep⟩ := hstep
    exact hstep.osInv h
  | unmapOpEnd core =>
    obtain ⟨_, _, _, hstep⟩ := hstep
    exact hstep.osInv h
  | unmapInitiateShootdown core =>
    obtain ⟨_, _, _, hstep⟩ := hstep
    exact hstep.osInv h
  | ackShootdownIPI core =>
    have hstep : StepAckShootdownIPI s1 s2 core := hstep
    exact h.stay hstep.coreStates_eq (interpPtMem_of_stutter hstep.pt) hstep.sound_eq
  | unmapEnd core => exact StepUnmapEnd.osInv hstep h
  | viewStutter core =>
    have hstep : StepViewStutter c s1 s2 core := hstep
    exact h.stay hstep.coreStates_eq (interpPtMem_of_viewStutter hstep.pt) hstep.sound_eq

/-- A step from a reachable state leads to one. -/
theorem NextStep.reachable {step : OSStep} (hstep : NextStep c s1 s2 step)
    (h : (osMachine c).Reachable s1) : (osMachine c).Reachable s2 :=
  h.step hstep

/-- An allowed step from a state reached by allowed steps leads to one. -/
theorem NextStep.reachable_restrict {ok : OSVariables M → OSStep → OSVariables M → Prop}
    {step : OSStep} (hstep : NextStep c s1 s2 step) (hok : ok s1 step s2)
    (hreach : ((osMachine c).restrict ok).Reachable s1) :
    ((osMachine c).restrict ok).Reachable s2 :=
  hreach.step (l := step) ⟨hstep, hok⟩

/-- The invariant of the OS over whole runs. -/
theorem OsInv.of_reachable (hreach : (osMachine c).Reachable s) : OsInv c s :=
  hreach.invariant (fun _ ↦ .of_init) fun _ _ _ h hstep ↦ h.step hstep

end Steps

/-! ## A run

The one core of a machine maps a page, caches it and unmaps it again. -/

namespace ExampleRun

attribute [local instance] widePhyAddr

/-- The only core. -/
def core0 : Core := ⟨0, 0⟩

/-- One core with one thread, and 32 KiB of memory. -/
def c : OSConstants where
  hw := ⟨1, 1, 4096⟩
  ult2core := PMap.empty.insert 0 core0
  ultNo := 1

/-- The page is mapped at this address. -/
def vaddr : Nat := 0x3000

/-- The TLB in which the page is cached. -/
def cached : Mappings := PMap.empty.insert vaddr smallPage

/-- The state of the machine with a page table memory, a TLB, a core state and a shootdown
vector. -/
def state (mem : BumpMemory) (tlb : Mappings) (st : CoreState) (shootdown : ShootdownVector) :
    OSVariables BumpMemory where
  hw :=
    { mem := List.replicate 4096 0
      numas := PMap.empty.insert 0 ⟨PMap.empty.insert 0 ⟨tlb⟩⟩
      globalPt := mem }
  coreStates := PMap.empty.insert core0 st
  tlbShootdown := shootdown
  sound := true

/-- No shootdown has been asked for. -/
def noShootdown : ShootdownVector := ⟨0, ∅⟩

/-- The shootdown of the page, not acknowledged. -/
def requested : ShootdownVector := ⟨vaddr, {k | validCore c.hw k}⟩

/-- The shootdown of the page, acknowledged by the core. -/
def acknowledged : ShootdownVector := ⟨vaddr, {k | validCore c.hw k} \ {core0}⟩

variable {mem mem' : BumpMemory} {tlb tlb' : Mappings} {st st' : CoreState}
  {sd sd' : ShootdownVector}

/-- The machine has one core. -/
theorem validCore_iff (k : Core) : validCore c.hw k ↔ k = core0 := by
  constructor
  · rintro ⟨hnuma, hcore⟩
    have hnuma : k.numaId < 1 := hnuma
    have hcore : k.coreId < 1 := hcore
    cases k with
    | mk numaId coreId =>
      exact congrArg₂ Core.mk (Nat.lt_one_iff.mp hnuma) (Nat.lt_one_iff.mp hcore)
  · rintro rfl
    exact ⟨show 0 < 1 by decide, show 0 < 1 by decide⟩

private theorem acknowledged_openRequests : acknowledged.openRequests = ∅ := by
  ext k
  constructor
  · rintro ⟨hk, hne⟩
    exact hne ((validCore_iff k).mp hk)
  · exact fun h ↦ h.elim

private theorem tlb_state : (state mem tlb st sd).hw.tlb core0 = tlb := rfl

/-- The view of the page table in such a state. -/
theorem view_state [PhyAddrWidth] :
    (state mem tlb st sd).interpPtMem = PageTable.interpPtMem mem := rfl

private theorem coreStates_insert :
    (state mem' tlb' st' sd').coreStates = (state mem tlb st sd).coreStates.insert core0 st' :=
  (PMap.insert_insert _ _ _ _).symm

private theorem mem_values {a : CoreState} (h : a ∈ (state mem tlb st sd).coreStates.values) :
    a = st := by
  obtain ⟨k, hk⟩ := h
  rcases (PMap.insert_eq_some _ _ _ _ _).mp hk with ⟨_, rfl⟩ | ⟨_, hk⟩
  · rfl
  · cases hk

private theorem kernelLock_eq_none (h : st.holdsLock = false) :
    (state mem tlb st sd).kernelLock c = none := by
  rw [kernelLock, dif_neg]
  rintro ⟨k, hk, hlock⟩
  rw [(validCore_iff k).mp hk, show (state mem tlb st sd).coreState core0 = st from rfl, h] at hlock
  cases hlock

-- A step of the hardware on the only TLB leaves everything else as it is.
private theorem unchanged : Hardware.OtherNumasAndCoresUnchanged (state mem tlb st sd).hw
    (state mem tlb' st sd).hw core0 where
  mem_eq := rfl
  numas_dom := by
    simp only [state, PMap.dom_insert]
  numas_remove := by
    ext k : 1
    by_cases hk : k = 0
    · rw [hk, core0, PMap.remove_self, PMap.remove_self]
    · simp only [state, core0, PMap.remove_of_ne _ hk, PMap.insert_of_ne _ _ hk]
  cores_dom := by
    show (PMap.insert PMap.empty 0 _ : PMap Nat CoreVariables).dom =
      (PMap.insert PMap.empty 0 _ : PMap Nat CoreVariables).dom
    rw [PMap.dom_insert, PMap.dom_insert]
  cores_remove := by
    show (PMap.insert PMap.empty 0 _ : PMap Nat CoreVariables).remove 0 =
      (PMap.insert PMap.empty 0 _ : PMap Nat CoreVariables).remove 0
    ext k : 1
    by_cases hk : k = 0
    · rw [hk, PMap.remove_self, PMap.remove_self]
    · rw [PMap.remove_of_ne _ hk, PMap.remove_of_ne _ hk, PMap.insert_of_ne _ _ hk,
        PMap.insert_of_ne _ _ hk]

private theorem ptMemOp : Hardware.stepPTMemOp (state mem tlb st sd).hw
    (state mem' tlb st' sd').hw :=
  ⟨rfl, rfl⟩

private theorem isSome_single {K V : Type} [DecidableEq K] (k x : K) (v : V) :
    ((PMap.empty.insert k v : PMap K V) x).isSome ↔ x = k :=
  (PMap.isSome_insert _ k x v).trans (or_iff_left Bool.false_ne_true)

/-- Nothing is mapped at the start. -/
theorem initial_empty : PageTable.interpPtMem BumpMemory.initial = PMap.empty :=
  SpecPt.Init.interp_eq BumpMemory.initial_init

/-- The machine before the first request. -/
theorem init : Init c (state BumpMemory.initial PMap.empty .idle noShootdown) where
  pt_empty := initial_empty
  hw := by
    refine ⟨Nat.one_pos, fun id ↦ ?_, fun id n _ hn ↦ ?_⟩
    · exact Nat.lt_one_iff.trans (isSome_single 0 id _).symm
    · rcases (PMap.insert_eq_some _ _ _ _ _).mp hn with ⟨_, rfl⟩ | ⟨_, hn⟩
      · refine ⟨Nat.one_pos, fun id ↦ Nat.lt_one_iff.trans (isSome_single 0 id _).symm, ?_⟩
        intro id v _ hv
        rcases (PMap.insert_eq_some _ _ _ _ _).mp hv with ⟨_, rfl⟩ | ⟨_, hv⟩
        · exact Set.eq_empty_of_forall_notMem fun k hk ↦ hk rfl
        · cases hv
      · cases hn
  pt _ _ := BumpMemory.initial_init
  ult_dom id := Nat.lt_one_iff.trans (isSome_single 0 id _).symm
  ult_core id hid := by
    have hid : id < 1 := hid
    rw [Nat.lt_one_iff.mp hid]
    exact (validCore_iff _).mpr rfl
  states_dom core := (validCore_iff core).trans (isSome_single core0 core _).symm
  states_idle core hcore := by
    rw [(validCore_iff core).mp hcore]
    rfl
  no_requests := rfl
  sound := rfl

/-- The process asks for a page. -/
theorem mapStart : NextStep c (state BumpMemory.initial PMap.empty .idle noShootdown)
    (state BumpMemory.initial PMap.empty (.mapWaiting 0 vaddr smallPage) noShootdown)
    (.mapStart 0 vaddr smallPage) where
  valid := show 0 < 1 by decide
  idle := rfl
  enabled := by
    refine ⟨⟨by decide, by decide, by decide, ?_, by decide⟩, by decide⟩
    show 0x3000 + l3EntrySize < x86Arch.upperVaddr 0 0
    decide
  hw := ptMemOp
  pt := rfl
  coreStates_eq := coreStates_insert
  shootdown_eq := rfl
  sound_eq := by
    refine ⟨rfl, ?_, ?_, ?_⟩
    · rintro ⟨b, p, hb, _⟩
      rw [view_state, initial_empty] at hb
      cases hb
    · rintro ⟨a, ha, hov⟩
      rw [mem_values ha] at hov
      exact hov
    · rintro ⟨a, ha, hov⟩
      rw [mem_values ha] at hov
      exact hov

/-- Its core takes the lock. -/
theorem mapOpStart : NextStep c
    (state BumpMemory.initial PMap.empty (.mapWaiting 0 vaddr smallPage) noShootdown)
    (state BumpMemory.initial PMap.empty (.mapExecuting 0 vaddr smallPage) noShootdown)
    (.mapOpStart core0) :=
  ⟨0, vaddr, smallPage, (validCore_iff _).mpr rfl, rfl, kernelLock_eq_none rfl, ptMemOp, rfl,
    coreStates_insert, rfl, rfl⟩

section Mapped

variable {m : BumpMemory} (hm : PageTable.interpPtMem m = PMap.empty.insert vaddr smallPage)

include hm

/-- The page is mapped. -/
theorem mapEnd : NextStep c
    (state BumpMemory.initial PMap.empty (.mapExecuting 0 vaddr smallPage) noShootdown)
    (state m PMap.empty .idle noShootdown) (.mapEnd core0 (.ok ())) := by
  refine ⟨0, vaddr, smallPage, (validCore_iff _).mpr rfl, rfl, ptMemOp, ?_, coreStates_insert, rfl,
    rfl⟩
  rw [SpecPt.stepMapEnd, interp_ptVariables, interp_ptVariables, view_state, view_state,
    initial_empty, hm]
  refine ⟨?_, fun _ ↦ ⟨rfl, rfl⟩⟩
  rintro ⟨b, p, hb, _⟩
  cases hb

/-- The core caches the mapping. -/
theorem tlbFill : NextStep c (state m PMap.empty .idle noShootdown)
    (state m cached .idle noShootdown) (.hw 0 (.tlbFill vaddr smallPage core0)) where
  valid := show 0 < 1 by decide
  enabled := .inl rfl
  not_ptMemOp := fun h ↦ by cases h
  hw := by
    refine ⟨(validCore_iff _).mpr rfl, ?_, rfl, unchanged⟩
    show PageTable.interpPtMem m vaddr = some smallPage
    rw [hm, PMap.insert_self]
  pt := rfl
  coreStates_eq := rfl
  shootdown_eq := rfl
  sound_eq := rfl

omit hm in
/-- The process gives the page up. -/
theorem unmapStart : NextStep c (state m tlb .idle noShootdown)
    (state m tlb (.unmapWaiting 0 vaddr) noShootdown) (.unmapStart 0 vaddr) where
  valid := show 0 < 1 by decide
  idle := rfl
  enabled := ⟨by decide, by decide⟩
  hw := ptMemOp
  pt := rfl
  coreStates_eq := coreStates_insert
  shootdown_eq := rfl
  sound_eq := by
    refine ⟨rfl, ?_⟩
    rintro ⟨a, ha, hov⟩
    rw [mem_values ha] at hov
    exact hov

/-- Its core takes the lock and the page out of the page table. -/
theorem unmapOpStart : NextStep c (state m tlb (.unmapWaiting 0 vaddr) noShootdown)
    (state BumpMemory.initial tlb (.unmapOpExecuting 0 vaddr (.ok smallPage)) noShootdown)
    (.unmapOpStart core0 (.ok ())) := by
  have hpte : (state m tlb (.unmapWaiting 0 vaddr) noShootdown).interpPtMem vaddr =
      some smallPage := by
    rw [view_state, hm, PMap.insert_self]
  refine ⟨0, vaddr, (validCore_iff _).mpr rfl, rfl, kernelLock_eq_none rfl, ptMemOp, ?_, ?_, rfl,
    rfl⟩
  · rw [SpecPt.stepUnmapStart, interp_ptVariables, interp_ptVariables, if_pos (hpte ▸ rfl)]
    refine ⟨rfl, ?_⟩
    rw [view_state, view_state, initial_empty, hm]
    ext v : 1
    by_cases hv : v = vaddr
    · rw [hv, PMap.remove_self, PMap.empty_apply]
    · rw [PMap.remove_of_ne _ hv, PMap.insert_of_ne _ _ hv]
  · have hresult : unmapResult (state m tlb (.unmapWaiting 0 vaddr) noShootdown).interpPtMem
        vaddr (.ok ()) = .ok smallPage := by
      unfold unmapResult
      rw [hpte]
    rw [hresult]
    exact coreStates_insert

end Mapped

/-- The page table is done. -/
theorem unmapOpEnd : NextStep c
    (state BumpMemory.initial cached (.unmapOpExecuting 0 vaddr (.ok smallPage)) noShootdown)
    (state BumpMemory.initial cached (.unmapOpDone 0 vaddr (.ok smallPage)) noShootdown)
    (.unmapOpEnd core0) :=
  ⟨0, vaddr, .ok smallPage, (validCore_iff _).mpr rfl, rfl, ptMemOp, rfl, coreStates_insert, rfl,
    rfl⟩

private theorem unmapInitiateShootdown : NextStep c
    (state BumpMemory.initial cached (.unmapOpDone 0 vaddr (.ok smallPage)) noShootdown)
    (state BumpMemory.initial cached (.unmapShootdownWaiting 0 vaddr (.ok smallPage)) requested)
    (.unmapInitiateShootdown core0) :=
  ⟨0, vaddr, smallPage, (validCore_iff _).mpr rfl, rfl, ptMemOp, rfl, coreStates_insert, rfl, rfl⟩

private theorem tlbEvict : NextStep c
    (state BumpMemory.initial cached (.unmapShootdownWaiting 0 vaddr (.ok smallPage)) requested)
    (state BumpMemory.initial PMap.empty (.unmapShootdownWaiting 0 vaddr (.ok smallPage)) requested)
    (.hw 0 (.tlbEvict vaddr core0)) where
  valid := show 0 < 1 by decide
  enabled := .inr (.inr ⟨vaddr, core0, rfl⟩)
  not_ptMemOp := fun h ↦ by cases h
  hw := by
    refine ⟨(validCore_iff _).mpr rfl, ?_, ?_, unchanged⟩
    · rw [tlb_state]
      exact PMap.mem_dom_of_eq (PMap.insert_self _ _ _)
    rw [tlb_state, tlb_state]
    ext v : 1
    by_cases hv : v = vaddr
    · rw [hv, PMap.remove_self, PMap.empty_apply]
    · rw [PMap.remove_of_ne _ hv, cached, PMap.insert_of_ne _ _ hv]
  pt := rfl
  coreStates_eq := rfl
  shootdown_eq := rfl
  sound_eq := rfl

private theorem ackShootdownIPI : NextStep c
    (state BumpMemory.initial PMap.empty (.unmapShootdownWaiting 0 vaddr (.ok smallPage)) requested)
    (state BumpMemory.initial PMap.empty (.unmapShootdownWaiting 0 vaddr (.ok smallPage))
      acknowledged) (.ackShootdownIPI core0) where
  requested := (validCore_iff _).mpr rfl
  evicted h := h rfl
  unmapped h := h (by rw [view_state, initial_empty, PMap.empty_apply])
  hw := ptMemOp
  pt := rfl
  coreStates_eq := rfl
  shootdown_eq := rfl
  sound_eq := rfl

/-- The shootdown is acknowledged, and the unmap ends. -/
theorem unmapEnd : NextStep c
    (state BumpMemory.initial PMap.empty (.unmapShootdownWaiting 0 vaddr (.ok smallPage))
      acknowledged)
    (state BumpMemory.initial PMap.empty .idle acknowledged) (.unmapEnd core0) where
  valid := (validCore_iff _).mpr rfl
  state := acknowledged_openRequests
  hw := ptMemOp
  pt := rfl
  coreStates_eq := coreStates_insert
  shootdown_eq := rfl
  sound_eq := rfl

/-- The page is mapped and cached. -/
theorem reachable_cached {m : BumpMemory}
    (hm : PageTable.interpPtMem m = PMap.empty.insert vaddr smallPage) :
    (osMachine c).Reachable (state m cached .idle noShootdown) :=
  (tlbFill hm).reachable <| (mapEnd hm).reachable <| mapOpStart.reachable <|
    mapStart.reachable <| .of_init init

/-- The page has just been removed from the page table, and is still cached. -/
theorem reachable_executing : (osMachine c).Reachable
    (state BumpMemory.initial cached (.unmapOpExecuting 0 vaddr (.ok smallPage)) noShootdown) := by
  obtain ⟨m, _, _, _, hm⟩ := exists_mapped
  exact (unmapOpStart hm).reachable <| unmapStart.reachable <| reachable_cached hm

/-- The shootdown is over. -/
theorem reachable_acknowledged : (osMachine c).Reachable
    (state BumpMemory.initial PMap.empty (.unmapShootdownWaiting 0 vaddr (.ok smallPage))
      acknowledged) :=
  ackShootdownIPI.reachable <| tlbEvict.reachable <| unmapInitiateShootdown.reachable <|
    unmapOpEnd.reachable reachable_executing

end ExampleRun

/-! ## Two cores

Two cores of one node, each with a thread. -/

namespace TwoCores

attribute [local instance] widePhyAddr

/-- The core of the first thread. -/
def core0 : Core := ⟨0, 0⟩

/-- The core of the second thread. -/
def core1 : Core := ⟨0, 1⟩

/-- Two cores with one thread each, and 32 KiB of memory. -/
def c : OSConstants where
  hw := ⟨1, 2, 4096⟩
  ult2core := (PMap.empty.insert 0 core0).insert 1 core1
  ultNo := 2

/-- The first thread maps a page at this address. -/
def vaddr : Nat := 0x3000

/-- The second thread maps a page at this address. -/
def otherVaddr : Nat := 0x5000

/-- The frame the second thread maps. -/
def otherPage : PageTableEntry := ⟨⟨0x9000, l3EntrySize⟩, ⟨true, false, true⟩⟩

/-- The state of the machine with a page table memory and two core states. -/
def state (mem : BumpMemory) (st0 st1 : CoreState) : OSVariables BumpMemory where
  hw :=
    { mem := List.replicate 4096 0
      numas := PMap.empty.insert 0
        ⟨(PMap.empty.insert 0 ⟨PMap.empty⟩).insert 1 ⟨PMap.empty⟩⟩
      globalPt := mem }
  coreStates := (PMap.empty.insert core0 st0).insert core1 st1
  tlbShootdown := ⟨0, ∅⟩
  sound := true

variable {mem mem' : BumpMemory} {st0 st0' st1 st1' : CoreState} {v : Nat}
  {pte : PageTableEntry} {result : Except Unit Unit}

/-- The cores of the machine. -/
theorem validCore_iff (k : Core) : validCore c.hw k ↔ k = core0 ∨ k = core1 := by
  cases k with
  | mk numaId coreId =>
    have h : validCore c.hw ⟨numaId, coreId⟩ ↔ numaId < 1 ∧ coreId < 2 := Iff.rfl
    rw [h, core0, core1, Core.mk.injEq, Core.mk.injEq]
    omega

private theorem validCore0 : validCore c.hw core0 := (validCore_iff _).mpr (.inl rfl)

private theorem validCore1 : validCore c.hw core1 := (validCore_iff _).mpr (.inr rfl)

private theorem coreState0 : (state mem st0 st1).coreState core0 = st0 := rfl

private theorem coreState1 : (state mem st0 st1).coreState core1 = st1 := rfl

private theorem insert0 :
    (state mem' st0' st1).coreStates = (state mem st0 st1).coreStates.insert core0 st0' := by
  ext k : 1
  by_cases h0 : k = core0
  · rw [h0, PMap.insert_self]
    rfl
  · rw [PMap.insert_of_ne _ _ h0]
    by_cases h1 : k = core1
    · rw [h1]
      rfl
    · simp only [state, PMap.insert_of_ne _ _ h1, PMap.insert_of_ne _ _ h0]

private theorem insert1 :
    (state mem' st0 st1').coreStates = (state mem st0 st1).coreStates.insert core1 st1' :=
  (PMap.insert_insert _ _ _ _).symm

private theorem ptMemOp : Hardware.stepPTMemOp (state mem st0 st1).hw (state mem' st0' st1').hw :=
  ⟨rfl, rfl⟩

/-- The core states that requests are compared with. -/
theorem mem_values {a : CoreState} (h : a ∈ (state mem st0 st1).coreStates.values) :
    a = st0 ∨ a = st1 := by
  obtain ⟨k, hk⟩ := h
  rcases (PMap.insert_eq_some _ _ _ _ _).mp hk with ⟨_, rfl⟩ | ⟨_, hk⟩
  · exact .inr rfl
  · rcases (PMap.insert_eq_some _ _ _ _ _).mp hk with ⟨_, rfl⟩ | ⟨_, hk⟩
    · exact .inl rfl
    · cases hk

private theorem kernelLock_eq_none (h0 : st0.holdsLock = false) (h1 : st1.holdsLock = false) :
    (state mem st0 st1).kernelLock c = none := by
  rw [kernelLock, dif_neg]
  rintro ⟨k, hk, hlock⟩
  rcases (validCore_iff k).mp hk with rfl | rfl
  · rw [coreState0, h0] at hlock
    cases hlock
  · rw [coreState1, h1] at hlock
    cases hlock

/-- The machine before the first request. -/
theorem init (hm : SpecPt.Init ⟨mem⟩) : Init c (state mem .idle .idle) where
  pt_empty := SpecPt.Init.interp_eq hm
  hw := by
    refine ⟨Nat.one_pos, fun id ↦ ?_, fun id n _ hn ↦ ?_⟩
    · have hdom := PMap.isSome_insert PMap.empty 0 id
        (NUMAVariables.mk ((PMap.empty.insert 0 ⟨PMap.empty⟩).insert 1 ⟨PMap.empty⟩))
      exact Nat.lt_one_iff.trans ((or_iff_left Bool.false_ne_true).symm.trans hdom.symm)
    · rcases (PMap.insert_eq_some _ _ _ _ _).mp hn with ⟨_, rfl⟩ | ⟨_, hn⟩
      · refine ⟨Nat.two_pos, fun id ↦ ?_, fun id v _ hv ↦ ?_⟩
        · rw [PMap.isSome_insert, PMap.isSome_insert, PMap.empty_apply, Option.isSome_none,
            Bool.false_eq_true, or_false]
          show id < 2 ↔ id = 1 ∨ id = 0
          omega
        · rcases (PMap.insert_eq_some _ _ _ _ _).mp hv with ⟨_, rfl⟩ | ⟨_, hv⟩
          · exact Set.eq_empty_of_forall_notMem fun k hk ↦ hk rfl
          · rcases (PMap.insert_eq_some _ _ _ _ _).mp hv with ⟨_, rfl⟩ | ⟨_, hv⟩
            · exact Set.eq_empty_of_forall_notMem fun k hk ↦ hk rfl
            · cases hv
      · cases hn
  pt _ _ := hm
  ult_dom id := by
    rw [c, PMap.isSome_insert, PMap.isSome_insert, PMap.empty_apply, Option.isSome_none,
      Bool.false_eq_true, or_false]
    show id < 2 ↔ id = 1 ∨ id = 0
    omega
  ult_core id hid :=
    match id, hid with
    | 0, _ => validCore0
    | 1, _ => validCore1
  states_dom core := by
    rw [validCore_iff, state, PMap.isSome_insert, PMap.isSome_insert, PMap.empty_apply,
      Option.isSome_none, Bool.false_eq_true, or_false, or_comm]
  states_idle core hcore := by
    rcases (validCore_iff core).mp hcore with rfl | rfl
    · rfl
    · rfl
  no_requests := rfl
  sound := rfl

/-- The checks of a map request at the first address. -/
theorem vaddr_enabled (hpages : 3 ≤ PtMemory.allocAvailablePages mem)
    (hframe : aligned pte.frame.base l3EntrySize ∧ pte.frame.base ≤ maxPhyaddr)
    (hsize : pte.frame.size = l3EntrySize) : StepMapEnabled mem vaddr pte := by
  refine ⟨⟨?_, ?_, hframe.2, ?_, .inl hsize⟩, hpages⟩
  · rw [hsize]
    decide
  · rw [hsize]
    exact hframe.1
  · show 0x3000 + pte.frame.size < x86Arch.upperVaddr 0 0
    rw [hsize]
    decide

/-- The checks of the second thread's request. -/
theorem otherVaddr_enabled (hpages : 3 ≤ PtMemory.allocAvailablePages mem) :
    StepMapEnabled mem otherVaddr otherPage := by
  refine ⟨⟨by decide, by decide, by decide, ?_, by decide⟩, hpages⟩
  show 0x5000 + l3EntrySize < x86Arch.upperVaddr 0 0
  decide

/-- A map request overlaps nothing of a core that is idle or waits to map something else. -/
def Apart (v : Nat) (pte : PageTableEntry) : CoreState → Prop
  | .idle => True
  | .mapWaiting _ v' p' =>
    ¬overlap pte.frame p'.frame ∧ ¬overlap ⟨v', p'.frame.size⟩ ⟨v, pte.frame.size⟩
  | _ => False

/-- A map request is sound next to cores that it overlaps nothing of. -/
theorem stepMapSound
    (hpmem : ¬candidateMappingOverlapsExistingPmem (PageTable.interpPtMem mem) pte)
    (h0 : Apart v pte st0) (h1 : Apart v pte st1) :
    StepMapSound (state mem st0 st1).interpPtMem (state mem st0 st1).coreStates.values v pte := by
  refine ⟨hpmem, ?_, ?_⟩
  · rintro ⟨a, ha, hov⟩
    have hapart : Apart v pte a := by
      rcases mem_values ha with rfl | rfl
      · exact h0
      · exact h1
    cases a with
    | idle => exact hov
    | mapWaiting id v' p' => exact hapart.1 hov
    | _ => exact hapart
  · rintro ⟨a, ha, hov⟩
    have hapart : Apart v pte a := by
      rcases mem_values ha with rfl | rfl
      · exact h0
      · exact h1
    cases a with
    | idle => exact hov
    | mapWaiting id v' p' => exact hapart.2 hov
    | _ => exact hapart

/-- The first thread asks to map a page. -/
theorem mapStart0 (henabled : StepMapEnabled mem v pte)
    (hpmem : ¬candidateMappingOverlapsExistingPmem (PageTable.interpPtMem mem) pte)
    (h1 : Apart v pte st1) :
    NextStep c (state mem .idle st1) (state mem (.mapWaiting 0 v pte) st1) (.mapStart 0 v pte) where
  valid := show 0 < 2 by decide
  idle := rfl
  enabled := henabled
  hw := ptMemOp
  pt := rfl
  coreStates_eq := insert0
  shootdown_eq := rfl
  sound_eq := ⟨rfl, stepMapSound hpmem trivial h1⟩

/-- The second thread asks to map a page. -/
theorem mapStart1 (henabled : StepMapEnabled mem v pte)
    (hpmem : ¬candidateMappingOverlapsExistingPmem (PageTable.interpPtMem mem) pte)
    (h0 : Apart v pte st0) :
    NextStep c (state mem st0 .idle) (state mem st0 (.mapWaiting 1 v pte)) (.mapStart 1 v pte) where
  valid := show 1 < 2 by decide
  idle := rfl
  enabled := henabled
  hw := ptMemOp
  pt := rfl
  coreStates_eq := insert1
  shootdown_eq := rfl
  sound_eq := ⟨rfl, stepMapSound hpmem h0 trivial⟩

/-- The first core takes the lock for its map. -/
theorem mapOpStart0 (h1 : st1.holdsLock = false) :
    NextStep c (state mem (.mapWaiting 0 v pte) st1) (state mem (.mapExecuting 0 v pte) st1)
      (.mapOpStart core0) :=
  ⟨0, v, pte, validCore0, rfl, kernelLock_eq_none rfl h1, ptMemOp, rfl, insert0, rfl, rfl⟩

/-- The second core takes the lock for its map. -/
theorem mapOpStart1 (h0 : st0.holdsLock = false) :
    NextStep c (state mem st0 (.mapWaiting 1 v pte)) (state mem st0 (.mapExecuting 1 v pte))
      (.mapOpStart core1) :=
  ⟨1, v, pte, validCore1, rfl, kernelLock_eq_none h0 rfl, ptMemOp, rfl, insert1, rfl, rfl⟩

/-- The first core maps its page. -/
theorem mapEnd0 (h : SpecPt.stepMapEnd ⟨mem⟩ ⟨mem'⟩ v pte result) :
    NextStep c (state mem (.mapExecuting 0 v pte) st1) (state mem' .idle st1)
      (.mapEnd core0 result) :=
  ⟨0, v, pte, validCore0, rfl, ptMemOp, h, insert0, rfl, rfl⟩

/-- The second core maps its page. -/
theorem mapEnd1 (h : SpecPt.stepMapEnd ⟨mem⟩ ⟨mem'⟩ v pte result) :
    NextStep c (state mem st0 (.mapExecuting 1 v pte)) (state mem' st0 .idle)
      (.mapEnd core1 result) :=
  ⟨1, v, pte, validCore1, rfl, ptMemOp, h, insert1, rfl, rfl⟩

section Run

variable {mem m : BumpMemory} (hmem : SpecPt.Init ⟨mem⟩)
  (hpages : 3 ≤ PtMemory.allocAvailablePages mem)

include hmem hpages

/-- The first request is taken. -/
theorem first_checked : NextStep c (state mem .idle .idle)
    (state mem (.mapWaiting 0 vaddr smallPage) .idle) (.mapStart 0 vaddr smallPage) := by
  refine mapStart0 (vaddr_enabled hpages (by decide) rfl) ?_ trivial
  rintro ⟨b, p, hb, _⟩
  rw [show PageTable.interpPtMem mem = PMap.empty from SpecPt.Init.interp_eq hmem] at hb
  cases hb

/-- The second request is taken while the first one waits. -/
theorem second_checked : NextStep c (state mem (.mapWaiting 0 vaddr smallPage) .idle)
    (state mem (.mapWaiting 0 vaddr smallPage) (.mapWaiting 1 otherVaddr otherPage))
    (.mapStart 1 otherVaddr otherPage) := by
  refine mapStart1 (otherVaddr_enabled hpages) ?_ ⟨by decide, by decide⟩
  rintro ⟨b, p, hb, _⟩
  rw [show PageTable.interpPtMem mem = PMap.empty from SpecPt.Init.interp_eq hmem] at hb
  cases hb

omit hpages in
/-- The first map is executed while the second request waits. -/
theorem first_mapped (hm : PageTable.interpPtMem m = PMap.empty.insert vaddr smallPage) :
    NextStep c (state mem (.mapExecuting 0 vaddr smallPage) (.mapWaiting 1 otherVaddr otherPage))
      (state m .idle (.mapWaiting 1 otherVaddr otherPage)) (.mapEnd core0 (.ok ())) := by
  apply mapEnd0
  rw [SpecPt.stepMapEnd, SpecPt.Init.interp_eq hmem,
    show SpecPt.interp ⟨m⟩ = PMap.empty.insert vaddr smallPage from hm]
  refine ⟨?_, fun _ ↦ ⟨rfl, rfl⟩⟩
  rintro ⟨b, p, hb, _⟩
  cases hb

end Run

/-- The other thread's page is one that can be mapped. -/
theorem otherPage_accepted : AcceptedMapping otherPage where
  size_layer := ⟨3, by decide, by decide, by decide⟩
  frame_base_le := by decide

private theorem otherPage_acceptedMapping {M : Type} [PtMemoryOps M] (mem : M) (pt : PTDir) :
    (PT.interp mem pt).AcceptedMapping otherVaddr otherPage where
  vaddr_aligned := by decide
  frame_aligned := by decide
  in_bounds := by
    rw [Directory.upperVaddr, PT.interp, interpAt_arch, interpAt_layer, interpAt_baseVaddr]
    decide
  valid_size := by
    rw [PT.interp, interpAt_arch, interpAt_layer]
    exact ⟨3, by decide, by decide, by decide⟩

/-- Both pages can be mapped, one after the other. -/
theorem exists_both_mapped : ∃ m m' : BumpMemory,
    PageTable.interpPtMem m = PMap.empty.insert vaddr smallPage ∧
    PageTable.interpPtMem m' = (PMap.empty.insert vaddr smallPage).insert otherVaddr otherPage ∧
    SpecPt.stepMapEnd ⟨m⟩ ⟨m'⟩ otherVaddr otherPage (.ok ()) := by
  obtain ⟨m, pt, hcall, hinv, hinterp, hm⟩ := exists_mapFrame_smallPage
  have hpages : (mapFrame BumpMemory.initial rootDir 0x3000 smallPage).map
      (fun r ↦ decide (3 ≤ PtMemory.allocAvailablePages r.2.1)) = some true := by
    decide +kernel
  rw [hcall] at hpages
  obtain ⟨result, m', pt', _, hens⟩ := mapFrame_spec hinv hinterp
    (of_decide_eq_true (Option.some.inj hpages)) otherPage_accepted
    (otherPage_acceptedMapping _ _) (by decide)
  have hno : ¬candidateMappingOverlapsExistingVmem (SpecPt.interp ⟨m⟩) otherVaddr otherPage := by
    rw [SpecPt.interp, hm]
    rintro ⟨b, p, hb, hov⟩
    rcases (PMap.insert_eq_some _ _ _ _ _).mp hb with ⟨rfl, rfl⟩ | ⟨_, hb⟩
    · exact absurd hov (by decide)
    · cases hb
  obtain ⟨rfl, hview⟩ := hens.step.2 hno
  refine ⟨m, m', hm, ?_, hens.step⟩
  rw [SpecPt.interp, SpecPt.interp, hm] at hview
  exact hview

/-- The first thread asks to unmap its page while the second one waits to map its own. -/
theorem unmapStart0 {m : BumpMemory}
    (hm : PageTable.interpPtMem m = PMap.empty.insert vaddr smallPage) :
    NextStep c (state m .idle (.mapWaiting 1 otherVaddr otherPage))
      (state m (.unmapWaiting 0 vaddr) (.mapWaiting 1 otherVaddr otherPage))
      (.unmapStart 0 vaddr) where
  valid := show 0 < 2 by decide
  idle := rfl
  enabled := ⟨by decide, by decide⟩
  hw := ptMemOp
  pt := rfl
  coreStates_eq := insert0
  shootdown_eq := rfl
  sound_eq := by
    refine ⟨rfl, ?_⟩
    have hsize : HlSpec.sizeOf? ((state m .idle
        (.mapWaiting 1 otherVaddr otherPage)).interpPtMem vaddr) = l3EntrySize := by
      show HlSpec.sizeOf? (PageTable.interpPtMem m vaddr) = _
      rw [hm, PMap.insert_self]
      rfl
    rw [hsize]
    rintro ⟨a, ha, hov⟩
    rcases mem_values ha with rfl | rfl
    · exact hov
    · have hno : ¬overlap ⟨otherVaddr, otherPage.frame.size⟩ ⟨vaddr, l3EntrySize⟩ := by decide
      exact hno hov

end TwoCores

end NrKernel.OS
