import NrKernel.OS.Machine
import NrKernel.OS.Separation

/-!
# Reading the interpretation of an OS state

How the requests and mappings that a process sees change when one core changes its state and
the page table changes with it.
-/

namespace NrKernel.OS

open Lib PageTable

namespace CoreState

/-- The address an unmap in flight is about. -/
def unmapVaddr? : CoreState → Option Nat
  | unmapWaiting _ vaddr | unmapOpExecuting _ vaddr _ | unmapOpDone _ vaddr _
  | unmapShootdownWaiting _ vaddr _ => some vaddr
  | _ => none

/-- The address and result of an unmap that has changed the page table. -/
def unmapped? : CoreState → Option (Nat × Except Unit PageTableEntry)
  | unmapOpExecuting _ vaddr result | unmapOpDone _ vaddr result
  | unmapShootdownWaiting _ vaddr result => some (vaddr, result)
  | _ => none

/-- The request a core works on, as its thread sees it. -/
def arguments (pt : Mappings) : CoreState → AbstractArguments
  | mapWaiting _ vaddr pte | mapExecuting _ vaddr pte => .map vaddr pte
  | unmapWaiting _ vaddr => .unmap vaddr (pt vaddr)
  | unmapOpExecuting _ vaddr result | unmapOpDone _ vaddr result
  | unmapShootdownWaiting _ vaddr result => .unmap vaddr result.toOption
  | idle => .empty

/-- The region a request in flight is about: its address and the size `vmem_pte_size` gives. -/
theorem region?_arguments (pt : Mappings) (st : CoreState) :
    (st.arguments pt).region? =
      st.vaddr?.map fun vaddr ↦ ⟨vaddr, HlSpec.sizeOf? (st.inflightPte pt)⟩ := by
  cases st with
  | _ => rfl

/-- The view of the page table matters to waiting unmaps only, at their address. -/
theorem arguments_congr {pt pt' : Mappings} {st : CoreState}
    (h : ∀ vaddr, st.unmapVaddr? = some vaddr → pt' vaddr = pt vaddr) :
    st.arguments pt' = st.arguments pt := by
  cases st with
  | unmapWaiting ultId vaddr => rw [arguments, arguments, h vaddr rfl]
  | _ => rfl

/-- A request at an address is a process's. -/
theorem ultId?_of_vaddr? {st : CoreState} {vaddr : Nat} (h : st.vaddr? = some vaddr) :
    ∃ ultId, st.ultId? = some ultId := by
  cases st with
  | idle => cases h
  | _ => exact ⟨_, rfl⟩

/-- An unmap is a request at its address. -/
theorem vaddr?_of_unmapVaddr? {st : CoreState} {vaddr : Nat} (h : st.unmapVaddr? = some vaddr) :
    st.vaddr? = some vaddr := by
  cases st with
  | idle => cases h
  | mapWaiting => cases h
  | mapExecuting => cases h
  | _ => exact h

/-- An unmap that has its result is one at its address. -/
theorem unmapVaddr?_of_unmapped? {st : CoreState} {vaddr : Nat}
    {result : Except Unit PageTableEntry} (h : st.unmapped? = some (vaddr, result)) :
    st.unmapVaddr? = some vaddr := by
  cases st with
  | unmapOpExecuting => cases h; rfl
  | unmapOpDone => cases h; rfl
  | unmapShootdownWaiting => cases h; rfl
  | _ => cases h

end CoreState

open CoreState

namespace OSVariables

variable {M : Type} {s s1 s2 : OSVariables M} {c : OSConstants} {core : Core} {st : CoreState}

/-- Some core is unmapping at the address. -/
def Unmapping (s : OSVariables M) (vaddr : Nat) : Prop :=
  ∃ core st, s.coreStates core = some st ∧ st.unmapVaddr? = some vaddr

/-- The state of a core that is in the map. -/
theorem coreState_of_eq (h : s.coreStates core = some st) : s.coreState core = st := by
  rw [coreState, h, Option.getD_some]

/-- A core with a request is in the map. -/
theorem coreStates_of_ne_idle (h : s.coreState core ≠ .idle) :
    s.coreStates core = some (s.coreState core) := by
  unfold coreState at h ⊢
  cases hst : s.coreStates core with
  | none =>
    rw [hst] at h
    exact absurd rfl h
  | some st => rfl

/-- The core that moves is in its new state. -/
theorem coreState_insert (h : s2.coreStates = s1.coreStates.insert core st) :
    s2.coreState core = st := by
  rw [coreState, h, PMap.insert_self, Option.getD_some]

/-- The other cores stay in their states. -/
theorem coreState_insert_of_ne (h : s2.coreStates = s1.coreStates.insert core st) {k : Core}
    (hne : k ≠ core) : s2.coreState k = s1.coreState k := by
  rw [coreState, h, PMap.insert_of_ne _ _ hne, coreState]

/-! ## Addresses being unmapped -/

/-- An address a core unmaps is being unmapped. -/
theorem Unmapping.of_coreState {vaddr : Nat} (h : (s.coreState core).unmapVaddr? = some vaddr) :
    s.Unmapping vaddr := by
  refine ⟨core, s.coreState core, coreStates_of_ne_idle ?_, h⟩
  intro hidle
  rw [hidle] at h
  cases h

/-- What is being unmapped after a core moves is what it unmaps, or was before. -/
theorem Unmapping.of_insert (h : s2.coreStates = s1.coreStates.insert core st) {vaddr : Nat}
    (hu : s2.Unmapping vaddr) : st.unmapVaddr? = some vaddr ∨ s1.Unmapping vaddr := by
  obtain ⟨k, st', hk, hv⟩ := hu
  rw [h] at hk
  rcases (PMap.insert_eq_some _ _ _ _ _).mp hk with ⟨_, rfl⟩ | ⟨_, hk⟩
  · exact .inl hv
  · exact .inr ⟨k, st', hk, hv⟩

/-- What was being unmapped still is, unless it was by the core that moves. -/
theorem Unmapping.insert (h : s2.coreStates = s1.coreStates.insert core st) {vaddr : Nat}
    (hu : s1.Unmapping vaddr) :
    (s1.coreState core).unmapVaddr? = some vaddr ∨ s2.Unmapping vaddr := by
  obtain ⟨k, st', hk, hv⟩ := hu
  by_cases hne : k = core
  · subst hne
    exact .inl (coreState_of_eq hk ▸ hv)
  · refine .inr ⟨k, st', ?_, hv⟩
    rw [h, PMap.insert_of_ne _ _ hne, hk]

/-- What the core that moves unmaps is being unmapped. -/
theorem Unmapping.insert_self (h : s2.coreStates = s1.coreStates.insert core st) {vaddr : Nat}
    (hst : st.unmapVaddr? = some vaddr) : s2.Unmapping vaddr :=
  ⟨core, st, by rw [h, PMap.insert_self], hst⟩

/-- A core that goes on with its request unmaps where it did before. -/
theorem unmapping_insert (h : s2.coreStates = s1.coreStates.insert core st)
    (hst : st.unmapVaddr? = (s1.coreState core).unmapVaddr?) (vaddr : Nat) :
    s2.Unmapping vaddr ↔ s1.Unmapping vaddr := by
  constructor
  · intro hu
    rcases hu.of_insert h with hv | hu
    · exact .of_coreState (hst ▸ hv)
    · exact hu
  · intro hu
    rcases hu.insert h with hv | hu
    · exact .insert_self h (hst.trans hv)
    · exact hu

/-! ## What a process sees -/

/-- A process has the arguments of its core's request, if that is its own. -/
theorem interpCoreState_eq (pt : Mappings) (ultId : Nat) (st : CoreState) :
    interpCoreState pt ultId st = if st.ultId? = some ultId then st.arguments pt else .empty := by
  cases st with
  | idle => rfl
  | _ => simp [interpCoreState, CoreState.ultId?, CoreState.arguments]

variable [PtMemoryOps M] [PhyAddrWidth]

private theorem mem_inflightUnmapVaddr (s : OSVariables M) (vaddr : Nat) :
    vaddr ∈ s.inflightUnmapVaddr ↔ vaddr ∈ s.interpPtMem.dom ∧ s.Unmapping vaddr := by
  refine and_congr_right fun _ ↦ exists_congr fun core ↦ exists_congr fun st ↦
    and_congr_right fun _ ↦ ?_
  cases st with
  | unmapWaiting => exact Option.some_inj.symm
  | unmapOpExecuting => exact Option.some_inj.symm
  | unmapOpDone => exact Option.some_inj.symm
  | unmapShootdownWaiting => exact Option.some_inj.symm
  | _ => exact iff_of_false id (fun h ↦ by cases h)

/-- A process no longer sees what is being unmapped. -/
theorem effectiveMappings_of_unmapping {vaddr : Nat} (h : s.Unmapping vaddr) :
    s.effectiveMappings vaddr = none := by
  unfold effectiveMappings
  split
  · rfl
  · rename_i hno
    by_contra hne
    exact hno ((mem_inflightUnmapVaddr s vaddr).mpr ⟨hne, h⟩)

/-- A process sees everything else that the page table maps. -/
theorem effectiveMappings_of_not_unmapping {vaddr : Nat} (h : ¬s.Unmapping vaddr) :
    s.effectiveMappings vaddr = s.interpPtMem vaddr :=
  if_neg fun hin ↦ h ((mem_inflightUnmapVaddr s vaddr).mp hin).2

/-- What a process sees is in the page table. -/
theorem interpPtMem_of_effective {vaddr : Nat} {pte : PageTableEntry}
    (h : s.effectiveMappings vaddr = some pte) :
    s.interpPtMem vaddr = some pte ∧ ¬s.Unmapping vaddr := by
  by_cases hu : s.Unmapping vaddr
  · rw [effectiveMappings_of_unmapping hu] at h
    cases h
  · rw [effectiveMappings_of_not_unmapping hu] at h
    exact ⟨h, hu⟩

/-- A view in which only addresses being unmapped before and after have changed shows a
process the same mappings. -/
theorem effectiveMappings_eq (hu : ∀ vaddr, s2.Unmapping vaddr ↔ s1.Unmapping vaddr)
    (hpt : ∀ vaddr, ¬s1.Unmapping vaddr → s2.interpPtMem vaddr = s1.interpPtMem vaddr) :
    s2.effectiveMappings = s1.effectiveMappings := by
  ext vaddr : 1
  by_cases h : s1.Unmapping vaddr
  · rw [effectiveMappings_of_unmapping h, effectiveMappings_of_unmapping ((hu vaddr).mpr h)]
  · rw [effectiveMappings_of_not_unmapping h,
      effectiveMappings_of_not_unmapping fun h2 ↦ h ((hu vaddr).mp h2), hpt vaddr h]

/-! ## Requests of threads -/

/-- A thread whose core works on its request has that request in flight. -/
theorem interpThreadState_of_ultId {ultId : Nat} (hult : c.validUlt ultId)
    (h : (s.coreState (c.ultCore ultId)).ultId? = some ultId) :
    s.interpThreadState c ultId =
      some ((s.coreState (c.ultCore ultId)).arguments s.interpPtMem) := by
  rw [interpThreadState, if_pos (show ultId < c.ultNo from hult), interpCoreState_eq, if_pos h]

/-- A thread whose core works on something else is idle. -/
theorem interpThreadState_of_ne {ultId : Nat} (hult : c.validUlt ultId)
    (h : (s.coreState (c.ultCore ultId)).ultId? ≠ some ultId) :
    s.interpThreadState c ultId = some .empty := by
  rw [interpThreadState, if_pos (show ultId < c.ultNo from hult), interpCoreState_eq, if_neg h]

/-- A request in flight is some core's. -/
theorem interpThreadState_eq_some {ultId : Nat} {a : AbstractArguments}
    (h : s.interpThreadState c ultId = some a) : c.validUlt ultId ∧
      (a = .empty ∨ (s.coreState (c.ultCore ultId)).ultId? = some ultId ∧
        a = (s.coreState (c.ultCore ultId)).arguments s.interpPtMem) := by
  by_cases hult : c.validUlt ultId
  · refine ⟨hult, ?_⟩
    by_cases hid : (s.coreState (c.ultCore ultId)).ultId? = some ultId
    · rw [interpThreadState_of_ultId hult hid] at h
      exact .inr ⟨hid, (Option.some.inj h).symm⟩
    · rw [interpThreadState_of_ne hult hid] at h
      exact .inl (Option.some.inj h).symm
  · rw [interpThreadState, if_neg (show ¬ultId < c.ultNo from hult)] at h
    cases h

/-- The requests in flight when one core moves on with, takes or ends a request of a thread,
and no waiting unmap of another core sees the page table change. -/
theorem interpThreadState_insert {ultId : Nat} (hult : c.validUlt ultId)
    (hcore : c.ultCore ultId = core) (h : s2.coreStates = s1.coreStates.insert core st)
    (hold : ∀ id, (s1.coreState core).ultId? = some id → id = ultId)
    (hnew : ∀ id, st.ultId? = some id → id = ultId)
    (hpt : ∀ k, k ≠ core → ∀ vaddr, (s1.coreState k).unmapVaddr? = some vaddr →
      s2.interpPtMem vaddr = s1.interpPtMem vaddr) :
    s2.interpThreadState c =
      (s1.interpThreadState c).insert ultId (interpCoreState s2.interpPtMem ultId st) := by
  ext id : 1
  unfold interpThreadState
  by_cases hid : id = ultId
  · rw [hid, PMap.insert_self, if_pos (show ultId < c.ultNo from hult), hcore, coreState_insert h]
  · rw [PMap.insert_of_ne _ _ hid]
    by_cases hk : c.ultCore id = core
    · -- a thread of the same core is not the one that is served
      have hne1 : (s1.coreState core).ultId? ≠ some id := fun heq ↦ hid (hold id heq)
      have hne2 : st.ultId? ≠ some id := fun heq ↦ hid (hnew id heq)
      rw [hk, coreState_insert h, interpCoreState_eq, if_neg hne2, interpCoreState_eq, if_neg hne1]
    · rw [coreState_insert_of_ne h hk, interpCoreState_eq, interpCoreState_eq,
        arguments_congr (hpt _ hk)]

/-- The requests in flight when no core moves and the view stays the same. -/
theorem interpThreadState_congr (h : s2.coreStates = s1.coreStates)
    (hpt : s2.interpPtMem = s1.interpPtMem) :
    s2.interpThreadState c = s1.interpThreadState c := by
  unfold interpThreadState coreState
  rw [h, hpt]

/-- A core that goes on with the request of its thread leaves the requests as they are. -/
theorem interpThreadState_continue {ultId : Nat} (hult : c.validUlt ultId)
    (hcore : c.ultCore ultId = core) (h : s2.coreStates = s1.coreStates.insert core st)
    (hold : (s1.coreState core).ultId? = some ultId) (hnew : st.ultId? = some ultId)
    (hargs : st.arguments s2.interpPtMem = (s1.coreState core).arguments s1.interpPtMem)
    (hpt : ∀ k, k ≠ core → ∀ vaddr, (s1.coreState k).unmapVaddr? = some vaddr →
      s2.interpPtMem vaddr = s1.interpPtMem vaddr) :
    s2.interpThreadState c = s1.interpThreadState c := by
  rw [interpThreadState_insert hult hcore h
    (fun id hid ↦ Option.some.inj (hid.symm.trans hold))
    (fun id hid ↦ Option.some.inj (hid.symm.trans hnew)) hpt]
  apply PMap.insert_of_eq_some
  subst hcore
  rw [interpThreadState_of_ultId hult hold, interpCoreState_eq, if_pos hnew, hargs]

end OSVariables

end NrKernel.OS
