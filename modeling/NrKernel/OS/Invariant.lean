import NrKernel.OS.Interpretation

/-!
# The invariant of the OS

The lock has one holder, cores serve threads that are theirs, an unmap that changed the page
table left its address unmapped, and what a process sees stays separated. A step keeps all of
this if the core that moves goes on with its request, or takes or ends one, as the lemmas
here ask.
-/

namespace NrKernel.OS

open Lib PageTable CoreState OSVariables

variable {M : Type} [PtMemoryOps M] [PhyAddrWidth]

/-- What every reachable OS state satisfies. Cores that do not exist are idle, so that the
facts about core states need not ask which do. -/
structure OsInv (c : OSConstants) (s : OSVariables M) : Prop where
  ult_dom : ∀ id, c.validUlt id ↔ (c.ult2core id).isSome
  ult_core : ∀ id, c.validUlt id → validCore c.hw (c.ultCore id)
  states_dom : ∀ core, validCore c.hw core ↔ (s.coreStates core).isSome
  lock_unique : ∀ k₁ k₂, (s.coreState k₁).holdsLock = true → (s.coreState k₂).holdsLock = true →
    k₁ = k₂
  valid_ids : ∀ core id, (s.coreState core).ultId? = some id → c.validUlt id ∧ c.ultCore id = core
  unmapped : ∀ core vaddr result, (s.coreState core).unmapped? = some (vaddr, result) →
    s.interpPtMem vaddr = none
  separated : Separated s.effectiveMappings (s.interpThreadState c)
  sound : s.sound = true

variable {c : OSConstants} {s s1 s2 : OSVariables M} {core : Core} {st : CoreState}

omit [PtMemoryOps M] [PhyAddrWidth] in
/-- Without a lock holder no core holds the lock. -/
theorem not_holdsLock_of_kernelLock (hdom : ∀ core, validCore c.hw core ↔
    (s.coreStates core).isSome) (h : s.kernelLock c = none) (k : Core) :
    (s.coreState k).holdsLock = false := by
  rw [← Bool.not_eq_true]
  intro hk
  have hne : s.coreState k ≠ .idle := by
    intro hidle
    rw [hidle] at hk
    cases hk
  have hvalid : validCore c.hw k := by
    rw [hdom, coreStates_of_ne_idle hne]
    rfl
  rw [kernelLock, dif_pos ⟨k, hvalid, hk⟩] at h
  cases h

/-- The view of the page table's state is the OS's view of the page table. -/
theorem interp_ptVariables (s : OSVariables M) : SpecPt.interp s.ptVariables = s.interpPtMem := rfl

/-- A stutter of the page table keeps its view. -/
theorem interpPtMem_of_stutter (h : SpecPt.stepStutter s1.ptVariables s2.ptVariables) :
    s2.interpPtMem = s1.interpPtMem := by
  rw [← interp_ptVariables, ← interp_ptVariables, show s1.ptVariables = s2.ptVariables from h]

namespace OsInv

/-! ## Operations in flight -/

/-- The core of a request in flight works on it for a thread that sees it. -/
theorem interpThreadState_core (h : OsInv c s) {ultId : Nat}
    (hst : (s.coreState core).ultId? = some ultId) :
    s.interpThreadState c ultId = some ((s.coreState core).arguments s.interpPtMem) := by
  obtain ⟨hult, rfl⟩ := h.valid_ids core ultId hst
  exact interpThreadState_of_ultId hult hst

/-- The regions of operations in flight on different cores do not overlap. -/
theorem not_overlap (h : OsInv c s) {k₁ k₂ : Core} (hne : k₁ ≠ k₂) {vaddr₁ vaddr₂ : Nat}
    (h₁ : (s.coreState k₁).vaddr? = some vaddr₁) (h₂ : (s.coreState k₂).vaddr? = some vaddr₂) :
    ¬overlap ⟨vaddr₁, HlSpec.sizeOf? ((s.coreState k₁).inflightPte s.interpPtMem)⟩
      ⟨vaddr₂, HlSpec.sizeOf? ((s.coreState k₂).inflightPte s.interpPtMem)⟩ := by
  obtain ⟨id₁, hid₁⟩ := ultId?_of_vaddr? h₁
  obtain ⟨id₂, hid₂⟩ := ultId?_of_vaddr? h₂
  have hid : id₁ ≠ id₂ := by
    rintro rfl
    exact hne ((h.valid_ids k₁ _ hid₁).2.symm.trans (h.valid_ids k₂ _ hid₂).2)
  apply h.separated.inflight id₁ id₂ _ _ hid
  · rw [inflightRegions_of_eq (h.interpThreadState_core hid₁), region?_arguments, h₁]
    rfl
  · rw [inflightRegions_of_eq (h.interpThreadState_core hid₂), region?_arguments, h₂]
    rfl

/-- Operations in flight on different cores are about different addresses. -/
theorem vaddr_ne (h : OsInv c s) {k₁ k₂ : Core} (hne : k₁ ≠ k₂) {vaddr₁ vaddr₂ : Nat}
    (h₁ : (s.coreState k₁).vaddr? = some vaddr₁) (h₂ : (s.coreState k₂).vaddr? = some vaddr₂) :
    vaddr₁ ≠ vaddr₂ :=
  fun heq ↦ h.not_overlap hne h₁ h₂ (overlap_of_base_eq heq)

/-- Where a core maps, no core unmaps. -/
theorem not_unmapping (h : OsInv c s) {vaddr : Nat} (hv : (s.coreState core).vaddr? = some vaddr)
    (hmap : (s.coreState core).unmapVaddr? = none) : ¬s.Unmapping vaddr := by
  rintro ⟨k, st, hk, hst⟩
  have hkst := coreState_of_eq hk
  by_cases hne : core = k
  · subst hne
    rw [hkst, hst] at hmap
    cases hmap
  · refine h.vaddr_ne hne hv ?_ rfl
    rw [hkst]
    exact vaddr?_of_unmapVaddr? hst

/-! ## How requests and mappings change -/

/-- A core that goes on with its request, and changes the page table at most where it unmaps,
changes nothing that a process sees. -/
theorem interp_continue (h : OsInv c s1) {old : CoreState} (hstate : s1.coreState core = old)
    (hstates : s2.coreStates = s1.coreStates.insert core st) {ultId : Nat}
    (hold : old.ultId? = some ultId) (hnew : st.ultId? = some ultId)
    (hunmap : st.unmapVaddr? = old.unmapVaddr?)
    (hargs : st.arguments s2.interpPtMem = old.arguments s1.interpPtMem)
    (hpt : ∀ vaddr, old.unmapVaddr? ≠ some vaddr →
      s2.interpPtMem vaddr = s1.interpPtMem vaddr) :
    s2.effectiveMappings = s1.effectiveMappings ∧
      s2.interpThreadState c = s1.interpThreadState c := by
  subst hstate
  obtain ⟨hult, hcore⟩ := h.valid_ids core ultId hold
  constructor
  · apply effectiveMappings_eq (unmapping_insert hstates hunmap)
    exact fun vaddr hno ↦ hpt vaddr fun hv ↦ hno (.of_coreState hv)
  · apply interpThreadState_continue hult hcore hstates hold hnew hargs
    intro k hne vaddr hv
    apply hpt
    intro hv'
    exact h.vaddr_ne hne (vaddr?_of_unmapVaddr? hv) (vaddr?_of_unmapVaddr? hv') rfl

/-- A core that takes a request puts it in flight. -/
theorem interpThreadState_start {ultId : Nat} (hult : c.validUlt ultId)
    (hidle : s1.coreState (c.ultCore ultId) = .idle)
    (hstates : s2.coreStates = s1.coreStates.insert (c.ultCore ultId) st)
    (hnew : st.ultId? = some ultId) (hpt : s2.interpPtMem = s1.interpPtMem) :
    s2.interpThreadState c =
      (s1.interpThreadState c).insert ultId (st.arguments s1.interpPtMem) := by
  rw [interpThreadState_insert hult rfl hstates, interpCoreState_eq, if_pos hnew, hpt]
  · intro id hid
    rw [hidle] at hid
    cases hid
  · exact fun id hid ↦ Option.some.inj (hid.symm.trans hnew)
  · exact fun _ _ vaddr _ ↦ congrFun hpt vaddr

/-- A core that ends its request takes it out of flight. -/
theorem interpThreadState_finish (h : OsInv c s1) {ultId : Nat}
    (hold : (s1.coreState core).ultId? = some ultId)
    (hstates : s2.coreStates = s1.coreStates.insert core .idle)
    (hpt : ∀ k, k ≠ core → ∀ vaddr, (s1.coreState k).unmapVaddr? = some vaddr →
      s2.interpPtMem vaddr = s1.interpPtMem vaddr) :
    s2.interpThreadState c = (s1.interpThreadState c).insert ultId .empty := by
  obtain ⟨hult, hcore⟩ := h.valid_ids core ultId hold
  rw [interpThreadState_insert hult hcore hstates _ _ hpt]
  · rfl
  · exact fun id hid ↦ Option.some.inj (hid.symm.trans hold)
  · intro id hid
    cases hid

/-! ## Preservation -/

/-- A step in which no core moves and the view stays as it is. -/
theorem stay (h : OsInv c s1) (hstates : s2.coreStates = s1.coreStates)
    (hpt : s2.interpPtMem = s1.interpPtMem) (hsound : s2.sound = s1.sound) : OsInv c s2 := by
  have hcore : ∀ k, s2.coreState k = s1.coreState k := fun k ↦ by rw [coreState, hstates, coreState]
  have heff : s2.effectiveMappings = s1.effectiveMappings := by
    apply effectiveMappings_eq
    · intro vaddr
      unfold Unmapping
      rw [hstates]
    · exact fun vaddr _ ↦ congrFun hpt vaddr
  constructor
  · exact h.ult_dom
  · exact h.ult_core
  · exact hstates ▸ h.states_dom
  · intro k₁ k₂
    rw [hcore, hcore]
    exact h.lock_unique k₁ k₂
  · intro core id
    rw [hcore]
    exact h.valid_ids core id
  · intro core vaddr result
    rw [hcore, hpt]
    exact h.unmapped core vaddr result
  · rw [heff, interpThreadState_congr hstates hpt]
    exact h.separated
  · exact hsound.trans h.sound

/-- A step in which one core moves. -/
theorem move (h : OsInv c s1) (hvalid : validCore c.hw core)
    (hstates : s2.coreStates = s1.coreStates.insert core st)
    (hlock : st.holdsLock = true → ∀ k, (s1.coreState k).holdsLock = true → k = core)
    (hids : ∀ id, st.ultId? = some id → c.validUlt id ∧ c.ultCore id = core)
    (hunmapped : ∀ vaddr result, st.unmapped? = some (vaddr, result) →
      s2.interpPtMem vaddr = none)
    (hothers : ∀ k, k ≠ core → ∀ vaddr result, (s1.coreState k).unmapped? = some (vaddr, result) →
      s2.interpPtMem vaddr = none)
    (hsep : Separated s2.effectiveMappings (s2.interpThreadState c))
    (hsound : s2.sound = s1.sound) : OsInv c s2 := by
  have hself : s2.coreState core = st := coreState_insert hstates
  have hother : ∀ k, k ≠ core → s2.coreState k = s1.coreState k :=
    fun k hne ↦ coreState_insert_of_ne hstates hne
  constructor
  · exact h.ult_dom
  · exact h.ult_core
  · intro k
    by_cases hk : k = core
    · rw [hk, hstates, PMap.insert_self]
      exact iff_of_true hvalid rfl
    · rw [hstates, PMap.insert_of_ne _ _ hk]
      exact h.states_dom k
  · intro k₁ k₂ h₁ h₂
    by_cases hk₁ : k₁ = core
    · by_cases hk₂ : k₂ = core
      · rw [hk₁, hk₂]
      · rw [hk₁, hself] at h₁
        rw [hother k₂ hk₂] at h₂
        exact absurd (hlock h₁ k₂ h₂) hk₂
    · rw [hother k₁ hk₁] at h₁
      by_cases hk₂ : k₂ = core
      · rw [hk₂, hself] at h₂
        exact absurd (hlock h₂ k₁ h₁) hk₁
      · rw [hother k₂ hk₂] at h₂
        exact h.lock_unique k₁ k₂ h₁ h₂
  · intro k id hid
    by_cases hk : k = core
    · rw [hk, hself] at hid
      rw [hk]
      exact hids id hid
    · rw [hother k hk] at hid
      exact h.valid_ids k id hid
  · intro k vaddr result hk'
    by_cases hk : k = core
    · rw [hk, hself] at hk'
      exact hunmapped vaddr result hk'
    · rw [hother k hk] at hk'
      exact hothers k hk vaddr result hk'
  · exact hsep
  · exact hsound.trans h.sound

/-- A core that goes on with its request under the lock, or takes it when it is free. -/
theorem move_continue (h : OsInv c s1) {old : CoreState} (hstate : s1.coreState core = old)
    (hstates : s2.coreStates = s1.coreStates.insert core st) {ultId : Nat}
    (hold : old.ultId? = some ultId) (hnew : st.ultId? = some ultId)
    (hlock : ∀ k, (s1.coreState k).holdsLock = true → k = core)
    (hunmap : st.unmapVaddr? = old.unmapVaddr?)
    (hargs : st.arguments s2.interpPtMem = old.arguments s1.interpPtMem)
    (hunmapped : ∀ vaddr result, st.unmapped? = some (vaddr, result) →
      s2.interpPtMem vaddr = none)
    (hpt : ∀ vaddr, old.unmapVaddr? ≠ some vaddr →
      s2.interpPtMem vaddr = s1.interpPtMem vaddr)
    (hsound : s2.sound = s1.sound) : OsInv c s2 := by
  obtain ⟨heff, hthreads⟩ := h.interp_continue hstate hstates hold hnew hunmap hargs hpt
  subst hstate
  obtain ⟨hult, hcore⟩ := h.valid_ids core ultId hold
  apply h.move (hcore ▸ h.ult_core ultId hult) hstates (fun _ ↦ hlock) _ hunmapped _ _ hsound
  · intro id hid
    rw [hnew] at hid
    rw [← Option.some.inj hid]
    exact ⟨hult, hcore⟩
  · intro k hne vaddr result hk
    rw [hpt vaddr, h.unmapped k vaddr result hk]
    intro hv
    exact h.vaddr_ne hne (vaddr?_of_unmapVaddr? (unmapVaddr?_of_unmapped? hk))
      (vaddr?_of_unmapVaddr? hv) rfl
  · rw [heff, hthreads]
    exact h.separated

end OsInv

end NrKernel.OS
