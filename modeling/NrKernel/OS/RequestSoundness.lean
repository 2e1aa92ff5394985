import NrKernel.OS.InvariantSteps

/-!
# Requests that are not sound

The flag `sound` is meant to record that a request overlapped others, without an effect on the
OS (`spec_t/os.rs:38–39`). As the start of a request is written, `==` binds tighter than `&&`:
its soundness is a condition of the step, so that a request that is not sound has no step, and
the flag is never cleared.
-/

namespace NrKernel.OS

open Lib PageTable CoreState OSVariables

section Start

variable {M : Type} [PtMemoryOps M] [PhyAddrWidth] {c : OSConstants} {s : OSVariables M}
  {ultId vaddr : Nat} {pte : PageTableEntry}

/-- Some step takes the map request, and each that does leaves the flag set exactly if it was
set and the request is sound. -/
def MapStartRecordsSoundness (c : OSConstants) (s : OSVariables M) (ultId vaddr : Nat)
    (pte : PageTableEntry) : Prop :=
  (∃ s2, StepMapStart c s s2 ultId vaddr pte) ∧
  ∀ s2, StepMapStart c s s2 ultId vaddr pte →
    (s2.sound = true ↔
      s.sound = true ∧ StepMapSound s.interpPtMem s.coreStates.values vaddr pte)

/-- `step_Unmap_sound` (`spec_t/os.rs:688–695`) for the entry at the address. -/
def UnmapSound (s : OSVariables M) (vaddr : Nat) : Prop :=
  ¬candidateMappingOverlapsInflightVmem s.interpPtMem s.coreStates.values vaddr
    (HlSpec.sizeOf? (s.interpPtMem vaddr))

/-- Some step takes the unmap request, and each that does leaves the flag set exactly if it was
set and the request is sound. -/
def UnmapStartRecordsSoundness (c : OSConstants) (s : OSVariables M) (ultId vaddr : Nat) : Prop :=
  (∃ s2, StepUnmapStart c s s2 ultId vaddr) ∧
  ∀ s2, StepUnmapStart c s s2 ultId vaddr →
    (s2.sound = true ↔ s.sound = true ∧ UnmapSound s vaddr)

/-- The flag records a map request if and only if the request is sound. -/
theorem mapStartRecordsSoundness_iff (hult : c.validUlt ultId)
    (hidle : s.coreState (c.ultCore ultId) = .idle)
    (henabled : StepMapEnabled s.hw.globalPt vaddr pte) :
    MapStartRecordsSoundness c s ultId vaddr pte ↔
      StepMapSound s.interpPtMem s.coreStates.values vaddr pte := by
  constructor
  · rintro ⟨⟨s2, hstep⟩, _⟩
    exact hstep.sound_eq.2
  · intro hsound
    let s2 : OSVariables M :=
      { s with coreStates := s.coreStates.insert (c.ultCore ultId) (.mapWaiting ultId vaddr pte) }
    have hstep : StepMapStart c s s2 ultId vaddr pte :=
      ⟨hult, hidle, henabled, ⟨rfl, rfl⟩, rfl, rfl, rfl, rfl, hsound⟩
    refine ⟨⟨s2, hstep⟩, fun s' hstep' ↦ ?_⟩
    rw [hstep'.sound_eq.1]
    exact (and_iff_left hsound).symm

/-- The flag records an unmap request if and only if the request is sound. -/
theorem unmapStartRecordsSoundness_iff (hult : c.validUlt ultId)
    (hidle : s.coreState (c.ultCore ultId) = .idle) (henabled : HlSpec.StepUnmapEnabled vaddr) :
    UnmapStartRecordsSoundness c s ultId vaddr ↔ UnmapSound s vaddr := by
  constructor
  · rintro ⟨⟨s2, hstep⟩, _⟩
    exact hstep.sound_eq.2
  · intro hsound
    let s2 : OSVariables M :=
      { s with coreStates := s.coreStates.insert (c.ultCore ultId) (.unmapWaiting ultId vaddr) }
    have hstep : StepUnmapStart c s s2 ultId vaddr :=
      ⟨hult, hidle, henabled, ⟨rfl, rfl⟩, rfl, rfl, rfl, rfl, hsound⟩
    refine ⟨⟨s2, hstep⟩, fun s' hstep' ↦ ?_⟩
    rw [hstep'.sound_eq.1]
    exact (and_iff_left hsound).symm

/-- Of the requests a thread with an idle core may make, the flag records exactly the sound
ones; the others are blocked. -/
theorem startRecordsSoundness_iff_sound (c : OSConstants) (s : OSVariables M) {ultId : Nat}
    (hult : c.validUlt ultId) (hidle : s.coreState (c.ultCore ultId) = .idle) :
    (∀ vaddr pte, StepMapEnabled s.hw.globalPt vaddr pte →
      (MapStartRecordsSoundness c s ultId vaddr pte ↔
        StepMapSound s.interpPtMem s.coreStates.values vaddr pte)) ∧
    ∀ vaddr, HlSpec.StepUnmapEnabled vaddr →
      (UnmapStartRecordsSoundness c s ultId vaddr ↔ UnmapSound s vaddr) :=
  ⟨fun _ _ henabled ↦ mapStartRecordsSoundness_iff hult hidle henabled,
    fun _ henabled ↦ unmapStartRecordsSoundness_iff hult hidle henabled⟩

end Start

section Example

open ExampleRun

attribute [local instance] widePhyAddr

-- After a page was mapped, the request to map its frame at another address is enabled, and not
-- sound.
private theorem exists_unsound : ∃ m : BumpMemory,
    PageTable.interpPtMem m = PMap.empty.insert vaddr smallPage ∧
    StepMapEnabled m 0x4000 smallPage ∧
    ¬StepMapSound (state m PMap.empty .idle noShootdown).interpPtMem
      (state m PMap.empty .idle noShootdown).coreStates.values 0x4000 smallPage := by
  obtain ⟨m, pt, hcall, _, _, hm⟩ := exists_mapFrame_smallPage
  have hpages : (mapFrame BumpMemory.initial rootDir 0x3000 smallPage).map
      (fun r ↦ decide (3 ≤ PtMemory.allocAvailablePages r.2.1)) = some true := by
    decide +kernel
  rw [hcall] at hpages
  refine ⟨m, hm, ⟨⟨by decide, by decide, by decide, ?_, by decide⟩,
    of_decide_eq_true (Option.some.inj hpages)⟩, fun hsound ↦ hsound.existing_pmem ?_⟩
  · show 0x4000 + l3EntrySize < x86Arch.upperVaddr 0 0
    decide
  · refine ⟨0x3000, smallPage, ?_, by decide⟩
    rw [view_state, hm]
    exact PMap.insert_self _ _ _

/-- After a page was mapped, the flag records the request to unmap it, but not the request to map
its frame at another address. -/
theorem startRecordsSoundness_iff_sound_mapped : ∃ m : BumpMemory,
    PageTable.interpPtMem m = PMap.empty.insert vaddr smallPage ∧
    UnmapStartRecordsSoundness c (state m PMap.empty .idle noShootdown) 0 vaddr ∧
    StepMapEnabled m 0x4000 smallPage ∧
    ¬MapStartRecordsSoundness c (state m PMap.empty .idle noShootdown) 0 0x4000 smallPage := by
  obtain ⟨m, hm, henabled, hunsound⟩ := exists_unsound
  obtain ⟨hmap, hunmap⟩ := startRecordsSoundness_iff_sound c
    (state m PMap.empty .idle noShootdown) (show 0 < 1 by decide) rfl
  refine ⟨m, hm, (hunmap vaddr ⟨by decide, by decide⟩).mpr ?_, henabled,
    fun hrecords ↦ hunsound ((hmap _ _ henabled).mp hrecords)⟩
  have hstart : NextStep c (state m PMap.empty .idle noShootdown) _ (.unmapStart 0 vaddr) :=
    unmapStart
  exact hstart.sound_eq.2

/-- After a page was mapped at one address, the request to map its frame at another one is
enabled, and blocked. -/
theorem not_startRecordsSoundness : ¬∀ s : OSVariables BumpMemory, (osMachine c).Reachable s →
    ∀ ultId, c.validUlt ultId → s.coreState (c.ultCore ultId) = .idle →
    (∀ vaddr pte, StepMapEnabled s.hw.globalPt vaddr pte →
      MapStartRecordsSoundness c s ultId vaddr pte) ∧
    ∀ vaddr, HlSpec.StepUnmapEnabled vaddr → UnmapStartRecordsSoundness c s ultId vaddr := by
  intro hall
  obtain ⟨m, hm, henabled, hunsound⟩ := exists_unsound
  have hreach := (mapEnd hm).reachable <| mapOpStart.reachable <| mapStart.reachable <|
    .of_init init
  obtain ⟨hmap, _⟩ := hall _ hreach 0 (show 0 < 1 by decide) rfl
  obtain ⟨⟨s2, hstep⟩, _⟩ := hmap 0x4000 smallPage henabled
  exact hunsound hstep.sound_eq.2

end Example

end NrKernel.OS
