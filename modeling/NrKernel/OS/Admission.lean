import NrKernel.OS.HighLevelInvariant
import NrKernel.OS.Machine
import NrKernel.PageTable.Refinement

/-!
# Which map requests are admitted

A map request is checked twice: `step_Map_enabled` bounds it by the end of the root directory
(`spec_t/hlspec.rs:272–288`, `spec_t/os.rs:577–592`), and `map_frame` asks for an accepted mapping
of that directory (`impl_u/l2_impl.rs:941–945`, `impl_u/l1.rs:804–817`). The first bound is strict
and the second is not. They differ on the pages that end where the root directory ends, which the
implementation maps and no process can ask for.
-/

namespace NrKernel.OS

open Lib PageTable CoreState OSVariables PtMemory

section Checks

variable {M : Type} [PtMemoryOps M] [PhyAddrWidth] {vaddr : Nat} {pte : PageTableEntry}

/-- What `map_frame` asks of the request, on the root directory (`impl_u/l2_impl.rs:1689–1690`). -/
structure Accepted (mem : M) (pt : PTDir) (vaddr : Nat) (pte : PageTableEntry) : Prop where
  frame : AcceptedMapping pte
  root : (PT.interp mem pt).AcceptedMapping vaddr pte

/-- The high-level check passes exactly the accepted requests, and so does the check of the OS
if there are pages left for the operation. -/
structure AdmissionAgrees (mem : M) (pt : PTDir) (vaddr : Nat) (pte : PageTableEntry) : Prop where
  high_level : HlSpec.StepMapEnabled vaddr pte ↔ Accepted mem pt vaddr pte
  os : StepMapEnabled mem vaddr pte ↔
    Accepted mem pt vaddr pte ∧ 3 ≤ allocAvailablePages mem

omit [PhyAddrWidth] in
/-- The root directory ends at the bound of mappable addresses. -/
theorem x86Arch_upperVaddr_root : x86Arch.upperVaddr 0 0 = maxBase := by decide

omit [PhyAddrWidth] in
/-- The page sizes are the entry sizes of the layers from the second on. -/
theorem pageSize_iff {size : Nat} : x86Arch.containsEntrySizeAtIndexAtleast size 1 ↔
    size = l3EntrySize ∨ size = l2EntrySize ∨ size = l1EntrySize := by
  constructor
  · rintro ⟨i, hle, hlt, rfl⟩
    change i < 4 at hlt
    obtain rfl | rfl | rfl : i = 1 ∨ i = 2 ∨ i = 3 := by omega
    · exact .inr (.inr rfl)
    · exact .inr (.inl rfl)
    · exact .inl rfl
  · rintro (rfl | rfl | rfl)
    · exact ⟨3, by decide, by decide, rfl⟩
    · exact ⟨2, by decide, by decide, rfl⟩
    · exact ⟨1, by decide, by decide, rfl⟩

/-- The high-level check passes the pages that end below the top. -/
theorem stepMapEnabled_iff : HlSpec.StepMapEnabled vaddr pte ↔
    IsPage (vaddr, pte) ∧ pte.frame.base ≤ maxPhyaddr ∧ vaddr + pte.frame.size < maxBase := by
  have htop : candidateMappingInBounds vaddr pte ↔ vaddr + pte.frame.size < maxBase := by
    rw [candidateMappingInBounds, x86Arch_upperVaddr_root]
  constructor
  · exact fun h ↦ ⟨h.isPage, h.frame_base_le, htop.mp h.in_bounds⟩
  · rintro ⟨hpage, hbase, hlt⟩
    exact ⟨hpage.vaddr_aligned, hpage.frame_aligned, hbase, htop.mpr hlt, hpage.size⟩

/-- The implementation accepts the pages that end at the top, or below. -/
theorem accepted_iff (mem : M) (pt : PTDir) : Accepted mem pt vaddr pte ↔
    IsPage (vaddr, pte) ∧ pte.frame.base ≤ maxPhyaddr ∧ vaddr + pte.frame.size ≤ maxBase := by
  have hlower : (PT.interp mem pt).baseVaddr = 0 := interpAt_baseVaddr ..
  have hupper : (PT.interp mem pt).upperVaddr = maxBase := by
    rw [Directory.upperVaddr, PT.interp, interpAt_arch, interpAt_layer, interpAt_baseVaddr,
      x86Arch_upperVaddr_root]
  constructor
  · rintro ⟨hframe, hroot⟩
    obtain ⟨_, hle⟩ := hroot.in_bounds
    rw [hupper] at hle
    exact ⟨⟨pageSize_iff.mp hframe.size_layer, hroot.vaddr_aligned, hroot.frame_aligned⟩,
      hframe.frame_base_le, hle⟩
  · rintro ⟨hpage, hbase, hle⟩
    have hsize := pageSize_iff.mpr hpage.size
    refine ⟨⟨hsize, hbase⟩, hpage.vaddr_aligned, hpage.frame_aligned, ?_, ?_⟩
    · rw [hlower, hupper]
      exact ⟨Nat.zero_le _, hle⟩
    · obtain ⟨i, _, hlt, hi⟩ := hsize
      rw [PT.interp, interpAt_arch, interpAt_layer]
      exact ⟨i, Nat.zero_le _, hlt, hi⟩

/-- What a process may request, the implementation accepts. -/
theorem HlSpec.StepMapEnabled.accepted (h : HlSpec.StepMapEnabled vaddr pte) (mem : M)
    (pt : PTDir) : Accepted mem pt vaddr pte := by
  obtain ⟨hpage, hbase, hlt⟩ := stepMapEnabled_iff.mp h
  exact (accepted_iff mem pt).mpr ⟨hpage, hbase, Nat.le_of_lt hlt⟩

/-- The checks agree on a page exactly if it does not end at the top of the mappable range. -/
theorem admissionAgrees_iff (mem : M) (pt : PTDir) (hpage : IsPage (vaddr, pte))
    (hbase : pte.frame.base ≤ maxPhyaddr) :
    AdmissionAgrees mem pt vaddr pte ↔ vaddr + pte.frame.size ≠ maxBase := by
  constructor
  · intro h htop
    have haccepted := (accepted_iff mem pt).mpr ⟨hpage, hbase, Nat.le_of_eq htop⟩
    obtain ⟨_, _, hlt⟩ := stepMapEnabled_iff.mp (h.high_level.mpr haccepted)
    exact Nat.ne_of_lt hlt htop
  · intro hne
    have hagree : HlSpec.StepMapEnabled vaddr pte ↔ Accepted mem pt vaddr pte := by
      refine ⟨fun h ↦ h.accepted mem pt, fun h ↦ ?_⟩
      obtain ⟨_, _, hle⟩ := (accepted_iff mem pt).mp h
      exact stepMapEnabled_iff.mpr ⟨hpage, hbase, Nat.lt_of_le_of_ne hle hne⟩
    refine ⟨hagree, fun h ↦ ⟨hagree.mp h.toStepMapEnabled, h.pages⟩, ?_⟩
    rintro ⟨haccepted, hpages⟩
    exact ⟨hagree.mpr haccepted, hpages⟩

end Checks

section Example

attribute [local instance] widePhyAddr

/-- The two admissions of a small page at the start of an empty root directory. -/
theorem admissionAgrees_iff_smallPage :
    AdmissionAgrees BumpMemory.initial rootDir 0x3000 smallPage ↔
      0x3000 + smallPage.frame.size ≠ maxBase :=
  admissionAgrees_iff BumpMemory.initial rootDir ⟨.inl rfl, by decide, by decide⟩ (by decide)

/-- The implementation maps the last page of an empty root directory, and no process can ask
for it. -/
theorem not_admissionAgrees :
    (¬∀ (mem : BumpMemory) (pt : PTDir) (vaddr : Nat) (pte : PageTableEntry),
      IsPage (vaddr, pte) → pte.frame.base ≤ maxPhyaddr → AdmissionAgrees mem pt vaddr pte) ∧
    ∃ mem' pt', mapFrame BumpMemory.initial rootDir (maxBase - l3EntrySize) smallPage =
      some (.ok (), mem', pt') := by
  have hpage : IsPage (maxBase - l3EntrySize, smallPage) := ⟨.inl rfl, by decide, by decide⟩
  have hbase : smallPage.frame.base ≤ maxPhyaddr := by decide
  have haccepted : Accepted BumpMemory.initial rootDir (maxBase - l3EntrySize) smallPage :=
    (accepted_iff _ _).mpr ⟨hpage, hbase, by decide⟩
  constructor
  · intro hall
    have hagree := hall BumpMemory.initial rootDir _ smallPage hpage hbase
    obtain ⟨_, _, hlt⟩ := stepMapEnabled_iff.mp (hagree.high_level.mpr haccepted)
    exact absurd hlt (by decide)
  · obtain ⟨hinv, hinterp, _⟩ := BumpMemory.initial_init.tree
    obtain ⟨mem', pt', hcall, _⟩ := exists_mapFrame_of_empty hinv hinterp
      BumpMemory.initial_init.interp_eq (by decide) haccepted.frame haccepted.root (by decide)
    exact ⟨mem', pt', hcall⟩

end Example

/-! ## Runs

What an entry was admitted for stays true while it is mapped.
-/

section Runs

variable [PhyAddrWidth] {c : AbstractConstants} {s s1 s2 : AbstractVariables}
  {P : Nat × PageTableEntry → Prop}

/-- Every entry that is mapped, or that a request holds, has the property. -/
structure AllEntries (P : Nat × PageTableEntry → Prop) (s : AbstractVariables) : Prop where
  mappings : ∀ base pte, s.mappings base = some pte → P (base, pte)
  requests : ∀ id a e, s.threadState id = some a → a.entry? = some e → P e

omit [PhyAddrWidth] in
/-- A thread changes its request to one whose entry has the property. -/
theorem AllEntries.setRequest (h : AllEntries P s1) {id : Nat} {a : AbstractArguments}
    (hthreads : s2.threadState = s1.threadState.insert id a) (ha : ∀ e, a.entry? = some e → P e)
    (hmap : ∀ base pte, s2.mappings base = some pte → P (base, pte)) : AllEntries P s2 := by
  refine ⟨hmap, fun id' a' e ha' he ↦ ?_⟩
  rw [hthreads] at ha'
  rcases (PMap.insert_eq_some _ _ _ _ _).mp ha' with ⟨_, rfl⟩ | ⟨_, hold⟩
  · exact ha e he
  · exact h.requests id' a' e hold he

/-- A step into a sound state keeps a property that the check of a map request implies. -/
theorem AllEntries.step (h : AllEntries P s1)
    (haccept : ∀ vaddr pte, HlSpec.StepMapEnabled vaddr pte → P (vaddr, pte))
    (hsound1 : s1.sound = true) (hsound2 : s2.sound = true) {step : AbstractStep}
    (hstep : HlSpec.NextStep c s1 s2 step) : AllEntries P s2 := by
  unfold HlSpec.NextStep at hstep
  rw [if_pos hsound1] at hstep
  have hempty : ∀ e, AbstractArguments.empty.entry? = some e → P e := by
    intro e he
    cases he
  cases step with
  | readWrite threadId vaddr op pte =>
    obtain ⟨_, hmap, hthreads, _⟩ := HlSpec.stepReadWrite_cases hstep
    exact ⟨hmap ▸ h.mappings, hthreads ▸ h.requests⟩
  | mapStart threadId vaddr pte =>
    obtain ⟨henabled, _, _, hok, hbad⟩ := hstep
    by_cases hs : HlSpec.StepMapSound s1.mappings s1.threadState.values vaddr pte
    · obtain ⟨hthreads, _, hmap, _⟩ := hok hs
      apply h.setRequest hthreads _ (hmap ▸ h.mappings)
      intro e he
      cases he
      exact haccept vaddr pte henabled
    · exact absurd ((hbad hs).symm.trans hsound2) Bool.false_ne_true
  | mapEnd threadId result =>
    obtain ⟨_, _, hthreads, vaddr, pte, hthread, herr, hok⟩ := hstep
    apply h.setRequest hthreads hempty
    by_cases hv : candidateMappingOverlapsExistingVmem s1.mappings vaddr pte
    · rw [(herr hv).2.1]
      exact h.mappings
    · intro base p hp
      rw [(hok hv).2.1] at hp
      rcases (PMap.insert_eq_some _ _ _ _ _).mp hp with ⟨rfl, rfl⟩ | ⟨_, hold⟩
      · exact h.requests threadId _ _ hthread rfl
      · exact h.mappings base p hold
  | unmapStart threadId vaddr =>
    obtain ⟨_, _, _, hok, hbad⟩ := hstep
    by_cases hs : HlSpec.stepUnmapSound s1.threadState.values vaddr
        (HlSpec.sizeOf? (s1.mappings vaddr))
    · obtain ⟨hthreads, hchange, _⟩ := hok hs
      apply h.setRequest hthreads
      · intro e he
        obtain ⟨p, hp, rfl⟩ := Option.map_eq_some_iff.mp he
        exact h.mappings vaddr p hp
      · intro base p hp
        split at hchange
        · rw [hchange.1] at hp
          exact h.mappings base p hp
        · rw [hchange.1] at hp
          exact h.mappings base p ((PMap.remove_eq_some _ _ _ _).mp hp).2
    · exact absurd ((hbad hs).symm.trans hsound2) Bool.false_ne_true
  | unmapEnd threadId result =>
    obtain ⟨_, hthreads, _, hmap, _⟩ := hstep
    exact h.setRequest hthreads hempty (hmap ▸ h.mappings)
  | stutter => exact (show s1 = s2 from hstep) ▸ h

/-- What the check of a map request implies is true of every entry mapped in a sound run. -/
theorem allEntries_of_reachable
    (haccept : ∀ vaddr pte, HlSpec.StepMapEnabled vaddr pte → P (vaddr, pte))
    (hreach : (hlMachine c).Reachable s) (hsound : s.sound = true) : AllEntries P s := by
  refine hreach.invariant (I := fun s ↦ s.sound = true → AllEntries P s) ?_ ?_ hsound
  · intro s hinit _
    constructor
    · intro base pte hmap
      rw [hinit.mappings_eq] at hmap
      cases hmap
    · intro id a e ha he
      have hid := (hinit.wf.threads id).mpr (Option.isSome_iff_exists.mpr ⟨a, ha⟩)
      rw [hinit.threads_idle id hid] at ha
      cases ha
      cases he
  · intro s1 step s2 ih hstep hsound2
    have hsound1 := HlSpec.NextStep.sound_of_sound hstep hsound2
    exact (ih hsound1).step haccept hsound1 hsound2 hstep

/-- In no sound run is a page mapped that ends at the top of the mappable range. -/
theorem mapping_below_top (hreach : (hlMachine c).Reachable s) (hsound : s.sound = true)
    {base : Nat} {pte : PageTableEntry} (hmap : s.mappings base = some pte) :
    base + pte.frame.size < maxBase :=
  (allEntries_of_reachable (P := fun e ↦ e.1 + e.2.frame.size < maxBase)
    (fun _ _ h ↦ (stepMapEnabled_iff.mp h).2.2) hreach hsound).mappings base pte hmap

end Runs

end NrKernel.OS
