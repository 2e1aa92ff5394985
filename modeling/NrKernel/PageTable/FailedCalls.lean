import NrKernel.PageTable.RecordedMemory

/-!
# Failed calls leave everything untouched

`map_frame` and `unmap` find out that they fail before their first operation on memory. The
only failure that could come later, of the recursion below a directory that was just linked
in, does not occur: an empty directory refuses no accepted request.
-/

namespace NrKernel.PageTable

open Lib PtMemory

section Untouched

variable {M : Type} [PtMemoryOps M]

/-- Memory and ghost tree are exactly those before the call. -/
structure Untouched (mem : M) (pt : PTDir) (mem' : M) (pt' : PTDir) : Prop where
  regionView_eq : ∀ r, regionView mem' r = regionView mem r
  regions_eq : regions mem' = regions mem
  available_eq : allocAvailablePages mem' = allocAvailablePages mem
  tree_eq : pt' = pt

private theorem Untouched.refl (mem : M) (pt : PTDir) : Untouched mem pt mem pt :=
  ⟨fun _ ↦ rfl, rfl, rfl, rfl⟩

end Untouched

section Calls

variable {M : Type} [PhyAddrWidth] [PageTableMemory M] {mem : M} {pt : PTDir} {vaddr : Nat}

/-- A failed call of `map_frame` makes no operation on memory. -/
theorem mapFrame_failed {pte : PageTableEntry} (hinv : PT.Inv mem pt)
    (hinterp : (PT.interp mem pt).Inv) (hpages : 3 ≤ allocAvailablePages mem)
    (hpte : AcceptedMapping pte) (ha : (PT.interp mem pt).AcceptedMapping vaddr pte)
    (hmax : vaddr < maxBase) {mem' : M} {pt' : PTDir}
    (herr : mapFrame mem pt vaddr pte = some (.error (), mem', pt')) :
    mem' = mem ∧ pt' = pt ∧
      mapFrame (Recorded.start mem) pt vaddr pte = some (.error (), Recorded.start mem, pt) := by
  rcases mapFrame_run_recorded hinv hinterp hpages hpte ha hmax with
    ⟨ptRes, newRegions, s', _, hspec, _⟩ | ⟨hcall, hspec⟩
  · cases herr.symm.trans hspec
  · cases herr.symm.trans hspec
    exact ⟨rfl, rfl, hcall⟩

/-- A failed call of `unmap` makes no operation on memory. -/
theorem unmap_failed (hinv : PT.Inv mem pt) (hinterp : (PT.interp mem pt).Inv)
    (ha : (PT.interp mem pt).AcceptedUnmap vaddr) (hmax : vaddr < maxBase) {mem' : M} {pt' : PTDir}
    (herr : unmap mem pt vaddr = some (.error (), mem', pt')) :
    mem' = mem ∧ pt' = pt ∧
      unmap (Recorded.start mem) pt vaddr = some (.error (), Recorded.start mem, pt) := by
  rcases unmap_run_recorded hinv hinterp ha hmax with
    ⟨ptRes, removedRegions, s', _, hspec, _⟩ | ⟨hcall, hspec⟩
  · cases herr.symm.trans hspec
  · cases herr.symm.trans hspec
    exact ⟨rfl, rfl, hcall⟩

/-- Mapping below a directory that was just linked in does not fail, at any depth. -/
theorem MapAuxRequires.mapFrameAux_new_directory {layer ptr base : Nat} {pte : PageTableEntry}
    (h : MapAuxRequires mem pt layer ptr base vaddr pte)
    (hsize : x86Arch.entrySize layer ≠ pte.frame.size) :
    ∃ region word mem₁, insertEmptyDirectory mem pt layer ptr
        (x86Arch.indexForVaddr layer base vaddr) =
          some ((withEmpty pt (x86Arch.indexForVaddr layer base vaddr) region, region, word),
            mem₁) ∧
      ∃ dRes newRegions mem', mapFrameAux mem₁ (PTDir.empty region) (layer + 1) region.base
        (x86Arch.entryBase layer base (x86Arch.indexForVaddr layer base vaddr)) vaddr pte =
          some (.ok (dRes, newRegions), mem') := by
  have hlayer := h.layer_lt hsize
  have hpages := h.pages
  change 4 - (layer + 1) ≤ _ at hpages
  obtain ⟨region, mem₀, mem₁, halloc, _, hwrite, _, ins⟩ :=
    insertEmptyDirectory_spec h.inv h.index_lt hlayer (by omega)
  refine ⟨region, _, mem₁, insertEmptyDirectory_eq halloc hwrite, ?_⟩
  obtain ⟨hreq, d, hok⟩ := ins.requires h hsize
  obtain ⟨res, mem', hcall, hrun⟩ := mapFrameAux_run _ rfl hreq
  cases res with
  | ok res => exact ⟨res.1, res.2, mem', hcall⟩
  | error u =>
    obtain ⟨_, herr⟩ := hrun.outcome
    rw [herr] at hok
    cases hok

end Calls

/-! ## Main result -/

/-- Failed calls leave the page table untouched: a call of `map_frame` or `unmap` that returns
an error made no operation on memory, and mapping below a freshly inserted directory never
returns one. -/
theorem failed_calls_untouched {M : Type} [PhyAddrWidth] [PageTableMemory M] (mem : M) (pt : PTDir)
    (hinv : PT.Inv mem pt) (hinterp : (PT.interp mem pt).Inv) :
    (∀ vaddr pte mem' pt', 3 ≤ allocAvailablePages mem → AcceptedMapping pte →
      (PT.interp mem pt).AcceptedMapping vaddr pte → vaddr < maxBase →
      mapFrame mem pt vaddr pte = some (.error (), mem', pt') →
      Untouched mem pt mem' pt' ∧
        mapFrame (Recorded.start mem) pt vaddr pte =
          some (.error (), Recorded.start mem, pt)) ∧
    (∀ vaddr mem' pt', (PT.interp mem pt).AcceptedUnmap vaddr → vaddr < maxBase →
      unmap mem pt vaddr = some (.error (), mem', pt') →
      Untouched mem pt mem' pt' ∧
        unmap (Recorded.start mem) pt vaddr = some (.error (), Recorded.start mem, pt)) ∧
    (∀ (mem : M) pt layer ptr base vaddr pte, MapAuxRequires mem pt layer ptr base vaddr pte →
      x86Arch.entrySize layer ≠ pte.frame.size →
      ∃ region word mem₁, insertEmptyDirectory mem pt layer ptr
          (x86Arch.indexForVaddr layer base vaddr) =
            some ((withEmpty pt (x86Arch.indexForVaddr layer base vaddr) region, region, word),
              mem₁) ∧
        ∃ dRes newRegions mem', mapFrameAux mem₁ (PTDir.empty region) (layer + 1) region.base
          (x86Arch.entryBase layer base (x86Arch.indexForVaddr layer base vaddr)) vaddr pte =
            some (.ok (dRes, newRegions), mem')) := by
  refine ⟨?_, ?_, ?_⟩
  · intro vaddr pte mem' pt' hpages hpte ha hmax herr
    obtain ⟨rfl, rfl, hrecord⟩ := mapFrame_failed hinv hinterp hpages hpte ha hmax herr
    exact ⟨.refl _ _, hrecord⟩
  · intro vaddr mem' pt' ha hmax herr
    obtain ⟨rfl, rfl, hrecord⟩ := unmap_failed hinv hinterp ha hmax herr
    exact ⟨.refl _ _, hrecord⟩
  · intro mem pt layer ptr base vaddr pte h hsize
    exact h.mapFrameAux_new_directory hsize

attribute [local instance] widePhyAddr in
/-- Calls that fail with a page mapped. -/
theorem failed_calls_untouched_mapped : ∃ (mem : BumpMemory) (pt : PTDir),
    interpPtMem mem = PMap.empty.insert 0x3000 smallPage ∧
    (∀ vaddr pte mem' pt', 3 ≤ allocAvailablePages mem → AcceptedMapping pte →
      (PT.interp mem pt).AcceptedMapping vaddr pte → vaddr < maxBase →
      mapFrame mem pt vaddr pte = some (.error (), mem', pt') →
      Untouched mem pt mem' pt' ∧
        mapFrame (Recorded.start mem) pt vaddr pte =
          some (.error (), Recorded.start mem, pt)) ∧
    (∀ vaddr mem' pt', (PT.interp mem pt).AcceptedUnmap vaddr → vaddr < maxBase →
      unmap mem pt vaddr = some (.error (), mem', pt') →
      Untouched mem pt mem' pt' ∧
        unmap (Recorded.start mem) pt vaddr = some (.error (), Recorded.start mem, pt)) := by
  obtain ⟨mem, pt, hinv, hinterp, hmap⟩ := exists_mapped
  have h := failed_calls_untouched mem pt hinv hinterp
  exact ⟨mem, pt, hmap, h.1, h.2.1⟩

end NrKernel.PageTable
