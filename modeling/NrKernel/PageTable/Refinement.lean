import NrKernel.PageTable.BumpMemory
import NrKernel.PageTable.MapFrame
import NrKernel.PageTable.Unmap

/-!
# The implementation refines the page table state machine

What the raw words mean to the MMU is what the tree of directories maps, and `map_frame` and
`unmap` are the steps of `spec_pt` on that meaning.
-/

namespace NrKernel.PageTable

open Lib PtMemory

/-! ## Initial memories -/

section Init

variable {M : Type} [PtMemoryOps M] [PhyAddrWidth]

/-- A memory with a zeroed root page stores the tree without mappings. -/
theorem SpecPt.Init.tree {mem : M} (h : SpecPt.Init ⟨mem⟩) :
    PT.Inv mem (PTDir.empty (cr3 mem)) ∧ (PT.interp mem (PTDir.empty (cr3 mem))).Inv ∧
      (PT.interp mem (PTDir.empty (cr3 mem))).interpMap = PMap.empty := by
  have hview : regionView mem (cr3 mem) = List.replicate x86NumEntries 0#64 := by
    apply List.eq_replicate_iff.mpr
    refine ⟨h.view_length, fun w hw ↦ ?_⟩
    obtain ⟨i, hi, rfl⟩ := List.getElem_of_mem hw
    have hlt : i < 512 := h.view_length ▸ hi
    rw [← List.getD_eq_getElem _ 0 hi]
    exact h.view_zero i hlt
  have hmem : cr3 mem ∈ regions mem := by
    rw [h.regions_eq]
    exact Set.mem_singleton _
  have hlayer : 0 < x86NumLayers := by decide
  obtain ⟨hinv, hempty⟩ :=
    InvAt.zeroed hlayer h.inv hmem h.inv.cr3_aligned h.inv.cr3_size hview
  have hwf : (PT.interp mem (PTDir.empty (cr3 mem))).WellFormed := {
    arch_inv := by
      rw [PT.interp, interpAt_arch]
      exact x86Arch_inv
    layer_lt := by
      rw [PT.interp, interpAt_arch, interpAt_layer]
      exact hlayer
    base_aligned := by
      rw [PT.interp, interpAt_baseVaddr]
      exact Nat.zero_mod _
    entries_length := by
      rw [PT.interp, interpAt_numEntries _ _ _ hlayer, interpAt_eq _ _ _ hlayer]
      rw [List.length_map, List.length_range]
    flags_eq := by
      rw [PT.interp, interpAt_eq _ _ _ hlayer] }
  have hdir : (PT.interp mem (PTDir.empty (cr3 mem))).Empty := by
    intro i hi
    rw [PT.interp, interpAt_numEntries _ _ _ hlayer] at hi
    exact (hinv.loc.interpAt_isEmpty hi 0).mpr (hempty i hi)
  have hinterp := hwf.inv_of_empty hdir
  exact ⟨⟨rfl, hinv⟩, hinterp, hinterp.interpMap_of_empty hdir⟩

/-- Initially the MMU maps nothing. -/
theorem SpecPt.Init.interp_eq {s : PageTableVariables M} (h : SpecPt.Init s) :
    SpecPt.interp s = PMap.empty := by
  obtain ⟨hinv, hinterp, hmap⟩ := h.tree
  rw [SpecPt.interp, hinv.interpPtMem_eq hinterp, hmap]

end Init

/-- Mapping an accepted entry in a memory that maps nothing succeeds. -/
theorem exists_mapFrame_of_empty {M : Type} [PhyAddrWidth] [PageTableMemory M] {mem : M}
    {pt : PTDir} {vaddr : Nat} {pte : PageTableEntry}
    (hinv : PT.Inv mem pt) (hinterp : (PT.interp mem pt).Inv)
    (hempty : SpecPt.interp ⟨mem⟩ = PMap.empty) (hpages : 3 ≤ allocAvailablePages mem)
    (hpte : AcceptedMapping pte) (ha : (PT.interp mem pt).AcceptedMapping vaddr pte)
    (hmax : vaddr < maxBase) : ∃ (mem' : M) (pt' : PTDir),
    mapFrame mem pt vaddr pte = some (.ok (), mem', pt') ∧ PT.Inv mem' pt' ∧
    (PT.interp mem' pt').Inv ∧ interpPtMem mem' = PMap.empty.insert vaddr pte := by
  obtain ⟨result, mem', pt', hcall, hens⟩ := mapFrame_spec hinv hinterp hpages hpte ha hmax
  have hno : ¬candidateMappingOverlapsExistingVmem (SpecPt.interp ⟨mem⟩) vaddr pte := by
    rw [hempty]
    rintro ⟨b, p, hp, _⟩
    cases hp
  obtain ⟨rfl, hview⟩ := hens.step.2 hno
  refine ⟨mem', pt', hcall, hens.inv, hens.interp_inv, ?_⟩
  have hview' : interpPtMem mem' = _ := hview
  rw [hview', hempty]

/-- The initial memory stores an empty page table. -/
theorem BumpMemory.initial_init [PhyAddrWidth] : SpecPt.Init ⟨BumpMemory.initial⟩ where
  inv := BumpMemory.inv _
  regions_eq := by
    ext r
    rw [BumpMemory.mem_regions, Set.mem_singleton_iff]
    constructor
    · rintro ⟨p, hp, rfl⟩
      rw [beq_iff_eq.mp hp]
      rfl
    · rintro rfl
      exact ⟨0, rfl, rfl⟩
  view_length := List.length_replicate
  view_zero i _ := Lib.Table.getD_replicate_default 0#64 512 i

/-! ## A mapped page

A 4 KiB page mapped in a memory that holds an empty root directory. -/

section Example

attribute [local instance] widePhyAddr

/-- A writable 4 KiB page. -/
def smallPage : PageTableEntry := ⟨⟨0x7000, l3EntrySize⟩, ⟨true, false, true⟩⟩

/-- The root directory of the initial memory. -/
abbrev rootDir : PTDir := PTDir.empty (BumpMemory.page 0)

/-- A small page is one `map_frame` accepts. -/
theorem smallPage_accepted : AcceptedMapping smallPage where
  size_layer := ⟨3, by decide, by decide, by decide⟩
  frame_base_le := by decide

/-- Every root directory accepts the page at an aligned mappable address. -/
theorem smallPage_acceptedMapping {M : Type} [PtMemoryOps M] (mem : M) (pt : PTDir) :
    (PT.interp mem pt).AcceptedMapping 0x3000 smallPage where
  vaddr_aligned := by decide
  frame_aligned := by decide
  in_bounds := by
    rw [Directory.upperVaddr, PT.interp, interpAt_arch, interpAt_layer, interpAt_baseVaddr]
    decide
  valid_size := by
    rw [PT.interp, interpAt_arch, interpAt_layer]
    exact ⟨3, by decide, by decide, by decide⟩

/-- Every root directory accepts to unmap the address. -/
theorem acceptedUnmap_smallPage {M : Type} [PtMemoryOps M] (mem : M) (pt : PTDir) :
    (PT.interp mem pt).AcceptedUnmap 0x3000 := by
  refine ⟨?_, l3EntrySize, ?_, by decide⟩
  · change between _ (PT.interp mem pt).baseVaddr (PT.interp mem pt).upperVaddr
    rw [Directory.upperVaddr, PT.interp, interpAt_arch, interpAt_layer, interpAt_baseVaddr]
    decide
  · change (PT.interp mem pt).arch.containsEntrySize _
    rw [PT.interp, interpAt_arch]
    exact ⟨3, by decide, by decide, by decide⟩

/-- Mapping the page in a memory with an empty root directory succeeds. -/
theorem SpecPt.Init.exists_mapFrame_smallPage {mem : BumpMemory} (h : SpecPt.Init ⟨mem⟩)
    (hpages : 3 ≤ allocAvailablePages mem) : ∃ (mem' : BumpMemory) (pt : PTDir),
    mapFrame mem rootDir 0x3000 smallPage = some (.ok (), mem', pt) ∧ PT.Inv mem' pt ∧
    (PT.interp mem' pt).Inv ∧ interpPtMem mem' = PMap.empty.insert 0x3000 smallPage := by
  obtain ⟨hinv, hinterp, _⟩ := h.tree
  exact exists_mapFrame_of_empty hinv hinterp h.interp_eq hpages smallPage_accepted
    (smallPage_acceptedMapping _ _) (by decide)

/-- Mapping the page in the initial memory succeeds. -/
theorem exists_mapFrame_smallPage : ∃ (mem : BumpMemory) (pt : PTDir),
    mapFrame BumpMemory.initial rootDir 0x3000 smallPage = some (.ok (), mem, pt) ∧
    PT.Inv mem pt ∧ (PT.interp mem pt).Inv ∧
    interpPtMem mem = PMap.empty.insert 0x3000 smallPage :=
  BumpMemory.initial_init.exists_mapFrame_smallPage (by decide)

/-- Memory and tree after the page was mapped. -/
theorem exists_mapped : ∃ (mem : BumpMemory) (pt : PTDir), PT.Inv mem pt ∧
    (PT.interp mem pt).Inv ∧ interpPtMem mem = PMap.empty.insert 0x3000 smallPage := by
  obtain ⟨mem, pt, _, hmapped⟩ := exists_mapFrame_smallPage
  exact ⟨mem, pt, hmapped⟩

end Example

/-! ## Main results -/

section Main

/-- For every memory that stores a well-formed tree, the map the MMU computes from raw words
is the map of the tree, at every address and for all page sizes. -/
theorem interpPtMem_eq_interp {M : Type} [PtMemoryOps M] [PhyAddrWidth] (mem : M) (pt : PTDir)
    (hinv : PT.Inv mem pt) (hinterp : (PT.interp mem pt).Inv) :
    interpPtMem mem = (PT.interp mem pt).interp.map := by
  rw [Directory.interp_map]
  exact hinv.interpPtMem_eq hinterp

attribute [local instance] widePhyAddr in
/-- The MMU finds a page that was mapped. -/
theorem interpPtMem_eq_interp_mapped : ∃ (mem : BumpMemory) (pt : PTDir),
    interpPtMem mem = (PT.interp mem pt).interp.map ∧ interpPtMem mem 0x3000 = some smallPage := by
  obtain ⟨mem, pt, hinv, hinterp, hmap⟩ := exists_mapped
  exact ⟨mem, pt, interpPtMem_eq_interp mem pt hinv hinterp, by rw [hmap, PMap.insert_self]⟩

/-- `map_frame` implements the specified map: it re-establishes the invariants, refuses
exactly the requests that overlap a mapping without changing the view of the MMU, and
otherwise inserts the one requested entry into that view. -/
theorem mapFrame_implements_stepMapEnd {M : Type} [PhyAddrWidth] [PageTableMemory M] (mem : M)
    (pt : PTDir) (vaddr : Nat) (pte : PageTableEntry) (hinv : PT.Inv mem pt)
    (hinterp : (PT.interp mem pt).Inv) (hpages : 3 ≤ allocAvailablePages mem)
    (hpte : AcceptedMapping pte) (ha : (PT.interp mem pt).AcceptedMapping vaddr pte)
    (hmax : vaddr < maxBase) :
    ∃ result mem' pt', mapFrame mem pt vaddr pte = some (result, mem', pt') ∧
      PT.Inv mem' pt' ∧ (PT.interp mem' pt').Inv ∧
      SpecPt.stepMapEnd ⟨mem⟩ ⟨mem'⟩ vaddr pte result := by
  obtain ⟨result, mem', pt', hcall, hens⟩ := mapFrame_spec hinv hinterp hpages hpte ha hmax
  exact ⟨result, mem', pt', hcall, hens.inv, hens.interp_inv, hens.step⟩

attribute [local instance] widePhyAddr in
/-- The first small page is mapped. -/
theorem mapFrame_implements_stepMapEnd_initial : ∃ result mem' pt',
    mapFrame BumpMemory.initial rootDir 0x3000 smallPage = some (result, mem', pt') ∧
      PT.Inv mem' pt' ∧ (PT.interp mem' pt').Inv ∧
      SpecPt.stepMapEnd ⟨BumpMemory.initial⟩ ⟨mem'⟩ 0x3000 smallPage result := by
  obtain ⟨hinv, hinterp, _⟩ := SpecPt.Init.tree BumpMemory.initial_init
  exact mapFrame_implements_stepMapEnd BumpMemory.initial rootDir 0x3000 smallPage hinv hinterp
    (by decide) smallPage_accepted (smallPage_acceptedMapping _ _) (by decide)

/-- `unmap` implements the specified unmap: it re-establishes the invariants, removes exactly
the mapping that starts at the address from the view of the MMU, refuses every other address
without changing the view, and frees only directories that carried no other mapping. -/
theorem unmap_implements_stepUnmapStart {M : Type} [PhyAddrWidth] [PageTableMemory M] (mem : M)
    (pt : PTDir) (vaddr : Nat) (hinv : PT.Inv mem pt) (hinterp : (PT.interp mem pt).Inv)
    (ha : (PT.interp mem pt).AcceptedUnmap vaddr) (hmax : vaddr < maxBase) :
    ∃ result mem' pt', unmap mem pt vaddr = some (result, mem', pt') ∧
      PT.Inv mem' pt' ∧ (PT.interp mem' pt').Inv ∧
      SpecPt.stepUnmapStart ⟨mem⟩ ⟨mem'⟩ vaddr result ∧ regions mem' ⊆ regions mem ∧
      ∀ r ∈ regions mem, r ∉ regions mem' → CarriesOnly mem pt 0 0 r vaddr := by
  obtain ⟨result, mem', pt', hcall, hens⟩ := unmap_spec hinv hinterp ha hmax
  exact ⟨result, mem', pt', hcall, hens.inv, hens.interp_inv, hens.step, hens.regions_subset,
    hens.freed_carry⟩

attribute [local instance] widePhyAddr in
/-- A page that was mapped is unmapped. -/
theorem unmap_implements_stepUnmapStart_mapped : ∃ (mem : BumpMemory) (pt : PTDir),
    interpPtMem mem 0x3000 = some smallPage ∧
    ∃ result mem' pt', unmap mem pt 0x3000 = some (result, mem', pt') ∧
      PT.Inv mem' pt' ∧ (PT.interp mem' pt').Inv ∧
      SpecPt.stepUnmapStart ⟨mem⟩ ⟨mem'⟩ 0x3000 result ∧ regions mem' ⊆ regions mem ∧
      ∀ r ∈ regions mem, r ∉ regions mem' → CarriesOnly mem pt 0 0 r 0x3000 := by
  obtain ⟨mem, pt, hinv, hinterp, hmap⟩ := exists_mapped
  exact ⟨mem, pt, by rw [hmap, PMap.insert_self],
    unmap_implements_stepUnmapStart mem pt 0x3000 hinv hinterp (acceptedUnmap_smallPage mem pt)
      (by decide)⟩

end Main

end NrKernel.PageTable
