import Mathlib.Data.Set.Card
import NrKernel.PageTable.AllocationBudget
import NrKernel.PageTable.CanonicalForm

/-!
# The footprint of a page table

Which pages the page table occupies can be read off what it maps: the root, and for each mapped
page the directories above the entry that maps it. The order of the calls, the directories that
came and went, and what failed leave nothing behind.
-/

namespace NrKernel.PageTable

open Lib Lib.Machine PtMemory

/-- The directories that some mappings need, as paths of entry indices from the root: the root,
and the directories above each page down to the layer of its size. -/
def neededDirectories (ms : Mappings) : Set (List Nat) :=
  {path | path = [] ∨ ∃ vaddr pte, ms vaddr = some pte ∧ path.length < x86NumLayers ∧
    pte.frame.size ≤ x86Arch.entrySize path.length ∧ path = pathFrom 0 vaddr path.length}

/-- Entries get smaller on the way down. -/
theorem x86Arch_entrySize_lt {i j : Nat} (hij : i < j) (hj : j < x86NumLayers) :
    x86Arch.entrySize j < x86Arch.entrySize i := by
  have hj' : j < 4 := hj
  rw [x86Arch_entrySize hj', x86Arch_entrySize (by omega)]
  exact Nat.pow_lt_pow_right (by decide) (by omega)

/-! ## One table -/

section Tables

variable {M : Type} [PtMemoryOps M] [PhyAddrWidth] {mem : M} {pt : PTDir}
  {layer ptr base vaddr i : Nat} {pte : PageTableEntry} {path : List Nat}

/-- The addresses that a table's entry maps select that entry. -/
theorem InvAt.layerIndex_of_entry (h : InvAt mem pt layer ptr)
    (hinterp : (interpAt mem pt layer base).Inv)
    (hp : NodeEntry.interpMap ((interpAt mem pt layer base).entryBase i)
      ((interpAt mem pt layer base).entry i) vaddr = some pte) : layerIndex layer vaddr = i := by
  have hlayer := h.loc.layer_in_range
  have hbase := hinterp.loc.base_aligned
  rw [Directory.entrySize, Directory.numEntries, interpAt_layer, interpAt_baseVaddr,
    interpAt_arch] at hbase
  have hbounds := hinterp.interpMap_bounds (hinterp.interpMap_eq_some.mpr ⟨i, hp⟩)
  rw [Directory.upperVaddr, interpAt_arch, interpAt_layer, interpAt_baseVaddr] at hbounds
  obtain ⟨hpos, hle, hup⟩ := hbounds
  rw [layerIndex_eq hlayer hbase hle (by omega)]
  have hentry := hinterp.entry_interpMap_bounds hp
  rw [Directory.entryBase, Directory.entryBase, interpAt_arch, interpAt_layer,
    interpAt_baseVaddr] at hentry
  exact Arch.indexForVaddr_eq ⟨hentry.1, by omega⟩

/-- What a subdirectory maps, the directory maps. -/
theorem LocalInvAt.interpMap_of_sub {d : PTDir} {e : GhostDirectory}
    (h : LocalInvAt mem pt layer ptr) (hi : i < x86NumEntries)
    (hview : viewAt mem pt layer i = .directory e) (hd : pt.entry i = some d)
    (hp : (interpAt mem d (layer + 1) (x86Arch.entryBase layer base i)).interpMap vaddr =
      some pte) :
    NodeEntry.interpMap ((interpAt mem pt layer base).entryBase i)
      ((interpAt mem pt layer base).entry i) vaddr = some pte := by
  rw [h.interpAt_directory hi hview hd, NodeEntry.interpMap]
  exact hp

/-- Every directory below a table is on the way to a page that is smaller than its entries. -/
theorem InvAt.exists_mapping_of_tableAt {q : Nat} (h : InvAt mem pt layer ptr)
    (hinterp : (interpAt mem pt layer base).Inv) (hpath : tableAt mem layer ptr path = some q)
    (hne : path ≠ []) :
    ∃ vaddr pte, (interpAt mem pt layer base).interpMap vaddr = some pte ∧
      layer + path.length < x86NumLayers ∧
      pte.frame.size ≤ x86Arch.entrySize (layer + path.length) ∧
      path = pathFrom layer vaddr path.length := by
  induction path generalizing pt layer ptr base with
  | nil => exact absurd rfl hne
  | cons i path ih =>
    obtain ⟨e, d, hi, hview, hd, hrest⟩ := h.tableAt_cons hpath
    have hsub := h.sub hi hview hd
    have hentry := h.loc.interpAt_directory hi hview hd base
    have hsubinv := hinterp.sub hentry
    have hlen : layer + (i :: path).length = layer + 1 + path.length := by
      rw [List.length_cons]
      omega
    have hmapped : ∃ vaddr pte,
        (interpAt mem d (layer + 1) (x86Arch.entryBase layer base i)).interpMap vaddr =
          some pte ∧ layer + 1 + path.length < x86NumLayers ∧
        pte.frame.size ≤ x86Arch.entrySize (layer + 1 + path.length) ∧
        path = pathFrom (layer + 1) vaddr path.length := by
      cases path with
      | nil =>
        obtain ⟨vaddr, pte, hp⟩ :=
          hsubinv.exists_interpMap (hinterp.loc.directories_are_nonempty i _ hentry)
        have hsize := hsubinv.interpMap_size_le hp
        rw [Directory.entrySize, interpAt_arch, interpAt_layer] at hsize
        exact ⟨vaddr, pte, hp, hsub.loc.layer_in_range, hsize, rfl⟩
      | cons j path => exact ih hsub hsubinv hrest (List.cons_ne_nil _ _)
    obtain ⟨vaddr, pte, hp, hlayer, hsize, hrestpath⟩ := hmapped
    have hup := h.loc.interpMap_of_sub hi hview hd hp
    refine ⟨vaddr, pte, hinterp.interpMap_eq_some.mpr ⟨i, hup⟩, ?_, ?_, ?_⟩
    · rw [hlen]
      exact hlayer
    · rw [hlen]
      exact hsize
    · rw [List.length_cons, pathFrom_succ, h.layerIndex_of_entry hinterp hup, ← hrestpath]

/-- Every directory on the way to a page is there, down to the one whose entry maps it. -/
theorem InvAt.exists_tableAt_of_mapping (h : InvAt mem pt layer ptr)
    (hinterp : (interpAt mem pt layer base).Inv) {n : Nat}
    (hp : (interpAt mem pt layer base).interpMap vaddr = some pte)
    (hlayer : layer + n < x86NumLayers) (hsize : pte.frame.size ≤ x86Arch.entrySize (layer + n)) :
    ∃ q, tableAt mem layer ptr (pathFrom layer vaddr n) = some q := by
  induction n generalizing pt layer ptr base with
  | zero => exact ⟨ptr, rfl⟩
  | succ n ih =>
    obtain ⟨i, hi⟩ := hinterp.interpMap_eq_some.mp hp
    have hindex := h.layerIndex_of_entry hinterp hi
    have hlt : i < x86NumEntries := by
      rw [← hindex]
      exact Nat.mod_lt _ (by decide)
    have hadd : layer + (n + 1) = layer + 1 + n := by omega
    rw [hadd] at hlayer hsize
    cases hview : viewAt mem pt layer i with
    | empty =>
      rw [h.loc.interpAt_empty hlt hview, NodeEntry.interpMap, PMap.empty_apply] at hi
      cases hi
    | page p =>
      -- a page of the table's own entries is too large
      rw [h.loc.interpAt_page hlt hview, NodeEntry.interpMap, PMap.insert_eq_some] at hi
      obtain ⟨_, rfl⟩ | ⟨_, hi⟩ := hi
      · have hsmaller := x86Arch_entrySize_lt (i := layer) (j := layer + 1 + n) (by omega) hlayer
        exact absurd hsize (Nat.not_le.mpr hsmaller)
      · cases hi
    | directory e =>
      obtain ⟨d, hd⟩ := h.loc.exists_entry hlt hview
      have hentry := h.loc.interpAt_directory hlt hview hd base
      rw [hentry, NodeEntry.interpMap] at hi
      obtain ⟨q, hq⟩ := ih (h.sub hlt hview hd) (hinterp.sub hentry) hi hlayer hsize
      refine ⟨q, ?_⟩
      rw [pathFrom_succ, hindex]
      exact PageTable.tableAt_cons.mpr ⟨hlt, e, by rw [h.loc.readEntry_eq]; exact hview, hq⟩

end Tables

/-! ## The whole table -/

section Footprint

variable {M : Type} [PhyAddrWidth] [PageTableMemory M] {mem : M} {pt : PTDir}

/-- The directories reached from `cr3` are those the mappings need. -/
theorem Accounted.exists_directoryPage_iff (h : Accounted mem pt) (path : List Nat) :
    (∃ r, directoryPage mem path = some r) ↔ path ∈ neededDirectories (interpPtMem mem) := by
  have hlayer : ∀ n, 0 + n = n := Nat.zero_add
  unfold neededDirectories
  rw [h.inv.interpPtMem_eq h.interp_inv, Set.mem_ofPred_eq]
  constructor
  · rintro ⟨r, hr⟩
    obtain ⟨q, hq, rfl⟩ := Option.map_eq_some_iff.mp hr
    by_cases hne : path = []
    · exact .inl hne
    · right
      have hmapped := h.inv.2.exists_mapping_of_tableAt h.interp_inv hq hne
      rw [hlayer] at hmapped
      exact hmapped
  · rintro (rfl | ⟨vaddr, pte, hp, hlt, hsize, hpath⟩)
    · exact ⟨_, rfl⟩
    · rw [← hlayer path.length] at hlt hsize
      obtain ⟨q, hq⟩ := h.inv.2.exists_tableAt_of_mapping h.interp_inv hp hlt hsize
      rw [← hpath] at hq
      exact ⟨⟨q, pageSize⟩, by rw [directoryPage, hq]; rfl⟩

/-- Different paths lead to different pages. -/
theorem Accounted.directoryPage_injective (h : Accounted mem pt) {path path' : List Nat}
    {r : MemRegion} (hpath : directoryPage mem path = some r)
    (hpath' : directoryPage mem path' = some r) : path = path' := by
  obtain ⟨q, hq, rfl⟩ := Option.map_eq_some_iff.mp hpath
  obtain ⟨q', hq', heq⟩ := Option.map_eq_some_iff.mp hpath'
  cases heq
  exact h.inv.2.tableAt_injective hq hq'

/-- The allocated pages are the directories that the mappings need, one page each. -/
theorem Accounted.bijOn (h : Accounted mem pt) :
    Set.BijOn (fun path ↦ (directoryPage mem path).getD (cr3 mem))
      (neededDirectories (interpPtMem mem)) (regions mem) := by
  have hpage : ∀ path ∈ neededDirectories (interpPtMem mem),
      directoryPage mem path = some ((directoryPage mem path).getD (cr3 mem)) := by
    intro path hpath
    obtain ⟨r, hr⟩ := (h.exists_directoryPage_iff path).mpr hpath
    rw [hr, Option.getD_some]
  refine ⟨?_, ?_, ?_⟩
  · intro path hpath
    exact (h.mem_regions_iff _).mpr ⟨path, hpage path hpath⟩
  · intro path hpath path' hpath' heq
    have heq : (directoryPage mem path).getD (cr3 mem) =
      (directoryPage mem path').getD (cr3 mem) := heq
    apply h.directoryPage_injective (hpage path hpath)
    rw [heq]
    exact hpage path' hpath'
  · intro r hr
    obtain ⟨path, hpath⟩ := (h.mem_regions_iff r).mp hr
    refine ⟨path, (h.exists_directoryPage_iff path).mp ⟨r, hpath⟩, ?_⟩
    show (directoryPage mem path).getD (cr3 mem) = r
    rw [hpath, Option.getD_some]

/-- There are as many allocated pages as directories the mappings need. -/
theorem Accounted.ncard_regions (h : Accounted mem pt) :
    (regions mem).ncard = (neededDirectories (interpPtMem mem)).ncard := by
  rw [← h.bijOn.image_eq]
  exact h.bijOn.injOn.ncard_image

end Footprint

/-- A directory maps finitely many pages. -/
theorem Directory.Inv.finite_dom {d : Directory} (h : d.Inv) : d.interpMap.dom.Finite :=
  h.interp_inv.dom_finite

/-- The layers of the directories below the root. -/
def lowerLayers : Finset Nat := {1, 2, 3}

/-- Beside the root, a page needs at most the three directories on the way to it. -/
theorem neededDirectories_subset (ms : Mappings) :
    neededDirectories ms ⊆ insert []
      ((fun k : Nat × Nat ↦ pathFrom 0 k.1 k.2) '' (ms.dom ×ˢ (lowerLayers : Set Nat))) := by
  rintro path (rfl | ⟨vaddr, pte, hp, hlt, _, hpath⟩)
  · exact Set.mem_insert _ _
  · by_cases hne : path = []
    · rw [hne]
      exact Set.mem_insert _ _
    · have hpos := List.length_pos_iff.mpr hne
      refine .inr ⟨(vaddr, path.length), ⟨PMap.mem_dom_of_eq hp, ?_⟩, hpath.symm⟩
      have hlt : path.length < 4 := hlt
      have hlayer : path.length = 1 ∨ path.length = 2 ∨ path.length = 3 := by omega
      simpa [lowerLayers] using hlayer

private theorem finite_neededDirectories {ms : Mappings} (hfinite : ms.dom.Finite) :
    (neededDirectories ms).Finite :=
  (((hfinite.prod lowerLayers.finite_toSet).image _).insert []).subset (neededDirectories_subset ms)

private theorem ncard_neededDirectories_le {ms : Mappings} (hfinite : ms.dom.Finite) :
    (neededDirectories ms).ncard ≤ 3 * ms.dom.ncard + 1 := by
  have hprod := hfinite.prod lowerLayers.finite_toSet
  calc (neededDirectories ms).ncard
    _ ≤ (insert [] ((fun k : Nat × Nat ↦ pathFrom 0 k.1 k.2) ''
          (ms.dom ×ˢ (lowerLayers : Set Nat)))).ncard :=
      Set.ncard_le_ncard (neededDirectories_subset ms) ((hprod.image _).insert [])
    _ ≤ ((fun k : Nat × Nat ↦ pathFrom 0 k.1 k.2) ''
          (ms.dom ×ˢ (lowerLayers : Set Nat))).ncard + 1 := Set.ncard_insert_le _ _
    _ ≤ (ms.dom ×ˢ (lowerLayers : Set Nat)).ncard + 1 :=
      Nat.add_le_add_right (Set.ncard_image_le hprod) 1
    _ = 3 * ms.dom.ncard + 1 := by
      rw [Set.ncard_prod, Set.ncard_coe_finset, Nat.mul_comm]
      rfl

/-! ## Main result -/

/-- The footprint of a page table is determined by what it maps. After any sequence of calls the
allocated pages are, one for one, the root and the directories above the mapped pages, each
where the path of its page leads; so there are at most three for each page and the root, and
page tables that map the same occupy the same number of pages, however they came about. -/
theorem footprint_eq_neededDirectories {M : Type} [PhyAddrWidth] [PageTableMemory M] (mem : M)
    (pt : PTDir) (h : (ptMachine M).Reachable (mem, pt)) :
    (∃ page : List Nat → MemRegion,
      Set.BijOn page (neededDirectories (interpPtMem mem)) (regions mem) ∧
      ∀ path ∈ neededDirectories (interpPtMem mem), directoryPage mem path = some (page path)) ∧
    (regions mem).Finite ∧ (regions mem).ncard ≤ 3 * (interpPtMem mem).dom.ncard + 1 ∧
    ∀ {M' : Type} [PageTableMemory M'] (mem' : M') (pt' : PTDir),
      (ptMachine M').Reachable (mem', pt') → interpPtMem mem' = interpPtMem mem →
      (regions mem').ncard = (regions mem).ncard := by
  have hacc := Accounted.of_reachable h
  have hfinite : (interpPtMem mem).dom.Finite := by
    rw [hacc.inv.interpPtMem_eq hacc.interp_inv]
    exact hacc.interp_inv.finite_dom
  refine ⟨⟨_, hacc.bijOn, ?_⟩, ?_, ?_, ?_⟩
  · intro path hpath
    obtain ⟨r, hr⟩ := (hacc.exists_directoryPage_iff path).mpr hpath
    rw [hr, Option.getD_some]
  · rw [← hacc.bijOn.image_eq]
    exact (finite_neededDirectories hfinite).image _
  · rw [hacc.ncard_regions]
    exact ncard_neededDirectories_le hfinite
  · intro M' _ mem' pt' h' heq
    rw [(Accounted.of_reachable h').ncard_regions, hacc.ncard_regions, heq]

attribute [local instance] widePhyAddr in
/-- The directories of one mapped page. -/
theorem footprint_eq_neededDirectories_mapped : ∃ mem : BumpMemory,
    interpPtMem mem = PMap.empty.insert 0x3000 smallPage ∧
    (∃ page : List Nat → MemRegion,
      Set.BijOn page (neededDirectories (interpPtMem mem)) (regions mem) ∧
      ∀ path ∈ neededDirectories (interpPtMem mem), directoryPage mem path = some (page path)) ∧
    (regions mem).Finite ∧ (regions mem).ncard ≤ 3 * (interpPtMem mem).dom.ncard + 1 ∧
    ∀ {M' : Type} [PageTableMemory M'] (mem' : M') (pt' : PTDir),
      (ptMachine M').Reachable (mem', pt') → interpPtMem mem' = interpPtMem mem →
      (regions mem').ncard = (regions mem).ncard := by
  obtain ⟨mem, pt, hcall, _, _, hmap⟩ := exists_mapFrame_smallPage
  obtain ⟨hinv, hinterp, _⟩ := SpecPt.Init.tree BumpMemory.initial_init
  have hstart : (ptMachine BumpMemory).Reachable (BumpMemory.initial, rootDir) :=
    .of_init ⟨BumpMemory.initial_init, hinv⟩
  have hstep : (ptMachine BumpMemory).step (BumpMemory.initial, rootDir)
      (.mapFrame 0x3000 smallPage (.ok ())) (mem, pt) :=
    .mapFrame hinv hinterp (by decide) smallPage_accepted (smallPage_acceptedMapping _ _)
      (by decide) hcall
  exact ⟨mem, hmap, footprint_eq_neededDirectories mem pt (hstart.step hstep)⟩

end NrKernel.PageTable
