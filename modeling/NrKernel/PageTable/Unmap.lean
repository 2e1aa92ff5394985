import NrKernel.PageTable.Implementation
import NrKernel.PageTable.SpecPt
import NrKernel.PageTable.WalkRefinesTree

/-!
# `unmap` implements the specified unmap

`unmap_aux` terminates without stopping the program, keeps the invariant of the stored tree,
frees only directories that it emptied, and changes the tree as `Directory::unmap` does. With
the walk refinement this gives `spec_pt::step_Unmap_Start` for the views of the MMU.
-/

namespace NrKernel.PageTable

open Lib Lib.WordBits PtMemory

/-- The directories of a stored tree, each with the page it is stored in. -/
inductive DirectoryAt {M : Type} [PtMemoryOps M] [PhyAddrWidth] (mem : M) :
    PTDir → Nat → Nat → MemRegion → Directory → Prop where
  | root (pt : PTDir) (layer base : Nat) :
    DirectoryAt mem pt layer base pt.region (interpAt mem pt layer base)
  | sub {pt d : PTDir} {layer base i : Nat} {e : GhostDirectory} {region : MemRegion}
      {dir : Directory} (hi : i < x86NumEntries) (hview : viewAt mem pt layer i = .directory e)
      (hd : pt.entry i = some d)
      (h : DirectoryAt mem d (layer + 1) (x86Arch.entryBase layer base i) region dir) :
    DirectoryAt mem pt layer base region dir

/-- A page of the tree holds a directory without mappings other than the one at `vaddr`. -/
def CarriesOnly {M : Type} [PtMemoryOps M] [PhyAddrWidth] (mem : M) (pt : PTDir)
    (layer base : Nat) (region : MemRegion) (vaddr : Nat) : Prop :=
  ∃ dir, DirectoryAt mem pt layer base region dir ∧
    ∀ va pte, dir.interpMap va = some pte → va = vaddr

section Unmap

variable {M : Type} [PhyAddrWidth] [PageTableMemory M]

/-- What a successful `unmap_aux` ensures of memory and ghost tree
(`impl_u/l2_impl.rs:1857–1881`). -/
structure UnmapAuxEnsures (mem : M) (pt : PTDir) (layer ptr base vaddr : Nat) (ptRes : PTDir)
    (removedRegions : Set MemRegion) (mem' : M) : Prop where
  inv : InvAt mem' ptRes layer ptr
  regions_eq : regions mem' = regions mem \ removedRegions
  used_eq : ptRes.usedRegions = pt.usedRegions \ removedRegions
  removed_subset : removedRegions ⊆ pt.usedRegions
  frame : ∀ r, r ∉ pt.usedRegions → regionView mem' r = regionView mem r
  region_eq : ptRes.region = pt.region
  cr3_eq : cr3 mem' = cr3 mem
  /-- freed directories hold nothing but the removed mapping -/
  removed_carry : ∀ r ∈ removedRegions, CarriesOnly mem pt layer base r vaddr

/-! ## The emptiness scan -/

private theorem isDirectoryEmptyFrom_spec {mem : M} {pt : PTDir} {layer ptr : Nat}
    (h : LocalInvAt mem pt layer ptr) (n : Nat) {idx : Nat} (hn : n = x86NumEntries - idx) :
    ∃ b, isDirectoryEmptyFrom mem pt layer ptr x86NumEntries idx = some b ∧
      (b = true ↔ ∀ i, idx ≤ i → i < x86NumEntries → viewAt mem pt layer i = .empty) := by
  induction n generalizing idx with
  | zero =>
    refine ⟨true, ?_, ?_⟩
    · rw [isDirectoryEmptyFrom, dif_neg (by omega)]
    · exact ⟨fun _ i hle hlt ↦ absurd hlt (by omega), fun _ ↦ rfl⟩
  | succ n ih =>
    have hidx : idx < x86NumEntries := by omega
    have hiff := PageDirectoryEntry.isMapping_eq_false_iff (Nat.le_of_lt_succ h.layer_in_range)
      (h.entry_mb0_bits_are_zero idx hidx) (h.hp_pat_is_zero idx hidx)
    rw [isDirectoryEmptyFrom, dif_pos hidx, h.entryAt_eq hidx, Option.bind_eq_bind,
      Option.bind_some]
    cases hmap : (entryAtSpec mem pt layer idx).isMapping with
    | true =>
      refine ⟨false, rfl, fun hf ↦ absurd hf Bool.false_ne_true, fun hall ↦ ?_⟩
      rw [hiff.mpr (hall idx (Nat.le_refl _) hidx)] at hmap
      cases hmap
    | false =>
      have hn' : n = x86NumEntries - (idx + 1) := by omega
      obtain ⟨b, hb, hrest⟩ := ih hn'
      refine ⟨b, hb, hrest.trans ?_⟩
      constructor
      · intro hall i hle hlt
        rcases Nat.eq_or_lt_of_le hle with rfl | hgt
        · exact hiff.mp hmap
        · exact hall i hgt hlt
      · intro hall i hle hlt
        exact hall i (by omega) hlt

private theorem isDirectoryEmpty_eq {mem : M} {pt : PTDir} {layer ptr : Nat}
    (h : LocalInvAt mem pt layer ptr) (base : Nat) :
    isDirectoryEmpty mem pt layer ptr = some (decide (interpAt mem pt layer base).Empty) := by
  have hn : x86NumEntries = x86NumEntries - 0 := rfl
  obtain ⟨b, hb, hiff⟩ := isDirectoryEmptyFrom_spec h _ hn
  unfold isDirectoryEmpty
  rw [archNumEntries_eq h.layer_in_range, Option.bind_eq_bind, Option.bind_some, hb,
    Option.some.injEq, Bool.eq_iff_iff, hiff, decide_eq_true_iff]
  unfold Directory.Empty
  rw [interpAt_numEntries mem pt base h.layer_in_range]
  constructor
  · intro hall i hi
    exact (h.interpAt_isEmpty hi base).mpr (hall i (Nat.zero_le _) hi)
  · intro hall i _ hi
    exact (h.interpAt_isEmpty hi base).mp (hall i hi)

private theorem CarriesOnly.sub {mem : M} {pt d : PTDir} {layer base idx vaddr : Nat}
    {e : GhostDirectory} {r : MemRegion} (hidx : idx < x86NumEntries)
    (hview : viewAt mem pt layer idx = .directory e) (hd : pt.entry idx = some d)
    (h : CarriesOnly mem d (layer + 1) (x86Arch.entryBase layer base idx) r vaddr) :
    CarriesOnly mem pt layer base r vaddr := by
  obtain ⟨dir, hdir, honly⟩ := h
  exact ⟨dir, .sub hidx hview hd hdir, honly⟩

/-! ## Returning from a recursive call -/

section Return

variable {mem mem' : M} {pt d dRes : PTDir} {layer ptr base vaddr idx : Nat} {e : GhostDirectory}
  {removedRegions : Set MemRegion}

private theorem InvAt.sibling_subset (h : InvAt mem pt layer ptr) (hd : pt.entry idx = some d)
    {s : Set MemRegion} (hs : s ⊆ d.usedRegions) {j : Nat} {dj : PTDir} (hne : j ≠ idx)
    (hdj : pt.entry j = some dj) : dj.usedRegions ⊆ pt.usedRegions \ s := by
  intro r hr
  refine ⟨h.loc.used_regions_trans j dj hdj hr, fun hrem ↦ ?_⟩
  exact h.loc.used_regions_pairwise_disjoint j idx dj d r hne hdj hd hr (hs hrem)

-- The recursive call updated the entry of the subdirectory, which is kept.
private theorem UnmapAuxEnsures.tableUpdate (h : InvAt mem pt layer ptr)
    (hidx : idx < x86NumEntries)
    (hview : viewAt mem pt layer idx = .directory e) (hd : pt.entry idx = some d)
    (hres : UnmapAuxEnsures mem d (layer + 1) e.addr (x86Arch.entryBase layer base idx) vaddr dRes
      removedRegions mem') :
    TableUpdate mem pt layer idx (specRead mem idx pt.region) (some dRes) mem'
      ⟨pt.region, pt.entries.set idx (some dRes), pt.usedRegions \ removedRegions⟩ := by
  refine h.tableUpdate_sub hidx hview hd hres.inv ?_ (fun r _ hnot ↦ hres.frame r hnot) rfl rfl
    ?_ ?_ ?_ ?_
  · intro r hr
    rw [hres.used_eq] at hr
    exact .inl hr.1
  · exact ⟨h.loc.used_regions_refl,
      fun hrem ↦ h.loc.region_notin_used_regions idx d hd (hres.removed_subset hrem)⟩
  · exact fun j dj hne hdj ↦ h.sibling_subset hd hres.removed_subset hne hdj
  · rw [hres.used_eq]
    exact Set.sdiff_subset_sdiff_left (h.loc.used_regions_trans idx d hd)
  · rw [hres.regions_eq]
    exact Set.sdiff_subset_sdiff_left h.loc.used_regions_subset

/-- What the recursive call ensures for the directory it was made in, when the subdirectory
is kept. -/
theorem UnmapAuxEnsures.lift (h : InvAt mem pt layer ptr) (hidx : idx < x86NumEntries)
    (hview : viewAt mem pt layer idx = .directory e) (hd : pt.entry idx = some d)
    (hres : UnmapAuxEnsures mem d (layer + 1) e.addr (x86Arch.entryBase layer base idx) vaddr dRes
      removedRegions mem') :
    UnmapAuxEnsures mem pt layer ptr base vaddr
      ⟨pt.region, pt.entries.set idx (some dRes), pt.usedRegions \ removedRegions⟩
      removedRegions mem' where
  inv := h.update hidx (hres.tableUpdate h hidx hview hd)
  regions_eq := hres.regions_eq
  used_eq := rfl
  removed_subset := hres.removed_subset.trans (h.loc.used_regions_trans idx d hd)
  frame r hr := hres.frame r (fun hin ↦ hr (h.loc.used_regions_trans idx d hd hin))
  region_eq := rfl
  cr3_eq := hres.cr3_eq
  removed_carry r hr := (hres.removed_carry r hr).sub hidx hview hd

variable {mem₁ mem₂ : M}

-- Clearing the entry of an emptied subdirectory and freeing its page is an update of that entry.
private theorem UnmapAuxEnsures.tableUpdate_emptied (h : InvAt mem pt layer ptr)
    (hidx : idx < x86NumEntries) (hview : viewAt mem pt layer idx = .directory e)
    (hd : pt.entry idx = some d)
    (hres : UnmapAuxEnsures mem d (layer + 1) e.addr (x86Arch.entryBase layer base idx) vaddr dRes
      removedRegions mem₁)
    (hw : WriteEnsures mem₁ idx pt.region 0 mem₂) (hf : DeallocEnsures mem₂ dRes.region mem') :
    TableUpdate mem pt layer idx 0 none mem'
      ⟨pt.region, pt.entries.set idx none, pt.usedRegions \ insert dRes.region removedRegions⟩ := by
  have hsubset : insert dRes.region removedRegions ⊆ d.usedRegions := by
    rw [hres.region_eq]
    exact Set.insert_subset (h.sub hidx hview hd).loc.used_regions_refl hres.removed_subset
  have hview' : ∀ r, r ∉ d.usedRegions → r ≠ pt.region →
      regionView mem' r = regionView mem r := by
    intro r hnot hne
    rw [hf.view_other r (fun heq ↦ hnot (hsubset (.inl heq))), hw.view_other r hne,
      hres.frame r hnot]
  have hself := h.loc.region_notin_used_regions idx d hd
  exact {
    region_eq := rfl
    entries_eq := rfl
    view_eq := by
      rw [hf.view_other pt.region (fun heq ↦ hself (hsubset (.inl heq))), hw.view_eq,
        hres.frame pt.region hself]
    siblings_view := by
      intro j dj r hne hdj hr
      apply hview'
      · exact h.loc.used_regions_pairwise_disjoint j idx dj d r hne hdj hd hr
      · rintro rfl
        exact h.loc.region_notin_used_regions j dj hdj hr
    mem_inv := hf.inv
    entry_inv := EntryInvAt.zero mem' layer
    used_refl := ⟨h.loc.used_regions_refl, fun hin ↦ hself (hsubset hin)⟩
    used_siblings := fun j dj hne hdj ↦ h.sibling_subset hd hsubset hne hdj
    used_sub := by
      intro x hx
      cases hx
    used_subset := by
      rw [hf.regions_eq, hw.regions_eq, hres.regions_eq, Set.sdiff_sdiff, Set.union_comm,
        ← Set.insert_eq]
      exact Set.sdiff_subset_sdiff_left h.loc.used_regions_subset
    region_notin_sub := by
      intro x hx
      cases hx
    sub_disjoint := by
      intro x hx
      cases hx }

private theorem UnmapAuxEnsures.lift_emptied (h : InvAt mem pt layer ptr)
    (hidx : idx < x86NumEntries) (hview : viewAt mem pt layer idx = .directory e)
    (hd : pt.entry idx = some d)
    (hres : UnmapAuxEnsures mem d (layer + 1) e.addr (x86Arch.entryBase layer base idx) vaddr dRes
      removedRegions mem₁)
    (hw : WriteEnsures mem₁ idx pt.region 0 mem₂) (hf : DeallocEnsures mem₂ dRes.region mem')
    (honly : ∀ va pte,
      (interpAt mem d (layer + 1) (x86Arch.entryBase layer base idx)).interpMap va =
      some pte → va = vaddr) :
    UnmapAuxEnsures mem pt layer ptr base vaddr
      ⟨pt.region, pt.entries.set idx none, pt.usedRegions \ insert dRes.region removedRegions⟩
      (insert dRes.region removedRegions) mem' := by
  have htrans := h.loc.used_regions_trans idx d hd
  have hin : dRes.region ∈ d.usedRegions := by
    rw [hres.region_eq]
    exact (h.sub hidx hview hd).loc.used_regions_refl
  exact {
    inv := h.update hidx (hres.tableUpdate_emptied h hidx hview hd hw hf)
    regions_eq := by
      rw [hf.regions_eq, hw.regions_eq, hres.regions_eq, Set.sdiff_sdiff, Set.union_comm,
        ← Set.insert_eq]
    used_eq := rfl
    removed_subset := Set.insert_subset (htrans hin) (hres.removed_subset.trans htrans)
    frame := by
      intro r hr
      have hne : r ≠ pt.region := by
        rintro rfl
        exact hr h.loc.used_regions_refl
      rw [hf.view_other r (fun heq ↦ hr (htrans (heq ▸ hin))), hw.view_other r hne,
        hres.frame r (fun hmem ↦ hr (htrans hmem))]
    region_eq := rfl
    cr3_eq := by rw [hf.cr3_eq, hw.cr3_eq, hres.cr3_eq]
    removed_carry := by
      rintro r (rfl | hr)
      · rw [hres.region_eq]
        exact CarriesOnly.sub hidx hview hd ⟨_, .root d _ _, honly⟩
      · exact (hres.removed_carry r hr).sub hidx hview hd }

end Return

/-! ## The recursion -/

/-- What `unmap_aux` returns: on success the new tree, with the directory `unmap` computes; on
failure the memory it was given. -/
def UnmapAuxOutcome (mem : M) (pt : PTDir) (layer ptr base vaddr : Nat) :
    Except Unit (PTDir × Set MemRegion) → M → Prop
  | .ok (ptRes, removedRegions), mem' =>
    UnmapAuxEnsures mem pt layer ptr base vaddr ptRes removedRegions mem' ∧
      (interpAt mem pt layer base).unmap vaddr = .ok (interpAt mem' ptRes layer base)
  | .error _, mem' =>
    mem' = mem ∧ (interpAt mem pt layer base).unmap vaddr = .error (interpAt mem pt layer base)

/-- What the callers of `unmap_aux` promise (`impl_u/l2_impl.rs:1850–1855`). -/
structure UnmapAuxRequires (mem : M) (pt : PTDir) (layer ptr base vaddr : Nat) :
    Prop where
  inv : InvAt mem pt layer ptr
  interp_inv : (interpAt mem pt layer base).Inv
  accepted : (interpAt mem pt layer base).AcceptedUnmap vaddr
  vaddr_lt : vaddr < maxBase

section Recursion

variable {mem : M} {pt : PTDir} {layer ptr base vaddr : Nat}

private theorem UnmapAuxRequires.base_le (h : UnmapAuxRequires mem pt layer ptr base vaddr) :
    base ≤ vaddr := by
  have hle : (interpAt mem pt layer base).baseVaddr ≤ vaddr := h.accepted.1.1
  rw [interpAt_baseVaddr] at hle
  exact hle

/-- The address selects one of the entries. -/
theorem UnmapAuxRequires.index_lt (h : UnmapAuxRequires mem pt layer ptr base vaddr) :
    x86Arch.indexForVaddr layer base vaddr < x86NumEntries := by
  have hlayer := h.inv.loc.layer_in_range
  have hlt : vaddr < (interpAt mem pt layer base).upperVaddr := h.accepted.1.2
  rw [Directory.upperVaddr, interpAt_arch, interpAt_layer, interpAt_baseVaddr] at hlt
  have hidx := Arch.indexForVaddr_lt (x86Arch_entrySize_pos hlayer) h.base_le hlt
  rw [x86Arch_numEntries hlayer] at hidx
  exact hidx

private theorem UnmapAuxRequires.sub (h : UnmapAuxRequires mem pt layer ptr base vaddr)
    {e : GhostDirectory} {d : PTDir}
    (hview : viewAt mem pt layer (x86Arch.indexForVaddr layer base vaddr) = .directory e)
    (hd : pt.entry (x86Arch.indexForVaddr layer base vaddr) = some d) :
    UnmapAuxRequires mem d (layer + 1) e.addr
      (x86Arch.entryBase layer base (x86Arch.indexForVaddr layer base vaddr)) vaddr := by
  have hentry := h.inv.loc.interpAt_directory h.index_lt hview hd base
  have hupper := h.interp_inv.sub_upperVaddr hentry
  have hbetween := Arch.between_entryBase (x86Arch_entrySize_pos h.inv.loc.layer_in_range) h.base_le
  obtain ⟨size, hsize, hal⟩ := h.accepted.2
  exact {
    inv := h.inv.sub h.index_lt hview hd
    interp_inv := h.interp_inv.sub hentry
    accepted := by
      refine ⟨⟨?_, ?_⟩, size, ?_, hal⟩
      · change (interpAt mem d (layer + 1) _).baseVaddr ≤ vaddr
        rw [interpAt_baseVaddr]
        exact hbetween.1
      · change vaddr < (interpAt mem d (layer + 1) _).upperVaddr
        rw [hupper, interpAt_entryBase]
        exact hbetween.2
      · change (interpAt mem d (layer + 1) _).arch.containsEntrySize size
        rw [interpAt_arch, ← interpAt_arch mem pt layer base]
        exact hsize
    vaddr_lt := h.vaddr_lt }

private theorem unmapAux_page {mem' : M} (h : UnmapAuxRequires mem pt layer ptr base vaddr)
    {p : GhostPage}
    (hview : viewAt mem pt layer (x86Arch.indexForVaddr layer base vaddr) = .page p)
    (hal : aligned vaddr (x86Arch.entrySize layer))
    (hw : WriteEnsures mem (x86Arch.indexForVaddr layer base vaddr) pt.region 0 mem') :
    UnmapAuxOutcome mem pt layer ptr base vaddr (.ok (pt, ∅)) mem' := by
  have hloc := h.inv.loc
  have hidx := h.index_lt
  have hnone := hloc.entry_eq_none_of_view hidx (by rw [hview]; rfl)
  have hu := h.inv.tableUpdate_write hnone hw (EntryInvAt.zero mem' layer)
  constructor
  · exact {
      inv := h.inv.update hidx hu
      regions_eq := by rw [hw.regions_eq, Set.sdiff_empty]
      used_eq := by rw [Set.sdiff_empty]
      removed_subset := Set.empty_subset _
      frame := by
        intro r hr
        apply hw.view_other
        rintro rfl
        exact hr hloc.used_regions_refl
      region_eq := rfl
      cr3_eq := hw.cr3_eq
      removed_carry := fun r hr ↦ absurd hr (Set.notMem_empty r) }
  · have hentry := hloc.interpAt_page hidx hview base
    rw [← interpAt_indexForVaddr mem pt layer base vaddr] at hentry
    rw [h.interp_inv.unmap_page hentry, interpAt_entrySize, if_pos hal, interpAt_indexForVaddr,
      h.inv.interpAt_update hidx hu]
    have hzero := interpWord_empty mem' (PageDirectoryEntry.zero_entry_facts layer).1 none
    exact congrArg (fun e ↦ Except.ok (Directory.update _ _ e)) (hzero _).symm

private theorem unmapAux_kept {mem' : M} {d dRes : PTDir} {e : GhostDirectory}
    {removedRegions : Set MemRegion} (h : UnmapAuxRequires mem pt layer ptr base vaddr)
    (hview : viewAt mem pt layer (x86Arch.indexForVaddr layer base vaddr) = .directory e)
    (hd : pt.entry (x86Arch.indexForVaddr layer base vaddr) = some d)
    (hres : UnmapAuxOutcome mem d (layer + 1) e.addr
      (x86Arch.entryBase layer base (x86Arch.indexForVaddr layer base vaddr)) vaddr
      (.ok (dRes, removedRegions)) mem')
    (hempty : ¬(interpAt mem' dRes (layer + 1)
      (x86Arch.entryBase layer base (x86Arch.indexForVaddr layer base vaddr))).Empty) :
    UnmapAuxOutcome mem pt layer ptr base vaddr
      (.ok (⟨pt.region, pt.entries.set (x86Arch.indexForVaddr layer base vaddr) (some dRes),
        pt.usedRegions \ removedRegions⟩, removedRegions)) mem' := by
  obtain ⟨hens, hmap⟩ := hres
  have hidx := h.index_lt
  refine ⟨hens.lift h.inv hidx hview hd, ?_⟩
  have hentry := h.inv.loc.interpAt_directory hidx hview hd base
  rw [← interpAt_indexForVaddr mem pt layer base vaddr] at hentry
  rw [h.interp_inv.unmap_directory hentry, interpAt_indexForVaddr, hmap,
    h.inv.interpAt_update hidx (hens.tableUpdate h.inv hidx hview hd)]
  simp only [if_neg hempty]
  exact congrArg (fun e ↦ Except.ok (Directory.update _ _ e))
    (interpWord_directory mem' hview dRes _).symm

private theorem unmapAux_emptied {mem₁ mem₂ mem' : M} {d dRes : PTDir} {e : GhostDirectory}
    {removedRegions : Set MemRegion} (h : UnmapAuxRequires mem pt layer ptr base vaddr)
    (hview : viewAt mem pt layer (x86Arch.indexForVaddr layer base vaddr) = .directory e)
    (hd : pt.entry (x86Arch.indexForVaddr layer base vaddr) = some d)
    (hres : UnmapAuxOutcome mem d (layer + 1) e.addr
      (x86Arch.entryBase layer base (x86Arch.indexForVaddr layer base vaddr)) vaddr
      (.ok (dRes, removedRegions)) mem₁)
    (hempty : (interpAt mem₁ dRes (layer + 1)
      (x86Arch.entryBase layer base (x86Arch.indexForVaddr layer base vaddr))).Empty)
    (hw : WriteEnsures mem₁ (x86Arch.indexForVaddr layer base vaddr) pt.region 0 mem₂)
    (hf : DeallocEnsures mem₂ dRes.region mem') :
    UnmapAuxOutcome mem pt layer ptr base vaddr
      (.ok (⟨pt.region, pt.entries.set (x86Arch.indexForVaddr layer base vaddr) none,
        pt.usedRegions \ insert dRes.region removedRegions⟩, insert dRes.region removedRegions))
      mem' := by
  obtain ⟨hens, hmap⟩ := hres
  have hidx := h.index_lt
  have hsub := h.sub hview hd
  -- what was left of the directory's mappings is one removal away from all of them
  have honly : ∀ va pte, (interpAt mem d (layer + 1) (x86Arch.entryBase layer base
      (x86Arch.indexForVaddr layer base vaddr))).interpMap va = some pte → va = vaddr := by
    obtain ⟨_, hunmap⟩ := hsub.interp_inv.unmap_eq_ok hsub.accepted hmap
    have hleft := hunmap.interpMap_eq
    rw [hunmap.inv.interpMap_of_empty hempty] at hleft
    intro va pte hva
    by_contra hne
    have hva' := congrFun hleft va
    rw [PMap.remove_of_ne _ hne, hva] at hva'
    cases hva'
  refine ⟨hens.lift_emptied h.inv hidx hview hd hw hf honly, ?_⟩
  have hentry := h.inv.loc.interpAt_directory hidx hview hd base
  rw [← interpAt_indexForVaddr mem pt layer base vaddr] at hentry
  rw [h.interp_inv.unmap_directory hentry, interpAt_indexForVaddr, hmap,
    h.inv.interpAt_update hidx (hens.tableUpdate_emptied h.inv hidx hview hd hw hf)]
  simp only [if_pos hempty]
  have hzero := interpWord_empty mem' (PageDirectoryEntry.zero_entry_facts layer).1 none
  exact congrArg (fun e ↦ Except.ok (Directory.update _ _ e)) (hzero _).symm

private theorem unmapAux_directory_error {mem' : M} {d : PTDir} {e : GhostDirectory}
    (h : UnmapAuxRequires mem pt layer ptr base vaddr)
    (hview : viewAt mem pt layer (x86Arch.indexForVaddr layer base vaddr) = .directory e)
    (hd : pt.entry (x86Arch.indexForVaddr layer base vaddr) = some d)
    (hres : UnmapAuxOutcome mem d (layer + 1) e.addr
      (x86Arch.entryBase layer base (x86Arch.indexForVaddr layer base vaddr)) vaddr
      (.error ()) mem') :
    UnmapAuxOutcome mem pt layer ptr base vaddr (.error ()) mem' := by
  obtain ⟨rfl, herr⟩ := hres
  refine ⟨rfl, ?_⟩
  have hentry := h.inv.loc.interpAt_directory h.index_lt hview hd base
  rw [h.interp_inv.unmap_directory (by rw [interpAt_indexForVaddr]; exact hentry),
    interpAt_indexForVaddr, herr]
  simp only
  rw [← hentry, Directory.update_entry]

end Recursion

/-- The runs of `unmap_aux` on addresses that meet its preconditions, by the branches they
take. -/
inductive UnmapRun (vaddr : Nat) :
    M → PTDir → Nat → Nat → Nat → Except Unit (PTDir × Set MemRegion) → M → Prop where
  /-- no page starts at the address -/
  | absent {mem : M} {pt : PTDir} {layer ptr base : Nat}
      (h : UnmapAuxRequires mem pt layer ptr base vaddr)
      (hrefused : (interpAt mem pt layer base).unmap vaddr = .error (interpAt mem pt layer base)) :
      UnmapRun vaddr mem pt layer ptr base (.error ()) mem
  | page {mem mem' : M} {pt : PTDir} {layer ptr base : Nat} {p : GhostPage}
      (h : UnmapAuxRequires mem pt layer ptr base vaddr)
      (hview : viewAt mem pt layer (x86Arch.indexForVaddr layer base vaddr) = .page p)
      (hal : aligned vaddr (x86Arch.entrySize layer))
      (hwrite : writeEntry mem pt ptr (x86Arch.indexForVaddr layer base vaddr) 0 = some mem')
      (hw : WriteEnsures mem (x86Arch.indexForVaddr layer base vaddr) pt.region 0 mem') :
      UnmapRun vaddr mem pt layer ptr base (.ok (pt, ∅)) mem'
  | directoryRefused {mem mem' : M} {pt d : PTDir} {layer ptr base : Nat} {e : GhostDirectory}
      (h : UnmapAuxRequires mem pt layer ptr base vaddr)
      (hview : viewAt mem pt layer (x86Arch.indexForVaddr layer base vaddr) = .directory e)
      (hd : pt.entry (x86Arch.indexForVaddr layer base vaddr) = some d)
      (sub : UnmapRun vaddr mem d (layer + 1) e.addr
        (x86Arch.entryBase layer base (x86Arch.indexForVaddr layer base vaddr)) (.error ()) mem') :
      UnmapRun vaddr mem pt layer ptr base (.error ()) mem'
  | kept {mem mem' : M} {pt d dRes : PTDir} {layer ptr base : Nat} {e : GhostDirectory}
      {removedRegions : Set MemRegion} (h : UnmapAuxRequires mem pt layer ptr base vaddr)
      (hview : viewAt mem pt layer (x86Arch.indexForVaddr layer base vaddr) = .directory e)
      (hd : pt.entry (x86Arch.indexForVaddr layer base vaddr) = some d)
      (sub : UnmapRun vaddr mem d (layer + 1) e.addr
        (x86Arch.entryBase layer base (x86Arch.indexForVaddr layer base vaddr))
        (.ok (dRes, removedRegions)) mem')
      (hempty : ¬(interpAt mem' dRes (layer + 1)
        (x86Arch.entryBase layer base (x86Arch.indexForVaddr layer base vaddr))).Empty) :
      UnmapRun vaddr mem pt layer ptr base
        (.ok (⟨pt.region, pt.entries.set (x86Arch.indexForVaddr layer base vaddr) (some dRes),
          pt.usedRegions \ removedRegions⟩, removedRegions)) mem'
  | emptied {mem mem₁ mem₂ : M} {pt d dRes : PTDir} {layer ptr base : Nat} {e : GhostDirectory}
      {removedRegions : Set MemRegion} (h : UnmapAuxRequires mem pt layer ptr base vaddr)
      (hview : viewAt mem pt layer (x86Arch.indexForVaddr layer base vaddr) = .directory e)
      (hd : pt.entry (x86Arch.indexForVaddr layer base vaddr) = some d)
      (sub : UnmapRun vaddr mem d (layer + 1) e.addr
        (x86Arch.entryBase layer base (x86Arch.indexForVaddr layer base vaddr))
        (.ok (dRes, removedRegions)) mem₁)
      (hempty : (interpAt mem₁ dRes (layer + 1)
        (x86Arch.entryBase layer base (x86Arch.indexForVaddr layer base vaddr))).Empty)
      (hwrite : writeEntry mem₁ pt ptr (x86Arch.indexForVaddr layer base vaddr) 0 = some mem₂)
      (hw : WriteEnsures mem₁ (x86Arch.indexForVaddr layer base vaddr) pt.region 0 mem₂)
      (hf : DeallocEnsures mem₂ dRes.region (deallocPage mem₂ dRes.region)) :
      UnmapRun vaddr mem pt layer ptr base
        (.ok (⟨pt.region, pt.entries.set (x86Arch.indexForVaddr layer base vaddr) none,
          pt.usedRegions \ insert dRes.region removedRegions⟩, insert dRes.region removedRegions))
        (deallocPage mem₂ dRes.region)

/-- A run of `unmap_aux` changes the tree as `Directory::unmap` does. -/
theorem UnmapRun.outcome {mem mem' : M} {pt : PTDir} {layer ptr base vaddr : Nat}
    {res : Except Unit (PTDir × Set MemRegion)}
    (run : UnmapRun vaddr mem pt layer ptr base res mem') :
    UnmapAuxOutcome mem pt layer ptr base vaddr res mem' := by
  induction run with
  | absent h hrefused => exact ⟨rfl, hrefused⟩
  | page h hview hal _ hw => exact unmapAux_page h hview hal hw
  | directoryRefused h hview hd _ ih => exact unmapAux_directory_error h hview hd ih
  | kept h hview hd _ hempty ih => exact unmapAux_kept h hview hd ih hempty
  | emptied h hview hd _ hempty _ hw hf ih => exact unmapAux_emptied h hview hd ih hempty hw hf

/-- `unmap_aux` does not stop the program on addresses that meet its preconditions. -/
theorem unmapAux_run (n : Nat) {mem : M} {pt : PTDir} {layer ptr base vaddr : Nat}
    (hn : n = x86NumLayers - layer) (h : UnmapAuxRequires mem pt layer ptr base vaddr) :
    ∃ res mem', unmapAux mem pt layer ptr base vaddr = some (res, mem') ∧
      UnmapRun vaddr mem pt layer ptr base res mem' := by
  induction n generalizing mem pt layer ptr base with
  | zero =>
    have hlt := h.inv.loc.layer_in_range
    omega
  | succ n ih =>
    have hloc := h.inv.loc
    have hlt := hloc.layer_in_range
    have hle := h.base_le
    have hidx := h.index_lt
    have hle3 : layer ≤ 3 := Nat.le_of_lt_succ hlt
    have hmb0 := hloc.entry_mb0_bits_are_zero _ hidx
    rw [unmapAux, dif_pos hlt, archIndexForVaddr_eq hlt hle]
    simp only [Option.bind_eq_bind, Option.bind_some, hloc.entryAt_eq hidx,
      archEntryBase_eq hlt (Nat.lt_of_le_of_lt hle h.vaddr_lt) hidx, archEntrySize_eq hlt]
    by_cases hmap : (entryAtSpec mem pt layer (x86Arch.indexForVaddr layer base vaddr)).isMapping
    · rw [if_pos hmap]
      by_cases hdir :
          (entryAtSpec mem pt layer (x86Arch.indexForVaddr layer base vaddr)).isDir layer
      · rw [if_pos hdir]
        obtain ⟨e, hview, haddr⟩ := PageDirectoryEntry.view_of_dir hle3 hmb0 hmap hdir
        obtain ⟨d, hd⟩ := hloc.exists_entry hidx hview
        obtain ⟨res, mem₁, hcall, hrun⟩ := ih (by omega) (h.sub hview hd)
        rw [← haddr, hd, Option.bind_some, hcall, Option.bind_some]
        cases res with
        | error u => exact ⟨_, _, rfl, .directoryRefused h hview hd hrun⟩
        | ok res =>
          obtain ⟨dRes, removedRegions⟩ := res
          have hens := hrun.outcome.1
          simp only [isDirectoryEmpty_eq hens.inv.loc
            (x86Arch.entryBase layer base (x86Arch.indexForVaddr layer base vaddr)),
            Option.bind_some, decide_eq_true_eq]
          by_cases hempty : (interpAt mem₁ dRes (layer + 1)
              (x86Arch.entryBase layer base (x86Arch.indexForVaddr layer base vaddr))).Empty
          · rw [if_pos hempty]
            obtain ⟨mem₂, hwrite, hw⟩ :=
              (hens.lift h.inv hidx hview hd).inv.loc.writeEntry_eq hidx 0
            have hregion : (⟨e.addr, pageSize⟩ : MemRegion) = dRes.region := by
              rw [← hens.inv.loc.region_base, ← hens.inv.loc.region_size]
            have hf := PageTableMemory.dealloc_ensures mem₂ dRes.region
              (hw.inv hens.inv.loc.mem_inv) (by rw [hw.regions_eq]; exact hens.inv.loc.region_mem)
            have hwrite' : writeEntry mem₁ pt ptr (x86Arch.indexForVaddr layer base vaddr) 0 =
                some mem₂ := hwrite
            rw [hwrite', Option.bind_some, hregion]
            exact ⟨_, _, rfl, .emptied h hview hd hrun hempty hwrite' hw hf⟩
          · rw [if_neg hempty]
            exact ⟨_, _, rfl, .kept h hview hd hrun hempty⟩
      · rw [if_neg hdir]
        obtain ⟨p, hview, _⟩ := PageDirectoryEntry.view_of_page hle3 hmb0
          (hloc.hp_pat_is_zero _ hidx) hmap (Bool.eq_false_of_not_eq_true hdir)
        have hentry := hloc.interpAt_page hidx hview base
        rw [← interpAt_indexForVaddr mem pt layer base vaddr] at hentry
        have hes : x86Arch.entrySize layer ≠ 0 := Nat.ne_of_gt (x86Arch_entrySize_pos hlt)
        unfold alignedExec
        rw [if_neg hes, Option.bind_some]
        by_cases hal : aligned vaddr (x86Arch.entrySize layer)
        · rw [if_pos (beq_iff_eq.mpr hal)]
          obtain ⟨mem', hwrite, hw⟩ := hloc.writeEntry_eq hidx 0
          rw [hwrite, Option.bind_some]
          exact ⟨_, _, rfl, .page h hview hal hwrite hw⟩
        · rw [if_neg (fun hc ↦ hal (beq_iff_eq.mp hc))]
          refine ⟨_, _, rfl, .absent h ?_⟩
          rw [h.interp_inv.unmap_page hentry, interpAt_entrySize, if_neg hal]
    · rw [if_neg hmap]
      have hview := PageDirectoryEntry.view_of_not_mapping (Bool.eq_false_of_not_eq_true hmap)
      have hentry := hloc.interpAt_empty hidx hview base
      rw [← interpAt_indexForVaddr mem pt layer base vaddr] at hentry
      exact ⟨_, _, rfl, .absent h (h.interp_inv.unmap_empty hentry)⟩

/-- The runs of `unmap` on accepted addresses. -/
theorem unmap_run {mem : M} {pt : PTDir} {vaddr : Nat} (hinv : PT.Inv mem pt)
    (hinterp : (PT.interp mem pt).Inv) (ha : (PT.interp mem pt).AcceptedUnmap vaddr)
    (hmax : vaddr < maxBase) :
    (∃ ptRes removedRegions mem', unmap mem pt vaddr = some (.ok (), mem', ptRes) ∧
        UnmapRun vaddr mem pt 0 (cr3 mem).base 0 (.ok (ptRes, removedRegions)) mem') ∨
      (unmap mem pt vaddr = some (.error (), mem, pt) ∧
        UnmapRun vaddr mem pt 0 (cr3 mem).base 0 (.error ()) mem) := by
  obtain ⟨res, mem', hcall, hrun⟩ := unmapAux_run _ rfl ⟨hinv.2, hinterp, ha, hmax⟩
  unfold unmap
  rw [hcall, Option.bind_eq_bind, Option.bind_some]
  cases res with
  | ok res =>
    obtain ⟨ptRes, removedRegions⟩ := res
    exact .inl ⟨ptRes, removedRegions, mem', rfl, hrun⟩
  | error u =>
    obtain ⟨rfl, _⟩ := hrun.outcome
    exact .inr ⟨rfl, hrun⟩

/-- What `unmap` returns for an accepted address, and what it leaves behind. -/
structure UnmapEnsures (mem : M) (pt : PTDir) (vaddr : Nat) (result : Except Unit Unit)
    (mem' : M) (pt' : PTDir) : Prop where
  inv : PT.Inv mem' pt'
  interp_inv : (PT.interp mem' pt').Inv
  step : SpecPt.stepUnmapStart ⟨mem⟩ ⟨mem'⟩ vaddr result
  refused : result = .error () → mem' = mem ∧ pt' = pt
  regions_subset : regions mem' ⊆ regions mem
  freed_carry : ∀ r ∈ regions mem, r ∉ regions mem' → CarriesOnly mem pt 0 0 r vaddr

/-- `unmap` does not stop the program on accepted addresses, implements the unmap step of the
page table state machine and frees only directories it emptied. -/
theorem unmap_spec {mem : M} {pt : PTDir} {vaddr : Nat} (hinv : PT.Inv mem pt)
    (hinterp : (PT.interp mem pt).Inv) (ha : (PT.interp mem pt).AcceptedUnmap vaddr)
    (hmax : vaddr < maxBase) :
    ∃ result mem' pt', unmap mem pt vaddr = some (result, mem', pt') ∧
      UnmapEnsures mem pt vaddr result mem' pt' := by
  have hview := hinv.interpPtMem_eq hinterp
  rcases unmap_run hinv hinterp ha hmax with
    ⟨ptRes, removedRegions, mem', hcall, hrun⟩ | ⟨hcall, hrun⟩
  · obtain ⟨hens, hok⟩ := hrun.outcome
    obtain ⟨hsome, hunmap⟩ := hinterp.unmap_eq_ok ha hok
    have hinv' : PT.Inv mem' ptRes := by
      unfold PT.Inv
      rw [hens.region_eq, hens.cr3_eq]
      exact ⟨hinv.1, hens.inv⟩
    have hview' := hinv'.interpPtMem_eq hunmap.inv
    refine ⟨_, _, _, hcall, hinv', hunmap.inv, ?_, fun h ↦ ?_, ?_, ?_⟩
    · unfold SpecPt.stepUnmapStart SpecPt.interp
      rw [hview, hview', if_pos (Option.isSome_iff_ne_none.mpr hsome)]
      exact ⟨rfl, hunmap.interpMap_eq⟩
    · cases h
    · rw [hens.regions_eq]
      exact Set.sdiff_subset
    · intro r hr hnot
      rw [hens.regions_eq] at hnot
      exact hens.removed_carry r (by_contra fun hrem ↦ hnot ⟨hr, hrem⟩)
  · obtain ⟨_, herr⟩ := hrun.outcome
    have hnone := hinterp.unmap_eq_error ha herr
    refine ⟨_, _, _, hcall, hinv, hinterp, ?_, fun _ ↦ ⟨rfl, rfl⟩, subset_rfl,
      fun r hr hnot ↦ absurd hr hnot⟩
    unfold SpecPt.stepUnmapStart SpecPt.interp
    rw [hview, hnone]
    exact ⟨rfl, rfl⟩

end Unmap

end NrKernel.PageTable
