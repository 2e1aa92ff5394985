import NrKernel.PageTable.Implementation
import NrKernel.PageTable.SpecPt
import NrKernel.PageTable.WalkRefinesTree

/-!
# `map_frame` implements the specified map

`map_frame_aux` terminates without stopping the program, keeps the invariant of the stored
tree, touches only pages of the tree and pages it added, and changes the tree as
`Directory::map_frame` does. With the walk refinement this gives `spec_pt::step_Map_End` for
the views of the MMU before and after.
-/

namespace NrKernel.PageTable

open Lib Lib.WordBits PtMemory

section MapFrame

variable {M : Type} [PhyAddrWidth] [PageTableMemory M]

/-- What a successful `map_frame_aux` ensures of memory and ghost tree
(`impl_u/l2_impl.rs:958–978`). -/
structure MapAuxEnsures (mem : M) (pt : PTDir) (layer ptr : Nat) (ptRes : PTDir)
    (newRegions : Set MemRegion) (mem' : M) : Prop where
  inv : InvAt mem' ptRes layer ptr
  regions_eq : regions mem' = regions mem ∪ newRegions
  used_eq : ptRes.usedRegions = pt.usedRegions ∪ newRegions
  fresh : ∀ r ∈ newRegions, r ∉ regions mem
  frame : ∀ r, r ∉ pt.usedRegions → r ∉ newRegions → regionView mem' r = regionView mem r
  region_eq : ptRes.region = pt.region
  cr3_eq : cr3 mem' = cr3 mem

/-- The pages of the tree after `map_frame_aux` that are not new are pages of the tree. -/
theorem MapAuxEnsures.used_cases {mem mem' : M} {pt ptRes : PTDir} {layer ptr : Nat}
    {newRegions : Set MemRegion} (h : MapAuxEnsures mem pt layer ptr ptRes newRegions mem') :
    ∀ r ∈ ptRes.usedRegions, r ∈ pt.usedRegions ∨ r ∉ regions mem := by
  intro r hr
  rw [h.used_eq] at hr
  exact hr.imp_right (h.fresh r)

private theorem MapAuxEnsures.frame_allocated {mem mem' : M} {pt ptRes : PTDir} {layer ptr : Nat}
    {newRegions : Set MemRegion} (h : MapAuxEnsures mem pt layer ptr ptRes newRegions mem') :
    ∀ r ∈ regions mem, r ∉ pt.usedRegions → regionView mem' r = regionView mem r :=
  fun r hr hnot ↦ h.frame r hnot (fun hnew ↦ h.fresh r hnew hr)

-- A successful recursive call in the subdirectory at `idx` updates that entry.
private theorem MapAuxEnsures.tableUpdate {mem mem' : M} {pt d dRes : PTDir}
    {layer ptr idx : Nat} {e : GhostDirectory} {newRegions : Set MemRegion}
    (h : InvAt mem pt layer ptr) (hidx : idx < x86NumEntries)
    (hview : viewAt mem pt layer idx = .directory e) (hd : pt.entry idx = some d)
    (hres : MapAuxEnsures mem d (layer + 1) e.addr dRes newRegions mem') :
    TableUpdate mem pt layer idx (specRead mem idx pt.region) (some dRes) mem'
      ⟨pt.region, pt.entries.set idx (some dRes), pt.usedRegions ∪ newRegions⟩ := by
  have htrans := h.loc.used_regions_trans idx d hd
  refine h.tableUpdate_sub hidx hview hd hres.inv hres.used_cases hres.frame_allocated rfl rfl
    ?_ ?_ ?_ ?_
  · exact .inl h.loc.used_regions_refl
  · exact fun j dj _ hdj r hr ↦ .inl (h.loc.used_regions_trans j dj hdj hr)
  · rw [hres.used_eq]
    exact Set.union_subset_union_left _ htrans
  · rw [hres.regions_eq]
    exact Set.union_subset_union_left _ h.loc.used_regions_subset

private theorem MapAuxEnsures.lift {mem mem' : M} {pt d dRes : PTDir}
    {layer ptr idx : Nat} {e : GhostDirectory} {newRegions : Set MemRegion}
    (h : InvAt mem pt layer ptr) (hidx : idx < x86NumEntries)
    (hview : viewAt mem pt layer idx = .directory e) (hd : pt.entry idx = some d)
    (hres : MapAuxEnsures mem d (layer + 1) e.addr dRes newRegions mem') :
    MapAuxEnsures mem pt layer ptr
      ⟨pt.region, pt.entries.set idx (some dRes), pt.usedRegions ∪ newRegions⟩ newRegions mem' where
  inv := h.update hidx (hres.tableUpdate h hidx hview hd)
  regions_eq := hres.regions_eq
  used_eq := rfl
  fresh := hres.fresh
  frame r hr hnew := hres.frame r (fun hin ↦ hr (h.loc.used_regions_trans idx d hd hin)) hnew
  region_eq := rfl
  cr3_eq := hres.cr3_eq

-- The word of an entry whose subdirectory changed still refers to that directory.
private theorem interpWord_sub {mem mem' : M} {pt dRes : PTDir} {layer idx : Nat}
    {e : GhostDirectory} (hview : viewAt mem pt layer idx = .directory e) (base : Nat) :
    interpWord mem' ⟨specRead mem idx pt.region, layer⟩ (some dRes) base =
      .directory (interpAt mem' dRes (layer + 1) base) :=
  interpWord_directory mem' hview dRes base

/-- The ghost tree after a new directory was linked in. -/
abbrev withEmpty (pt : PTDir) (idx : Nat) (region : MemRegion) : PTDir :=
  ⟨pt.region, pt.entries.set idx (some (PTDir.empty region)), insert region pt.usedRegions⟩

/-- What `insert_empty_directory` ensures (`impl_u/l2_impl.rs:1746–1767`). -/
structure InsertEnsures (mem : M) (pt : PTDir) (layer ptr idx : Nat) (region : MemRegion)
    (mem' : M) : Prop where
  inv : InvAt mem' (withEmpty pt idx region) layer ptr
  fresh : region ∉ regions mem
  regions_eq : regions mem' = insert region (regions mem)
  available : allocAvailablePages mem' = allocAvailablePages mem - 1
  cr3_eq : cr3 mem' = cr3 mem
  frame : ∀ r, r ≠ pt.region → r ≠ region → regionView mem' r = regionView mem r
  view_eq : ∃ e, viewAt mem' (withEmpty pt idx region) layer idx = .directory e ∧
    e.addr = region.base
  new_dir_inv : InvAt mem' (PTDir.empty region) (layer + 1) region.base
  new_dir_interp : ∀ base,
    interpAt mem' (PTDir.empty region) (layer + 1) (x86Arch.entryBase layer base idx) =
      (interpAt mem pt layer base).newEmptyDir idx
  interp_update : ∀ base, interpAt mem' (withEmpty pt idx region) layer base =
    (interpAt mem pt layer base).update idx
      (.directory ((interpAt mem pt layer base).newEmptyDir idx))

/-- The entry that was linked in. -/
theorem withEmpty_entry {mem : M} {pt : PTDir} {layer ptr idx : Nat}
    (h : InvAt mem pt layer ptr) (hidx : idx < x86NumEntries) (region : MemRegion) :
    (withEmpty pt idx region).entry idx = some (PTDir.empty region) := by
  have hlt : idx < pt.entries.length := by
    rw [h.loc.entries_length]
    exact hidx
  rw [PTDir.entry_set _ hlt, if_pos rfl]

private theorem tableUpdate_insert {mem mem' : M} {pt : PTDir} {layer ptr idx : Nat}
    {region : MemRegion} (h : InvAt mem pt layer ptr) (hlayer : layer < 3)
    (hnew : InvAt mem' (PTDir.empty region) (layer + 1) region.base)
    (hle : region.base ≤ maxPhyaddr) (hal : aligned region.base pageSize)
    (hfresh : region ∉ pt.usedRegions) (hregion : region ∈ regions mem)
    (hw : WriteEnsures mem idx pt.region
      (PageDirectoryEntry.newDirEntry layer (BitVec.ofNat 64 region.base)).entry mem') :
    TableUpdate mem pt layer idx
      (PageDirectoryEntry.newDirEntry layer (BitVec.ofNat 64 region.base)).entry
      (some (PTDir.empty region)) mem' (withEmpty pt idx region) where
  region_eq := rfl
  entries_eq := rfl
  view_eq := hw.view_eq
  siblings_view := by
    intro j d r _ hd hr
    apply hw.view_other
    rintro rfl
    exact h.loc.region_notin_used_regions j d hd hr
  mem_inv := hw.inv h.loc.mem_inv
  entry_inv := PageDirectoryEntry.newDirEntry_entryInvAt hlayer hle hal hnew
  used_refl := .inr h.loc.used_regions_refl
  used_siblings j d _ hd := (h.loc.used_regions_trans j d hd).trans (Set.subset_insert _ _)
  used_sub := by
    intro d hd
    cases hd
    exact Set.singleton_subset_iff.mpr (Set.mem_insert _ _)
  used_subset := by
    rw [hw.regions_eq]
    exact Set.insert_subset hregion h.loc.used_regions_subset
  region_notin_sub := by
    intro d hd hr
    cases hd
    apply hfresh
    rw [← Set.mem_singleton_iff.mp hr]
    exact h.loc.used_regions_refl
  sub_disjoint := by
    intro d hd j dj r _ hdj hr hrj
    cases hd
    apply hfresh
    rw [← Set.mem_singleton_iff.mp hr]
    exact h.loc.used_regions_trans j dj hdj hrj

/-- The two operations of `insert_empty_directory`. -/
theorem insertEmptyDirectory_eq {mem mem₁ mem' : M} {pt : PTDir} {layer ptr idx : Nat}
    {region : MemRegion} (halloc : allocDirectory mem = some (region, mem₁))
    (hwrite : writeEntry mem₁ pt ptr idx
      (PageDirectoryEntry.newDirEntry layer (BitVec.ofNat 64 region.base)).entry = some mem') :
    insertEmptyDirectory mem pt layer ptr idx = some ((withEmpty pt idx region, region,
      PageDirectoryEntry.newDirEntry layer (BitVec.ofNat 64 region.base)), mem') := by
  unfold insertEmptyDirectory
  simp only [halloc, hwrite, Option.bind_eq_bind, Option.bind_some]
  rfl

/-- `insert_empty_directory` links a fresh zeroed page in at an entry that is not present. -/
theorem insertEmptyDirectory_spec {mem : M} {pt : PTDir} {layer ptr idx : Nat}
    (h : InvAt mem pt layer ptr) (hidx : idx < x86NumEntries) (hlayer : layer < 3)
    (havail : 0 < allocAvailablePages mem) :
    ∃ region mem₁ mem', allocDirectory mem = some (region, mem₁) ∧ AllocEnsures mem region mem₁ ∧
      writeEntry mem₁ pt ptr idx
        (PageDirectoryEntry.newDirEntry layer (BitVec.ofNat 64 region.base)).entry = some mem' ∧
      WriteEnsures mem₁ idx pt.region
        (PageDirectoryEntry.newDirEntry layer (BitVec.ofNat 64 region.base)).entry mem' ∧
      InsertEnsures mem pt layer ptr idx region mem' := by
  obtain ⟨region, mem₁, halloc, ha⟩ := allocDirectory_eq h.loc.mem_inv havail
  have hsub₁ : pt.usedRegions ⊆ regions mem₁ := by
    rw [ha.regions_eq]
    exact h.loc.used_regions_subset.trans (Set.subset_insert _ _)
  have hnot : region ∉ pt.usedRegions := fun hr ↦ ha.fresh (h.loc.used_regions_subset hr)
  have hne : region ≠ pt.region := by
    rintro rfl
    exact hnot h.loc.used_regions_refl
  -- the tree does not notice the allocation
  have hframe₁ : ∀ r ∈ pt.usedRegions, regionView mem₁ r = regionView mem r :=
    fun r hr ↦ ha.view_other r (fun heq ↦ hnot (heq ▸ hr))
  obtain ⟨h₁, hinterp₁⟩ := h.frame hframe₁ ha.inv hsub₁
  have hregion : region ∈ regions mem₁ := by
    rw [ha.regions_eq]
    exact Set.mem_insert _ _
  have hle : region.base ≤ maxPhyaddr := by
    have hbound := ha.base_le
    omega
  obtain ⟨mem', hwrite, hw⟩ := h₁.loc.writeEntry_eq hidx
    (PageDirectoryEntry.newDirEntry layer (BitVec.ofNat 64 region.base)).entry
  have hnext : layer + 1 < x86NumLayers := by
    change layer + 1 < 4
    omega
  obtain ⟨hnew, hempty⟩ := InvAt.zeroed hnext (hw.inv ha.inv)
    (by rw [hw.regions_eq]; exact hregion) ha.base_aligned ha.size_eq
    (by rw [hw.view_other region hne]; exact ha.view_new)
  have hu := tableUpdate_insert h₁ hlayer hnew hle ha.base_aligned hnot hregion hw
  have hdir : ∀ base,
      interpAt mem' (PTDir.empty region) (layer + 1) (x86Arch.entryBase layer base idx) =
        (interpAt mem pt layer base).newEmptyDir idx := by
    intro base
    have hnum : x86Arch.numEntries (layer + 1) = x86NumEntries := x86Arch_numEntries hnext
    rw [hnew.loc.interpAt_of_empty hempty]
    unfold Directory.newEmptyDir Directory.entryBase
    rw [interpAt_arch, interpAt_layer, interpAt_baseVaddr, hnum]
  obtain ⟨e, hview, haddr, _⟩ := PageDirectoryEntry.newDirEntry_view hlayer hle ha.base_aligned
  exact ⟨region, mem₁, mem', halloc, ha, hwrite, hw, {
      inv := h₁.update hidx hu
      fresh := ha.fresh
      regions_eq := by rw [hw.regions_eq, ha.regions_eq]
      available := by rw [hw.available, ha.available]
      cr3_eq := by rw [hw.cr3_eq, ha.cr3_eq]
      frame := by
        intro r hpt hr
        rw [hw.view_other r hpt, ha.view_other r hr]
      view_eq := by
        refine ⟨e, ?_, haddr⟩
        rw [viewAt,
          hu.entryAtSpec_eq (by rw [h₁.loc.view_length, h.loc.entries_length]; exact hidx),
          if_pos rfl]
        exact hview
      new_dir_inv := hnew
      new_dir_interp := hdir
      interp_update := by
        intro base
        rw [h₁.interpAt_update hidx hu, hinterp₁, ← hdir]
        exact congrArg _ (interpWord_directory mem' hview _ _) }⟩

/-! ## The recursion -/

/-- What `map_frame_aux` returns: on success the new tree, with the directory `map_frame`
computes; on failure the memory it was given. -/
def MapAuxOutcome (mem : M) (pt : PTDir) (layer ptr base vaddr : Nat)
    (pte : PageTableEntry) : Except Unit (PTDir × Set MemRegion) → M → Prop
  | .ok (ptRes, newRegions), mem' =>
    MapAuxEnsures mem pt layer ptr ptRes newRegions mem' ∧
      (interpAt mem pt layer base).mapFrame vaddr pte = .ok (interpAt mem' ptRes layer base)
  | .error _, mem' =>
    mem' = mem ∧
      (interpAt mem pt layer base).mapFrame vaddr pte = .error (interpAt mem pt layer base)

/-- What the callers of `map_frame_aux` promise. -/
structure MapAuxRequires (mem : M) (pt : PTDir) (layer ptr base vaddr : Nat)
    (pte : PageTableEntry) : Prop where
  inv : InvAt mem pt layer ptr
  interp_inv : (interpAt mem pt layer base).Inv
  accepted : (interpAt mem pt layer base).AcceptedMapping vaddr pte
  pages : x86NumLayers - (layer + 1) ≤ allocAvailablePages mem
  frame_base_le : pte.frame.base ≤ maxPhyaddr
  size_layer : x86Arch.containsEntrySizeAtIndexAtleast pte.frame.size 1
  vaddr_lt : vaddr < maxBase

/-- The address is not below the directory. -/
theorem MapAuxRequires.base_le {mem : M} {pt : PTDir} {layer ptr base vaddr : Nat}
    {pte : PageTableEntry} (h : MapAuxRequires mem pt layer ptr base vaddr pte) : base ≤ vaddr := by
  have hle := h.accepted.in_bounds.1
  rw [interpAt_baseVaddr] at hle
  exact hle

/-- The address selects one of the entries. -/
theorem MapAuxRequires.index_lt {mem : M} {pt : PTDir} {layer ptr base vaddr : Nat}
    {pte : PageTableEntry} (h : MapAuxRequires mem pt layer ptr base vaddr pte) :
    x86Arch.indexForVaddr layer base vaddr < x86NumEntries := by
  have hidx := h.accepted.index_lt h.interp_inv
  rw [interpAt_indexForVaddr, interpAt_numEntries mem pt base h.inv.loc.layer_in_range] at hidx
  exact hidx

private theorem MapAuxRequires.layer_pos {mem : M} {pt : PTDir} {layer ptr base vaddr : Nat}
    {pte : PageTableEntry} (h : MapAuxRequires mem pt layer ptr base vaddr pte)
    (hsize : x86Arch.entrySize layer = pte.frame.size) : 0 < layer := by
  obtain ⟨i, hpos, hlt, hi⟩ := h.size_layer
  have heq : layer = i :=
    x86Arch_entrySize_injective h.inv.loc.layer_in_range hlt (hsize.trans hi.symm)
  omega

/-- There is a layer below a directory whose entries are too large. -/
theorem MapAuxRequires.layer_lt {mem : M} {pt : PTDir} {layer ptr base vaddr : Nat}
    {pte : PageTableEntry} (h : MapAuxRequires mem pt layer ptr base vaddr pte)
    (hsize : x86Arch.entrySize layer ≠ pte.frame.size) : layer < 3 := by
  have hvalid := h.accepted.valid_size
  rw [interpAt_arch, interpAt_layer] at hvalid
  obtain ⟨i, hle, hlt, _⟩ := Arch.containsEntrySizeAtIndexAtleast_succ hvalid hsize
  rw [x86Arch_length] at hlt
  omega

private theorem mapFrameAux_page {mem mem' : M} {pt : PTDir} {layer ptr base vaddr : Nat}
    {pte : PageTableEntry} (h : MapAuxRequires mem pt layer ptr base vaddr pte)
    (hview : viewAt mem pt layer (x86Arch.indexForVaddr layer base vaddr) = .empty)
    (hsize : x86Arch.entrySize layer = pte.frame.size)
    (hw : WriteEnsures mem (x86Arch.indexForVaddr layer base vaddr) pt.region
      (PageDirectoryEntry.newPageEntry layer pte).entry mem') :
    MapAuxOutcome mem pt layer ptr base vaddr pte (.ok (pt, ∅)) mem' := by
  have hloc := h.inv.loc
  have hidx := h.index_lt
  have hle : layer ≤ 3 := by
    have hlt := hloc.layer_in_range
    change layer < 4 at hlt
    omega
  obtain ⟨hentry, hinterp⟩ := PageDirectoryEntry.newPageEntry_spec mem' (h.layer_pos hsize) hle
    hsize.symm h.accepted.frame_aligned h.frame_base_le
  have hnone := hloc.entry_eq_none_of_view hidx (by rw [hview]; rfl)
  have hu := h.inv.tableUpdate_write hnone hw hentry
  constructor
  · exact {
      inv := h.inv.update hidx hu
      regions_eq := by rw [hw.regions_eq, Set.union_empty]
      used_eq := by rw [Set.union_empty]
      fresh := fun r hr ↦ absurd hr (Set.notMem_empty r)
      frame := by
        intro r hr _
        apply hw.view_other
        rintro rfl
        exact hr hloc.used_regions_refl
      region_eq := rfl
      cr3_eq := hw.cr3_eq }
  · have hempty := hloc.interpAt_empty hidx hview base
    rw [← interpAt_indexForVaddr mem pt layer base vaddr] at hempty
    rw [h.interp_inv.mapFrame_empty hempty, interpAt_entrySize, if_pos hsize,
      interpAt_indexForVaddr, h.inv.interpAt_update hidx hu]
    exact congrArg (fun e ↦ Except.ok (Directory.update _ _ e)) (hinterp _).symm

private theorem MapAuxRequires.sub {mem : M} {pt d : PTDir} {layer ptr base vaddr : Nat}
    {pte : PageTableEntry} (h : MapAuxRequires mem pt layer ptr base vaddr pte)
    (hsize : x86Arch.entrySize layer ≠ pte.frame.size) {e : GhostDirectory}
    (hview : viewAt mem pt layer (x86Arch.indexForVaddr layer base vaddr) = .directory e)
    (hd : pt.entry (x86Arch.indexForVaddr layer base vaddr) = some d) :
    MapAuxRequires mem d (layer + 1) e.addr
      (x86Arch.entryBase layer base (x86Arch.indexForVaddr layer base vaddr)) vaddr pte := by
  have hentry := h.inv.loc.interpAt_directory h.index_lt hview hd base
  exact {
    inv := h.inv.sub h.index_lt hview hd
    interp_inv := h.interp_inv.sub hentry
    accepted := by
      apply h.accepted.sub h.interp_inv
      · rw [interpAt_entrySize]
        exact hsize
      · rw [interpAt_layer, interpAt_layer]
      · rw [interpAt_baseVaddr, interpAt_indexForVaddr, interpAt_entryBase]
      · rw [interpAt_arch, interpAt_arch]
      · rw [interpAt_indexForVaddr]
        exact h.interp_inv.sub_upperVaddr hentry
    pages := by
      have hpages := h.pages
      omega
    frame_base_le := h.frame_base_le
    size_layer := h.size_layer
    vaddr_lt := h.vaddr_lt }

private theorem mapFrameAux_directory_ok {mem mem' : M} {pt d dRes : PTDir}
    {layer ptr base vaddr : Nat} {pte : PageTableEntry} {newRegions : Set MemRegion}
    (h : MapAuxRequires mem pt layer ptr base vaddr pte)
    (hsize : x86Arch.entrySize layer ≠ pte.frame.size) {e : GhostDirectory}
    (hview : viewAt mem pt layer (x86Arch.indexForVaddr layer base vaddr) = .directory e)
    (hd : pt.entry (x86Arch.indexForVaddr layer base vaddr) = some d)
    (hres : MapAuxOutcome mem d (layer + 1) e.addr
      (x86Arch.entryBase layer base (x86Arch.indexForVaddr layer base vaddr)) vaddr pte
      (.ok (dRes, newRegions)) mem') :
    MapAuxOutcome mem pt layer ptr base vaddr pte
      (.ok (⟨pt.region, pt.entries.set (x86Arch.indexForVaddr layer base vaddr) (some dRes),
        pt.usedRegions ∪ newRegions⟩, newRegions)) mem' := by
  obtain ⟨hens, hmap⟩ := hres
  have hidx := h.index_lt
  refine ⟨hens.lift h.inv hidx hview hd, ?_⟩
  have hentry := h.inv.loc.interpAt_directory hidx hview hd base
  rw [← interpAt_indexForVaddr mem pt layer base vaddr] at hentry
  rw [h.interp_inv.mapFrame_directory hentry, interpAt_entrySize, if_neg hsize,
    interpAt_indexForVaddr, hmap, h.inv.interpAt_update hidx (hens.tableUpdate h.inv hidx hview hd)]
  exact congrArg (fun e ↦ Except.ok (Directory.update _ _ e)) (interpWord_sub hview _).symm

private theorem mapFrameAux_directory_error {mem mem' : M} {pt d : PTDir}
    {layer ptr base vaddr : Nat} {pte : PageTableEntry}
    (h : MapAuxRequires mem pt layer ptr base vaddr pte)
    (hsize : x86Arch.entrySize layer ≠ pte.frame.size) {e : GhostDirectory}
    (hview : viewAt mem pt layer (x86Arch.indexForVaddr layer base vaddr) = .directory e)
    (hd : pt.entry (x86Arch.indexForVaddr layer base vaddr) = some d)
    (hres : MapAuxOutcome mem d (layer + 1) e.addr
      (x86Arch.entryBase layer base (x86Arch.indexForVaddr layer base vaddr)) vaddr pte
      (.error ()) mem') :
    MapAuxOutcome mem pt layer ptr base vaddr pte (.error ()) mem' := by
  obtain ⟨rfl, herr⟩ := hres
  refine ⟨rfl, ?_⟩
  have hentry := h.inv.loc.interpAt_directory h.index_lt hview hd base
  rw [h.interp_inv.mapFrame_directory (by rw [interpAt_indexForVaddr]; exact hentry),
    interpAt_entrySize, if_neg hsize, interpAt_indexForVaddr, herr]
  simp only
  rw [← hentry, Directory.update_entry]

/-- The request is one for the new directory, which does not refuse it. -/
theorem InsertEnsures.requires {mem mem' : M} {pt : PTDir} {layer ptr base vaddr : Nat}
    {pte : PageTableEntry} {region : MemRegion}
    (ins : InsertEnsures mem pt layer ptr (x86Arch.indexForVaddr layer base vaddr) region mem')
    (h : MapAuxRequires mem pt layer ptr base vaddr pte)
    (hsize : x86Arch.entrySize layer ≠ pte.frame.size) :
    MapAuxRequires mem' (PTDir.empty region) (layer + 1) region.base
        (x86Arch.entryBase layer base (x86Arch.indexForVaddr layer base vaddr)) vaddr pte ∧
      ∃ d, (interpAt mem' (PTDir.empty region) (layer + 1)
        (x86Arch.entryBase layer base (x86Arch.indexForVaddr layer base vaddr))).mapFrame
          vaddr pte = .ok d := by
  have hlayer := h.layer_lt hsize
  have hnext : (interpAt mem pt layer base).layer + 1 <
      (interpAt mem pt layer base).arch.layers.length := by
    rw [interpAt_layer, interpAt_arch, x86Arch_length]
    omega
  obtain ⟨hinv, hempty, hupper⟩ :=
    h.interp_inv.newEmptyDir hnext (x86Arch.indexForVaddr layer base vaddr)
  have haccepted : ((interpAt mem pt layer base).newEmptyDir
      (x86Arch.indexForVaddr layer base vaddr)).AcceptedMapping vaddr pte := by
    apply h.accepted.sub h.interp_inv
    · rw [interpAt_entrySize]
      exact hsize
    · rfl
    · rw [interpAt_indexForVaddr]
      rfl
    · rfl
    · rw [interpAt_indexForVaddr]
      exact hupper
  rw [← ins.new_dir_interp] at hinv hempty haccepted
  have hno : ¬candidateMappingOverlapsExistingVmem (interpAt mem' (PTDir.empty region) (layer + 1)
      (x86Arch.entryBase layer base (x86Arch.indexForVaddr layer base vaddr))).interpMap
        vaddr pte := by
    rw [hinv.interpMap_of_empty hempty]
    rintro ⟨b, p, hp, _⟩
    cases hp
  obtain ⟨d, hd, _⟩ := hinv.mapFrame_ok haccepted hno
  refine ⟨?_, d, hd⟩
  exact {
    inv := ins.new_dir_inv
    interp_inv := hinv
    accepted := haccepted
    pages := by
      have hpages := h.pages
      rw [ins.available]
      omega
    frame_base_le := h.frame_base_le
    size_layer := h.size_layer
    vaddr_lt := h.vaddr_lt }

private theorem mapFrameAux_insert_ok {mem mem₁ mem' : M} {pt dRes : PTDir}
    {layer ptr base vaddr : Nat} {pte : PageTableEntry} {region : MemRegion}
    {newRegions : Set MemRegion} (h : MapAuxRequires mem pt layer ptr base vaddr pte)
    (hsize : x86Arch.entrySize layer ≠ pte.frame.size)
    (hview : viewAt mem pt layer (x86Arch.indexForVaddr layer base vaddr) = .empty)
    (ins : InsertEnsures mem pt layer ptr (x86Arch.indexForVaddr layer base vaddr) region mem₁)
    (hres : MapAuxOutcome mem₁ (PTDir.empty region) (layer + 1) region.base
      (x86Arch.entryBase layer base (x86Arch.indexForVaddr layer base vaddr)) vaddr pte
      (.ok (dRes, newRegions)) mem') :
    MapAuxOutcome mem pt layer ptr base vaddr pte
      (.ok (⟨pt.region, (withEmpty pt (x86Arch.indexForVaddr layer base vaddr) region).entries.set
          (x86Arch.indexForVaddr layer base vaddr) (some dRes),
        insert region pt.usedRegions ∪ newRegions⟩, insert region newRegions)) mem' := by
  obtain ⟨hens, hmap⟩ := hres
  have hidx := h.index_lt
  obtain ⟨e, hnew, haddr⟩ := ins.view_eq
  have hd : (withEmpty pt (x86Arch.indexForVaddr layer base vaddr) region).entry
      (x86Arch.indexForVaddr layer base vaddr) = some (PTDir.empty region) :=
    withEmpty_entry h.inv hidx region
  rw [← haddr] at hens
  have hlift := hens.lift ins.inv hidx hnew hd
  constructor
  · exact {
      inv := hlift.inv
      regions_eq := by
        rw [hlift.regions_eq, ins.regions_eq, Set.insert_union, Set.union_insert]
      used_eq := by
        change insert region pt.usedRegions ∪ newRegions = _
        rw [Set.insert_union, Set.union_insert]
      fresh := by
        rintro r (rfl | hr)
        · exact ins.fresh
        · intro hmem
          apply hlift.fresh r hr
          rw [ins.regions_eq]
          exact .inr hmem
      frame := by
        intro r hr hnot
        have hne : r ≠ region := fun heq ↦ hnot (.inl heq)
        have hnot' : r ∉ insert region pt.usedRegions := by
          rintro (heq | hin)
          · exact hne heq
          · exact hr hin
        rw [hlift.frame r hnot' (fun hin ↦ hnot (.inr hin))]
        apply ins.frame r _ hne
        rintro rfl
        exact hr h.inv.loc.used_regions_refl
      region_eq := rfl
      cr3_eq := by rw [hlift.cr3_eq, ins.cr3_eq] }
  · have hempty := h.inv.loc.interpAt_empty hidx hview base
    rw [← interpAt_indexForVaddr mem pt layer base vaddr] at hempty
    rw [h.interp_inv.mapFrame_empty hempty, interpAt_entrySize, if_neg hsize,
      interpAt_indexForVaddr, ← ins.new_dir_interp, hmap,
      ins.inv.interpAt_update hidx (hens.tableUpdate ins.inv hidx hnew hd), ins.interp_update,
      Directory.update_update]
    exact congrArg (fun e ↦ Except.ok (Directory.update _ _ e)) (interpWord_sub hnew _).symm

/-- The runs of `map_frame_aux` on requests that meet its preconditions, by the branches they
take. -/
inductive MapRun (vaddr : Nat) (pte : PageTableEntry) :
    M → PTDir → Nat → Nat → Nat → Except Unit (PTDir × Set MemRegion) → M → Prop where
  /-- the entry is a page, or a directory where the page would go -/
  | occupied {mem : M} {pt : PTDir} {layer ptr base : Nat}
      (h : MapAuxRequires mem pt layer ptr base vaddr pte)
      (hrefused : (interpAt mem pt layer base).mapFrame vaddr pte =
        .error (interpAt mem pt layer base)) :
      MapRun vaddr pte mem pt layer ptr base (.error ()) mem
  | page {mem mem' : M} {pt : PTDir} {layer ptr base : Nat}
      (h : MapAuxRequires mem pt layer ptr base vaddr pte)
      (hview : viewAt mem pt layer (x86Arch.indexForVaddr layer base vaddr) = .empty)
      (hsize : x86Arch.entrySize layer = pte.frame.size)
      (hwrite : writeEntry mem pt ptr (x86Arch.indexForVaddr layer base vaddr)
        (PageDirectoryEntry.newPageEntry layer pte).entry = some mem')
      (hw : WriteEnsures mem (x86Arch.indexForVaddr layer base vaddr) pt.region
        (PageDirectoryEntry.newPageEntry layer pte).entry mem') :
      MapRun vaddr pte mem pt layer ptr base (.ok (pt, ∅)) mem'
  | directory {mem mem' : M} {pt d dRes : PTDir} {layer ptr base : Nat} {e : GhostDirectory}
      {newRegions : Set MemRegion} (h : MapAuxRequires mem pt layer ptr base vaddr pte)
      (hsize : x86Arch.entrySize layer ≠ pte.frame.size)
      (hview : viewAt mem pt layer (x86Arch.indexForVaddr layer base vaddr) = .directory e)
      (hd : pt.entry (x86Arch.indexForVaddr layer base vaddr) = some d)
      (sub : MapRun vaddr pte mem d (layer + 1) e.addr
        (x86Arch.entryBase layer base (x86Arch.indexForVaddr layer base vaddr))
        (.ok (dRes, newRegions)) mem') :
      MapRun vaddr pte mem pt layer ptr base
        (.ok (⟨pt.region, pt.entries.set (x86Arch.indexForVaddr layer base vaddr) (some dRes),
          pt.usedRegions ∪ newRegions⟩, newRegions)) mem'
  | directoryRefused {mem mem' : M} {pt d : PTDir} {layer ptr base : Nat} {e : GhostDirectory}
      (h : MapAuxRequires mem pt layer ptr base vaddr pte)
      (hsize : x86Arch.entrySize layer ≠ pte.frame.size)
      (hview : viewAt mem pt layer (x86Arch.indexForVaddr layer base vaddr) = .directory e)
      (hd : pt.entry (x86Arch.indexForVaddr layer base vaddr) = some d)
      (sub : MapRun vaddr pte mem d (layer + 1) e.addr
        (x86Arch.entryBase layer base (x86Arch.indexForVaddr layer base vaddr)) (.error ()) mem') :
      MapRun vaddr pte mem pt layer ptr base (.error ()) mem'
  /-- an empty directory refuses no accepted request -/
  | insert {mem mem₁ mem₂ mem' : M} {pt dRes : PTDir} {layer ptr base : Nat} {region : MemRegion}
      {newRegions : Set MemRegion} (h : MapAuxRequires mem pt layer ptr base vaddr pte)
      (hsize : x86Arch.entrySize layer ≠ pte.frame.size)
      (hview : viewAt mem pt layer (x86Arch.indexForVaddr layer base vaddr) = .empty)
      (halloc : allocDirectory mem = some (region, mem₁)) (ha : AllocEnsures mem region mem₁)
      (hwrite : writeEntry mem₁ pt ptr (x86Arch.indexForVaddr layer base vaddr)
        (PageDirectoryEntry.newDirEntry layer (BitVec.ofNat 64 region.base)).entry = some mem₂)
      (hw : WriteEnsures mem₁ (x86Arch.indexForVaddr layer base vaddr) pt.region
        (PageDirectoryEntry.newDirEntry layer (BitVec.ofNat 64 region.base)).entry mem₂)
      (ins : InsertEnsures mem pt layer ptr (x86Arch.indexForVaddr layer base vaddr) region mem₂)
      (sub : MapRun vaddr pte mem₂ (PTDir.empty region) (layer + 1) region.base
        (x86Arch.entryBase layer base (x86Arch.indexForVaddr layer base vaddr))
        (.ok (dRes, newRegions)) mem') :
      MapRun vaddr pte mem pt layer ptr base
        (.ok (⟨pt.region, (withEmpty pt (x86Arch.indexForVaddr layer base vaddr) region).entries.set
            (x86Arch.indexForVaddr layer base vaddr) (some dRes),
          insert region pt.usedRegions ∪ newRegions⟩, insert region newRegions)) mem'

/-- A run of `map_frame_aux` changes the tree as `Directory::map_frame` does. -/
theorem MapRun.outcome {mem mem' : M} {pt : PTDir} {layer ptr base vaddr : Nat}
    {pte : PageTableEntry} {res : Except Unit (PTDir × Set MemRegion)}
    (run : MapRun vaddr pte mem pt layer ptr base res mem') :
    MapAuxOutcome mem pt layer ptr base vaddr pte res mem' := by
  induction run with
  | occupied h hrefused => exact ⟨rfl, hrefused⟩
  | page h hview hsize _ hw => exact mapFrameAux_page h hview hsize hw
  | directory h hsize hview hd _ ih => exact mapFrameAux_directory_ok h hsize hview hd ih
  | directoryRefused h hsize hview hd _ ih => exact mapFrameAux_directory_error h hsize hview hd ih
  | insert h hsize hview _ _ _ _ ins _ ih => exact mapFrameAux_insert_ok h hsize hview ins ih

/-- `map_frame_aux` does not stop the program on requests that meet its preconditions. -/
theorem mapFrameAux_run (n : Nat) {mem : M} {pt : PTDir} {layer ptr base vaddr : Nat}
    {pte : PageTableEntry} (hn : n = x86NumLayers - layer)
    (h : MapAuxRequires mem pt layer ptr base vaddr pte) :
    ∃ res mem', mapFrameAux mem pt layer ptr base vaddr pte = some (res, mem') ∧
      MapRun vaddr pte mem pt layer ptr base res mem' := by
  induction n generalizing mem pt layer ptr base with
  | zero =>
    have hlt := h.inv.loc.layer_in_range
    omega
  | succ n ih =>
    have hloc := h.inv.loc
    have hlt := hloc.layer_in_range
    have hle := h.base_le
    have hidx := h.index_lt
    have hle3 : layer ≤ 3 := Nat.le_of_lt_succ hlt
    have hmb0 := hloc.entry_mb0_bits_are_zero _ hidx
    rw [mapFrameAux, dif_pos hlt, archIndexForVaddr_eq hlt hle]
    simp only [Option.bind_eq_bind, Option.bind_some, hloc.entryAt_eq hidx,
      archEntryBase_eq hlt (Nat.lt_of_le_of_lt hle h.vaddr_lt) hidx, archEntrySize_eq hlt]
    by_cases hmap : (entryAtSpec mem pt layer (x86Arch.indexForVaddr layer base vaddr)).isMapping
    · rw [if_pos hmap]
      by_cases hdir :
          (entryAtSpec mem pt layer (x86Arch.indexForVaddr layer base vaddr)).isDir layer
      · rw [if_pos hdir]
        obtain ⟨e, hview, haddr⟩ := PageDirectoryEntry.view_of_dir hle3 hmb0 hmap hdir
        obtain ⟨d, hd⟩ := hloc.exists_entry hidx hview
        have hentry := hloc.interpAt_directory hidx hview hd base
        rw [← interpAt_indexForVaddr mem pt layer base vaddr] at hentry
        by_cases hsize : x86Arch.entrySize layer = pte.frame.size
        · rw [if_pos hsize]
          refine ⟨_, _, rfl, .occupied h ?_⟩
          rw [h.interp_inv.mapFrame_directory hentry, interpAt_entrySize, if_pos hsize]
        · rw [if_neg hsize]
          obtain ⟨res, mem', hcall, hrun⟩ := ih (by omega) (h.sub hsize hview hd)
          rw [haddr] at hcall
          rw [hd, Option.bind_some, hcall, Option.bind_some]
          cases res with
          | ok res =>
            obtain ⟨dRes, newRegions⟩ := res
            exact ⟨_, _, rfl, .directory h hsize hview hd hrun⟩
          | error u => exact ⟨_, _, rfl, .directoryRefused h hsize hview hd hrun⟩
      · rw [if_neg hdir]
        obtain ⟨p, hview, _⟩ := PageDirectoryEntry.view_of_page hle3 hmb0
          (hloc.hp_pat_is_zero _ hidx) hmap (Bool.eq_false_of_not_eq_true hdir)
        have hentry := hloc.interpAt_page hidx hview base
        rw [← interpAt_indexForVaddr mem pt layer base vaddr] at hentry
        exact ⟨_, _, rfl, .occupied h (h.interp_inv.mapFrame_page hentry)⟩
    · rw [if_neg hmap]
      have hview := PageDirectoryEntry.view_of_not_mapping (Bool.eq_false_of_not_eq_true hmap)
      by_cases hsize : x86Arch.entrySize layer = pte.frame.size
      · rw [if_pos hsize]
        obtain ⟨mem', hwrite, hw⟩ :=
          hloc.writeEntry_eq hidx (PageDirectoryEntry.newPageEntry layer pte).entry
        rw [hwrite, Option.bind_some]
        exact ⟨_, _, rfl, .page h hview hsize hwrite hw⟩
      · rw [if_neg hsize]
        have hlayer := h.layer_lt hsize
        have hpages := h.pages
        change 4 - (layer + 1) ≤ _ at hpages
        obtain ⟨region, mem₁, mem₂, halloc, ha, hwrite, hw, ins⟩ :=
          insertEmptyDirectory_spec h.inv hidx hlayer (by omega)
        obtain ⟨hreq, d', hok⟩ := ins.requires h hsize
        obtain ⟨res, mem', hcall, hrun⟩ := ih (by omega) hreq
        rw [insertEmptyDirectory_eq halloc hwrite, Option.bind_some]
        dsimp only
        rw [withEmpty_entry h.inv hidx region, Option.bind_some, hcall, Option.bind_some]
        cases res with
        | ok res =>
          obtain ⟨dRes, newRegions⟩ := res
          exact ⟨_, _, rfl, .insert h hsize hview halloc ha hwrite hw ins hrun⟩
        | error u =>
          obtain ⟨_, herr⟩ := hrun.outcome
          rw [herr] at hok
          cases hok

/-- `accepted_mapping`: pages cannot be mapped in the first layer
(`impl_u/l2_impl.rs:941–945`). -/
structure AcceptedMapping (pte : PageTableEntry) : Prop where
  size_layer : x86Arch.containsEntrySizeAtIndexAtleast pte.frame.size 1
  frame_base_le : pte.frame.base ≤ maxPhyaddr

/-- The runs of `map_frame` on accepted requests. -/
theorem mapFrame_run {mem : M} {pt : PTDir} {vaddr : Nat} {pte : PageTableEntry}
    (hinv : PT.Inv mem pt) (hinterp : (PT.interp mem pt).Inv)
    (hpages : 3 ≤ allocAvailablePages mem) (hpte : AcceptedMapping pte)
    (ha : (PT.interp mem pt).AcceptedMapping vaddr pte) (hmax : vaddr < maxBase) :
    (∃ ptRes newRegions mem', mapFrame mem pt vaddr pte = some (.ok (), mem', ptRes) ∧
        MapRun vaddr pte mem pt 0 (cr3 mem).base 0 (.ok (ptRes, newRegions)) mem') ∨
      (mapFrame mem pt vaddr pte = some (.error (), mem, pt) ∧
        MapRun vaddr pte mem pt 0 (cr3 mem).base 0 (.error ()) mem) := by
  have hreq : MapAuxRequires mem pt 0 (cr3 mem).base 0 vaddr pte :=
    ⟨hinv.2, hinterp, ha, hpages, hpte.frame_base_le, hpte.size_layer, hmax⟩
  obtain ⟨res, mem', hcall, hrun⟩ := mapFrameAux_run _ rfl hreq
  unfold mapFrame
  rw [hcall, Option.bind_eq_bind, Option.bind_some]
  cases res with
  | ok res =>
    obtain ⟨ptRes, newRegions⟩ := res
    exact .inl ⟨ptRes, newRegions, mem', rfl, hrun⟩
  | error u =>
    obtain ⟨rfl, _⟩ := hrun.outcome
    exact .inr ⟨rfl, hrun⟩

/-- What `map_frame` returns for an accepted request, and what it leaves behind. -/
structure MapFrameEnsures (mem : M) (pt : PTDir) (vaddr : Nat) (pte : PageTableEntry)
    (result : Except Unit Unit) (mem' : M) (pt' : PTDir) : Prop where
  inv : PT.Inv mem' pt'
  interp_inv : (PT.interp mem' pt').Inv
  step : SpecPt.stepMapEnd ⟨mem⟩ ⟨mem'⟩ vaddr pte result
  refused : result = .error () → mem' = mem ∧ pt' = pt

/-- `map_frame` does not stop the program on accepted requests and implements the map step
of the page table state machine. -/
theorem mapFrame_spec {mem : M} {pt : PTDir} {vaddr : Nat} {pte : PageTableEntry}
    (hinv : PT.Inv mem pt) (hinterp : (PT.interp mem pt).Inv)
    (hpages : 3 ≤ allocAvailablePages mem) (hpte : AcceptedMapping pte)
    (ha : (PT.interp mem pt).AcceptedMapping vaddr pte) (hmax : vaddr < maxBase) :
    ∃ result mem' pt', mapFrame mem pt vaddr pte = some (result, mem', pt') ∧
      MapFrameEnsures mem pt vaddr pte result mem' pt' := by
  have hview := hinv.interpPtMem_eq hinterp
  rcases mapFrame_run hinv hinterp hpages hpte ha hmax with
    ⟨ptRes, newRegions, mem', hcall, hrun⟩ | ⟨hcall, hrun⟩
  · obtain ⟨hens, hok⟩ := hrun.outcome
    obtain ⟨hno, hmap⟩ := hinterp.mapFrame_eq_ok ha hok
    have hinv' : PT.Inv mem' ptRes := by
      unfold PT.Inv
      rw [hens.region_eq, hens.cr3_eq]
      exact ⟨hinv.1, hens.inv⟩
    have hview' := hinv'.interpPtMem_eq hmap.inv
    refine ⟨_, _, _, hcall, hinv', hmap.inv, ?_, fun h ↦ ?_⟩
    · unfold SpecPt.stepMapEnd SpecPt.interp
      rw [hview, hview']
      exact ⟨fun hov ↦ absurd hov hno, fun _ ↦ ⟨rfl, hmap.interpMap_eq⟩⟩
    · cases h
  · obtain ⟨_, herr⟩ := hrun.outcome
    have hov := hinterp.mapFrame_eq_error ha herr
    refine ⟨_, _, _, hcall, hinv, hinterp, ?_, fun _ ↦ ⟨rfl, rfl⟩⟩
    unfold SpecPt.stepMapEnd SpecPt.interp
    rw [hview]
    exact ⟨fun _ ↦ ⟨rfl, rfl⟩, fun hno ↦ absurd hov hno⟩

end MapFrame

end NrKernel.PageTable
