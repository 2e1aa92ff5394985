import NrKernel.PageTable.RecordedMemory

/-!
# Updates are single writes to the MMU

Mapping is `(Read | ViewStutter)* Write` and unmapping is
`Read* (Write (Read | ViewStutter)*)?` (`impl_u/spec_pt.rs:25–30`): of all the memories a call
goes through, one write separates those with the old view of the MMU from those with the new
one. Every other operation is hidden from the walks: it changes words no walk reads, links a
zeroed directory in, or unlinks an emptied one.
-/

namespace NrKernel.PageTable

open Lib PtMemory

/-! ## Memories with the same walks -/

section Walks

variable {M : Type} [PtMemoryOps M] [PhyAddrWidth]

/-- Walks from a table arrive at the same entries in both memories. -/
def SameWalks (mem mem' : M) (layer ptr : Nat) : Prop :=
  ∀ addr w u x, walkRec mem' addr (x86NumLayers - layer) layer ptr w u x =
    walkRec mem addr (x86NumLayers - layer) layer ptr w u x

private theorem SameWalks.refl (mem : M) (layer ptr : Nat) : SameWalks mem mem layer ptr :=
  fun _ _ _ _ ↦ rfl

private theorem SameWalks.trans {mem mem₁ mem₂ : M} {layer ptr : Nat}
    (h : SameWalks mem mem₁ layer ptr)
    (h' : SameWalks mem₁ mem₂ layer ptr) : SameWalks mem mem₂ layer ptr := by
  intro addr w u x
  rw [h', h]

/-- No walk goes on from the entry: it is not present, or leads to a table without entries. -/
def LeadsNowhere (mem : M) (layer : Nat) (v : GhostPageDirectoryEntry) : Prop :=
  v = .empty ∨ ∃ e, v = .directory e ∧
    ∀ i, i < x86NumEntries → readEntry mem e.addr (layer + 1) i = .empty

/-- Entries of two memories from which walks go on alike. -/
inductive SameEntry (mem mem' : M) (layer : Nat) :
    GhostPageDirectoryEntry → GhostPageDirectoryEntry → Prop where
  | same {v : GhostPageDirectoryEntry}
      (sub : ∀ e, v = .directory e → SameWalks mem mem' (layer + 1) e.addr) :
      SameEntry mem mem' layer v v
  | nowhere {v v' : GhostPageDirectoryEntry} (h : LeadsNowhere mem layer v)
      (h' : LeadsNowhere mem' layer v') : SameEntry mem mem' layer v v'

-- The rest of a walk from an entry of a table on.
private def walkEntry (mem : M) (addr n layer : Nat) (w u x : Bool) :
    GhostPageDirectoryEntry → Option PageTableEntry
  | .directory d =>
    walkRec mem addr n (layer + 1) d.addr (w && d.flagRW) (u && d.flagUS) (x || d.flagXD)
  | .page p =>
    if aligned addr (x86Arch.entrySize layer) then
      some {
        frame := ⟨p.addr, x86Arch.entrySize layer⟩
        flags := {
          isWritable := w && p.flagRW
          isSupervisor := !(u && p.flagUS)
          disableExecute := x || p.flagXD } }
    else none
  | .empty => none

private theorem walkRec_succ (mem : M) (addr n layer ptr : Nat) (w u x : Bool) :
    walkRec mem addr (n + 1) layer ptr w u x =
      walkEntry mem addr n layer w u x (readEntry mem ptr layer (layerIndex layer addr)) := by
  rw [walkRec]
  cases readEntry mem ptr layer (layerIndex layer addr) <;> rfl

private theorem LeadsNowhere.walkEntry_eq {mem : M} {layer : Nat} {v : GhostPageDirectoryEntry}
    (h : LeadsNowhere mem layer v) (addr n : Nat) (w u x : Bool) :
    walkEntry mem addr n layer w u x v = none := by
  rcases h with rfl | ⟨e, rfl, hnone⟩
  · rfl
  · cases n with
    | zero => rfl
    | succ n =>
      have hidx : layerIndex (layer + 1) addr < x86NumEntries := Nat.mod_lt _ (by decide)
      change walkRec mem addr (n + 1) (layer + 1) e.addr _ _ _ = none
      rw [walkRec_succ, hnone _ hidx]
      rfl

private theorem SameEntry.walkEntry_eq {mem mem' : M} {layer : Nat} {v v' : GhostPageDirectoryEntry}
    (h : SameEntry mem mem' layer v v') (addr : Nat) (w u x : Bool) :
    walkEntry mem' addr (x86NumLayers - (layer + 1)) layer w u x v' =
      walkEntry mem addr (x86NumLayers - (layer + 1)) layer w u x v := by
  cases h with
  | same sub =>
    cases v with
    | directory e => exact sub e rfl addr _ _ _
    | page p => rfl
    | empty => rfl
  | nowhere h h' => rw [h.walkEntry_eq, h'.walkEntry_eq]

/-- Walks from tables whose entries go on alike. -/
theorem SameWalks.of_entries {mem mem' : M} {layer ptr : Nat} (hlayer : layer < x86NumLayers)
    (h : ∀ i, i < x86NumEntries →
      SameEntry mem mem' layer (readEntry mem ptr layer i) (readEntry mem' ptr layer i)) :
    SameWalks mem mem' layer ptr := by
  intro addr w u x
  have hn : x86NumLayers - layer = x86NumLayers - (layer + 1) + 1 := by omega
  have hidx : layerIndex layer addr < x86NumEntries := Nat.mod_lt _ (by decide)
  rw [hn, walkRec_succ, walkRec_succ]
  exact (h _ hidx).walkEntry_eq addr w u x

/-- Memories whose root tables are walked alike have one view of the MMU. -/
theorem SameWalks.interpPtMem_eq {mem mem' : M} (h : SameWalks mem mem' 0 (cr3 mem).base)
    (hcr3 : cr3 mem' = cr3 mem) : interpPtMem mem' = interpPtMem mem := by
  ext addr : 1
  unfold interpPtMem
  by_cases haddr : addr < maxBase
  · have hlt : addr < 2 ^ 64 := by
      rw [maxBase_eq] at haddr
      omega
    rw [if_pos haddr, if_pos haddr, ptWalk_eq_walkRec mem' hlt, ptWalk_eq_walkRec mem hlt, hcr3]
    exact h addr true true false
  · rw [if_neg haddr, if_neg haddr]

/-! ## Walks of trees -/

/-- Walks of a tree read its pages only. -/
theorem InvAt.sameWalks {mem mem' : M} {pt : PTDir} {layer ptr : Nat} (h : InvAt mem pt layer ptr)
    (hview : ∀ r ∈ pt.usedRegions, regionView mem' r = regionView mem r) :
    SameWalks mem mem' layer ptr := by
  induction h with
  | @intro pt layer ptr loc sub ih =>
    apply SameWalks.of_entries loc.layer_in_range
    intro i hi
    have hread : readEntry mem' ptr layer i = readEntry mem ptr layer i := by
      have hregion := hview pt.region loc.used_regions_refl
      rw [loc.region_eq] at hregion
      unfold readEntry
      rw [specRead_congr hregion]
    rw [hread]
    apply SameEntry.same
    intro e he
    rw [loc.readEntry_eq] at he
    obtain ⟨d, hd⟩ := loc.exists_entry hi he
    exact ih i e d hi he hd fun r hr ↦ hview r (loc.used_regions_trans i d hd hr)

/-- Walks of a table of which one entry, and what is below it, may differ. -/
theorem InvAt.sameWalks_of_entry {mem mem' : M} {pt : PTDir} {layer ptr : Nat}
    (h : InvAt mem pt layer ptr) (idx : Nat)
    (hword : ∀ i, i ≠ idx → specRead mem' i pt.region = specRead mem i pt.region)
    (hsiblings : ∀ j dj, j ≠ idx → pt.entry j = some dj → ∀ r ∈ dj.usedRegions,
      regionView mem' r = regionView mem r)
    (hentry : SameEntry mem mem' layer (readEntry mem ptr layer idx)
      (readEntry mem' ptr layer idx)) :
    SameWalks mem mem' layer ptr := by
  have loc := h.loc
  apply SameWalks.of_entries loc.layer_in_range
  intro i hi
  by_cases heq : i = idx
  · rw [heq]
    exact hentry
  · have hread : readEntry mem' ptr layer i = readEntry mem ptr layer i := by
      have hi' := hword i heq
      rw [loc.region_eq] at hi'
      unfold readEntry
      rw [hi']
    rw [hread]
    apply SameEntry.same
    intro e he
    rw [loc.readEntry_eq] at he
    obtain ⟨d, hd⟩ := loc.exists_entry hi he
    exact (h.sub hi he hd).sameWalks (hsiblings i d heq hd)

end Walks

/-! ## Hidden memories -/

section Hidden

variable {M : Type} [PtMemoryOps M] [PhyAddrWidth]

/-- A memory that differs from `mem` at most in pages out of `used` and pages that are not
allocated, and that no walk from the table at `ptr` tells apart from it. -/
structure Hidden (mem : M) (used : Set MemRegion) (layer ptr : Nat) (mem' : M) : Prop where
  same_walks : SameWalks mem mem' layer ptr
  frame : ∀ r ∈ regions mem, r ∉ used → regionView mem' r = regionView mem r
  cr3_eq : cr3 mem' = cr3 mem

private theorem Hidden.refl (mem : M) (used : Set MemRegion) (layer ptr : Nat) :
    Hidden mem used layer ptr mem :=
  ⟨.refl mem layer ptr, fun _ _ _ ↦ rfl, rfl⟩

private theorem Hidden.mono {mem mem' : M} {used used' : Set MemRegion} {layer ptr : Nat}
    (h : Hidden mem used layer ptr mem') (hle : used ⊆ used') :
    Hidden mem used' layer ptr mem' where
  same_walks := h.same_walks
  frame r hr hnot := h.frame r hr fun hin ↦ hnot (hle hin)
  cr3_eq := h.cr3_eq

private theorem Hidden.symm {mem mem' : M} {used : Set MemRegion} {layer ptr : Nat}
    (h : Hidden mem used layer ptr mem') (hregions : regions mem' ⊆ regions mem) :
    Hidden mem' used layer ptr mem where
  same_walks addr w u x := (h.same_walks addr w u x).symm
  frame r hr hnot := (h.frame r (hregions hr) hnot).symm
  cr3_eq := h.cr3_eq.symm

/-- Hidden from a memory that is itself hidden. -/
theorem Hidden.trans {mem mem₁ mem₂ : M} {used used₁ : Set MemRegion} {layer ptr : Nat}
    (h : Hidden mem used layer ptr mem₁) (h' : Hidden mem₁ used₁ layer ptr mem₂)
    (hregions : ∀ r ∈ regions mem, r ∉ used → r ∈ regions mem₁ ∧ r ∉ used₁) :
    Hidden mem used layer ptr mem₂ where
  same_walks := h.same_walks.trans h'.same_walks
  frame r hr hnot := by
    obtain ⟨hr₁, hnot₁⟩ := hregions r hr hnot
    rw [h'.frame r hr₁ hnot₁, h.frame r hr hnot]
  cr3_eq := by rw [h'.cr3_eq, h.cr3_eq]

/-- What is hidden below an entry of a table is hidden from walks of the table. -/
theorem Hidden.lift {mem mem' : M} {pt : PTDir} {layer ptr idx : Nat} {e : GhostDirectory}
    {used : Set MemRegion} (h : InvAt mem pt layer ptr)
    (hview : viewAt mem pt layer idx = .directory e) (hregion : pt.region ∉ used)
    (hsiblings : ∀ j dj, j ≠ idx → pt.entry j = some dj → ∀ r ∈ dj.usedRegions, r ∉ used)
    (hhid : Hidden mem used (layer + 1) e.addr mem') : Hidden mem used layer ptr mem' where
  same_walks := by
    have hself := hhid.frame pt.region h.loc.region_mem hregion
    apply h.sameWalks_of_entry idx
    · exact fun i _ ↦ specRead_congr hself i
    · intro j dj hne hdj r hr
      exact hhid.frame r (h.loc.used_regions_subset (h.loc.used_regions_trans j dj hdj hr))
        (hsiblings j dj hne hdj r hr)
    · have hread : readEntry mem' ptr layer idx = readEntry mem ptr layer idx := by
        rw [h.loc.region_eq] at hself
        unfold readEntry
        rw [specRead_congr hself]
      rw [hread]
      apply SameEntry.same
      intro e' he
      rw [h.loc.readEntry_eq, hview, GhostPageDirectoryEntry.directory.injEq] at he
      rw [← he]
      exact hhid.same_walks
  frame := hhid.frame
  cr3_eq := hhid.cr3_eq

end Hidden

/-! ## Mapping -/

section Records

variable {M : Type} [PtMemoryOps M]

/-- Allocating a directory records one allocation. -/
theorem allocDirectory_record {s s' : Recorded M} {region : MemRegion}
    (h : allocDirectory s = some (region, s')) :
    s'.record = s.record ++ [(.allocPage, s'.mem)] := by
  unfold allocDirectory at h
  split at h
  · cases h
    rfl
  · cases h

/-- Writing an entry records one write. -/
theorem writeEntry_record {s s' : Recorded M} {pt : PTDir} {ptr i : Nat} {value : BitVec 64}
    (h : writeEntry s pt ptr i value = some s') : s'.record = s.record ++ [(.write, s'.mem)] := by
  unfold writeEntry at h
  split at h
  · cases h
    rfl
  · cases h

end Records

section Mapping

variable {M : Type} [PhyAddrWidth] [PageTableMemory M]

private theorem walkRec_start (s : Recorded M) (addr n layer ptr : Nat) (w u x : Bool) :
    walkRec (Recorded.start s.mem) addr n layer ptr w u x = walkRec s addr n layer ptr w u x := by
  induction n generalizing layer ptr w u x with
  | zero => rfl
  | succ n ih =>
    have hread : readEntry (Recorded.start s.mem) ptr layer (layerIndex layer addr) =
        readEntry s ptr layer (layerIndex layer addr) := rfl
    rw [walkRec, walkRec, hread]
    simp only [ih]

private theorem Hidden.start {s t : Recorded M} {used : Set MemRegion} {layer ptr : Nat}
    (h : Hidden s used layer ptr t) : Hidden s used layer ptr (.start t.mem) where
  same_walks addr w u x := by
    rw [walkRec_start]
    exact h.same_walks addr w u x
  frame := h.frame
  cr3_eq := h.cr3_eq

-- The subdirectory at an entry shares no page with the table and the other entries.
private theorem Hidden.lift_sub {mem mem' : M} {pt d : PTDir} {layer ptr idx : Nat}
    {e : GhostDirectory} (h : InvAt mem pt layer ptr)
    (hview : viewAt mem pt layer idx = .directory e) (hd : pt.entry idx = some d)
    (hhid : Hidden mem d.usedRegions (layer + 1) e.addr mem') :
    Hidden mem d.usedRegions layer ptr mem' := by
  apply Hidden.lift h hview (h.loc.region_notin_used_regions idx d hd) ?_ hhid
  intro j dj hne hdj r hr
  exact h.loc.used_regions_pairwise_disjoint j idx dj d r hne hdj hd hr

private theorem Hidden.of_alloc {mem mem₁ : M} {pt : PTDir} {layer ptr : Nat}
    {region : MemRegion} (h : InvAt mem pt layer ptr) (ha : AllocEnsures mem region mem₁) :
    Hidden mem pt.usedRegions layer ptr mem₁ := by
  have hview : ∀ r ∈ regions mem, regionView mem₁ r = regionView mem r := by
    intro r hr
    apply ha.view_other
    rintro rfl
    exact ha.fresh hr
  exact {
    same_walks := h.sameWalks fun r hr ↦ hview r (h.loc.used_regions_subset hr)
    frame := fun r hr _ ↦ hview r hr
    cr3_eq := ha.cr3_eq }

-- Linking a zeroed directory in at an entry that is not present is hidden.
private theorem Hidden.of_insert {mem mem₁ mem₂ : M} {pt : PTDir} {layer ptr idx : Nat}
    {region : MemRegion} {word : BitVec 64} (h : InvAt mem pt layer ptr) (hlayer : layer < 3)
    (hview : viewAt mem pt layer idx = .empty)
    (ha : AllocEnsures mem region mem₁) (hw : WriteEnsures mem₁ idx pt.region word mem₂)
    (ins : InsertEnsures mem pt layer ptr idx region mem₂) :
    Hidden mem pt.usedRegions layer ptr mem₂ := by
  have hne : ∀ r ∈ regions mem, r ≠ region := by
    rintro r hr rfl
    exact ins.fresh hr
  have hframe : ∀ r ∈ regions mem, r ≠ pt.region → regionView mem₂ r = regionView mem r :=
    fun r hr hpt ↦ ins.frame r hpt (hne r hr)
  refine ⟨?_, ?_, ins.cr3_eq⟩
  · apply h.sameWalks_of_entry idx
    · intro i hi
      unfold specRead
      rw [hw.view_eq, ha.view_other _ (hne _ h.loc.region_mem), List.getD_eq_getElem?_getD,
        List.getElem?_set_ne (Ne.symm hi), List.getD_eq_getElem?_getD]
    · intro j dj _ hdj r hr
      apply hframe r (h.loc.used_regions_subset (h.loc.used_regions_trans j dj hdj hr))
      rintro rfl
      exact h.loc.region_notin_used_regions j dj hdj hr
    · obtain ⟨e, hnew, haddr⟩ := ins.view_eq
      have hnext : layer + 1 < x86NumLayers := by
        change layer + 1 < 4
        omega
      have hloc := ins.new_dir_inv.loc
      have hzero : regionView mem₂ region = List.replicate x86NumEntries 0#64 := by
        rw [hw.view_other region (Ne.symm (hne _ h.loc.region_mem))]
        exact ha.view_new
      obtain ⟨_, hempty⟩ := InvAt.zeroed hnext hloc.mem_inv hloc.region_mem hloc.ptr_aligned
        hloc.region_size hzero
      apply SameEntry.nowhere
      · rw [h.loc.readEntry_eq]
        exact .inl hview
      · rw [ins.inv.loc.readEntry_eq]
        refine .inr ⟨e, hnew, fun i hi ↦ ?_⟩
        rw [haddr, hloc.readEntry_eq]
        exact hempty i hi
  · intro r hr hnot
    apply hframe r hr
    rintro rfl
    exact hnot h.loc.used_regions_refl

-- What is hidden in the new directory is hidden in the tree it was linked into.
private theorem Hidden.of_insert_sub {mem mem₂ mem' : M} {pt : PTDir}
    {layer ptr idx : Nat} {region : MemRegion} (h : InvAt mem pt layer ptr)
    (hidx : idx < x86NumEntries) (ins : InsertEnsures mem pt layer ptr idx region mem₂)
    (hhid : Hidden mem pt.usedRegions layer ptr mem₂)
    (hsub : Hidden mem₂ (PTDir.empty region).usedRegions (layer + 1) region.base mem') :
    Hidden mem pt.usedRegions layer ptr mem' := by
  obtain ⟨e, hnew, haddr⟩ := ins.view_eq
  rw [← haddr] at hsub
  apply hhid.trans (hsub.lift_sub ins.inv hnew (withEmpty_entry h hidx region))
  intro r hr _
  refine ⟨by rw [ins.regions_eq]; exact .inr hr, ?_⟩
  rintro rfl
  exact ins.fresh hr

/-- Everything `map_frame_aux` does to memory before its last write is hidden. -/
theorem MapRun.record {s s' : Recorded M} {pt ptRes : PTDir} {layer ptr base vaddr : Nat}
    {pte : PageTableEntry} {newRegions : Set MemRegion}
    (run : MapRun vaddr pte s pt layer ptr base (.ok (ptRes, newRegions)) s') :
    ∃ before, s'.record = s.record ++ before ++ [(.write, s'.mem)] ∧
      ∀ p ∈ before, Hidden s pt.usedRegions layer ptr (.start p.2) := by
  generalize hres : Except.ok (ptRes, newRegions) = res at run
  induction run generalizing ptRes newRegions with
  | occupied => cases hres
  | directoryRefused => cases hres
  | page h hview hsize hwrite hw =>
    refine ⟨[], ?_, ?_⟩
    · rw [List.append_nil]
      exact writeEntry_record hwrite
    · intro p hp
      cases hp
  | directory h hsize hview hd sub ih =>
    obtain ⟨before, hrecord, hbefore⟩ := ih rfl
    have htrans := h.inv.loc.used_regions_trans _ _ hd
    exact ⟨before, hrecord, fun p hp ↦ ((hbefore p hp).lift_sub h.inv hview hd).mono htrans⟩
  | @insert s s₁ s₂ s' pt dRes layer ptr base region new h hsize hview halloc ha hwrite hw ins _
      ih =>
    obtain ⟨before, hrecord, hbefore⟩ := ih rfl
    have hhid := Hidden.of_insert h.inv (h.layer_lt hsize) hview ha hw ins
    refine ⟨[(.allocPage, s₁.mem), (.write, s₂.mem)] ++ before, ?_, ?_⟩
    · rw [hrecord, writeEntry_record hwrite, allocDirectory_record halloc]
      simp only [List.append_assoc]
      rfl
    · intro p hp
      rcases List.mem_append.mp hp with hp | hp
      · rcases List.mem_cons.mp hp with rfl | hp
        · exact (Hidden.of_alloc h.inv ha).start
        · rw [List.mem_singleton.mp hp]
          exact hhid.start
      · exact Hidden.of_insert_sub h.inv h.index_lt ins hhid (hbefore p hp)

end Mapping

/-! ## Unmapping -/

section Unmapping

variable {M : Type} [PhyAddrWidth] [PageTableMemory M]

private theorem UnmapAuxEnsures.viewAt_eq {mem mem₁ : M} {pt d dRes : PTDir}
    {layer ptr base vaddr idx : Nat} {e : GhostDirectory} {removedRegions : Set MemRegion}
    (h : InvAt mem pt layer ptr) (hview : viewAt mem pt layer idx = .directory e)
    (hd : pt.entry idx = some d)
    (hens : UnmapAuxEnsures mem d (layer + 1) e.addr base vaddr dRes removedRegions mem₁) :
    viewAt mem₁ pt layer idx = .directory e := by
  unfold viewAt entryAtSpec
  rw [specRead_congr (hens.frame pt.region (h.loc.region_notin_used_regions idx d hd))]
  exact hview

-- A call in a subdirectory that is kept changes nothing else of the table.
private theorem Hidden.lift_kept {mem mem₁ mem' : M} {pt d dRes : PTDir}
    {layer ptr base vaddr : Nat}
    {idx : Nat} {e : GhostDirectory} {removedRegions : Set MemRegion}
    (h : InvAt mem pt layer ptr) (hidx : idx < x86NumEntries)
    (hview : viewAt mem pt layer idx = .directory e) (hd : pt.entry idx = some d)
    (hens : UnmapAuxEnsures mem d (layer + 1) e.addr (x86Arch.entryBase layer base idx) vaddr dRes
      removedRegions mem₁) (hhid : Hidden mem₁ d.usedRegions (layer + 1) e.addr mem') :
    Hidden mem₁ d.usedRegions layer ptr mem' := by
  have hself := h.loc.region_notin_used_regions idx d hd
  have hview' : viewAt mem₁ pt layer idx = .directory e := hens.viewAt_eq h hview hd
  apply Hidden.lift (hens.lift h hidx hview hd).inv hview' hself ?_ hhid
  intro j dj hne hdj r hr
  have hlen : idx < pt.entries.length := by
    rw [h.loc.entries_length]
    exact hidx
  rw [PTDir.entry_set _ hlen, if_neg hne] at hdj
  exact h.loc.used_regions_pairwise_disjoint j idx dj d r hne hdj hd hr

private theorem Hidden.of_dealloc {mem mem' : M} {pt : PTDir} {layer ptr : Nat}
    {used : Set MemRegion} {region : MemRegion} (h : InvAt mem' pt layer ptr)
    (hf : DeallocEnsures mem region mem') : Hidden mem' used layer ptr mem := by
  have hview : ∀ r ∈ regions mem', regionView mem r = regionView mem' r := by
    intro r hr
    rw [hf.regions_eq] at hr
    exact (hf.view_other r hr.2).symm
  exact {
    same_walks := h.sameWalks fun r hr ↦ hview r (h.loc.used_regions_subset hr)
    frame := fun r hr _ ↦ hview r hr
    cr3_eq := hf.cr3_eq.symm }

private theorem Hidden.of_unlink {mem mem₂ : M} {pt dRes : PTDir} {layer ptr idx base : Nat}
    {e : GhostDirectory} (h : InvAt mem pt layer ptr) (hidx : idx < x86NumEntries)
    (hview : viewAt mem pt layer idx = .directory e) (hd : pt.entry idx = some dRes)
    (hempty : (interpAt mem dRes (layer + 1) base).Empty)
    (hw : WriteEnsures mem idx pt.region 0 mem₂) :
    Hidden mem pt.usedRegions layer ptr mem₂ := by
  have hloc := h.loc
  have hsub := (h.sub hidx hview hd).loc
  have hframe : ∀ r ∈ regions mem, r ≠ pt.region → regionView mem₂ r = regionView mem r :=
    fun r _ hne ↦ hw.view_other r hne
  have hlen : idx < (regionView mem pt.region).length := by
    rw [hloc.view_length, hloc.entries_length]
    exact hidx
  refine ⟨?_, ?_, hw.cr3_eq⟩
  · apply h.sameWalks_of_entry idx
    · intro i hi
      unfold specRead
      rw [hw.view_eq, Table.getD_set _ _ _ hlen, if_neg hi]
    · intro j dj _ hdj r hr
      apply hw.view_other
      rintro rfl
      exact hloc.region_notin_used_regions j dj hdj hr
    · apply SameEntry.nowhere
      · rw [hloc.readEntry_eq]
        refine .inr ⟨e, hview, fun i hi ↦ ?_⟩
        rw [hsub.readEntry_eq]
        apply (hsub.interpAt_isEmpty hi base).mp
        apply hempty
        rw [interpAt_numEntries _ _ _ hsub.layer_in_range]
        exact hi
      · left
        unfold readEntry specRead
        rw [← hloc.region_eq, hw.view_eq, Table.getD_set _ _ _ hlen, if_pos rfl]
        exact (PageDirectoryEntry.zero_entry_facts layer).1
  · intro r _ hnot
    apply hw.view_other
    rintro rfl
    exact hnot hloc.used_regions_refl

/-- Everything `unmap_aux` does to memory after its first write is hidden. -/
theorem UnmapRun.record {s s' : Recorded M} {pt ptRes : PTDir} {layer ptr base vaddr : Nat}
    {removedRegions : Set MemRegion}
    (run : UnmapRun vaddr s pt layer ptr base (.ok (ptRes, removedRegions)) s') :
    ∃ m after, s'.record = s.record ++ (.write, m) :: after ∧
      ∀ p ∈ (MemOp.write, m) :: after, Hidden s' pt.usedRegions layer ptr (.start p.2) := by
  generalize hres : Except.ok (ptRes, removedRegions) = res at run
  induction run generalizing ptRes removedRegions with
  | absent => cases hres
  | directoryRefused => cases hres
  | @page s' pt layer ptr base p h hview hal hwrite hw =>
    refine ⟨s'.mem, [], writeEntry_record hwrite, fun p hp ↦ ?_⟩
    rw [List.mem_singleton.mp hp]
    exact (Hidden.refl s' _ _ _).start
  | kept h hview hd sub hempty ih =>
    obtain ⟨m, after, hrecord, hafter⟩ := ih rfl
    have htrans := h.inv.loc.used_regions_trans _ _ hd
    refine ⟨m, after, hrecord, fun p hp ↦ ?_⟩
    exact (Hidden.lift_kept h.inv h.index_lt hview hd sub.outcome.1 (hafter p hp)).mono htrans
  | @emptied s₁ s₂ pt d dRes layer ptr base e removed h hview hd sub hempty hwrite hw hf ih =>
    obtain ⟨m, after, hrecord, hafter⟩ := ih rfl
    have hens := sub.outcome.1
    have hlen : x86Arch.indexForVaddr layer base vaddr < pt.entries.length := by
      rw [h.inv.loc.entries_length]
      exact h.index_lt
    have hkept := (hens.lift h.inv h.index_lt hview hd).inv
    have hfinal := (UnmapRun.emptied h hview hd sub hempty hwrite hw hf).outcome.1.inv
    -- backwards from the end: before the page was freed, and before its entry was cleared
    have hfree : Hidden (deallocPage s₂ dRes.region) pt.usedRegions layer ptr s₂ :=
      .of_dealloc hfinal hf
    have hunlink : Hidden s₂ (pt.usedRegions \ removed) layer ptr s₁ := by
      have hview' : viewAt s₁ pt layer (x86Arch.indexForVaddr layer base vaddr) = .directory e :=
        hens.viewAt_eq h.inv hview hd
      apply Hidden.symm (.of_unlink hkept h.index_lt hview' ?_ hempty hw) hw.regions_eq.subset
      rw [PTDir.entry_set _ hlen, if_pos rfl]
    have hback : Hidden (deallocPage s₂ dRes.region) pt.usedRegions layer ptr s₁ := by
      apply hfree.trans hunlink
      intro r hr hnot
      rw [hf.regions_eq] at hr
      exact ⟨hr.1, fun hin ↦ hnot hin.1⟩
    have hsub : ∀ p ∈ (MemOp.write, m) :: after,
        Hidden (deallocPage s₂ dRes.region) pt.usedRegions layer ptr (.start p.2) := by
      intro p hp
      apply hback.trans (Hidden.lift_kept h.inv h.index_lt hview hd hens (hafter p hp))
      intro r hr hnot
      rw [hf.regions_eq, hw.regions_eq] at hr
      exact ⟨hr.1, fun hin ↦ hnot (h.inv.loc.used_regions_trans _ _ hd hin)⟩
    refine ⟨m,
      after ++ [(.write, s₂.mem), (.deallocPage, (deallocPage s₂ dRes.region).mem)], ?_, ?_⟩
    · change s₂.record ++ [(.deallocPage, (deallocPage s₂ dRes.region).mem)] = _
      rw [writeEntry_record hwrite, hrecord]
      simp only [List.append_assoc]
      rfl
    · intro p hp
      rw [← List.cons_append] at hp
      rcases List.mem_append.mp hp with hp | hp
      · exact hsub p hp
      · rcases List.mem_cons.mp hp with rfl | hp
        · exact hfree.start
        · rw [List.mem_singleton.mp hp]
          exact (Hidden.refl _ _ _ _).start

end Unmapping

/-! ## Whole calls -/

section Calls

variable {M : Type} [PhyAddrWidth] [PageTableMemory M] {mem : M} {pt : PTDir} {vaddr : Nat}

private theorem Hidden.interpPtMem_eq {s : Recorded M} {m : M} {used : Set MemRegion}
    (h : Hidden s used 0 (cr3 s).base (.start m)) : interpPtMem m = interpPtMem s.mem :=
  h.same_walks.interpPtMem_eq h.cr3_eq

/-- The last operation of a successful `map_frame` is a write that adds the mapping to the view
of the MMU; writes and allocations before it leave the view unchanged. -/
def MapsInOneWrite (mem : M) (pt : PTDir) (vaddr : Nat) (pte : PageTableEntry) : Prop :=
  ∃ result mem' pt' record, mapFrame mem pt vaddr pte = some (result, mem', pt') ∧
    mapFrame (Recorded.start mem) pt vaddr pte = some (result, ⟨mem', record⟩, pt') ∧
    (result = .ok () → ∃ before, record = before ++ [(.write, mem')] ∧
      (∀ p ∈ before, interpPtMem p.2 = interpPtMem mem) ∧
      ¬candidateMappingOverlapsExistingVmem (interpPtMem mem) vaddr pte ∧
      interpPtMem mem' = (interpPtMem mem).insert vaddr pte) ∧
    (result = .error () → record = [])

/-- The first operation of a successful `unmap` is a write that removes the mapping from the
view of the MMU; writes and deallocations after it leave the view unchanged. -/
def UnmapsInOneWrite (mem : M) (pt : PTDir) (vaddr : Nat) : Prop :=
  ∃ result mem' pt' record, unmap mem pt vaddr = some (result, mem', pt') ∧
    unmap (Recorded.start mem) pt vaddr = some (result, ⟨mem', record⟩, pt') ∧
    (result = .ok () → ∃ m after, record = (.write, m) :: after ∧
      (interpPtMem mem vaddr).isSome ∧ interpPtMem m = (interpPtMem mem).remove vaddr ∧
      ∀ p ∈ after, interpPtMem p.2 = interpPtMem m) ∧
    (result = .error () → record = [])

/-- `map_frame` with a record of its memory operations. -/
theorem mapFrame_in_one_write {pte : PageTableEntry} (hinv : PT.Inv mem pt)
    (hinterp : (PT.interp mem pt).Inv) (hpages : 3 ≤ allocAvailablePages mem)
    (hpte : AcceptedMapping pte) (ha : (PT.interp mem pt).AcceptedMapping vaddr pte)
    (hmax : vaddr < maxBase) : MapsInOneWrite mem pt vaddr pte := by
  obtain ⟨result, mem', pt', hspec, hens⟩ := mapFrame_spec hinv hinterp hpages hpte ha hmax
  rcases mapFrame_run_recorded hinv hinterp hpages hpte ha hmax with
    ⟨ptRes, newRegions, s', hcall, hspec', hrun⟩ | ⟨hcall, hspec'⟩
  · cases hspec.symm.trans hspec'
    obtain ⟨before, hrecord, hbefore⟩ := hrun.record
    have hno : ¬candidateMappingOverlapsExistingVmem (SpecPt.interp ⟨mem⟩) vaddr pte := by
      intro hov
      cases (hens.step.1 hov).1
    refine ⟨_, _, _, s'.record, hspec, hcall, fun _ ↦ ⟨before, hrecord, ?_, ?_⟩, fun h ↦ ?_⟩
    · exact fun p hp ↦ (hbefore p hp).interpPtMem_eq
    · exact ⟨hno, (hens.step.2 hno).2⟩
    · cases h
  · cases hspec.symm.trans hspec'
    refine ⟨_, _, _, [], hspec, hcall, fun h ↦ ?_, fun _ ↦ rfl⟩
    cases h

/-- `unmap` with a record of its memory operations. -/
theorem unmap_in_one_write (hinv : PT.Inv mem pt) (hinterp : (PT.interp mem pt).Inv)
    (ha : (PT.interp mem pt).AcceptedUnmap vaddr) (hmax : vaddr < maxBase) :
    UnmapsInOneWrite mem pt vaddr := by
  obtain ⟨result, mem', pt', hspec, hens⟩ := unmap_spec hinv hinterp ha hmax
  rcases unmap_run_recorded hinv hinterp ha hmax with
    ⟨ptRes, removedRegions, s', hcall, hspec', hrun⟩ | ⟨hcall, hspec'⟩
  · cases hspec.symm.trans hspec'
    obtain ⟨m, after, hrecord, hafter⟩ := hrun.record
    rw [← hrun.outcome.1.cr3_eq] at hafter
    have hview : (interpPtMem mem vaddr).isSome ∧
        interpPtMem s'.mem = (interpPtMem mem).remove vaddr := by
      have hstep := hens.step
      unfold SpecPt.stepUnmapStart at hstep
      split at hstep
      · exact ⟨by assumption, hstep.2⟩
      · cases hstep.1
    have hfirst : interpPtMem m = interpPtMem s'.mem :=
      (hafter _ List.mem_cons_self).interpPtMem_eq
    refine ⟨_, _, _, s'.record, hspec, hcall, fun _ ↦ ⟨m, after, hrecord, hview.1, ?_, ?_⟩,
      fun h ↦ ?_⟩
    · rw [hfirst, hview.2]
    · intro p hp
      rw [hfirst]
      exact (hafter p (List.mem_cons_of_mem _ hp)).interpPtMem_eq
    · cases h
  · cases hspec.symm.trans hspec'
    refine ⟨_, _, _, [], hspec, hcall, fun h ↦ ?_, fun _ ↦ rfl⟩
    cases h

end Calls

/-! ## Main results -/

/-- Updates of the page table are single writes to the MMU: of all the memories a call goes
through, one write separates those with the old view from those with the new one. -/
theorem updates_are_single_writes {M : Type} [PhyAddrWidth] [PageTableMemory M] (mem : M)
    (pt : PTDir) (hinv : PT.Inv mem pt) (hinterp : (PT.interp mem pt).Inv) :
    (∀ vaddr pte, 3 ≤ allocAvailablePages mem → AcceptedMapping pte →
      (PT.interp mem pt).AcceptedMapping vaddr pte → vaddr < maxBase →
      MapsInOneWrite mem pt vaddr pte) ∧
    (∀ vaddr, (PT.interp mem pt).AcceptedUnmap vaddr → vaddr < maxBase →
      UnmapsInOneWrite mem pt vaddr) := by
  constructor
  · intro vaddr pte hpages hpte ha hmax
    exact mapFrame_in_one_write hinv hinterp hpages hpte ha hmax
  · intro vaddr ha hmax
    exact unmap_in_one_write hinv hinterp ha hmax

attribute [local instance] widePhyAddr in
/-- The first small page is mapped, and unmapped, by one visible write. -/
theorem updates_are_single_writes_small_page :
    MapsInOneWrite BumpMemory.initial rootDir 0x3000 smallPage ∧
    ∃ (mem : BumpMemory) (pt : PTDir), interpPtMem mem 0x3000 = some smallPage ∧
      UnmapsInOneWrite mem pt 0x3000 := by
  obtain ⟨hinv, hinterp, _⟩ := SpecPt.Init.tree BumpMemory.initial_init
  obtain ⟨mem, pt, hinv', hinterp', hmap⟩ := exists_mapped
  constructor
  · exact (updates_are_single_writes _ _ hinv hinterp).1 0x3000 smallPage (by decide)
      smallPage_accepted (smallPage_acceptedMapping _ _) (by decide)
  · exact ⟨mem, pt, by rw [hmap, PMap.insert_self],
      (updates_are_single_writes mem pt hinv' hinterp').2 0x3000 (acceptedUnmap_smallPage mem pt)
        (by decide)⟩

end NrKernel.PageTable
