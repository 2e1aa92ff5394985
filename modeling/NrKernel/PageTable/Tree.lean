import NrKernel.PageTable.DirectoryOps
import NrKernel.PageTable.Hardware

/-!
# Directory trees stored in memory

The invariant that ties raw table words to the ghost tree of directory pages, and the
directory tree they represent (`PTDir`, `inv_at`, `interp_at` of `impl_u/l2_impl.rs`).
Two rules carry the proofs about updates: `InvAt.frame` for memories that agree on the
pages of a tree, and `InvAt.update` for the replacement of one entry of one table.
-/

namespace NrKernel.PageTable

open Lib Lib.WordBits PtMemory

/-- `PTDir` (`impl_u/l2_impl.rs:503–510`): the pages in which a directory and its
subdirectories are stored. -/
structure PTDir where
  region : MemRegion
  entries : List (Option PTDir)
  usedRegions : Set MemRegion

/-- The subdirectory at an index, `pt.entries[i]`; none outside the directory. -/
def PTDir.entry (pt : PTDir) (i : Nat) : Option PTDir := pt.entries.getD i none

/-- The ghost directory of a zeroed page (`impl_u/l2_impl.rs:1776–1781`). -/
def PTDir.empty (region : MemRegion) : PTDir where
  region := region
  entries := List.replicate x86NumEntries none
  usedRegions := {region}

/-- A new directory has no subdirectories. -/
theorem PTDir.entry_empty (region : MemRegion) (i : Nat) : (PTDir.empty region).entry i = none := by
  exact Table.getD_replicate_default _ _ i

/-- The subdirectories after one was replaced. -/
theorem PTDir.entry_set (pt : PTDir) {idx : Nat} (hidx : idx < pt.entries.length)
    (sub : Option PTDir) (region : MemRegion) (usedRegions : Set MemRegion) (i : Nat) :
    PTDir.entry ⟨region, pt.entries.set idx sub, usedRegions⟩ i =
      if i = idx then sub else pt.entry i :=
  Table.getD_set _ _ _ hidx _

/-- `hp_pat_is_zero` (`impl_u/l2_impl.rs:114–117`). -/
def PageDirectoryEntry.HpPatIsZero [PhyAddrWidth] (e : PageDirectoryEntry) : Prop :=
  (e.view.isPage = true ∧ e.layer = 1 → e.entry &&& maskPgFlagPAT = 0) ∧
  (e.view.isPage = true ∧ e.layer = 2 → e.entry &&& maskPgFlagPAT = 0)

variable {M : Type} [PtMemoryOps M] [PhyAddrWidth]

/-- `entry_at_spec` (`impl_u/l2_impl.rs:524–529`). -/
def entryAtSpec (mem : M) (pt : PTDir) (layer i : Nat) : PageDirectoryEntry :=
  ⟨specRead mem i pt.region, layer⟩

/-- `view_at` (`impl_u/l2_impl.rs:532–537`). -/
def viewAt (mem : M) (pt : PTDir) (layer i : Nat) : GhostPageDirectoryEntry :=
  (entryAtSpec mem pt layer i).view

/-- The conjuncts of `inv_at` about one table (`impl_u/l2_impl.rs:591–655`). -/
structure LocalInvAt (mem : M) (pt : PTDir) (layer ptr : Nat) : Prop where
  ptr_aligned : aligned ptr pageSize
  mem_inv : PtMemory.Inv mem
  region_mem : pt.region ∈ regions mem
  region_base : pt.region.base = ptr
  region_size : pt.region.size = pageSize
  view_length : (regionView mem pt.region).length = pt.entries.length
  layer_in_range : layer < x86NumLayers
  entries_length : pt.entries.length = x86NumEntries
  directories_have_flags : ∀ i, i < x86NumEntries → ∀ e, viewAt mem pt layer i = .directory e →
    e.flagRW = true ∧ e.flagUS = true ∧ e.flagXD = false
  ghost_pt_matches_structure : ∀ i, i < x86NumEntries →
    (viewAt mem pt layer i).isDirectory = (pt.entry i).isSome
  /-- `ghost_pt_used_regions_rtrancl`, reflexive part -/
  used_regions_refl : pt.region ∈ pt.usedRegions
  /-- `ghost_pt_used_regions_rtrancl`, transitive part -/
  used_regions_trans : ∀ i d, pt.entry i = some d → d.usedRegions ⊆ pt.usedRegions
  used_regions_pairwise_disjoint : ∀ i j di dj r, i ≠ j → pt.entry i = some di →
    pt.entry j = some dj → r ∈ di.usedRegions → r ∉ dj.usedRegions
  region_notin_used_regions : ∀ i d, pt.entry i = some d → pt.region ∉ d.usedRegions
  used_regions_subset : pt.usedRegions ⊆ regions mem
  hp_pat_is_zero : ∀ i, i < x86NumEntries → (entryAtSpec mem pt layer i).HpPatIsZero
  entry_mb0_bits_are_zero : ∀ i, i < x86NumEntries →
    (entryAtSpec mem pt layer i).allMb0BitsAreZero = true

/-- `inv_at` (`impl_u/l2_impl.rs:591–613`); the recursive constructor argument is
`directories_obey_invariant_at`. -/
inductive InvAt (mem : M) : PTDir → Nat → Nat → Prop where
  | intro {pt : PTDir} {layer ptr : Nat} (loc : LocalInvAt mem pt layer ptr)
      (sub : ∀ i e d, i < x86NumEntries → viewAt mem pt layer i = .directory e →
        pt.entry i = some d → InvAt mem d (layer + 1) e.addr) : InvAt mem pt layer ptr

/-- `PT::inv` (`impl_u/l2_impl.rs:518–521`). -/
def PT.Inv (mem : M) (pt : PTDir) : Prop := pt.region = cr3 mem ∧ InvAt mem pt 0 (cr3 mem).base

/-- `interp_at` over the layers that are left. -/
def interpAtRec (mem : M) : Nat → PTDir → Nat → Nat → Directory
  | 0, _, layer, baseVaddr => ⟨[], layer, baseVaddr, x86Arch, permissiveFlags⟩
  | n + 1, pt, layer, baseVaddr =>
    { entries := (List.range x86NumEntries).map fun idx ↦
        match viewAt mem pt layer idx, pt.entry idx with
        | .directory _, some d =>
          .directory (interpAtRec mem n d (layer + 1) (x86Arch.entryBase layer baseVaddr idx))
        | .directory _, none => .empty
        | .page p, _ =>
          .page {
            frame := ⟨p.addr, x86Arch.entrySize layer⟩
            flags := {
              isWritable := p.flagRW
              isSupervisor := !p.flagUS
              disableExecute := p.flagXD } }
        | .empty, _ => .empty
      layer := layer
      baseVaddr := baseVaddr
      arch := x86Arch
      flags := permissiveFlags }

/-- `interp_at` (`impl_u/l2_impl.rs:658–670`): the directory tree stored at a table. -/
def interpAt (mem : M) (pt : PTDir) (layer baseVaddr : Nat) : Directory :=
  interpAtRec mem (x86NumLayers - layer) pt layer baseVaddr

/-- The node a table word and its ghost subdirectory represent in the entry that starts at
`entryBase` (`interp_at_entry`, `impl_u/l2_impl.rs:672–694`). -/
def interpWord (mem : M) (e : PageDirectoryEntry) (sub : Option PTDir) (entryBase : Nat) :
    NodeEntry :=
  match e.view, sub with
  | .directory _, some d => .directory (interpAt mem d (e.layer + 1) entryBase)
  | .directory _, none => .empty
  | .page p, _ =>
    .page {
      frame := ⟨p.addr, x86Arch.entrySize e.layer⟩
      flags := {
        isWritable := p.flagRW
        isSupervisor := !p.flagUS
        disableExecute := p.flagXD } }
  | .empty, _ => .empty

/-- The word of a directory is interpreted as its subtree. -/
theorem interpWord_directory (mem : M) {e : PageDirectoryEntry} {x : GhostDirectory}
    (h : e.view = .directory x) (d : PTDir) (base : Nat) :
    interpWord mem e (some d) base = .directory (interpAt mem d (e.layer + 1) base) := by
  unfold interpWord
  rw [h]

/-- The word of a page is interpreted as that page. -/
theorem interpWord_page (mem : M) {e : PageDirectoryEntry} {p : GhostPage}
    (h : e.view = .page p) (sub : Option PTDir) (base : Nat) :
    interpWord mem e sub base =
      .page ⟨⟨p.addr, x86Arch.entrySize e.layer⟩, ⟨p.flagRW, !p.flagUS, p.flagXD⟩⟩ := by
  unfold interpWord
  rw [h]

/-- A word that maps nothing is interpreted as an empty entry. -/
theorem interpWord_empty (mem : M) {e : PageDirectoryEntry} (h : e.view = .empty)
    (sub : Option PTDir) (base : Nat) : interpWord mem e sub base = .empty := by
  unfold interpWord
  rw [h]

/-- `PT::interp` (`impl_u/l2_impl.rs:706–708`). -/
def PT.interp (mem : M) (pt : PTDir) : Directory := interpAt mem pt 0 0

/-! ## Unfolding -/

/-- A table satisfies its own part of the invariant. -/
theorem InvAt.loc {mem : M} {pt : PTDir} {layer ptr : Nat} (h : InvAt mem pt layer ptr) :
    LocalInvAt mem pt layer ptr := by
  cases h with
  | intro loc sub => exact loc

/-- The tables below a table satisfy the invariant. -/
theorem InvAt.sub {mem : M} {pt d : PTDir} {layer ptr i : Nat} {e : GhostDirectory}
    (h : InvAt mem pt layer ptr) (hi : i < x86NumEntries)
    (hview : viewAt mem pt layer i = .directory e) (hd : pt.entry i = some d) :
    InvAt mem d (layer + 1) e.addr := by
  cases h with
  | intro loc sub => exact sub i e d hi hview hd

/-- The ghost subdirectory of a directory entry. -/
theorem LocalInvAt.exists_entry {mem : M} {pt : PTDir} {layer ptr i : Nat} {e : GhostDirectory}
    (h : LocalInvAt mem pt layer ptr) (hi : i < x86NumEntries)
    (hview : viewAt mem pt layer i = .directory e) : ∃ d, pt.entry i = some d := by
  have hmatch := h.ghost_pt_matches_structure i hi
  rw [hview] at hmatch
  exact Option.isSome_iff_exists.mp hmatch.symm

/-- A page or an empty entry has no subdirectory. -/
theorem LocalInvAt.entry_eq_none_of_view {mem : M} {pt : PTDir} {layer ptr i : Nat}
    (h : LocalInvAt mem pt layer ptr) (hi : i < x86NumEntries)
    (hview : (viewAt mem pt layer i).isDirectory = false) : pt.entry i = none := by
  have hmatch := h.ghost_pt_matches_structure i hi
  rw [hview] at hmatch
  exact Option.isNone_iff_eq_none.mp (Option.isSome_eq_false_iff.mp hmatch.symm)

/-- Only indices below 512 have a subdirectory. -/
theorem LocalInvAt.entry_lt {mem : M} {pt d : PTDir} {layer ptr i : Nat}
    (h : LocalInvAt mem pt layer ptr) (hd : pt.entry i = some d) : i < x86NumEntries := by
  rw [← h.entries_length]
  have hne : pt.entry i ≠ none := by
    rw [hd]
    exact Option.some_ne_none d
  exact Table.lt_length_of_getD_ne hne

/-- The interpretation of a table is at its layer. -/
@[simp] theorem interpAtRec_layer (mem : M) (n : Nat) (pt : PTDir) (layer base : Nat) :
    (interpAtRec mem n pt layer base).layer = layer := by
  cases n <;> rfl

/-- The interpretation of a table starts at its base. -/
@[simp] theorem interpAtRec_baseVaddr (mem : M) (n : Nat) (pt : PTDir) (layer base : Nat) :
    (interpAtRec mem n pt layer base).baseVaddr = base := by
  cases n <;> rfl

/-- The interpretation of a table has the architecture of the machine. -/
@[simp] theorem interpAtRec_arch (mem : M) (n : Nat) (pt : PTDir) (layer base : Nat) :
    (interpAtRec mem n pt layer base).arch = x86Arch := by
  cases n <;> rfl

/-- The interpretation of a table is at its layer. -/
@[simp] theorem interpAt_layer (mem : M) (pt : PTDir) (layer base : Nat) :
    (interpAt mem pt layer base).layer = layer := interpAtRec_layer mem _ pt layer base

/-- The interpretation of a table starts at its base. -/
@[simp] theorem interpAt_baseVaddr (mem : M) (pt : PTDir) (layer base : Nat) :
    (interpAt mem pt layer base).baseVaddr = base := interpAtRec_baseVaddr mem _ pt layer base

/-- The interpretation of a table has the architecture of the machine. -/
@[simp] theorem interpAt_arch (mem : M) (pt : PTDir) (layer base : Nat) :
    (interpAt mem pt layer base).arch = x86Arch := interpAtRec_arch mem _ pt layer base

/-- The entries of an interpreted table have the size of the layer. -/
@[simp] theorem interpAt_entrySize (mem : M) (pt : PTDir) (layer base : Nat) :
    (interpAt mem pt layer base).entrySize = x86Arch.entrySize layer := by
  rw [Directory.entrySize, interpAt_arch, interpAt_layer]

/-- The entries of an interpreted table start where those of the layer do. -/
@[simp] theorem interpAt_entryBase (mem : M) (pt : PTDir) (layer base idx : Nat) :
    (interpAt mem pt layer base).entryBase idx = x86Arch.entryBase layer base idx := by
  rw [Directory.entryBase, interpAt_arch, interpAt_layer, interpAt_baseVaddr]

/-- An interpreted table selects entries as the layer does. -/
@[simp] theorem interpAt_indexForVaddr (mem : M) (pt : PTDir) (layer base vaddr : Nat) :
    (interpAt mem pt layer base).indexForVaddr vaddr = x86Arch.indexForVaddr layer base vaddr := by
  rw [Directory.indexForVaddr, interpAt_arch, interpAt_layer, interpAt_baseVaddr]

/-- An interpreted table has all 512 entries. -/
theorem interpAt_numEntries (mem : M) (pt : PTDir) {layer : Nat} (base : Nat)
    (h : layer < x86NumLayers) : (interpAt mem pt layer base).numEntries = x86NumEntries := by
  rw [Directory.numEntries, interpAt_arch, interpAt_layer]
  exact x86Arch_numEntries h

/-- The directory stored at a table, entry by entry. -/
theorem interpAt_eq (mem : M) (pt : PTDir) {layer : Nat} (base : Nat) (h : layer < x86NumLayers) :
    interpAt mem pt layer base =
      { entries := (List.range x86NumEntries).map fun idx ↦
          interpWord mem (entryAtSpec mem pt layer idx) (pt.entry idx)
            (x86Arch.entryBase layer base idx)
        layer := layer
        baseVaddr := base
        arch := x86Arch
        flags := permissiveFlags } := by
  obtain ⟨n, hn⟩ : ∃ n, x86NumLayers - layer = n + 1 :=
    ⟨x86NumLayers - layer - 1, by omega⟩
  have hnext : n = x86NumLayers - (layer + 1) := by omega
  unfold interpAt
  rw [hn, interpAtRec, hnext]
  rfl

private theorem interpAt_entry (mem : M) (pt : PTDir) {layer : Nat} (base : Nat)
    (h : layer < x86NumLayers) {i : Nat} (hi : i < x86NumEntries) :
    (interpAt mem pt layer base).entry i =
      interpWord mem (entryAtSpec mem pt layer i) (pt.entry i)
        (x86Arch.entryBase layer base i) := by
  rw [interpAt_eq mem pt base h]
  unfold Directory.entry
  rw [List.getD_eq_getElem?_getD, List.getElem?_map, List.getElem?_range hi]
  rfl

/-- An entry that refers to a directory is interpreted as its subtree. -/
theorem LocalInvAt.interpAt_directory {mem : M} {pt d : PTDir} {layer ptr i : Nat}
    {e : GhostDirectory} (h : LocalInvAt mem pt layer ptr) (hi : i < x86NumEntries)
    (hview : viewAt mem pt layer i = .directory e) (hd : pt.entry i = some d) (base : Nat) :
    (interpAt mem pt layer base).entry i =
      .directory (interpAt mem d (layer + 1) (x86Arch.entryBase layer base i)) := by
  rw [interpAt_entry mem pt base h.layer_in_range hi, hd]
  exact interpWord_directory mem hview d _

/-- An entry that maps a page is interpreted as that page. -/
theorem LocalInvAt.interpAt_page {mem : M} {pt : PTDir} {layer ptr i : Nat} {p : GhostPage}
    (h : LocalInvAt mem pt layer ptr) (hi : i < x86NumEntries)
    (hview : viewAt mem pt layer i = .page p) (base : Nat) :
    (interpAt mem pt layer base).entry i =
      .page ⟨⟨p.addr, x86Arch.entrySize layer⟩, ⟨p.flagRW, !p.flagUS, p.flagXD⟩⟩ := by
  rw [interpAt_entry mem pt base h.layer_in_range hi]
  exact interpWord_page mem hview _ _

/-- An entry that maps nothing is interpreted as empty. -/
theorem LocalInvAt.interpAt_empty {mem : M} {pt : PTDir} {layer ptr i : Nat}
    (h : LocalInvAt mem pt layer ptr) (hi : i < x86NumEntries)
    (hview : viewAt mem pt layer i = .empty) (base : Nat) :
    (interpAt mem pt layer base).entry i = .empty := by
  rw [interpAt_entry mem pt base h.layer_in_range hi]
  exact interpWord_empty mem hview _ _

/-- The tree has an entry where the MMU sees one. -/
theorem LocalInvAt.interpAt_isEmpty {mem : M} {pt : PTDir} {layer ptr i : Nat}
    (h : LocalInvAt mem pt layer ptr) (hi : i < x86NumEntries) (base : Nat) :
    ((interpAt mem pt layer base).entry i).isEmpty = true ↔ viewAt mem pt layer i = .empty := by
  cases hview : viewAt mem pt layer i with
  | empty => simp [h.interpAt_empty hi hview, NodeEntry.isEmpty]
  | page p => simp [h.interpAt_page hi hview, NodeEntry.isEmpty]
  | directory e =>
    obtain ⟨d, hd⟩ := h.exists_entry hi hview
    simp [h.interpAt_directory hi hview hd, NodeEntry.isEmpty]

/-! ## Framing -/

/-- A tree does not notice changes outside its pages (`lemma_inv_at_different_memory` and
`lemma_interp_at_entry_different_memory`, `impl_u/l2_impl.rs:710–778`). -/
theorem InvAt.frame {mem mem' : M} {pt : PTDir} {layer ptr : Nat} (h : InvAt mem pt layer ptr)
    (hview : ∀ r ∈ pt.usedRegions, regionView mem' r = regionView mem r)
    (hinv : PtMemory.Inv mem') (hsub : pt.usedRegions ⊆ regions mem') :
    InvAt mem' pt layer ptr ∧ ∀ base, interpAt mem' pt layer base = interpAt mem pt layer base := by
  induction h with
  | @intro pt layer ptr loc sub ih =>
    have hregion := hview pt.region loc.used_regions_refl
    have hentry : ∀ i, entryAtSpec mem' pt layer i = entryAtSpec mem pt layer i := by
      intro i
      rw [entryAtSpec, specRead_congr hregion]
      rfl
    have hviewAt : ∀ i, viewAt mem' pt layer i = viewAt mem pt layer i := by
      intro i
      rw [viewAt, hentry]
      rfl
    have hchild : ∀ i e d, i < x86NumEntries → viewAt mem pt layer i = .directory e →
        pt.entry i = some d → InvAt mem' d (layer + 1) e.addr ∧
          ∀ base, interpAt mem' d (layer + 1) base = interpAt mem d (layer + 1) base := by
      intro i e d hi hv hd
      have htrans := loc.used_regions_trans i d hd
      exact ih i e d hi hv hd (fun r hr ↦ hview r (htrans hr)) (htrans.trans hsub)
    constructor
    · apply InvAt.intro
      · exact {
          ptr_aligned := loc.ptr_aligned
          mem_inv := hinv
          region_mem := hsub loc.used_regions_refl
          region_base := loc.region_base
          region_size := loc.region_size
          view_length := by
            rw [hregion]
            exact loc.view_length
          layer_in_range := loc.layer_in_range
          entries_length := loc.entries_length
          directories_have_flags := by
            intro i hi e he
            rw [hviewAt] at he
            exact loc.directories_have_flags i hi e he
          ghost_pt_matches_structure := by
            intro i hi
            rw [hviewAt]
            exact loc.ghost_pt_matches_structure i hi
          used_regions_refl := loc.used_regions_refl
          used_regions_trans := loc.used_regions_trans
          used_regions_pairwise_disjoint := loc.used_regions_pairwise_disjoint
          region_notin_used_regions := loc.region_notin_used_regions
          used_regions_subset := hsub
          hp_pat_is_zero := by
            intro i hi
            rw [hentry]
            exact loc.hp_pat_is_zero i hi
          entry_mb0_bits_are_zero := by
            intro i hi
            rw [hentry]
            exact loc.entry_mb0_bits_are_zero i hi }
      · intro i e d hi hv hd
        rw [hviewAt] at hv
        exact (hchild i e d hi hv hd).1
    · intro base
      rw [interpAt_eq mem' pt base loc.layer_in_range, interpAt_eq mem pt base loc.layer_in_range]
      refine congrArg (fun l ↦ Directory.mk l layer base x86Arch permissiveFlags) ?_
      refine List.map_congr_left (fun i hi ↦ ?_)
      have hi := List.mem_range.mp hi
      rw [hentry]
      cases hv : (entryAtSpec mem pt layer i).view with
      | page p => rw [interpWord_page mem' hv, interpWord_page mem hv]
      | empty => rw [interpWord_empty mem' hv, interpWord_empty mem hv]
      | directory e =>
        obtain ⟨d, hd⟩ := loc.exists_entry hi hv
        rw [hd, interpWord_directory mem' hv, interpWord_directory mem hv]
        exact congrArg _ ((hchild i e d hi hv hd).2 _)

/-! ## Replacing one entry -/

/-- What `inv_at` asks of one table word and its ghost subdirectory. -/
structure EntryInvAt (mem : M) (e : PageDirectoryEntry) (sub : Option PTDir) : Prop where
  has_flags : ∀ x, e.view = .directory x → x.flagRW = true ∧ x.flagUS = true ∧ x.flagXD = false
  matches_structure : e.view.isDirectory = sub.isSome
  hp_pat_is_zero : e.HpPatIsZero
  mb0_bits_are_zero : e.allMb0BitsAreZero = true
  obeys_invariant : ∀ x d, e.view = .directory x → sub = some d → InvAt mem d (e.layer + 1) x.addr

private theorem InvAt.entryInvAt {mem : M} {pt : PTDir} {layer ptr i : Nat}
    (h : InvAt mem pt layer ptr)
    (hi : i < x86NumEntries) : EntryInvAt mem (entryAtSpec mem pt layer i) (pt.entry i) where
  has_flags x hx := h.loc.directories_have_flags i hi x hx
  matches_structure := h.loc.ghost_pt_matches_structure i hi
  hp_pat_is_zero := h.loc.hp_pat_is_zero i hi
  mb0_bits_are_zero := h.loc.entry_mb0_bits_are_zero i hi
  obeys_invariant _ _ hx hd := h.sub hi hx hd

/-- A memory and ghost tree `mem'`, `pt'` that differ from `mem`, `pt` at most in the entry
`idx` of the table and in the pages of its old and new subdirectory. -/
structure TableUpdate (mem : M) (pt : PTDir) (layer idx : Nat) (word : BitVec 64)
    (sub : Option PTDir) (mem' : M) (pt' : PTDir) : Prop where
  region_eq : pt'.region = pt.region
  entries_eq : pt'.entries = pt.entries.set idx sub
  view_eq : regionView mem' pt.region = (regionView mem pt.region).set idx word
  siblings_view : ∀ j d r, j ≠ idx → pt.entry j = some d → r ∈ d.usedRegions →
    regionView mem' r = regionView mem r
  mem_inv : PtMemory.Inv mem'
  entry_inv : EntryInvAt mem' ⟨word, layer⟩ sub
  used_refl : pt.region ∈ pt'.usedRegions
  used_siblings : ∀ j d, j ≠ idx → pt.entry j = some d → d.usedRegions ⊆ pt'.usedRegions
  used_sub : ∀ d, sub = some d → d.usedRegions ⊆ pt'.usedRegions
  used_subset : pt'.usedRegions ⊆ regions mem'
  region_notin_sub : ∀ d, sub = some d → pt.region ∉ d.usedRegions
  sub_disjoint : ∀ d, sub = some d → ∀ j dj r, j ≠ idx → pt.entry j = some dj →
    r ∈ d.usedRegions → r ∉ dj.usedRegions

section Update

variable {mem mem' : M} {pt pt' : PTDir} {layer ptr idx : Nat} {word : BitVec 64}
  {sub : Option PTDir}

private theorem TableUpdate.entry_eq (u : TableUpdate mem pt layer idx word sub mem' pt')
    (hidx : idx < pt.entries.length) (i : Nat) :
    pt'.entry i = if i = idx then sub else pt.entry i := by
  unfold PTDir.entry
  rw [u.entries_eq, Table.getD_set _ _ _ hidx]

/-- Reading an entry after the update. -/
theorem TableUpdate.entryAtSpec_eq (u : TableUpdate mem pt layer idx word sub mem' pt')
    (hidx : idx < (regionView mem pt.region).length) (i : Nat) :
    entryAtSpec mem' pt' layer i =
      if i = idx then ⟨word, layer⟩ else entryAtSpec mem pt layer i := by
  unfold entryAtSpec specRead
  rw [u.region_eq, u.view_eq, Table.getD_set _ _ _ hidx]
  by_cases hi : i = idx
  · rw [if_pos hi, if_pos hi]
  · rw [if_neg hi, if_neg hi]

private theorem TableUpdate.sibling (u : TableUpdate mem pt layer idx word sub mem' pt')
    (h : InvAt mem pt layer ptr) {i : Nat} {e : GhostDirectory} {d : PTDir} (hne : i ≠ idx)
    (hi : i < x86NumEntries) (hview : viewAt mem pt layer i = .directory e)
    (hd : pt.entry i = some d) :
    InvAt mem' d (layer + 1) e.addr ∧
      ∀ base, interpAt mem' d (layer + 1) base = interpAt mem d (layer + 1) base :=
  (h.sub hi hview hd).frame (fun r hr ↦ u.siblings_view i d r hne hd hr) u.mem_inv
    ((u.used_siblings i d hne hd).trans u.used_subset)

-- The tables after the update satisfy what `inv_at` asks of their entries.
private theorem TableUpdate.entryInvAt (u : TableUpdate mem pt layer idx word sub mem' pt')
    (h : InvAt mem pt layer ptr) (hidx : idx < x86NumEntries) {i : Nat} (hi : i < x86NumEntries) :
    EntryInvAt mem' (entryAtSpec mem' pt' layer i) (pt'.entry i) := by
  have hlen := h.loc.entries_length
  rw [u.entryAtSpec_eq (by rw [h.loc.view_length, hlen]; exact hidx),
    u.entry_eq (by rw [hlen]; exact hidx)]
  by_cases heq : i = idx
  · rw [if_pos heq, if_pos heq]
    exact u.entry_inv
  · rw [if_neg heq, if_neg heq]
    have hold := h.entryInvAt hi
    exact {
      has_flags := hold.has_flags
      matches_structure := hold.matches_structure
      hp_pat_is_zero := hold.hp_pat_is_zero
      mb0_bits_are_zero := hold.mb0_bits_are_zero
      obeys_invariant := fun x d hx hd ↦ (u.sibling h heq hi hx hd).1 }

/-- An update of one entry keeps the invariant. -/
theorem InvAt.update (h : InvAt mem pt layer ptr) (hidx : idx < x86NumEntries)
    (u : TableUpdate mem pt layer idx word sub mem' pt') : InvAt mem' pt' layer ptr := by
  have loc := h.loc
  have hlen := loc.entries_length
  have hentry := u.entry_eq (by rw [hlen]; exact hidx)
  apply InvAt.intro
  · exact {
      ptr_aligned := loc.ptr_aligned
      mem_inv := u.mem_inv
      region_mem := by
        rw [u.region_eq]
        exact u.used_subset u.used_refl
      region_base := by
        rw [u.region_eq]
        exact loc.region_base
      region_size := by
        rw [u.region_eq]
        exact loc.region_size
      view_length := by
        rw [u.region_eq, u.view_eq, u.entries_eq, List.length_set, List.length_set]
        exact loc.view_length
      layer_in_range := loc.layer_in_range
      entries_length := by
        rw [u.entries_eq, List.length_set]
        exact hlen
      directories_have_flags := fun i hi ↦ (u.entryInvAt h hidx hi).has_flags
      ghost_pt_matches_structure := fun i hi ↦ (u.entryInvAt h hidx hi).matches_structure
      used_regions_refl := by
        rw [u.region_eq]
        exact u.used_refl
      used_regions_trans := by
        intro i d hd
        rw [hentry] at hd
        by_cases heq : i = idx
        · rw [if_pos heq] at hd
          exact u.used_sub d hd
        · rw [if_neg heq] at hd
          exact u.used_siblings i d heq hd
      used_regions_pairwise_disjoint := by
        intro i j di dj r hij hdi hdj hr
        rw [hentry] at hdi hdj
        by_cases hi : i = idx
        · have hj : j ≠ idx := fun hj ↦ hij (hi.trans hj.symm)
          rw [if_pos hi] at hdi
          rw [if_neg hj] at hdj
          exact u.sub_disjoint di hdi j dj r hj hdj hr
        · rw [if_neg hi] at hdi
          by_cases hj : j = idx
          · rw [if_pos hj] at hdj
            exact fun hr' ↦ u.sub_disjoint dj hdj i di r hi hdi hr' hr
          · rw [if_neg hj] at hdj
            exact loc.used_regions_pairwise_disjoint i j di dj r hij hdi hdj hr
      region_notin_used_regions := by
        intro i d hd
        rw [hentry] at hd
        rw [u.region_eq]
        by_cases heq : i = idx
        · rw [if_pos heq] at hd
          exact u.region_notin_sub d hd
        · rw [if_neg heq] at hd
          exact loc.region_notin_used_regions i d hd
      used_regions_subset := u.used_subset
      hp_pat_is_zero := fun i hi ↦ (u.entryInvAt h hidx hi).hp_pat_is_zero
      entry_mb0_bits_are_zero := fun i hi ↦ (u.entryInvAt h hidx hi).mb0_bits_are_zero }
  · intro i e d hi hview hd
    exact (u.entryInvAt h hidx hi).obeys_invariant e d hview hd

/-- An update of one entry replaces that entry of the directory. -/
theorem InvAt.interpAt_update (h : InvAt mem pt layer ptr) (hidx : idx < x86NumEntries)
    (u : TableUpdate mem pt layer idx word sub mem' pt') (base : Nat) :
    interpAt mem' pt' layer base =
      (interpAt mem pt layer base).update idx
        (interpWord mem' ⟨word, layer⟩ sub (x86Arch.entryBase layer base idx)) := by
  have loc := h.loc
  have hlen := loc.entries_length
  rw [interpAt_eq mem' pt' base loc.layer_in_range, interpAt_eq mem pt base loc.layer_in_range,
    Directory.update]
  refine congrArg (fun l ↦ Directory.mk l layer base x86Arch permissiveFlags) ?_
  apply List.ext_getElem?
  intro i
  rw [List.getElem?_set, List.length_map, List.length_range, List.getElem?_map]
  by_cases hi : i < x86NumEntries
  · rw [List.getElem?_range hi, Option.map_some,
      u.entryAtSpec_eq (by rw [loc.view_length, hlen]; exact hidx),
      u.entry_eq (by rw [hlen]; exact hidx)]
    by_cases heq : i = idx
    · rw [if_pos heq, if_pos heq, if_pos heq.symm, if_pos hidx, heq]
    · rw [if_neg heq, if_neg heq, if_neg (Ne.symm heq), List.getElem?_map, List.getElem?_range hi,
        Option.map_some]
      cases hv : (entryAtSpec mem pt layer i).view with
      | page p => rw [interpWord_page mem' hv, interpWord_page mem hv]
      | empty => rw [interpWord_empty mem' hv, interpWord_empty mem hv]
      | directory e =>
        obtain ⟨d, hd⟩ := loc.exists_entry hi hv
        rw [hd, interpWord_directory mem' hv, interpWord_directory mem hv]
        exact congrArg (fun d ↦ some (NodeEntry.directory d)) ((u.sibling h heq hi hv hd).2 _)
  · have hne : idx ≠ i := by omega
    rw [if_neg hne, List.getElem?_map]
    rw [List.getElem?_eq_none (by rw [List.length_range]; omega), Option.map_none, Option.map_none]

/-- Writing a word that refers to no directory over one that refers to none. -/
theorem InvAt.tableUpdate_write (h : InvAt mem pt layer ptr)
    (hnone : pt.entry idx = none) (hw : WriteEnsures mem idx pt.region word mem')
    (he : EntryInvAt mem' ⟨word, layer⟩ none) :
    TableUpdate mem pt layer idx word none mem' pt where
  region_eq := rfl
  entries_eq := by
    rw [← hnone]
    exact (Table.set_getD _ _ _).symm
  view_eq := hw.view_eq
  siblings_view := by
    intro j d r _ hd hr
    apply hw.view_other
    rintro rfl
    exact h.loc.region_notin_used_regions j d hd hr
  mem_inv := hw.inv h.loc.mem_inv
  entry_inv := he
  used_refl := h.loc.used_regions_refl
  used_siblings j d _ hd := h.loc.used_regions_trans j d hd
  used_sub := by
    intro d hd
    cases hd
  used_subset := by
    rw [hw.regions_eq]
    exact h.loc.used_regions_subset
  region_notin_sub := by
    intro d hd
    cases hd
  sub_disjoint := by
    intro d hd
    cases hd

/-- Changing the subdirectory of an entry, and nothing else but fresh pages. -/
theorem InvAt.tableUpdate_sub (h : InvAt mem pt layer ptr) (hidx : idx < x86NumEntries)
    {e : GhostDirectory} {d dRes : PTDir} (hview : viewAt mem pt layer idx = .directory e)
    (hd : pt.entry idx = some d) (hres : InvAt mem' dRes (layer + 1) e.addr)
    (hfresh : ∀ r ∈ dRes.usedRegions, r ∈ d.usedRegions ∨ r ∉ regions mem)
    (hframe : ∀ r ∈ regions mem, r ∉ d.usedRegions → regionView mem' r = regionView mem r)
    (hregion : pt'.region = pt.region) (hentries : pt'.entries = pt.entries.set idx (some dRes))
    (hused : pt.region ∈ pt'.usedRegions)
    (hsiblings : ∀ j dj, j ≠ idx → pt.entry j = some dj → dj.usedRegions ⊆ pt'.usedRegions)
    (hsub : dRes.usedRegions ⊆ pt'.usedRegions) (hsubset : pt'.usedRegions ⊆ regions mem') :
    TableUpdate mem pt layer idx (specRead mem idx pt.region) (some dRes) mem' pt' where
  region_eq := hregion
  entries_eq := hentries
  view_eq := by
    rw [hframe pt.region h.loc.region_mem (h.loc.region_notin_used_regions idx d hd)]
    exact (Table.set_getD _ _ _).symm
  siblings_view := by
    intro j dj r hne hdj hr
    exact hframe r (h.loc.used_regions_subset (h.loc.used_regions_trans j dj hdj hr))
      (h.loc.used_regions_pairwise_disjoint j idx dj d r hne hdj hd hr)
  mem_inv := hres.loc.mem_inv
  entry_inv := {
    has_flags := (h.entryInvAt hidx).has_flags
    matches_structure := by
      have hold := (h.entryInvAt hidx).matches_structure
      rw [hd] at hold
      exact hold
    hp_pat_is_zero := (h.entryInvAt hidx).hp_pat_is_zero
    mb0_bits_are_zero := (h.entryInvAt hidx).mb0_bits_are_zero
    obeys_invariant := by
      intro x d' hx hd'
      have hx' : viewAt mem pt layer idx = .directory x := hx
      rw [hview, GhostPageDirectoryEntry.directory.injEq] at hx'
      cases hd'
      rw [← hx']
      exact hres }
  used_refl := hused
  used_siblings := hsiblings
  used_sub := by
    intro d' hd'
    cases hd'
    exact hsub
  used_subset := hsubset
  region_notin_sub := by
    intro d' hd' hr
    cases hd'
    rcases hfresh _ hr with hin | hout
    · exact h.loc.region_notin_used_regions idx d hd hin
    · exact hout h.loc.region_mem
  sub_disjoint := by
    intro d' hd' j dj r hne hdj hr hrj
    cases hd'
    rcases hfresh r hr with hin | hout
    · exact h.loc.used_regions_pairwise_disjoint j idx dj d r hne hdj hd hrj hin
    · exact hout (h.loc.used_regions_subset (h.loc.used_regions_trans j dj hdj hrj))

end Update

/-! ## New directories -/

/-- A zero word is not present (`lemma_zero_entry_facts`, `impl_u/l2_impl.rs:137–149`). -/
theorem PageDirectoryEntry.zero_entry_facts (layer : Nat) :
    (PageDirectoryEntry.mk 0#64 layer).view = .empty ∧
      (PageDirectoryEntry.mk 0#64 layer).allMb0BitsAreZero = true := by
  have hP : hasFlag 0#64 maskFlagP = false := by decide
  constructor
  · simp only [view, hP, Bool.false_and, Bool.false_eq_true, if_false, ite_self]
  · simp only [allMb0BitsAreZero, hP, Bool.false_eq_true, if_false]

/-- Zero words meet the invariant wherever they stand. -/
theorem EntryInvAt.zero (mem : M) (layer : Nat) : EntryInvAt mem ⟨0#64, layer⟩ none := by
  obtain ⟨hview, hmb0⟩ := PageDirectoryEntry.zero_entry_facts layer
  exact {
    has_flags := by
      intro x hx
      rw [hview] at hx
      cases hx
    matches_structure := by
      rw [hview]
      rfl
    hp_pat_is_zero := by
      unfold PageDirectoryEntry.HpPatIsZero
      rw [hview]
      exact ⟨fun h ↦ absurd h.1 Bool.false_ne_true, fun h ↦ absurd h.1 Bool.false_ne_true⟩
    mb0_bits_are_zero := hmb0
    obeys_invariant := by
      intro x d hx
      rw [hview] at hx
      cases hx }

/-- A zeroed page is a directory without entries (`lemma_zeroed_page_implies_empty_at`,
`impl_u/l2_impl.rs:1564–1592`). -/
theorem InvAt.zeroed {mem : M} {region : MemRegion} {layer : Nat} (hlayer : layer < x86NumLayers)
    (hinv : PtMemory.Inv mem) (hmem : region ∈ regions mem) (hal : aligned region.base pageSize)
    (hsize : region.size = pageSize)
    (hview : regionView mem region = List.replicate x86NumEntries 0#64) :
    InvAt mem (PTDir.empty region) layer region.base ∧
      ∀ i, i < x86NumEntries → viewAt mem (PTDir.empty region) layer i = .empty := by
  have hentry : ∀ i, entryAtSpec mem (PTDir.empty region) layer i = ⟨0#64, layer⟩ := by
    intro i
    unfold entryAtSpec specRead
    change PageDirectoryEntry.mk ((regionView mem region).getD i 0#64) layer = _
    rw [hview, Table.getD_replicate_default]
  have hnone := PTDir.entry_empty region
  have hzero := EntryInvAt.zero mem layer
  have hviewAt : ∀ i, viewAt mem (PTDir.empty region) layer i = .empty := by
    intro i
    rw [viewAt, hentry]
    exact (PageDirectoryEntry.zero_entry_facts layer).1
  refine ⟨.intro ?_ ?_, fun i _ ↦ hviewAt i⟩
  · exact {
      ptr_aligned := hal
      mem_inv := hinv
      region_mem := hmem
      region_base := rfl
      region_size := hsize
      view_length := by
        change (regionView mem region).length = _
        rw [hview, List.length_replicate]
        exact List.length_replicate.symm
      layer_in_range := hlayer
      entries_length := List.length_replicate
      directories_have_flags := by
        intro i _ e he
        rw [hviewAt] at he
        cases he
      ghost_pt_matches_structure := by
        intro i _
        rw [hviewAt, hnone]
        rfl
      used_regions_refl := rfl
      used_regions_trans := by
        intro i d hd
        rw [hnone] at hd
        cases hd
      used_regions_pairwise_disjoint := by
        intro i j di dj r _ hdi
        rw [hnone] at hdi
        cases hdi
      region_notin_used_regions := by
        intro i d hd
        rw [hnone] at hd
        cases hd
      used_regions_subset := Set.singleton_subset_iff.mpr hmem
      hp_pat_is_zero := by
        intro i _
        rw [hentry]
        exact hzero.hp_pat_is_zero
      entry_mb0_bits_are_zero := by
        intro i _
        rw [hentry]
        exact hzero.mb0_bits_are_zero }
  · intro i e d _ _ hd
    rw [hnone] at hd
    cases hd

/-- A directory whose entries are all empty, as a list. -/
theorem LocalInvAt.interpAt_of_empty {mem : M} {pt : PTDir} {layer ptr : Nat}
    (h : LocalInvAt mem pt layer ptr)
    (hempty : ∀ i, i < x86NumEntries → viewAt mem pt layer i = .empty) (base : Nat) :
    interpAt mem pt layer base =
      ⟨List.replicate x86NumEntries .empty, layer, base, x86Arch, permissiveFlags⟩ := by
  rw [interpAt_eq mem pt base h.layer_in_range]
  refine congrArg (fun l ↦ Directory.mk l layer base x86Arch permissiveFlags) ?_
  apply List.eq_replicate_iff.mpr
  refine ⟨by rw [List.length_map, List.length_range], ?_⟩
  intro e he
  obtain ⟨i, hi, rfl⟩ := List.mem_map.mp he
  exact interpWord_empty mem (hempty i (List.mem_range.mp hi)) _ _

end NrKernel.PageTable
