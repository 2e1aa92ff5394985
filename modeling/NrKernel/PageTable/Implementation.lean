import NrKernel.Lib.CheckedArith
import NrKernel.PageTable.Entry

/-!
# The page table implementation

The executable functions of `impl_u/l2_impl.rs` over the memory interface. A run that would
stop the program (an overflow, an index out of range, an allocation without available
pages) is `none`. Ghost arguments and results, the tree of directory pages and the sets of
added or removed pages, are carried along as in the source.
-/

namespace NrKernel.PageTable

open Lib Lib.WordBits PtMemory

/-- Width of `usize`. -/
def usizeBits : Nat := 64

/-! ## Index arithmetic (`definitions_u.rs:104–180`) -/

/-- `ArchExec::entry_size` of `x86_arch_exec()`: the lookup `layers[layer]` is checked. -/
def archEntrySize (layer : Nat) : Option Nat := x86Arch.layers[layer]?.map (·.entrySize)

/-- `ArchExec::num_entries` of `x86_arch_exec()`. -/
def archNumEntries (layer : Nat) : Option Nat := x86Arch.layers[layer]?.map (·.numEntries)

/-- `ArchExec::index_for_vaddr`. -/
def archIndexForVaddr (layer base vaddr : Nat) : Option Nat := do
  let es ← archEntrySize layer
  let offset ← Checked.sub vaddr base
  Checked.div offset es

/-- `ArchExec::entry_base`. -/
def archEntryBase (layer base idx : Nat) : Option Nat := do
  let es ← archEntrySize layer
  let offset ← Checked.mul usizeBits idx es
  Checked.add usizeBits base offset

/-- `aligned_exec` (`definitions_u.rs:25–32`). -/
def alignedExec (addr size : Nat) : Option Bool :=
  if size = 0 then none else some (addr % size == 0)

section Exec

variable {M : Type} [PtMemoryOps M] [PhyAddrWidth]

/-! ## Memory accesses -/

/-- `entry_at` (`impl_u/l2_impl.rs:540–560`): read entry `i` of the table at `ptr`. -/
def entryAt (mem : M) (pt : PTDir) (layer ptr i : Nat) : Option PageDirectoryEntry :=
  if i < 512 then some ⟨read mem ptr i pt.region, layer⟩ else none

/-- A call of `mem.write` with its bound on the index. -/
def writeEntry (mem : M) (pt : PTDir) (ptr i : Nat) (value : BitVec 64) : Option M :=
  if i < 512 then some (write mem ptr i pt.region value) else none

/-- A call of `mem.alloc_page` with its demand for an available page. -/
def allocDirectory (mem : M) : Option (MemRegion × M) :=
  if 0 < allocAvailablePages mem then some (allocPage mem) else none

/-! ## Mapping -/

/-- `insert_empty_directory` (`impl_u/l2_impl.rs:1737–1846`). -/
def insertEmptyDirectory (mem : M) (pt : PTDir) (layer ptr idx : Nat) :
    Option ((PTDir × MemRegion × PageDirectoryEntry) × M) := do
  let (newDirRegion, mem) ← allocDirectory mem
  let newDirPt := PTDir.empty newDirRegion
  let newDirEntry := PageDirectoryEntry.newDirEntry layer (BitVec.ofNat 64 newDirRegion.base)
  let mem ← writeEntry mem pt ptr idx newDirEntry.entry
  let ptRes : PTDir := {
    region := pt.region
    entries := pt.entries.set idx (some newDirPt)
    usedRegions := insert newDirPt.region pt.usedRegions }
  return ((ptRes, newDirRegion, newDirEntry), mem)

/-- `map_frame_aux` (`impl_u/l2_impl.rs:947–1562`). On success the ghost result is the new
tree and the set of added pages. -/
def mapFrameAux (mem : M) (pt : PTDir) (layer ptr base vaddr : Nat) (pte : PageTableEntry) :
    Option (Except Unit (PTDir × Set MemRegion) × M) :=
  -- beyond the last layer the lookup of the entry size fails
  if _h : layer < x86NumLayers then do
    let idx ← archIndexForVaddr layer base vaddr
    let entry ← entryAt mem pt layer ptr idx
    let entryBase ← archEntryBase layer base idx
    let entrySize ← archEntrySize layer
    if entry.isMapping then
      if entry.isDir layer then
        if entrySize = pte.frame.size then
          return (.error (), mem)
        else
          let dirAddr := entry.address.toNat
          let dirPt ← pt.entry idx
          match ← mapFrameAux mem dirPt (layer + 1) dirAddr entryBase vaddr pte with
          | (.ok (dirPtRes, newRegions), mem) =>
            let ptRes : PTDir := {
              region := pt.region
              entries := pt.entries.set idx (some dirPtRes)
              usedRegions := pt.usedRegions ∪ newRegions }
            return (.ok (ptRes, newRegions), mem)
          | (.error e, mem) => return (.error e, mem)
      else
        return (.error (), mem)
    else
      if entrySize = pte.frame.size then
        let newPageEntry := PageDirectoryEntry.newPageEntry layer pte
        let mem ← writeEntry mem pt ptr idx newPageEntry.entry
        return (.ok (pt, ∅), mem)
      else
        let ((ptWithEmpty, newDirRegion, _), mem) ← insertEmptyDirectory mem pt layer ptr idx
        let newDirPt ← ptWithEmpty.entry idx
        match ← mapFrameAux mem newDirPt (layer + 1) newDirRegion.base entryBase vaddr pte with
        | (.ok (dirPtRes, dirNewRegions), mem) =>
          let ptFinal : PTDir := {
            region := ptWithEmpty.region
            entries := ptWithEmpty.entries.set idx (some dirPtRes)
            usedRegions := ptWithEmpty.usedRegions ∪ dirNewRegions }
          return (.ok (ptFinal, insert newDirRegion dirNewRegions), mem)
        | (.error e, mem) => return (.error e, mem)
  else none
termination_by x86NumLayers - layer

/-- `map_frame` (`impl_u/l2_impl.rs:1683–1710`). -/
def mapFrame (mem : M) (pt : PTDir) (vaddr : Nat) (pte : PageTableEntry) :
    Option (Except Unit Unit × M × PTDir) := do
  match ← mapFrameAux mem pt 0 (cr3 mem).base 0 vaddr pte with
  | (.ok (ptRes, _), mem) => return (.ok (), mem, ptRes)
  | (.error _, mem) => return (.error (), mem, pt)

/-! ## Unmapping -/

/-- The loop of `is_directory_empty` from index `idx` on (`impl_u/l2_impl.rs:1712–1734`). -/
def isDirectoryEmptyFrom (mem : M) (pt : PTDir) (layer ptr numEntries idx : Nat) : Option Bool :=
  if _h : idx < numEntries then do
    let entry ← entryAt mem pt layer ptr idx
    if entry.isMapping then return false
    else isDirectoryEmptyFrom mem pt layer ptr numEntries (idx + 1)
  else some true
termination_by numEntries - idx

/-- `is_directory_empty` (`impl_u/l2_impl.rs:1712–1734`). -/
def isDirectoryEmpty (mem : M) (pt : PTDir) (layer ptr : Nat) : Option Bool := do
  let numEntries ← archNumEntries layer
  isDirectoryEmptyFrom mem pt layer ptr numEntries 0

/-- `unmap_aux` (`impl_u/l2_impl.rs:1848–2172`). On success the ghost result is the new tree
and the set of removed pages. -/
def unmapAux (mem : M) (pt : PTDir) (layer ptr base vaddr : Nat) :
    Option (Except Unit (PTDir × Set MemRegion) × M) :=
  -- beyond the last layer the lookup of the entry size fails
  if _h : layer < x86NumLayers then do
    let idx ← archIndexForVaddr layer base vaddr
    let entry ← entryAt mem pt layer ptr idx
    let entryBase ← archEntryBase layer base idx
    let entrySize ← archEntrySize layer
    if entry.isMapping then
      if entry.isDir layer then
        let dirAddr := entry.address.toNat
        let dirPt ← pt.entry idx
        match ← unmapAux mem dirPt (layer + 1) dirAddr entryBase vaddr with
        | (.ok (dirPtRes, removedRegions), mem) =>
          if ← isDirectoryEmpty mem dirPtRes (layer + 1) dirAddr then
            let mem ← writeEntry mem pt ptr idx 0
            let mem := deallocPage mem ⟨dirAddr, pageSize⟩
            let removedRegions := insert dirPtRes.region removedRegions
            let ptRes : PTDir := {
              region := pt.region
              entries := pt.entries.set idx none
              usedRegions := pt.usedRegions \ removedRegions }
            return (.ok (ptRes, removedRegions), mem)
          else
            let ptRes : PTDir := {
              region := pt.region
              entries := pt.entries.set idx (some dirPtRes)
              usedRegions := pt.usedRegions \ removedRegions }
            return (.ok (ptRes, removedRegions), mem)
        | (.error e, mem) => return (.error e, mem)
      else
        if ← alignedExec vaddr entrySize then
          let mem ← writeEntry mem pt ptr idx 0
          return (.ok (pt, ∅), mem)
        else
          return (.error (), mem)
    else
      return (.error (), mem)
  else none
termination_by x86NumLayers - layer

/-- `unmap` (`impl_u/l2_impl.rs:2174–2200`). -/
def unmap (mem : M) (pt : PTDir) (vaddr : Nat) : Option (Except Unit Unit × M × PTDir) := do
  match ← unmapAux mem pt 0 (cr3 mem).base 0 vaddr with
  | (.ok (ptRes, _), mem) => return (.ok (), mem, ptRes)
  | (.error _, mem) => return (.error (), mem, pt)

end Exec

/-! ## Calls that meet their preconditions -/

/-- The entry size of a layer that exists is found. -/
theorem archEntrySize_eq {layer : Nat} (h : layer < x86NumLayers) :
    archEntrySize layer = some (x86Arch.entrySize layer) := by
  have hlen : layer < x86Arch.layers.length := h
  unfold archEntrySize Arch.entrySize
  rw [List.getD_eq_getElem?_getD, List.getElem?_eq_getElem hlen, Option.map_some, Option.getD_some]

/-- The number of entries of a layer that exists is found. -/
theorem archNumEntries_eq {layer : Nat} (h : layer < x86NumLayers) :
    archNumEntries layer = some x86NumEntries := by
  have hlen : layer < x86Arch.layers.length := h
  have hnum := x86Arch_numEntries h
  unfold Arch.numEntries at hnum
  rw [List.getD_eq_getElem?_getD, List.getElem?_eq_getElem hlen, Option.getD_some] at hnum
  unfold archNumEntries
  rw [List.getElem?_eq_getElem hlen, Option.map_some, hnum]
  rfl

/-- The index computation neither underflows nor divides by zero. -/
theorem archIndexForVaddr_eq {layer base vaddr : Nat} (h : layer < x86NumLayers)
    (hle : base ≤ vaddr) :
    archIndexForVaddr layer base vaddr = some (x86Arch.indexForVaddr layer base vaddr) := by
  unfold archIndexForVaddr
  rw [archEntrySize_eq h, Option.bind_eq_bind, Option.bind_some, Checked.sub_eq hle,
    Option.bind_some, Checked.div_eq (x86Arch_entrySize_pos h)]
  rfl

/-- The computation of an entry's base does not overflow. -/
theorem archEntryBase_eq {layer base idx : Nat} (h : layer < x86NumLayers)
    (hbase : base < maxBase) (hidx : idx < x86NumEntries) :
    archEntryBase layer base idx = some (x86Arch.entryBase layer base idx) := by
  have hes : x86Arch.entrySize layer ≤ x86MaxEntrySize := x86Arch_inv.entrySize_le layer h
  have hmul : idx * x86Arch.entrySize layer ≤ x86NumEntries * x86MaxEntrySize :=
    Nat.mul_le_mul (Nat.le_of_lt hidx) hes
  have hbound : maxBase + x86NumEntries * x86MaxEntrySize < 2 ^ usizeBits := by decide
  unfold archEntryBase
  rw [archEntrySize_eq h, Option.bind_eq_bind, Option.bind_some,
    Checked.mul_eq (by omega), Option.bind_some, Checked.add_eq (by omega)]
  rfl

section Calls

variable {M : Type} [PhyAddrWidth] [PageTableMemory M]

/-- Tables start at a word. -/
theorem LocalInvAt.base_aligned {mem : M} {pt : PTDir} {layer ptr : Nat}
    (h : LocalInvAt mem pt layer ptr) : aligned pt.region.base wordSize := by
  have hptr := h.ptr_aligned
  rw [h.region_base]
  unfold aligned pageSize at hptr
  unfold aligned wordSize
  omega

/-- Reading an entry of a table of the tree reads its word. -/
theorem LocalInvAt.entryAt_eq {mem : M} {pt : PTDir} {layer ptr i : Nat}
    (h : LocalInvAt mem pt layer ptr) (hi : i < x86NumEntries) :
    entryAt mem pt layer ptr i = some (entryAtSpec mem pt layer i) := by
  have hi' : i < 512 := hi
  have hread := PageTableMemory.read_ensures mem i pt.region h.base_aligned h.region_mem hi'
  rw [h.region_base] at hread
  unfold entryAt
  rw [if_pos hi', hread]
  rfl

/-- Writing an entry of a table of the tree. -/
theorem LocalInvAt.writeEntry_eq {mem : M} {pt : PTDir} {layer ptr i : Nat}
    (h : LocalInvAt mem pt layer ptr) (hi : i < x86NumEntries) (value : BitVec 64) :
    ∃ mem', writeEntry mem pt ptr i value = some mem' ∧
      WriteEnsures mem i pt.region value mem' := by
  have hi' : i < 512 := hi
  have hwrite := PageTableMemory.write_ensures mem i pt.region value h.base_aligned h.mem_inv
    h.region_mem hi'
  rw [h.region_base] at hwrite
  exact ⟨_, if_pos hi', hwrite⟩

/-- Allocating a page when one is available. -/
theorem allocDirectory_eq {mem : M} (hinv : PtMemory.Inv mem)
    (havail : 0 < allocAvailablePages mem) :
    ∃ r mem', allocDirectory mem = some (r, mem') ∧ AllocEnsures mem r mem' :=
  ⟨_, _, if_pos havail, PageTableMemory.alloc_ensures mem hinv havail⟩

end Calls

end NrKernel.PageTable
