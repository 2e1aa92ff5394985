import NrKernel.PageTable.Definitions

/-!
# The physical memory that holds page tables

`spec_t/mem.rs` is a trusted interface: an opaque memory with uninterpreted view functions
and external operations that only their contracts describe. Here it is a class: a type of
memories, its views and operations, and the contracts as fields. Whatever is proved for a
`PageTableMemory` holds of every memory and page allocator that keeps the contract.
-/

namespace NrKernel.PageTable

/-- View functions and operations of `PageTableMemory` (`spec_t/mem.rs:44–228`), without
their contracts. -/
class PtMemoryOps (M : Type) where
  /-- `phys_mem_ref_as_usize_spec`: where the linear mapping of physical memory starts -/
  physMemRef : M → Nat
  /-- `cr3_spec`: the region of the layer 0 directory -/
  cr3 : M → MemRegion
  /-- `alloc_available_pages` -/
  allocAvailablePages : M → Nat
  /-- `regions`: the allocated pages -/
  regions : M → Set MemRegion
  /-- `region_view`: the words of a region -/
  regionView : M → MemRegion → List (BitVec 64)
  /-- `alloc_page` -/
  allocPage : M → MemRegion × M
  /-- `dealloc_page` -/
  deallocPage : M → MemRegion → M
  /-- `write(pbase, idx, region, value)` -/
  write : M → Nat → Nat → MemRegion → BitVec 64 → M
  /-- `read(pbase, idx, region)` -/
  read : M → Nat → Nat → MemRegion → BitVec 64

namespace PtMemory

export PtMemoryOps (physMemRef cr3 allocAvailablePages regions regionView allocPage deallocPage
  write read)

variable {M : Type} [PtMemoryOps M]

/-- `PageTableMemory::inv` (`spec_t/mem.rs:60–68`). -/
structure Inv (mem : M) : Prop where
  phys_mem_ref_le : physMemRef mem ≤ 0x7FE0000000000000
  regions_disjoint : ∀ s1 ∈ regions mem, ∀ s2 ∈ regions mem, s1 ≠ s2 → ¬overlap s1 s2
  cr3_aligned : aligned (cr3 mem).base pageSize
  cr3_size : (cr3 mem).size = pageSize

/-- `spec_read` (`spec_t/mem.rs:162–164`); zero outside the region, where the source leaves
the value unspecified. -/
def specRead (mem : M) (idx : Nat) (region : MemRegion) : BitVec 64 :=
  (regionView mem region).getD idx 0#64

/-- The `ensures` of `alloc_page` (`spec_t/mem.rs:81–104`). -/
structure AllocEnsures [PhyAddrWidth] (mem : M) (r : MemRegion) (mem' : M) : Prop where
  available : allocAvailablePages mem' = allocAvailablePages mem - 1
  size_eq : r.size = pageSize
  base_le : r.base + pageSize ≤ maxPhyaddr
  base_aligned : aligned r.base pageSize
  fresh : r ∉ regions mem
  regions_eq : regions mem' = insert r (regions mem)
  view_new : regionView mem' r = List.replicate 512 0#64
  view_other : ∀ r2, r2 ≠ r → regionView mem' r2 = regionView mem r2
  cr3_eq : cr3 mem' = cr3 mem
  physMemRef_eq : physMemRef mem' = physMemRef mem
  inv : Inv mem'

/-- The `ensures` of `dealloc_page` (`spec_t/mem.rs:107–121`). The contract says nothing
about the words of the freed page or the pages available afterwards. -/
structure DeallocEnsures (mem : M) (r : MemRegion) (mem' : M) : Prop where
  regions_eq : regions mem' = regions mem \ {r}
  view_other : ∀ r2, r2 ≠ r → regionView mem' r2 = regionView mem r2
  cr3_eq : cr3 mem' = cr3 mem
  physMemRef_eq : physMemRef mem' = physMemRef mem
  inv : Inv mem'

/-- The `ensures` of `write` (`spec_t/mem.rs:123–144`). -/
structure WriteEnsures (mem : M) (idx : Nat) (region : MemRegion) (value : BitVec 64)
    (mem' : M) : Prop where
  view_eq : regionView mem' region = (regionView mem region).set idx value
  view_other : ∀ r, r ≠ region → regionView mem' r = regionView mem r
  regions_eq : regions mem' = regions mem
  available : allocAvailablePages mem' = allocAvailablePages mem
  cr3_eq : cr3 mem' = cr3 mem
  physMemRef_eq : physMemRef mem' = physMemRef mem

end PtMemory

open PtMemory

/-- `PageTableMemory` (`spec_t/mem.rs`): memories whose operations keep their contracts.
The hypotheses of each field are the `requires` of the operation. -/
class PageTableMemory (M : Type) [PhyAddrWidth] extends PtMemoryOps M where
  alloc_ensures : ∀ mem : M, Inv mem → 0 < allocAvailablePages mem →
    AllocEnsures mem (allocPage mem).1 (allocPage mem).2
  dealloc_ensures : ∀ (mem : M) (r : MemRegion), Inv mem → r ∈ regions mem →
    DeallocEnsures mem r (deallocPage mem r)
  write_ensures : ∀ (mem : M) (idx : Nat) (region : MemRegion) (value : BitVec 64),
    aligned region.base wordSize → Inv mem → region ∈ regions mem → idx < 512 →
    WriteEnsures mem idx region value (write mem region.base idx region value)
  read_ensures : ∀ (mem : M) (idx : Nat) (region : MemRegion),
    aligned region.base wordSize → region ∈ regions mem → idx < 512 →
    read mem region.base idx region = specRead mem idx region

namespace PtMemory

variable {M : Type} [PtMemoryOps M]

/-- A write keeps the memory invariant. -/
theorem WriteEnsures.inv {mem mem' : M} {idx : Nat} {region : MemRegion} {value : BitVec 64}
    (h : WriteEnsures mem idx region value mem') (hinv : Inv mem) : Inv mem' where
  phys_mem_ref_le := by
    rw [h.physMemRef_eq]
    exact hinv.phys_mem_ref_le
  regions_disjoint := by
    rw [h.regions_eq]
    exact hinv.regions_disjoint
  cr3_aligned := by
    rw [h.cr3_eq]
    exact hinv.cr3_aligned
  cr3_size := by
    rw [h.cr3_eq]
    exact hinv.cr3_size

/-- Memories that agree on a region read the same words from it. -/
theorem specRead_congr {mem mem' : M} {r : MemRegion} (h : regionView mem' r = regionView mem r)
    (i : Nat) : specRead mem' i r = specRead mem i r := by
  unfold specRead
  rw [h]

end PtMemory

end NrKernel.PageTable
