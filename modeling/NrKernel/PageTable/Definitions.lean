import NrKernel.Lib.PartialMap
import Mathlib.Data.Nat.ModEq
import Mathlib.Algebra.Order.Group.Nat

/-!
# Shared definitions of the page table

Constants of x86-64 four-level paging, memory regions, page table entries and the
architecture description (entry size and entry count of each layer). Model of
`definitions_t.rs`; file references in this directory are relative to `src/page-table/`.
Physical and virtual addresses and sizes are natural numbers; raw table words are
`BitVec 64`.
-/

namespace NrKernel.PageTable

open Lib

/-- `X86_NUM_LAYERS` (`definitions_t.rs:27`). -/
def x86NumLayers : Nat := 4

/-- `X86_NUM_ENTRIES` (`definitions_t.rs:29`). -/
def x86NumEntries : Nat := 512

/-- `WORD_SIZE` (`definitions_t.rs:56`). -/
def wordSize : Nat := 8

/-- `PAGE_SIZE` (`definitions_t.rs:58`). -/
def pageSize : Nat := 4096

/-- `X86_MAX_ENTRY_SIZE` (`definitions_t.rs:60`). -/
def x86MaxEntrySize : Nat := 512 * 512 * 512 * 4096

/-- `MAX_BASE`: the first address that is not mappable (`definitions_t.rs:62`). -/
def maxBase : Nat := x86MaxEntrySize * x86NumEntries

/-- `L3_ENTRY_SIZE` (`definitions_t.rs:64–70`). -/
def l3EntrySize : Nat := pageSize

/-- `L2_ENTRY_SIZE`. -/
def l2EntrySize : Nat := 512 * l3EntrySize

/-- `L1_ENTRY_SIZE`. -/
def l1EntrySize : Nat := 512 * l2EntrySize

/-- `L0_ENTRY_SIZE`. -/
def l0EntrySize : Nat := 512 * l1EntrySize

/-- `MAX_PHYADDR_WIDTH`, a platform constant, with `axiom_max_phyaddr_width_facts`
(`definitions_t.rs:32–40`). -/
class PhyAddrWidth where
  maxPhyaddrWidth : Nat
  width_ge : 32 ≤ maxPhyaddrWidth
  width_le : maxPhyaddrWidth ≤ 52

export PhyAddrWidth (maxPhyaddrWidth)

/-- A platform with the widest physical addresses. -/
@[reducible] def widePhyAddr : PhyAddrWidth where
  maxPhyaddrWidth := 52
  width_ge := by decide
  width_le := by decide

/-- `MAX_PHYADDR` (`definitions_t.rs:44–54`). -/
def maxPhyaddr [PhyAddrWidth] : Nat := 2 ^ maxPhyaddrWidth - 1

/-- `aligned` (`definitions_t.rs:127`). -/
def aligned (addr size : Nat) : Prop := addr % size = 0

/-- Alignment can be decided. -/
instance (addr size : Nat) : Decidable (aligned addr size) :=
  inferInstanceAs (Decidable (addr % size = 0))

/-- Alignment is divisibility. -/
theorem aligned_iff_dvd (addr size : Nat) : aligned addr size ↔ size ∣ addr :=
  (Nat.dvd_iff_mod_eq_zero).symm

/-- `between`: `a` included, `b` excluded (`definitions_t.rs:131`). -/
def between (x a b : Nat) : Prop := a ≤ x ∧ x < b

/-- Whether an address lies in a range can be decided. -/
instance (x a b : Nat) : Decidable (between x a b) :=
  inferInstanceAs (Decidable (a ≤ x ∧ x < b))

/-- A range of addresses (`definitions_t.rs:179–188`). -/
structure MemRegion where
  base : Nat
  size : Nat
  deriving DecidableEq, Inhabited

/-- `overlap` (`definitions_t.rs:194–201`). -/
def overlap (region1 region2 : MemRegion) : Prop :=
  if region1.base ≤ region2.base then
    region1.base = region2.base ∨ region2.base < region1.base + region1.size
  else
    region1.base < region2.base + region2.size

/-- Overlap can be decided. -/
instance (r1 r2 : MemRegion) : Decidable (overlap r1 r2) := by
  unfold overlap
  infer_instance

/-- Access rights of a translation (`definitions_t.rs:225–229`). -/
structure Flags where
  isWritable : Bool
  isSupervisor : Bool
  disableExecute : Bool
  deriving DecidableEq, Inhabited

/-- `permissive_flags`, set on every directory (`definitions_u.rs:37–41`). -/
def permissiveFlags : Flags where
  isWritable := true
  isSupervisor := false
  disableExecute := false

/-- A mapped frame with the combined rights of its translation path
(`definitions_t.rs:231–239`). -/
structure PageTableEntry where
  frame : MemRegion
  flags : Flags
  deriving DecidableEq, Inhabited

/-- A view of a page table: frames by the virtual base address they are mapped at. -/
abbrev Mappings := PMap Nat PageTableEntry

/-- `candidate_mapping_overlaps_existing_vmem` (`definitions_t.rs:99–113`). -/
def candidateMappingOverlapsExistingVmem (mappings : Mappings) (base : Nat)
    (pte : PageTableEntry) : Prop :=
  ∃ b p, mappings b = some p ∧ overlap ⟨base, pte.frame.size⟩ ⟨b, p.frame.size⟩

/-- `candidate_mapping_overlaps_existing_pmem` (`definitions_t.rs:115–125`). -/
def candidateMappingOverlapsExistingPmem (mappings : Mappings) (pte : PageTableEntry) : Prop :=
  ∃ b p, mappings b = some p ∧ overlap pte.frame p.frame

/-- Regions of positive size overlap exactly when they share an address. -/
theorem overlap_iff {b₁ s₁ b₂ s₂ : Nat} (h₁ : 0 < s₁) (h₂ : 0 < s₂) :
    overlap ⟨b₁, s₁⟩ ⟨b₂, s₂⟩ ↔ b₁ < b₂ + s₂ ∧ b₂ < b₁ + s₁ := by
  simp only [overlap]
  split <;> omega

/-- A region that ends before another one starts does not overlap it. -/
theorem not_overlap_of_le {b₁ s₁ b₂ s₂ : Nat} (h₁ : 0 < s₁) (h₂ : 0 < s₂)
    (hle : b₁ + s₁ ≤ b₂) : ¬overlap ⟨b₁, s₁⟩ ⟨b₂, s₂⟩ := by
  rw [overlap_iff h₁ h₂]
  omega

/-- Overlap is symmetric. -/
theorem overlap_comm (r1 r2 : MemRegion) : overlap r1 r2 ↔ overlap r2 r1 := by
  unfold overlap
  split <;> split <;> omega

/-! ## Architectures -/

/-- `ArchLayer`: the size mapped by one entry, and the number of entries
(`definitions_t.rs:252–257`). -/
structure ArchLayer where
  entrySize : Nat
  numEntries : Nat
  deriving DecidableEq

/-- `Arch` (`definitions_t.rs:259–263`). -/
structure Arch where
  layers : List ArchLayer
  deriving DecidableEq

namespace Arch

/-- `Arch::entry_size`; zero outside the layers, where the source leaves it unspecified. -/
def entrySize (a : Arch) (layer : Nat) : Nat := (a.layers.getD layer ⟨0, 0⟩).entrySize

/-- `Arch::num_entries`; zero outside the layers. -/
def numEntries (a : Arch) (layer : Nat) : Nat := (a.layers.getD layer ⟨0, 0⟩).numEntries

/-- `Arch::index_for_vaddr` (`definitions_t.rs:322–329`). -/
def indexForVaddr (a : Arch) (layer base vaddr : Nat) : Nat := (vaddr - base) / a.entrySize layer

/-- `Arch::entry_base` (`definitions_t.rs:332–339`). -/
def entryBase (a : Arch) (layer base idx : Nat) : Nat := base + idx * a.entrySize layer

/-- `Arch::upper_vaddr` (`definitions_t.rs:280–286`). -/
def upperVaddr (a : Arch) (layer base : Nat) : Nat := a.entryBase layer base (a.numEntries layer)

/-- `Arch::contains_entry_size_at_index_atleast` (`definitions_t.rs:308–315`). -/
def containsEntrySizeAtIndexAtleast (a : Arch) (size minIdx : Nat) : Prop :=
  ∃ i, minIdx ≤ i ∧ i < a.layers.length ∧ a.entrySize i = size

/-- `Arch::contains_entry_size`. -/
def containsEntrySize (a : Arch) (size : Nat) : Prop := a.containsEntrySizeAtIndexAtleast size 0

/-- `Arch::inv` (`definitions_t.rs:288–306`): at most four layers, and an entry of one layer
spans the whole next layer. -/
structure Inv (a : Arch) : Prop where
  num_layers : a.layers.length ≤ x86NumLayers
  entrySize_pos : ∀ i, i < a.layers.length → 0 < a.entrySize i
  entrySize_le : ∀ i, i < a.layers.length → a.entrySize i ≤ x86MaxEntrySize
  numEntries_pos : ∀ i, i < a.layers.length → 0 < a.numEntries i
  numEntries_le : ∀ i, i < a.layers.length → a.numEntries i ≤ x86NumEntries
  /-- `entry_size_is_next_layer_size` -/
  next_layer_size : ∀ i, i + 1 < a.layers.length →
    a.entrySize i = a.entrySize (i + 1) * a.numEntries (i + 1)

/-- Entry sizes of deeper layers divide those of shallower ones. -/
theorem Inv.entrySize_dvd {a : Arch} (h : a.Inv) {i j : Nat} (hij : i ≤ j)
    (hj : j < a.layers.length) : a.entrySize j ∣ a.entrySize i := by
  induction j, hij using Nat.le_induction with
  | base => exact Nat.dvd_refl _
  | succ k hik ih =>
    have hstep : a.entrySize (k + 1) ∣ a.entrySize k := by
      rw [h.next_layer_size k hj]
      exact Nat.dvd_mul_right _ _
    exact Nat.dvd_trans hstep (ih (by omega))

/-- An entry size found from some layer on, but not at that layer, is found below it. -/
theorem containsEntrySizeAtIndexAtleast_succ {a : Arch} {size layer : Nat}
    (h : a.containsEntrySizeAtIndexAtleast size layer) (hne : a.entrySize layer ≠ size) :
    a.containsEntrySizeAtIndexAtleast size (layer + 1) := by
  obtain ⟨i, hle, hlt, hsize⟩ := h
  have hi : i ≠ layer := by
    intro heq
    exact hne (heq ▸ hsize)
  exact ⟨i, by omega, hlt, hsize⟩

/-! ### Indexing (`impl_u/indexing.rs`) -/

/-- The next entry starts one entry size further. -/
theorem entryBase_succ (a : Arch) (layer base idx : Nat) :
    a.entryBase layer base (idx + 1) = a.entryBase layer base idx + a.entrySize layer := by
  rw [entryBase, entryBase, Nat.add_mul, Nat.one_mul, Nat.add_assoc]

/-- Later entries start at later addresses. -/
theorem entryBase_mono (a : Arch) (layer base : Nat) {i j : Nat} (h : i ≤ j) :
    a.entryBase layer base i ≤ a.entryBase layer base j :=
  Nat.add_le_add_left (Nat.mul_le_mul_right _ h) _

/-- Entries start in the directory. -/
theorem le_entryBase (a : Arch) (layer base idx : Nat) : base ≤ a.entryBase layer base idx :=
  Nat.le_add_right _ _

/-- Every address from the base on lies in the entry of its index. -/
theorem between_entryBase {a : Arch} {layer base vaddr : Nat} (hes : 0 < a.entrySize layer)
    (h : base ≤ vaddr) :
    between vaddr (a.entryBase layer base (a.indexForVaddr layer base vaddr))
      (a.entryBase layer base (a.indexForVaddr layer base vaddr + 1)) := by
  have hmod := Nat.mod_lt (vaddr - base) hes
  have hdiv := Nat.div_add_mod' (vaddr - base) (a.entrySize layer)
  rw [entryBase_succ]
  unfold between entryBase indexForVaddr
  omega

/-- An address in the range of an entry has the index of that entry. -/
theorem indexForVaddr_eq {a : Arch} {layer base vaddr idx : Nat}
    (h : between vaddr (a.entryBase layer base idx) (a.entryBase layer base (idx + 1))) :
    a.indexForVaddr layer base vaddr = idx := by
  obtain ⟨hle, hlt⟩ := h
  unfold entryBase at hle hlt
  exact Nat.div_eq_of_lt_le (by omega) (by omega)

/-- An address below the end of a layer has one of its indices. -/
theorem indexForVaddr_lt {a : Arch} {layer base vaddr : Nat} (hes : 0 < a.entrySize layer)
    (hle : base ≤ vaddr) (hlt : vaddr < a.upperVaddr layer base) :
    a.indexForVaddr layer base vaddr < a.numEntries layer := by
  unfold upperVaddr entryBase at hlt
  unfold indexForVaddr
  rw [Nat.div_lt_iff_lt_mul hes]
  omega

/-- An address aligned to the entry size is the base of its entry. -/
theorem entryBase_index_of_aligned {a : Arch} {layer base vaddr : Nat}
    (hle : base ≤ vaddr) (hbase : aligned base (a.entrySize layer))
    (hvaddr : aligned vaddr (a.entrySize layer)) :
    a.entryBase layer base (a.indexForVaddr layer base vaddr) = vaddr := by
  rw [aligned_iff_dvd] at hbase hvaddr
  have hdvd : a.entrySize layer ∣ vaddr - base := Nat.dvd_sub hvaddr hbase
  unfold entryBase indexForVaddr
  rw [Nat.div_mul_cancel hdvd]
  omega

/-- The base of an entry is aligned to whatever its layer's base and entry size are. -/
theorem aligned_entryBase {a : Arch} {layer base n : Nat} (idx : Nat) (hbase : aligned base n)
    (hes : aligned (a.entrySize layer) n) : aligned (a.entryBase layer base idx) n := by
  rw [aligned_iff_dvd] at hbase hes ⊢
  exact Nat.dvd_add hbase (Dvd.dvd.mul_left hes idx)

end Arch

/-- `x86_arch_spec` (`definitions_t.rs:417–424`). -/
def x86Arch : Arch where
  layers := [⟨l0EntrySize, 512⟩, ⟨l1EntrySize, 512⟩, ⟨l2EntrySize, 512⟩, ⟨l3EntrySize, 512⟩]

/-- The architecture has four layers. -/
@[simp] theorem x86Arch_length : x86Arch.layers.length = 4 := rfl

/-- Every directory has 512 entries. -/
theorem x86Arch_numEntries {layer : Nat} (h : layer < 4) : x86Arch.numEntries layer = 512 := by
  match layer, h with
  | 0, _ | 1, _ | 2, _ | 3, _ => rfl

/-- The entry size of a layer, as a power of two. -/
theorem x86Arch_entrySize {layer : Nat} (h : layer < 4) :
    x86Arch.entrySize layer = 2 ^ (39 - 9 * layer) := by
  match layer, h with
  | 0, _ | 1, _ | 2, _ | 3, _ => decide

/-- Different layers have different entry sizes. -/
theorem x86Arch_entrySize_injective {i j : Nat} (hi : i < 4) (hj : j < 4)
    (h : x86Arch.entrySize i = x86Arch.entrySize j) : i = j := by
  rw [x86Arch_entrySize hi, x86Arch_entrySize hj] at h
  have hexp := Nat.pow_right_injective (Nat.le_refl 2) h
  omega

/-- Entries are not empty. -/
theorem x86Arch_entrySize_pos {layer : Nat} (h : layer < 4) : 0 < x86Arch.entrySize layer := by
  rw [x86Arch_entrySize h]
  exact Nat.two_pow_pos _

/-- The x86-64 description meets the requirements on architectures. -/
theorem x86Arch_inv : x86Arch.Inv where
  num_layers := by decide
  entrySize_pos i h := x86Arch_entrySize_pos h
  entrySize_le i h := by
    match i, h with
    | 0, _ | 1, _ | 2, _ | 3, _ => decide
  numEntries_pos i h := by
    rw [x86Arch_numEntries h]
    decide
  numEntries_le i h := by
    rw [x86Arch_numEntries h]
    decide
  next_layer_size i h := by
    match i, h with
    | 0, _ | 1, _ | 2, _ => decide

/-- Addresses of 48 bits can be mapped. -/
theorem maxBase_eq : maxBase = 2 ^ 48 := by decide

end NrKernel.PageTable
