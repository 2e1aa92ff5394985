import NrKernel.PageTable.Memory

/-!
# A page allocator that meets the memory contract

Pages are handed out by increasing number and zeroed on allocation; freed pages are not
reused. The contract of `PageTableMemory` is met for every physical address width, so it is
consistent.
-/

namespace NrKernel.PageTable

open PtMemory

/-- Number of page frames every physical address width covers. -/
def frameLimit : Nat := 2 ^ 20 - 1

/-- Memory with a bump allocator: `next` is the first page number that was never handed
out, `live` the numbers of the allocated pages. -/
structure BumpMemory where
  next : Nat
  live : Nat → Bool
  words : MemRegion → List (BitVec 64)
  live_lt : ∀ p, live p = true → p < next

namespace BumpMemory

/-- The region of a page number. -/
def page (p : Nat) : MemRegion := ⟨p * pageSize, pageSize⟩

private theorem page_injective {p q : Nat} (h : page p = page q) : p = q := by
  have hbase : p * pageSize = q * pageSize := congrArg MemRegion.base h
  unfold pageSize at hbase
  omega

private theorem not_overlap_page {p q : Nat} (h : page p ≠ page q) :
    ¬overlap (page p) (page q) := by
  have hne : p ≠ q := fun heq ↦ h (congrArg page heq)
  unfold page
  rw [overlap_iff (by decide) (by decide)]
  unfold pageSize
  omega

/-- Allocation of the next page. -/
def alloc (mem : BumpMemory) : BumpMemory where
  next := mem.next + 1
  live p := p == mem.next || mem.live p
  words := Function.update mem.words (page mem.next) (List.replicate 512 0#64)
  live_lt p h := by
    rcases Bool.or_eq_true _ _ ▸ h with heq | hlive
    · rw [beq_iff_eq.mp heq]
      exact Nat.lt_succ_self _
    · exact Nat.lt_succ_of_lt (mem.live_lt p hlive)

/-- Freeing of the pages stored at a region. -/
def dealloc (mem : BumpMemory) (r : MemRegion) : BumpMemory where
  next := mem.next
  live p := mem.live p && !decide (page p = r)
  words := mem.words
  live_lt p h := mem.live_lt p (Bool.and_eq_true _ _ ▸ h).1

/-- Overwriting one word of a region. -/
def store (mem : BumpMemory) (idx : Nat) (region : MemRegion) (value : BitVec 64) : BumpMemory where
  next := mem.next
  live := mem.live
  words := Function.update mem.words region ((mem.words region).set idx value)
  live_lt := mem.live_lt

/-- The operations on the memory: pages are handed out in order, and never twice. -/
instance : PtMemoryOps BumpMemory where
  physMemRef _ := 0
  cr3 _ := page 0
  allocAvailablePages mem := frameLimit - mem.next
  regions mem := {r | ∃ p, mem.live p = true ∧ r = page p}
  regionView mem r := mem.words r
  allocPage mem := (page mem.next, mem.alloc)
  deallocPage mem r := mem.dealloc r
  write mem _ idx region value := mem.store idx region value
  read mem _ idx region := (mem.words region).getD idx 0#64

/-- The allocated regions are the live pages. -/
theorem mem_regions {mem : BumpMemory} {r : MemRegion} :
    r ∈ regions mem ↔ ∃ p, mem.live p = true ∧ r = page p := Iff.rfl

/-- Every value of the type satisfies the invariant of memories. -/
theorem inv (mem : BumpMemory) : Inv mem where
  phys_mem_ref_le := Nat.zero_le _
  regions_disjoint := by
    rintro _ ⟨p, _, rfl⟩ _ ⟨q, _, rfl⟩ hne
    exact not_overlap_page hne
  cr3_aligned := Nat.mul_mod_left _ _
  cr3_size := rfl

private theorem regions_alloc (mem : BumpMemory) :
    regions mem.alloc = insert (page mem.next) (regions mem) := by
  ext r
  rw [Set.mem_insert_iff, mem_regions, mem_regions]
  unfold alloc
  simp only [Bool.or_eq_true, beq_iff_eq]
  constructor
  · rintro ⟨p, rfl | hp, rfl⟩
    · exact .inl rfl
    · exact .inr ⟨p, hp, rfl⟩
  · rintro (rfl | ⟨p, hp, rfl⟩)
    · exact ⟨_, .inl rfl, rfl⟩
    · exact ⟨p, .inr hp, rfl⟩

private theorem regions_dealloc (mem : BumpMemory) (r : MemRegion) :
    regions (mem.dealloc r) = regions mem \ {r} := by
  ext s
  rw [Set.mem_sdiff, Set.mem_singleton_iff, mem_regions, mem_regions]
  unfold dealloc
  simp only [Bool.and_eq_true, Bool.not_eq_true', decide_eq_false_iff_not]
  constructor
  · rintro ⟨p, ⟨hp, hne⟩, rfl⟩
    exact ⟨⟨p, hp, rfl⟩, hne⟩
  · rintro ⟨⟨p, hp, rfl⟩, hne⟩
    exact ⟨p, ⟨hp, hne⟩, rfl⟩

/-- Every frame number below the limit is a physical address of the platform. -/
theorem page_base_le [PhyAddrWidth] {p : Nat} (h : p < frameLimit) :
    (page p).base + pageSize ≤ maxPhyaddr := by
  have hwidth : 2 ^ 32 ≤ 2 ^ maxPhyaddrWidth :=
    Nat.pow_le_pow_right (by decide) PhyAddrWidth.width_ge
  unfold frameLimit at h
  unfold maxPhyaddr page pageSize
  dsimp only
  omega

/-- The operations keep the contract of page table memories. -/
instance [PhyAddrWidth] : PageTableMemory BumpMemory where
  alloc_ensures mem _ hpages := {
    available := by
      change frameLimit - (mem.next + 1) = frameLimit - mem.next - 1
      omega
    size_eq := rfl
    base_le := by
      apply page_base_le
      change 0 < frameLimit - mem.next at hpages
      omega
    base_aligned := Nat.mul_mod_left _ _
    fresh := by
      rintro ⟨p, hp, heq⟩
      have hlt := mem.live_lt p hp
      rw [← page_injective heq] at hlt
      exact Nat.lt_irrefl _ hlt
    regions_eq := regions_alloc mem
    view_new := Function.update_self _ _ _
    view_other := fun r hne ↦ Function.update_of_ne hne _ _
    cr3_eq := rfl
    physMemRef_eq := rfl
    inv := inv _ }
  dealloc_ensures mem r _ _ := {
    regions_eq := regions_dealloc mem r
    view_other := fun _ _ ↦ rfl
    cr3_eq := rfl
    physMemRef_eq := rfl
    inv := inv _ }
  write_ensures mem idx region value _ _ _ _ := {
    view_eq := Function.update_self _ _ _
    view_other := fun r hne ↦ Function.update_of_ne hne _ _
    regions_eq := rfl
    available := rfl
    cr3_eq := rfl
    physMemRef_eq := rfl }
  read_ensures _ _ _ _ _ _ := rfl

/-- Memory with a zeroed root directory and nothing else. -/
def initial : BumpMemory where
  next := 1
  live p := p == 0
  words _ := List.replicate 512 0#64
  live_lt p h := by
    rw [beq_iff_eq.mp h]
    exact Nat.one_pos

end BumpMemory

end NrKernel.PageTable
